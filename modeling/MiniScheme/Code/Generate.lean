import MiniScheme.Analysis.TailCall
import MiniScheme.Code.Program
import MiniScheme.Emit
import MiniScheme.Expr.Free

/-!
# Generating code

Every procedure body becomes a block of its own, labelled with the number of its lambda or group
member. Creating a closure pushes the values of its free names and captures them. A call in tail
position slides its arguments over the frame of the procedure around it and pushes no return
address.
-/

namespace MiniScheme

/-- What becomes of the value of an expression. -/
inductive Context where
  /-- It stays in the accumulator, and the code goes on. -/
  | value
  /-- It is returned; the frame has this many cells, parameters and temporaries. -/
  | tail (cells : Nat)
  deriving DecidableEq

namespace Context

/-- The context in a frame with more cells. -/
def deeper : Context → Nat → Context
  | value, _ => value
  | tail cells, more => tail (cells + more)

/-- The code that ends an expression whose value is in the accumulator. -/
def leave : Context → Code
  | value => []
  | tail cells => [.ret cells]

/-- The code that drops temporaries after the body they were bound in. A returning body has
dropped them already. -/
def drop : Context → Nat → Code
  | value, 0 => []
  | value, n + 1 => [.pop (n + 1)]
  | tail _, _ => []

end Context

/-- Where the names of the procedure being compiled are found. -/
structure Frame where
  /-- Parameters, the first one on top. -/
  params : List Name
  /-- Temporaries with their slots above the frame pointer, the latest first. -/
  temps : List (Name × Nat)
  /-- Captured names. -/
  captured : List Name
  /-- Members of the group the procedure belongs to, the latest first. -/
  group : List (Name × Label)
  /-- Number of cells above the frame pointer. -/
  height : Nat

namespace Frame

/-- The frame of the main block. -/
def main : Frame :=
  ⟨[], [], [], [], 0⟩

/-- The frame of a procedure when it is entered. -/
def ofProcedure (params captured : List Name) (group : List (Name × Label)) : Frame :=
  ⟨params, [], captured, group, 0⟩

/-- The frame with more cells pushed. -/
def raise (f : Frame) (cells : Nat) : Frame :=
  { f with height := f.height + cells }

/-- The frame in which the next cell pushed is a temporary. -/
def bind (f : Frame) (x : Name) : Frame :=
  { f with temps := (x, f.height) :: f.temps, height := f.height + 1 }

/-- The instruction that loads a name. -/
def reference (f : Frame) (x : Name) : Except Error (Inst Label) :=
  match f.params.idxOf? x with
  | some i => .ok (.refLocal i)
  | none =>
    match f.temps.lookup x with
    | some slot => .ok (.refTemp slot)
    | none =>
      match f.captured.idxOf? x with
      | some i => .ok (.refFree i)
      | none =>
        match Primitive.ofName? x with
        | some p => .ok (.refGlobal p.index)
        | none =>
          match f.group.lookup x with
          | some l => .ok (.refRec l)
          | none => .error (.unbound x)

/-- The code that pushes the values of names. -/
def pushNames (f : Frame) : List Name → Except Error Code
  | [] => .ok []
  | x :: xs => do
    let i ← f.reference x
    let rest ← f.pushNames xs
    return i :: .push :: rest

/-- The code that binds the closures of a group to temporaries, all capturing the same names,
and the frame afterwards. -/
def closeMembers (f : Frame) (captured : List Name) :
    List (Name × Label) → Except Error (Code × Frame)
  | [] => .ok ([], f)
  | (x, l) :: ms => do
    let values ← f.pushNames captured
    let (rest, f') ← closeMembers (f.bind x) captured ms
    return (values ++ [.close captured.length l, .push] ++ rest, f')

end Frame

/-- Computations that emit finished blocks. -/
abbrev Gen := Emit (Label × Code) Error

/-- Names of the members of a group with the labels of their bodies. -/
def groupLabels {β : Type} (ms : List (Member Nat β)) : List (Name × Label) :=
  ms.map fun m => (m.name, ⟨m.tag⟩)

namespace Expr

mutual
/-- The code of an expression in a frame and a context; `calls` lists the tail calls. -/
def gen (calls : List TailCall) (f : Frame) (ctx : Context) : Expr Nat → Gen Code
  | lit v _ => return .const v :: ctx.leave
  | var x _ => do
    let i ← Emit.lift (f.reference x)
    return i :: ctx.leave
  | cond test yes no _ => do
    let test ← gen calls f .value test
    let yes ← gen calls f ctx yes
    let no ← gen calls f ctx no
    match ctx with
    | .value =>
      return test ++ [.test (yes.length + 2)] ++ yes ++ [.jump (no.length + 1)] ++ no
    | .tail _ => return test ++ [.test (yes.length + 1)] ++ yes ++ no
  | lambda params body t => do
    let captured := body.free (params ++ Primitive.names)
    let values ← Emit.lift (f.pushNames captured)
    let code ← gen calls (.ofProcedure params captured []) (.tail params.length) body
    Emit.emit (⟨t⟩, code)
    return values ++ [.close captured.length ⟨t⟩] ++ ctx.leave
  | assign _ _ _ => Emit.fail (.rejected .assign)
  | app func args t =>
    match calls.find? (·.app = t) with
    | some call => do
      let pushed ← genArgs calls f args
      let func ← gen calls (f.raise args.length) .value func
      return pushed ++ func ++ [.shift args.length call.cells, .apply]
    | none => do
      let pushed ← genArgs calls (f.raise 3) args
      let func ← gen calls (f.raise (3 + args.length)) .value func
      return [.frame (pushed.length + func.length + 2)] ++ pushed ++ func ++ [.apply] ++ ctx.leave
  | letIn bindings body _ => do
    let (inits, f') ← genBindings calls f bindings
    let body ← gen calls f' (ctx.deeper bindings.length) body
    return inits ++ body ++ ctx.drop bindings.length
  | letrec _ _ _ => Emit.fail (.rejected .letrec)
  | fix members body _ => do
    let captured := freeMembers (members.map (·.name) ++ Primitive.names) members
    let group := groupLabels members
    genMembers calls captured group.reverse members
    let (closures, f') ← Emit.lift (f.closeMembers captured group)
    let body ← gen calls f' (ctx.deeper members.length) body
    return closures ++ body ++ ctx.drop members.length
  | seq items _ => genSeq calls f ctx items
termination_by structural e => e

/-- The code that pushes the values of arguments, the last one first. -/
def genArgs (calls : List TailCall) (f : Frame) : List (Expr Nat) → Gen Code
  | [] => return []
  | e :: es => do
    let rest ← genArgs calls f es
    let first ← gen calls (f.raise es.length) .value e
    return rest ++ first ++ [.push]
termination_by structural es => es

/-- The code that binds values to temporaries from first to last, and the frame afterwards. Each
value is computed where the names before it are bound already. -/
def genBindings (calls : List TailCall) (f : Frame) : List (Name × Expr Nat) → Gen (Code × Frame)
  | [] => return ([], f)
  | (x, e) :: bs => do
    let first ← gen calls f .value e
    let (rest, f') ← genBindings calls (f.bind x) bs
    return (first ++ [.push] ++ rest, f')
termination_by structural bs => bs

/-- Emits the blocks of the members of a group. -/
def genMembers (calls : List TailCall) (captured : List Name) (group : List (Name × Label)) :
    List (Member Nat (Expr Nat)) → Gen Unit
  | [] => return ()
  | ⟨_, t, params, body⟩ :: ms => do
    let code ← gen calls (.ofProcedure params captured group) (.tail params.length) body
    Emit.emit (⟨t⟩, code)
    genMembers calls captured group ms
termination_by structural ms => ms

/-- The code of the items of a sequence, of which the last gives the value. -/
def genSeq (calls : List TailCall) (f : Frame) (ctx : Context) : List (Expr Nat) → Gen Code
  | [] => Emit.fail .emptySequence
  | [e] => gen calls f ctx e
  | e :: e' :: es => do
    let first ← gen calls f .value e
    let rest ← genSeq calls f ctx (e' :: es)
    return first ++ rest
termination_by structural es => es
end

/-- The main block of a program; the blocks of procedure bodies are emitted. -/
def genMain (calls : List TailCall) (e : Expr Nat) : Gen Code := do
  let code ← gen calls .main .value e
  return code ++ [.halt]

/-- Generates the code of a tagged tree with the given tail calls. -/
def assemble (calls : List TailCall) (e : Expr Nat) : Except Error Assembly :=
  let generated := e.genMain calls
  generated.result.map fun main => ⟨main, Table.ofPairs generated.emitted⟩

end Expr

end MiniScheme

import MiniScheme.Analysis.Escape
import MiniScheme.Code.Generate
import MiniScheme.Expr.Let
import MiniScheme.Expr.Letrec
import MiniScheme.Expr.Printer
import MiniScheme.Expr.Read
import MiniScheme.Expr.Rename
import MiniScheme.Expr.Tag
import MiniScheme.Log
import MiniScheme.Text.Quoted

/-!
# Compiling

Compiling makes all names unique, recovers `let`, turns `letrec` into `fix`, numbers the nodes,
types the tree, finds its tail calls and escaping closures, and generates and links its code.
Each pass reports what it did.
-/

namespace MiniScheme

/-- Computations that report what they do. -/
abbrev Logged := Emit LogMessage Error

/-- Which optional passes are run. -/
structure CompileOptions where
  /-- Turn lambdas that are applied directly into `let`. -/
  recoverLet : Bool
  /-- Type the tree and look for escaping closures. -/
  typecheck : Bool
  deriving DecidableEq

/-- All passes. -/
def CompileOptions.all : CompileOptions :=
  ⟨true, true⟩

/-- What is known about a compiled program. -/
structure Compilation where
  /-- The renamed, normalised and tagged tree. -/
  expr : Expr Nat
  /-- Type of the program, if it was typed. -/
  ty : Option Ty
  /-- Types of all nodes and members. -/
  types : TypeTable
  /-- Calls in tail position. -/
  tailCalls : List TailCall
  /-- Nodes and members with closures for values. -/
  escaping : List Nat
  /-- Linked code. -/
  program : Program

/-! ### Passes with their reports -/

/-- The report of a `letrec` that became a group of procedures. -/
def LogMessage.fixedGroup (names : List Name) : LogMessage :=
  .compilerTrace ("fixing letrec group " ++ Text.quotedList names)

/-- `solve` with a report of the size of the problem. -/
def TypingProblem.solveLogged (problem : TypingProblem) : Logged Typing := do
  Emit.emit (.compilerTrace ("solving " ++ toString problem.judgement.constraints.length ++
    " constraints over " ++ toString problem.drawn ++ " type variables"))
  Emit.lift problem.solve

namespace Expr

/-- `fixLetrec` with a report of every group. -/
def fixLetrecLogged {α : Type} (e : Expr α) : Logged (Expr α) :=
  e.fixLetrec.mapEmitted .fixedGroup

/-- `infer` with a report of the size of the problem. -/
def inferLogged (e : Expr Nat) : Logged Typing := do
  let problem ← Emit.lift (TypingProblem.ofExpr e)
  problem.solveLogged

/-- `assemble` with a report of every finished block. -/
def assembleLogged (calls : List TailCall) (e : Expr Nat) : Logged Assembly :=
  ⟨(e.genMain calls).emitted.map fun (l, code) =>
    .compilerTrace ("compiled block " ++ l.text ++ " (" ++ toString code.length ++
      " instructions)"),
    e.assemble calls⟩

/-! ### The whole way -/

/-- Types of a tagged tree and its escaping closures, or nothing if they are not asked for. -/
def analyse (options : CompileOptions) (e : Expr Nat) :
    Logged (Option Ty × TypeTable × List Nat) :=
  if options.typecheck then do
    let typing ← inferLogged e
    Emit.emit (.compilerDebug ("inferred type: " ++ typing.root.text))
    return (some typing.root, typing.types, e.escaping typing.types)
  else return (none, [], [])

/-- Compiles a tree and reports every pass. -/
def compileLogged (options : CompileOptions) (e : Expr Unit) : Logged Compilation :=
  if e.deeperThan maxDepth then Emit.fail (.tooDeep maxDepth)
  else do
    let renamed := e.rename
    Emit.emit (.compilerDebug ("alphatized: " ++ renamed.text))
    let recovered := if options.recoverLet then renamed.recoverLet else renamed
    let fixed ← recovered.fixLetrecLogged
    let tagged := fixed.tagged
    Emit.emit (.compilerDebug ("normalized: " ++ tagged.text))
    let (ty, types, escaping) ← tagged.analyse options
    let tailCalls := tagged.tailCalls
    let assembly ← tagged.assembleLogged tailCalls
    let program ← Emit.lift assembly.link
    Emit.emit (.compilerDebug (toString tailCalls.length ++ " tail calls, " ++
      toString escaping.length ++ " escaping closures, " ++ toString program.code.size ++
      " instructions"))
    Emit.emit (.compilerTrace ("program:\n" ++ program.listing))
    return ⟨tagged, ty, types, tailCalls, escaping, program⟩

def compile (options : CompileOptions) (e : Expr Unit) : Except Error Compilation :=
  (e.compileLogged options).result

end Expr

/-- Compiles a program text and reports every pass. -/
def compileTextLogged (options : CompileOptions) (source : String) : Logged Compilation := do
  let e ← Emit.lift (Expr.read source)
  e.compileLogged options

def compileText (options : CompileOptions) (source : String) : Except Error Compilation :=
  (compileTextLogged options source).result

end MiniScheme

import MiniScheme.Expr.Basic
import MiniScheme.Expr.Keyword
import MiniScheme.Layout

/-!
# Printing expressions

A tree is printed as a program. In a tagged tree the number of a node follows the node after
`@`.
-/

namespace MiniScheme

/-- Annotations that may show in printed trees. -/
class ShownTag (α : Type) where
  /-- The number to show, if any. -/
  shown : α → Option Nat

instance : ShownTag Unit := ⟨fun _ => none⟩

instance : ShownTag Nat := ⟨some⟩

namespace Keyword

def doc (k : Keyword) : Doc :=
  .text .keyword k.text

end Keyword

namespace Expr

/-- A parenthesised form that is broken, if it has to be, with its parts one column further
in. -/
def formDoc (content : Doc) : Doc :=
  .parens (.group (.nest content))

/-- A list of parameters. -/
def paramsDoc (params : List Name) : Doc :=
  .parens (.joinWith .space (params.map .plain))

/-- A form with a list of bindings, which are broken below each other. -/
def bindingFormDoc (k : Keyword) (bindings : List Doc) (body : Doc) : Doc :=
  formDoc (k.doc ++ .space ++ .parens (.align (.joinWith .line bindings)) ++ .line ++ body)

variable {α : Type} [ShownTag α]

/-- A document followed by the number of its node, if the number shows. -/
def withTag (t : α) (d : Doc) : Doc :=
  match ShownTag.shown t with
  | some n => d ++ .text .tag ("@" ++ toString n)
  | none => d

mutual
/-- The document of a tree. -/
def doc : Expr α → Doc
  | lit v t => withTag t (.text .literal v.text)
  | var x t => withTag t (.plain x)
  | cond test yes no t =>
    withTag t (formDoc
      (Keyword.cond.doc ++ .space ++ doc test ++ .line ++ doc yes ++ .line ++ doc no))
  | lambda params body t =>
    withTag t (formDoc (Keyword.lambda.doc ++ .space ++ paramsDoc params ++ .line ++ doc body))
  | assign x value t =>
    withTag t (formDoc (Keyword.assign.doc ++ .space ++ .plain x ++ .line ++ doc value))
  | app func [] t => withTag t (.parens (doc func))
  | app func (arg :: args) t =>
    withTag t (formDoc (doc func ++ .line ++ .joinWith .line (doc arg :: docList args)))
  | letIn bindings body t =>
    withTag t (bindingFormDoc .letIn (docBindings bindings) (doc body))
  | letrec bindings body t =>
    withTag t (bindingFormDoc .letrec (docBindings bindings) (doc body))
  | fix members body t =>
    withTag t (bindingFormDoc .fix (docMembers members) (doc body))
  | seq items t =>
    withTag t (formDoc (Keyword.sequence.doc ++ .line ++ .joinWith .line (docList items)))
termination_by structural e => e

def docList : List (Expr α) → List Doc
  | [] => []
  | e :: es => doc e :: docList es
termination_by structural es => es

/-- The documents of bindings, each on one line if it fits. -/
def docBindings : List (Name × Expr α) → List Doc
  | [] => []
  | (x, e) :: bs => .parens (.group (.plain x ++ .space ++ doc e)) :: docBindings bs
termination_by structural bs => bs

/-- The documents of the members of a group. -/
def docMembers : List (Member α (Expr α)) → List Doc
  | [] => []
  | ⟨x, _, params, body⟩ :: ms =>
    formDoc (.plain x ++ .space ++ paramsDoc params ++ .line ++ doc body) :: docMembers ms
termination_by structural ms => ms
end

/-- A tree as program text. -/
def text (e : Expr α) : String :=
  e.doc.render

/-- A tree as program text with terminal colours. -/
def colouredText (e : Expr α) : String :=
  e.doc.renderColoured

end Expr

end MiniScheme

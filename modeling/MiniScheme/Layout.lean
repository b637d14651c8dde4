import MiniScheme.Text.Width

/-!
# Laying out text

A document is text with places where a line may end. Laying it out turns every such place into a
space or into a line break with indentation, group by group: a group stays on one line if it and
what follows it up to the next possible break fit into the page width.
-/

namespace MiniScheme

/-- How a piece of text is coloured on a terminal. -/
inductive Style where
  | plain
  | keyword
  | literal
  | tag
  deriving DecidableEq

inductive Doc where
  | empty
  | text (style : Style) (content : String)
  | line
  | append (first second : Doc)
  | nest (content : Doc)
  | align (content : Doc)
  | group (content : Doc)

/-- A piece of laid out text: styled text, or a line break with the indentation after it. -/
inductive Piece where
  | text (style : Style) (content : String)
  | newline (indent : Nat)
  deriving DecidableEq

namespace Doc

instance : Append Doc := ⟨append⟩

/-- Text without a colour. -/
def plain (s : String) : Doc :=
  text .plain s

/-- A space at which no line ends. -/
def space : Doc :=
  plain " "

/-- A document between parentheses. -/
def parens (d : Doc) : Doc :=
  plain "(" ++ d ++ plain ")"

/-- Documents one after another with a separator between them. -/
def joinWith (separator : Doc) : List Doc → Doc
  | [] => empty
  | [d] => d
  | d :: ds => d ++ separator ++ joinWith separator ds

/-! ### Fitting -/

/-- Columns of a line. -/
def pageWidth : Nat := 70

/-- Whether a document that starts in a column fits on the line, `rest` deciding about what
follows it. On one line (`flat`) a possible break takes one column; otherwise the first one ends
the line, and all up to it has fitted. -/
def fits : Doc → (flat : Bool) → (rest : Nat → Bool) → (column : Nat) → Bool
  | empty, _, rest, column => rest column
  | text _ s, _, rest, column =>
    column + Text.width s ≤ pageWidth && rest (column + Text.width s)
  | line, true, rest, column => column + 1 ≤ pageWidth && rest (column + 1)
  | line, false, _, _ => true
  | append a b, flat, rest, column => fits a flat (fits b flat rest) column
  | nest d, flat, rest, column => fits d flat rest column
  | align d, flat, rest, column => fits d flat rest column
  | group d, flat, rest, column => fits d flat rest column

/-! ### Layout -/

/-- Whether a document has no text and no possible break. -/
def isEmpty : Doc → Bool
  | empty => true
  | text _ s => s == ""
  | line => false
  | append a b => isEmpty a && isEmpty b
  | nest d => isEmpty d
  | align d => isEmpty d
  | group d => isEmpty d

/-- Lays out a document from a column on and gives the column it ends in. `indent` is the
indentation of the document, `next` that of what follows it, if anything does, and `rest` decides
whether what follows fits. A line break is indented for what follows it, so that at the end of a
nested document it falls back to the indentation around the document. -/
def layout : Doc → (indent : Nat) → (next : Option Nat) → (flat : Bool) → (rest : Nat → Bool) →
    (column : Nat) → List Piece × Nat
  | empty, _, _, _, _, column => ([], column)
  | text style s, _, _, _, _, column => ([.text style s], column + Text.width s)
  | line, _, _, true, _, column => ([.text .plain " "], column + 1)
  | line, indent, next, false, _, _ => ([.newline (next.getD indent)], next.getD indent)
  | append a b, indent, next, flat, rest, column =>
    let afterFirst := if b.isEmpty then next else some indent
    let first := layout a indent afterFirst flat (fits b false rest) column
    let second := layout b indent next flat rest first.2
    (first.1 ++ second.1, second.2)
  | nest d, indent, next, flat, rest, column => layout d (indent + 1) next flat rest column
  | align d, _, next, flat, rest, column => layout d column next flat rest column
  | group d, indent, next, flat, rest, column =>
    layout d indent next (flat || fits d true rest column) rest column

/-- The pieces of a whole document, laid out from the first column. -/
def pieces (d : Doc) : List Piece :=
  (layout d 0 none false (fun _ => true) 0).1

end Doc

/-! ### Writing pieces -/

/-- A piece without its colour. -/
def Piece.plainText : Piece → String
  | .text _ s => s
  | .newline n => "\n" ++ String.ofList (List.replicate n ' ')

/-- Terminal codes that switch a style on. Each starts by switching all others off. -/
def Style.startCode : Style → String
  | .plain => ""
  | .keyword => "\x1b[0m\x1b[1m\x1b[32m"
  | .literal => "\x1b[0m\x1b[36m"
  | .tag => "\x1b[0m\x1b[33m"

/-- A piece with its colour switched on before it and off after it. -/
def Piece.colouredText : Piece → String
  | .text .plain s => s
  | .text style s => style.startCode ++ s ++ "\x1b[0m"
  | .newline n => "\n" ++ String.ofList (List.replicate n ' ')

namespace Doc

/-- A document as laid out text. -/
def render (d : Doc) : String :=
  String.join (d.pieces.map Piece.plainText)

/-- A document as laid out text with terminal colours. -/
def renderColoured (d : Doc) : String :=
  String.join (d.pieces.map Piece.colouredText)

end Doc

end MiniScheme

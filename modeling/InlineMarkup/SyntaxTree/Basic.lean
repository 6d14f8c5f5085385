import InlineMarkup.SyntaxTree.Kind

/-! Syntax trees: every piece of the text in its place, and a node for each construct. -/

namespace InlineMarkup

inductive SyntaxTree
  | token (kind : SyntaxKind) (raw : List Char)
  | node (kind : SyntaxKind) (children : List SyntaxTree)
deriving Repr

namespace SyntaxTree

/-- One node or token of a tree as it is listed: how deep it lies, what it is, where it starts
and ends, and the text of a token. -/
structure Row where
  depth : Nat
  kind : SyntaxKind
  start : Nat
  stop : Nat
  raw : Option (List Char)
deriving DecidableEq, Repr

mutual

/-- Adds the leaves of a tree after those in `out`. -/
def addLeaves (out : Array (SyntaxKind × List Char)) :
    SyntaxTree → Array (SyntaxKind × List Char)
  | token kind raw => out.push (kind, raw)
  | node _ children => addAllLeaves out children

def addAllLeaves (out : Array (SyntaxKind × List Char)) :
    List SyntaxTree → Array (SyntaxKind × List Char)
  | [] => out
  | tree :: trees => addAllLeaves (addLeaves out tree) trees

end

/-- The tokens of a tree in the order of the text. -/
def leaves (tree : SyntaxTree) : List (SyntaxKind × List Char) := (addLeaves #[] tree).toList

/-- The text that a tree covers. -/
def text (tree : SyntaxTree) : List Char := tree.leaves.flatMap (·.2)

mutual

/-- Adds the rows of a tree at byte `start`, `depth` levels deep. -/
def addRows (depth start : Nat) (out : Array Row) : SyntaxTree → Array Row
  | token kind raw => out.push ⟨depth, kind, start, start + byteSize raw, some raw⟩
  | node kind children =>
    addAllRows (depth + 1) start
      (out.push ⟨depth, kind, start, start + byteSize (text (node kind children)), none⟩) children

def addAllRows (depth start : Nat) (out : Array Row) : List SyntaxTree → Array Row
  | [] => out
  | tree :: trees =>
    addAllRows depth (start + byteSize tree.text) (addRows depth start out tree) trees

end

/-- The nodes and tokens of a tree, each before what is below it. -/
def rows (tree : SyntaxTree) : List Row := (addRows 0 0 #[] tree).toList

end SyntaxTree

end InlineMarkup

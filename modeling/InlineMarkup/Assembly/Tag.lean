import InlineMarkup.SyntaxTree.Kind

/-! Tags: what a delimiter may open and another one close. -/

namespace InlineMarkup

inductive Tag
  | styled (style : Style)
  | link | image
deriving DecidableEq, Repr

namespace Tag

/-- Whether one delimiter both opens and closes the tag. -/
def isSymmetric : Tag → Bool
  | styled _ => true
  | link | image => false

/-- The node that the tag makes in a document. -/
def nodeKind : Tag → NodeKind
  | styled style => .styled style
  | link => .link
  | image => .image

/-- The node that the tag makes in a syntax tree. -/
def syntaxKind : Tag → SyntaxKind
  | styled style => .styled style
  | link => .link
  | image => .image

def name (tag : Tag) : String := tag.nodeKind.name

end Tag

end InlineMarkup

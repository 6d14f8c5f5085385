import InlineMarkup.Document.Node
import InlineMarkup.Token

/-! The kinds of tokens and nodes in a syntax tree, which share one numbering. -/

namespace InlineMarkup

inductive SyntaxKind
  | token (kind : TokenKind)
  | root
  | styled (style : Style)
  | link | image
deriving DecidableEq, Repr

namespace SyntaxKind

/-- The kinds in the order of their numbers: tokens before nodes. -/
def all : List SyntaxKind :=
  [token .bold, token .italic, token .strikethrough, token .underline, token .codeInline,
    token .codeBlock, token .escape, token .linkStart, token .address, token .bareUrl,
    token .imageStart, token .text, root, styled .bold, styled .italic, styled .underline,
    styled .strikethrough, link, image]

def number (kind : SyntaxKind) : Nat := all.idxOf kind

def ofNumber? (number : Nat) : Option SyntaxKind := all[number]?

theorem ofNumber?_number (kind : SyntaxKind) : ofNumber? kind.number = some kind := by
  rcases kind with (_ | _) | _ | (_ | _) | _ | _ <;> rfl

def isToken : SyntaxKind → Bool
  | token _ => true
  | _ => false

def isNode (kind : SyntaxKind) : Bool := !kind.isToken

def name : SyntaxKind → String
  | token .bold => "BOLD_DELIM"
  | token .italic => "ITALIC_DELIM"
  | token .strikethrough => "STRIKE_DELIM"
  | token .underline => "UNDERLINE_DELIM"
  | token .codeInline => "CODE_INLINE"
  | token .codeBlock => "CODE_BLOCK"
  | token .escape => "ESCAPE"
  | token .linkStart => "LINK_TEXT_START"
  | token .address => "LINK_ADDRESS"
  | token .bareUrl => "PLAIN_URL"
  | token .imageStart => "IMAGE_TEXT_START"
  | token .text => "TEXT"
  | root => "ROOT"
  | styled .bold => "BOLD"
  | styled .italic => "ITALIC"
  | styled .underline => "UNDERLINE"
  | styled .strikethrough => "STRIKETHROUGH"
  | link => "LINK"
  | image => "IMAGE"

def ofName? (name : String) : Option SyntaxKind := all.find? (·.name == name)

end SyntaxKind

end InlineMarkup

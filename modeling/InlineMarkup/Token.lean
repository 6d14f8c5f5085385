import InlineMarkup.Text.Bytes

/-! Tokens: the pieces that a text is cut into. -/

namespace InlineMarkup

/-- What a token is. -/
inductive TokenKind
  /-- A pair of stars. -/
  | bold
  /-- A single star. -/
  | italic
  /-- A pair of tildes. -/
  | strikethrough
  /-- A code span with its fences, of fewer than three backticks each. -/
  | codeInline
  /-- A code block with its fence of three or more backticks; the closing fence may be absent. -/
  | codeBlock
  /-- A backslash and the scalar value after it. -/
  | escape
  /-- An underscore at the edge of a word. -/
  | underline
  /-- The bracket that opens the text of a link. -/
  | linkStart
  /-- The bracket that closes the text of a link or image, with the address. -/
  | address
  /-- An address of the web that stands in the text as it is. -/
  | bareUrl
  /-- The mark and bracket that open the text of an image. -/
  | imageStart
  /-- Anything else. -/
  | text
deriving DecidableEq, Repr

namespace TokenKind

def all : List TokenKind :=
  [bold, italic, strikethrough, codeInline, codeBlock, escape, underline, linkStart, address,
    bareUrl, imageStart, text]

/-- The name under which logs and callers know the kind. -/
def name : TokenKind → String
  | bold => "Bold"
  | italic => "Italic"
  | strikethrough => "Strikethrough"
  | codeInline => "CodeInline"
  | codeBlock => "CodeBlock"
  | escape => "EscapeSequence"
  | underline => "Underline"
  | linkStart => "LinkTextStart"
  | address => "LinkAddress"
  | bareUrl => "PlainURL"
  | imageStart => "ImageTextStart"
  | text => "Text"

def ofName? (name : String) : Option TokenKind := all.find? (·.name == name)

/-- Whether tokens of the kind open or close a container. -/
def isDelimiter : TokenKind → Bool
  | bold | italic | strikethrough | underline | linkStart | imageStart | address => true
  | codeInline | codeBlock | escape | bareUrl | text => false

end TokenKind

/-- A piece of a text: what it is, the byte where it starts and the text itself. -/
structure Token where
  kind : TokenKind
  pos : Nat
  raw : List Char
deriving DecidableEq, Repr

namespace Token

def byteLen (token : Token) : Nat := byteSize token.raw

/-- The byte after the last one of the token. -/
def stop (token : Token) : Nat := token.pos + token.byteLen

/-- The token that covers `len` bytes of `text` from byte `pos` on. -/
def cut? (kind : TokenKind) (text : List Char) (pos len : Nat) : Option Token :=
  (slice? text pos len).map (⟨kind, pos, ·⟩)

/-- Sets pieces one after the other, the first one at byte `pos`. -/
def placeFrom (pos : Nat) : List (TokenKind × List Char) → List Token
  | [] => []
  | (kind, raw) :: pieces => ⟨kind, pos, raw⟩ :: placeFrom (pos + byteSize raw) pieces

end Token

end InlineMarkup

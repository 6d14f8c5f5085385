import InlineMarkup.Token

/-! Warnings: what is wrong with a construct and where. -/

namespace InlineMarkup

/-- What can be wrong with a construct. -/
inductive Issue
  | unclosedTag | misNestedTag | redundantEscape | malformedLink | malformedCodeSequence
  | unexpectedEndOfInput | unexpectedSymbol
deriving DecidableEq, Repr

namespace Issue

def all : List Issue :=
  [unclosedTag, misNestedTag, redundantEscape, malformedLink, malformedCodeSequence,
    unexpectedEndOfInput, unexpectedSymbol]

/-- The name under which callers know the issue. -/
def name : Issue → String
  | unclosedTag => "UnclosedTag"
  | misNestedTag => "MisNestedTag"
  | redundantEscape => "RedundantEscape"
  | malformedLink => "MalformedLink"
  | malformedCodeSequence => "MalformedCodeSequence"
  | unexpectedEndOfInput => "UnexpectedEndOfInput"
  | unexpectedSymbol => "UnexpectedSymbol"

def ofName? (name : String) : Option Issue := all.find? (·.name == name)

/-- The issue in words. -/
def phrase : Issue → String
  | unclosedTag => "unclosed tag"
  | misNestedTag => "mis-nested tag"
  | redundantEscape => "redundant escape"
  | malformedLink => "malformed link"
  | malformedCodeSequence => "malformed code sequence"
  | unexpectedEndOfInput => "unexpected end of input"
  | unexpectedSymbol => "unexpected symbol"

end Issue

/-- A recoverable problem at a byte of the text. -/
structure Warning where
  /-- The kind of token that the text seemed to call for. -/
  relatedKind : TokenKind
  byteIndex : Nat
  /-- The text from the byte on, up to sixteen scalar values. -/
  near : Option (List Char)
  issue : Issue
  description : String
  suggestion : Option String
deriving DecidableEq, Repr

namespace Warning

/-- The scalar values that a warning shows of the text. -/
def snippetLength : Nat := 16

/-- The beginning of `rest` as a warning shows it. -/
def snippet? (rest : List Char) : Option (List Char) :=
  if rest.isEmpty then none else some (rest.take snippetLength)

/-- A warning at byte `index` of `text`. Nothing is shown of the text if the index is no
boundary in it or its end. -/
def inText (kind : TokenKind) (issue : Issue) (text : List Char) (index : Nat)
    (description : String) (suggestion : Option String) : Warning :=
  ⟨kind, index, (dropBytes? index text).bind snippet?, issue, description, suggestion⟩

/-- A warning at byte `index`, where `rest` stands. -/
def before (kind : TokenKind) (issue : Issue) (index : Nat) (rest : List Char)
    (description : String) (suggestion : Option String) : Warning :=
  ⟨kind, index, snippet? rest, issue, description, suggestion⟩

/-- The issue, the place and the description in one line. -/
def message (warning : Warning) : String :=
  s!"{warning.issue.phrase} at byte {warning.byteIndex}: {warning.description}"

end Warning

end InlineMarkup

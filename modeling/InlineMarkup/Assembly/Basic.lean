import InlineMarkup.Assembly.Tag
import InlineMarkup.Assembly.Trace
import InlineMarkup.Document.Tree
import InlineMarkup.Reading.Address

/-! Assembly: tokens become a document and the events of a syntax tree, in one pass. Whatever
does not match is text. -/

namespace InlineMarkup

/-- A tag that waits to be closed: its node and the node above it, the markup that opened it,
and the mark of its start. -/
structure OpenTag where
  tag : Tag
  node : NodeId
  parent : NodeId
  delimiter : List Char
  marker : Marker
deriving DecidableEq, Repr

/-- A delimiter that became text. -/
inductive Recovery
  /-- It came where no more tags may be open. -/
  | nestingLimit (tag : Tag) (pos : Nat)
  /-- It opened a tag that was never closed. -/
  | demoted (tag : Tag) (delimiter : List Char)
deriving DecidableEq, Repr

structure Assembly where
  document : Document := .empty
  /-- The tags that wait to be closed, the innermost one first. -/
  openTags : List OpenTag := []
  trace : Trace := {}
  recoveries : Array Recovery := #[]
deriving DecidableEq, Repr

/-- Whether assembly can tell what the token stands for: an escape needs a backslash, or another
scalar value of one byte, before what it escapes. -/
def Token.isReadable (token : Token) : Bool :=
  token.kind != .escape || token.raw.head?.any (·.utf8Size == 1)

namespace Assembly

/-- The number of tags that may be open at once. -/
def maxDepth : Nat := 128

variable (assembly : Assembly)

/-- The node that takes what comes next. -/
def current : NodeId := (assembly.openTags.head?.map (·.node)).getD Document.rootId

/-- Records the token among the events. -/
def record (token : Token) : Assembly :=
  { assembly with trace := assembly.trace.push (.token (.token token.kind)) }

/-- A token that stands for text. -/
def addText (token : Token) (content : List Char) : Assembly :=
  { assembly with document := assembly.document.pushText assembly.current content }.record token

def addCode (token : Token) : Assembly :=
  let (fence, content) := Backtick.parts token.raw
  let (document, _) := assembly.document.add assembly.current (.code fence content)
  { assembly with document }.record token

/-- An address that stands alone is a link whose text is the address. -/
def addBareUrl (token : Token) : Assembly :=
  let (document, link) := assembly.document.addLink assembly.current token.raw
  let (document, _) := document.addText link token.raw
  { assembly with document }.record token

def openTag (tag : Tag) (token : Token) : Assembly :=
  if maxDepth ≤ assembly.openTags.length then
    { assembly with
      recoveries := assembly.recoveries.push (.nestingLimit tag token.pos) }.addText token token.raw
  else
    let parent := assembly.current
    let (document, node) := assembly.document.addEmpty parent tag.nodeKind
    let (trace, marker) := assembly.trace.mark
    { assembly with
      document, trace
      openTags := ⟨tag, node, parent, token.raw, marker⟩ :: assembly.openTags }.record token

/-- Makes text of the delimiter that opened a tag. What the tag holds stays in its place. -/
def demote (opened : OpenTag) : Assembly :=
  { assembly with
    document := assembly.document.unwrapIntoText opened.parent opened.node opened.delimiter
    trace := assembly.trace.abandon opened.marker
    recoveries := assembly.recoveries.push (.demoted opened.tag opened.delimiter) }

/-- Gives a link or image the address that closes it. -/
def setUrl (opened : OpenTag) (token : Token) : Assembly :=
  if opened.tag.isSymmetric then assembly
  else
    { assembly with
      document := assembly.document.setUrl opened.node (Reading.addressOf token.raw) }

/-- Closes a tag that has just been taken from the open ones. -/
def finish (opened : OpenTag) (token : Token) : Assembly :=
  let assembly := (assembly.setUrl opened token).record token
  { assembly with trace := assembly.trace.complete opened.marker opened.tag.syntaxKind }

/-- Whether a tag of which `p` holds is open. -/
def isOpen (p : Tag → Bool) : Bool := assembly.openTags.any (p ·.tag)

/-- Closes the innermost open tag of which `p` holds. The tags inside it were never closed. -/
def closeNearest (p : Tag → Bool) (token : Token) : Assembly :=
  let above := assembly.openTags.takeWhile (!p ·.tag)
  match assembly.openTags.dropWhile (!p ·.tag) with
  | [] => assembly
  | opened :: openTags => (above.foldl demote { assembly with openTags }).finish opened token

/-- A delimiter that closes its tag where that is open, and opens it elsewhere. -/
def toggle (style : Style) (token : Token) : Assembly :=
  if assembly.isOpen (· == .styled style) then
    assembly.closeNearest (· == .styled style) token
  else assembly.openTag (.styled style) token

/-- An address closes the nearest link or image. Where there is none it is text. -/
def closeLink (token : Token) : Assembly :=
  if assembly.isOpen (!·.isSymmetric) then assembly.closeNearest (!·.isSymmetric) token
  else assembly.addText token token.raw

def step (token : Token) : Assembly :=
  match token.kind with
  | .text => assembly.addText token token.raw
  | .escape => assembly.addText token (token.raw.drop 1)
  | .codeInline | .codeBlock => assembly.addCode token
  | .bareUrl => assembly.addBareUrl token
  | .linkStart => assembly.openTag .link token
  | .imageStart => assembly.openTag .image token
  | .address => assembly.closeLink token
  | .bold => assembly.toggle .bold token
  | .italic => assembly.toggle .italic token
  | .underline => assembly.toggle .underline token
  | .strikethrough => assembly.toggle .strikethrough token

/-- Demotes the tags that are still open when the tokens end. -/
def demoteAll : Assembly := assembly.openTags.foldl demote { assembly with openTags := [] }

/-- Takes in all tokens, as the children of one root. -/
def run (tokens : List Token) : Assembly :=
  let assembly := { assembly with trace := assembly.trace.push (.start .root) }
  let assembly := (tokens.foldl step assembly).demoteAll
  { assembly with
    document := assembly.document.compact
    trace := assembly.trace.push .finish }

end Assembly

/-- The document and the events that tokens make. -/
def assemble (tokens : List Token) : Assembly := Assembly.run {} tokens

end InlineMarkup

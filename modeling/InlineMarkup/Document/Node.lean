/-! Nodes of a document. A node names its children by their place in the document. -/

namespace InlineMarkup

/-- The ways in which a stretch of text may be set off. -/
inductive Style
  | bold | italic | underline | strikethrough
deriving DecidableEq, Repr

namespace Style

def all : List Style := [bold, italic, underline, strikethrough]

/-- The markup on either side of the stretch. -/
def delimiter : Style → List Char
  | bold => ['*', '*']
  | italic => ['*']
  | underline => ['_']
  | strikethrough => ['~', '~']

def name : Style → String
  | bold => "Bold"
  | italic => "Italic"
  | underline => "Underline"
  | strikethrough => "Strikethrough"

end Style

/-- The place of a node in its document. -/
abbrev NodeId := Nat

inductive Node
  | root (children : Array NodeId)
  | styled (style : Style) (children : Array NodeId)
  /-- Code between two fences of `fence` backticks. -/
  | code (fence : Nat) (content : List Char)
  | link (url : List Char) (children : Array NodeId)
  /-- An image has neither address nor children but those of the link that it wraps. -/
  | image (link : NodeId)
  | text (content : List Char)
deriving DecidableEq, Repr

inductive NodeKind
  | root
  | styled (style : Style)
  | code | link | image | text
deriving DecidableEq, Repr

namespace NodeKind

def all : List NodeKind := root :: Style.all.map styled ++ [code, link, image, text]

def name : NodeKind → String
  | root => "Root"
  | styled style => style.name
  | code => "Code"
  | link => "Link"
  | image => "Image"
  | text => "Text"

def ofName? (name : String) : Option NodeKind := all.find? (·.name == name)

/-- The markup that opens and closes nodes of the kind, where it is always the same. -/
def tagPair? : NodeKind → Option (List Char × List Char)
  | styled style => some (style.delimiter, style.delimiter)
  | _ => none

end NodeKind

namespace Node

def kind : Node → NodeKind
  | root _ => .root
  | styled style _ => .styled style
  | code _ _ => .code
  | link _ _ => .link
  | image _ => .image
  | text _ => .text

/-- The children that the node itself holds. -/
def children : Node → Array NodeId
  | root children | styled _ children | link _ children => children
  | code _ _ | image _ | text _ => #[]

/-- Changes the children that the node itself holds. -/
def mapChildren (f : Array NodeId → Array NodeId) : Node → Node
  | root children => root (f children)
  | styled style children => styled style (f children)
  | link url children => link url (f children)
  | leaf => leaf

/-- Gives a link another address. -/
def withUrl (url : List Char) : Node → Node
  | link _ children => link url children
  | other => other

/-- Makes a text longer. -/
def extendText (more : List Char) : Node → Node
  | text content => text (content ++ more)
  | other => other

/-- What a reader sees of the node itself. -/
def visible : Node → List Char
  | text content | code _ content => content
  | root _ | styled _ _ | link _ _ | image _ => []

end Node

end InlineMarkup

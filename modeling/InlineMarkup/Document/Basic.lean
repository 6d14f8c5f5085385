import InlineMarkup.Document.Node

/-! Documents: nodes in the order in which they were made, the root first. -/

namespace InlineMarkup

structure Document where
  nodes : Array Node
deriving DecidableEq, Repr

namespace Document

/-- The document that holds nothing but its root. -/
def empty : Document := ⟨#[.root #[]]⟩

def rootId : NodeId := 0

variable (doc : Document)

def size : Nat := doc.nodes.size

def node? (id : NodeId) : Option Node := doc.nodes[id]?

def isText (id : NodeId) : Bool := (doc.node? id).any (·.kind == .text)

/-- Follows images to what they wrap, at most `levels` of them. -/
def hostWithin : Nat → NodeId → NodeId
  | 0, id => id
  | levels + 1, id =>
    match doc.node? id with
    | some (.image link) => hostWithin levels link
    | _ => id

/-- The node that holds the children of `id`: for an image what it wraps, else `id` itself. -/
def host (id : NodeId) : NodeId := doc.hostWithin doc.size id

def children (id : NodeId) : Array NodeId := ((doc.node? (doc.host id)).map Node.children).getD #[]

/-- The address of a link or image. -/
def url? (id : NodeId) : Option (List Char) :=
  match doc.node? (doc.host id) with
  | some (.link url _) => some url
  | _ => none

/-- Visits `id` and everything below it, `levels` levels deep. `seen` holds the nodes visited
before, last one first. -/
def visit : Nat → List NodeId → NodeId → List NodeId
  | 0, seen, _ => seen
  | levels + 1, seen, id => (doc.children id).foldl (visit levels) (id :: seen)

/-- The node and all below it, each before its children. What an image wraps does not appear
beside the image. A path without a cycle has no more nodes than the document, which bounds the
walk. -/
def descendants (id : NodeId) : List NodeId := (doc.visit doc.size [] id).reverse

/-- What a reader sees of a node. -/
def displayText (id : NodeId) : List Char :=
  (doc.descendants id).flatMap fun node => ((doc.node? node).map Node.visible).getD []

/-- The address of a link or image, and what a reader sees of any other node. -/
def value (id : NodeId) : List Char := (doc.url? id).getD (doc.displayText id)

/-- The number of scalar values that a reader sees of a node. -/
def textLength (id : NodeId) : Nat := (doc.displayText id).length

end Document

end InlineMarkup

import InlineMarkup.Document.Markdown
import InlineMarkup.Document.Tree

/-! Walks: a document is visited, written or copied with a list of what is still to be done instead of
by recursion, since the depth of its nodes is in the hands of whoever writes the text. Where the way
down leads back to itself a walk never ends, so it is told how many steps it may take. There is no
result if they do not suffice, or if a node is missing. -/

namespace InlineMarkup

/-- Takes steps from `state` on until one of them gives the result, `steps` of them at most. -/
def runWithin {State Result : Type} (step : State → Option (State ⊕ Result)) :
    Nat → State → Option Result
  | 0, _ => none
  | steps + 1, state => do
    match ← step state with
    | .inl next => runWithin step steps next
    | .inr result => some result

namespace Document

variable (doc : Document)

/-- The children of a node, if it is there and, for an image, what it wraps. -/
def children? (id : NodeId) : Option (List NodeId) :=
  (doc.node? (doc.host id)).map (·.children.toList)

/-- Visits the first of the nodes that are pending. The other ones are those visited before, last one
first. -/
def visitStep : List NodeId × List NodeId → Option ((List NodeId × List NodeId) ⊕ List NodeId)
  | (seen, []) => some (.inr seen.reverse)
  | (seen, id :: pending) => do
    let children ← doc.children? id
    return .inl (id :: seen, children ++ pending)

/-- The nodes that a walk from `id` visits. -/
def walk? (steps : Nat) (id : NodeId) : Option (List NodeId) :=
  runWithin doc.visitStep steps ([], [id])

/-- What a reader sees on a walk from `id`. -/
def walkText? (steps : Nat) (id : NodeId) : Option (List Char) :=
  (doc.walk? steps id).map fun ids =>
    ids.flatMap fun node => ((doc.node? node).map Node.visible).getD []

/-- The number of scalar values that a reader sees on a walk from `id`. -/
def walkLength? (steps : Nat) (id : NodeId) : Option Nat := (doc.walkText? steps id).map List.length

/-- A piece of markdown that is still to be written: all of a node, or markup as it stands. -/
inductive Emit
  | node (id : NodeId)
  | markup (text : List Char)
deriving DecidableEq, Repr

/-- What is written for a node at once, and what is still to be written then. -/
def emit (id : NodeId) : Node → List Char × List Emit
  | .text content => (Markdown.escape content, [])
  | .code fence content => (Markdown.fenced fence content, [])
  | .link url children =>
    (['['], children.toList.map .node ++ [.markup [']', '('], .markup url, .markup [')']])
  | .image link => (['!'], [.node link])
  | node =>
    let (opener, closer) := node.kind.tagPair?.getD ([], [])
    (opener, (doc.children id).toList.map .node ++ [.markup closer])

/-- Writes the first of the pieces that are pending, behind what is written before, backwards. -/
def writeStep : List Char × List Emit → Option ((List Char × List Emit) ⊕ List Char)
  | (out, []) => some (.inr out.reverse)
  | (out, .markup text :: pending) => some (.inl (text.reverseAux out, pending))
  | (out, .node id :: pending) => do
    let (text, more) := doc.emit id (← doc.node? id)
    return .inl (text.reverseAux out, more ++ pending)

/-- The markdown that a walk from `id` writes. -/
def walkMarkdown? (steps : Nat) (id : NodeId) : Option (List Char) :=
  runWithin doc.writeStep steps ([], [.node id])

/-- Copies a node alone, without its children, under `parent` of `copy`. -/
def copyNode (copy : Document) (parent : NodeId) : Node → Document × NodeId
  | .link url _ => copy.addLink parent url
  | .image link => copy.addImage parent ((doc.url? link).getD [])
  | .code fence content => copy.add parent (.code fence content)
  | .text content => copy.addText parent content
  | node => copy.addEmpty parent node.kind

/-- Copies the first of the nodes that are pending, under the node of the copy that is given with it. -/
def copyStep : Document × List (NodeId × NodeId) →
    Option ((Document × List (NodeId × NodeId)) ⊕ Document)
  | (copy, []) => some (.inr copy)
  | (copy, (id, parent) :: pending) => do
    let (copy, place) := doc.copyNode copy parent (← doc.node? id)
    let children ← doc.children? id
    return .inl (copy, children.map (·, place) ++ pending)

/-- The document that a walk from the root copies. -/
def walkCopy? (steps : Nat) : Option Document := do
  let children ← doc.children? rootId
  runWithin doc.copyStep steps (empty, children.map (·, rootId))

end Document

end InlineMarkup

import InlineMarkup.Document.Build

/-! Trees: what a document says, without the places at which it keeps its nodes. -/

namespace InlineMarkup

inductive Tree
  | root (children : List Tree)
  | styled (style : Style) (children : List Tree)
  | code (fence : Nat) (content : List Char)
  | link (url : List Char) (children : List Tree)
  | image (url : List Char) (children : List Tree)
  | text (content : List Char)
deriving Repr

namespace Tree

def children : Tree → List Tree
  | root children | styled _ children | link _ children | image _ children => children
  | code _ _ | text _ => []

end Tree

namespace Document

/-- The tree below `id`, `levels` levels deep. -/
def treeWithin (doc : Document) : Nat → NodeId → Tree
  | 0, _ => .text []
  | levels + 1, id =>
    let children := (doc.children id).toList.map (treeWithin doc levels)
    match doc.node? id with
    | some (.root _) => .root children
    | some (.styled style _) => .styled style children
    | some (.code fence content) => .code fence content
    | some (.link url _) => .link url children
    | some (.image _) => .image ((doc.url? id).getD []) children
    | some (.text content) => .text content
    | none => .text []

def tree (doc : Document) (id : NodeId) : Tree := doc.treeWithin doc.size id

mutual

/-- Adds a tree under `parent`, each node before its children. -/
def addTree (doc : Document) (parent : NodeId) : Tree → Document
  | .root children =>
    let (doc, id) := doc.addEmpty parent .root
    doc.addTrees id children
  | .styled style children =>
    let (doc, id) := doc.addEmpty parent (.styled style)
    doc.addTrees id children
  | .code fence content => (doc.add parent (.code fence content)).1
  | .link url children =>
    let (doc, id) := doc.addLink parent url
    doc.addTrees id children
  | .image url children =>
    let (doc, id) := doc.addImage parent url
    doc.addTrees id children
  | .text content => (doc.addText parent content).1

def addTrees (doc : Document) (parent : NodeId) : List Tree → Document
  | [] => doc
  | tree :: trees => (doc.addTree parent tree).addTrees parent trees

end

/-- The document whose root holds `trees`, with its nodes in the order of the text. -/
def ofTrees (trees : List Tree) : Document := empty.addTrees rootId trees

/-- The same document without nodes that hang nowhere, its nodes in the order of the text. -/
def compact (doc : Document) : Document := ofTrees (doc.tree rootId).children

end Document

end InlineMarkup

import InlineMarkup.Backtick
import InlineMarkup.Document.Basic

/-! Building a document node by node, and taking a container apart again. -/

namespace InlineMarkup.Document

variable (doc : Document)

/-- Changes one node, if it is there. -/
def modify (id : NodeId) (f : Node → Node) : Document := ⟨doc.nodes.modify id f⟩

/-- Stores a node that hangs nowhere yet. -/
def store (node : Node) : Document × NodeId :=
  let id := doc.size
  (⟨doc.nodes.push node⟩, id)

/-- Hangs `child` under `parent` as the last child. A leaf takes no children. -/
def append (parent child : NodeId) : Document :=
  doc.modify (doc.host parent) (.mapChildren (·.push child))

/-- Stores a node and hangs it under `parent`. -/
def add (parent : NodeId) (node : Node) : Document × NodeId :=
  let (doc, id) := doc.store node
  (doc.append parent id, id)

def addText (parent : NodeId) (content : List Char) : Document × NodeId :=
  doc.add parent (.text content)

def addLink (parent : NodeId) (url : List Char) : Document × NodeId :=
  doc.add parent (.link url #[])

/-- An image with the link that it wraps, which is made first. -/
def addImage (parent : NodeId) (url : List Char) : Document × NodeId :=
  let (doc, link) := doc.store (.link url #[])
  doc.add parent (.image link)

/-- Code, with the shortest fence that no run of backticks inside it could close. -/
def addCode (parent : NodeId) (content : List Char) (block : Bool) : Document × NodeId :=
  let fence := Backtick.shortestFence content (if block then Backtick.blockFence else 1)
  doc.add parent (.code fence content)

/-- A node of the kind that holds nothing yet: no children, no address, no text. -/
def addEmpty (parent : NodeId) : NodeKind → Document × NodeId
  | .root => doc.add parent (.root #[])
  | .styled style => doc.add parent (.styled style #[])
  | .code => doc.add parent (.code 1 [])
  | .link => doc.addLink parent []
  | .image => doc.addImage parent []
  | .text => doc.addText parent []

/-- Gives a link or image another address. -/
def setUrl (id : NodeId) (url : List Char) : Document := doc.modify (doc.host id) (.withUrl url)

def setChildren (id : NodeId) (children : Array NodeId) : Document :=
  doc.modify (doc.host id) (.mapChildren fun _ => children)

/-- Adds text under `parent`, to the last child if that is text too. -/
def pushText (parent : NodeId) (content : List Char) : Document :=
  if content.isEmpty then doc
  else
    match (doc.children parent).back? with
    | some last =>
      if doc.isText last then doc.modify last (.extendText content)
      else (doc.addText parent content).1
    | none => (doc.addText parent content).1

/-- Puts `child` after the children in `merged`. A text after a text makes that one longer and
is left out. -/
def mergeChild (state : Document × Array NodeId) (child : NodeId) : Document × Array NodeId :=
  let (doc, merged) := state
  match merged.back?, doc.node? child with
  | some last, some (.text next) =>
    if doc.isText last then (doc.modify last (.extendText next), merged)
    else (doc, merged.push child)
  | _, _ => (doc, merged.push child)

/-- Leaves no two texts side by side under `parent`. -/
def mergeTexts (parent : NodeId) : Document :=
  let (merged, children) := (doc.children parent).foldl mergeChild (doc, #[])
  merged.setChildren parent children

/-- Replaces the container `id` under `parent` by the text `delimiter` and the children that the
container had. -/
def unwrapIntoText (parent id : NodeId) (delimiter : List Char) : Document :=
  let moved := doc.children id
  let (doc, text) := (doc.setChildren id #[]).store (.text delimiter)
  let siblings := doc.children parent
  match siblings.idxOf? id with
  | none => doc
  | some i =>
    (doc.setChildren parent
      (siblings.take i ++ #[text] ++ moved ++ siblings.drop (i + 1))).mergeTexts parent

end InlineMarkup.Document

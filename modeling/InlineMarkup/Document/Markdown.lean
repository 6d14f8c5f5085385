import InlineMarkup.Document.Basic
import InlineMarkup.Trigger
import InlineMarkup.Unicode.Alphanumeric

/-! The canonical markdown of a document. -/

namespace InlineMarkup

namespace Markdown

/-- Whether `c` between its neighbours in a text takes a backslash. An underscore inside a word
is text as it stands. -/
def needsEscape (prev : Option Char) (c : Char) (next : Option Char) : Bool :=
  isTrigger c &&
    !(c == '_' && prev.any Unicode.isAlphanumeric && next.any Unicode.isAlphanumeric)

/-- Continues after `prev`; `out` holds what is written, backwards. -/
def escapeFrom (prev : Option Char) (out : List Char) : List Char → List Char
  | [] => out.reverse
  | c :: rest =>
    escapeFrom (some c) (c :: if needsEscape prev c rest.head? then '\\' :: out else out) rest

/-- A text with a backslash before each character that would not stay text. -/
def escape (text : List Char) : List Char := escapeFrom none [] text

/-- Code between its fences. -/
def fenced (fence : Nat) (content : List Char) : List Char :=
  List.replicate fence '`' ++ content ++ List.replicate fence '`'

end Markdown

namespace Document

variable (doc : Document)

/-- Writes the node `id`, `levels` levels deep, after the pieces `out`, last one first. -/
def write : Nat → List (List Char) → NodeId → List (List Char)
  | 0, out, _ => out
  | levels + 1, out, id =>
    match doc.node? id with
    | none => out
    | some (.text content) => Markdown.escape content :: out
    | some (.code fence content) => Markdown.fenced fence content :: out
    | some (.root children) => children.foldl (write levels) out
    | some (.styled style children) =>
      style.delimiter :: children.foldl (write levels) (style.delimiter :: out)
    | some (.link url children) =>
      [')'] :: url :: [']', '('] :: children.foldl (write levels) (['['] :: out)
    | some (.image link) => write levels (['!'] :: out) link

/-- The markdown of a node and all below it. -/
def markdown (id : NodeId) : List Char := (doc.write doc.size [] id).reverse.flatten

end Document

end InlineMarkup

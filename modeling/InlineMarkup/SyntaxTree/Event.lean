import InlineMarkup.SyntaxTree.Basic

/-! Events: a syntax tree as a sequence of steps that build it. -/

namespace InlineMarkup

inductive Event
  /-- A node begins. -/
  | start (kind : SyntaxKind)
  /-- The next token of the text, under the given kind. -/
  | token (kind : SyntaxKind)
  /-- The node begun last and not yet finished ends. -/
  | finish
  /-- Kept free for the start of a node. It builds nothing. -/
  | placeholder
deriving DecidableEq, Repr

namespace SyntaxTree

/-- A tree under construction. -/
structure Builder where
  /-- For each node that is not finished, the innermost one first: its kind, and what stood
  before it on its level. -/
  unfinished : List (SyntaxKind × List SyntaxTree) := []
  /-- What stands on the innermost level, last one first. -/
  level : List SyntaxTree := []
  /-- The texts of the tokens that are still to come. -/
  pieces : List (List Char)

namespace Builder

/-- Carries out one event. A node can be finished only where one has been begun. -/
def step? (builder : Builder) : Event → Option Builder
  | .start kind => some
    { builder with unfinished := (kind, builder.level) :: builder.unfinished, level := [] }
  | .token kind =>
    match builder.pieces with
    | [] => some builder
    | raw :: pieces => some { builder with level := token kind raw :: builder.level, pieces }
  | .finish =>
    match builder.unfinished with
    | [] => none
    | (kind, before) :: unfinished => some
      { builder with unfinished, level := node kind builder.level.reverse :: before }
  | .placeholder => some builder

/-- All that has been built, last one first. What is in nodes never finished counts on the level
around them. -/
def elements (builder : Builder) : List SyntaxTree :=
  builder.unfinished.foldl (fun level (_, before) => level ++ before) builder.level

end Builder

/-- The tree that the events build from the tokens. There is none if a node ends that never
began, or if anything but a single node is left at the end. -/
def ofEvents? (tokens : List Token) (events : List Event) : Option SyntaxTree := do
  let builder ← events.foldlM Builder.step? { pieces := tokens.map (·.raw) }
  match builder.elements with
  | [node kind children] => some (node kind children)
  | _ => none

end SyntaxTree

end InlineMarkup

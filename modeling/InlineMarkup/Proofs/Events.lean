import InlineMarkup.Proofs.Pairing

/-! Events: what a sequence of events builds, and what the syntax tree it builds says. -/

namespace InlineMarkup

namespace SyntaxTree

/-- The text of the last token, if a token is last. -/
def closerOf (elements : List SyntaxTree) : List Char :=
  match elements.getLast? with
  | some (token _ raw) => raw
  | _ => []

mutual

/-- What a syntax tree says. The first and the last token of a container are its delimiters. -/
def read : SyntaxTree → Tree
  | token (.token kind) raw => .ofToken kind raw
  | token _ raw => .text raw
  | node .root elements => .root (Tree.merge (readAll elements))
  | node (.styled style) elements => .styled style (Tree.merge (readAll elements).tail.dropLast)
  | node .link elements =>
    .link (Reading.addressOf (closerOf elements)) (Tree.merge (readAll elements).tail.dropLast)
  | node .image elements =>
    .image (Reading.addressOf (closerOf elements)) (Tree.merge (readAll elements).tail.dropLast)
  | node (.token _) elements => .root (Tree.merge (readAll elements))

def readAll : List SyntaxTree → List Tree
  | [] => []
  | tree :: trees => read tree :: readAll trees

end

@[simp] theorem readAll_eq_map (trees : List SyntaxTree) : readAll trees = trees.map read := by
  induction trees with
  | nil => rfl
  | cons tree trees ih => rw [readAll, ih, List.map_cons]

theorem addAllLeaves_append (trees more : List SyntaxTree) (out : Array (SyntaxKind × List Char)) :
    addAllLeaves out (trees ++ more) = addAllLeaves (addAllLeaves out trees) more := by
  induction trees generalizing out with
  | nil => rfl
  | cons tree trees ih => exact ih (addLeaves out tree)

end SyntaxTree

namespace Item

mutual

/-- The syntax tree of an item. -/
def syntaxTree : Item → SyntaxTree
  | token kind raw => .token (.token kind) raw
  | pair tag opener inside closer => .node tag.syntaxKind
    (.token (.token tag.opener) opener :: syntaxTrees inside ++ [.token (.token tag.closer) closer])

def syntaxTrees : List Item → List SyntaxTree
  | [] => []
  | item :: items => syntaxTree item :: syntaxTrees items

end

@[simp] theorem syntaxTrees_eq_map (items : List Item) :
    syntaxTrees items = items.map syntaxTree := by
  induction items with
  | nil => rfl
  | cons item items ih => rw [syntaxTrees, ih, List.map_cons]

mutual

/-- The two trees of an item say the same. -/
theorem read_syntaxTree : ∀ item : Item, item.syntaxTree.read = item.tree
  | token kind raw => rfl
  | pair tag opener inside closer => by
    have hinside : (inside.map syntaxTree).map SyntaxTree.read = inside.map tree :=
      map_read_syntaxTree inside
    cases tag <;>
      simp only [syntaxTree, Tag.syntaxKind, SyntaxTree.read, SyntaxTree.readAll_eq_map,
        syntaxTrees_eq_map, List.map_append, List.map_cons, List.map_nil, List.cons_append,
        List.tail_cons, List.dropLast_concat, hinside, tree, trees_eq_map, Tag.tree,
        SyntaxTree.closerOf, List.getLast?_cons, List.getLast?_concat, Option.getD_some]

theorem map_read_syntaxTree : ∀ items : List Item,
    (items.map syntaxTree).map SyntaxTree.read = items.map tree
  | [] => rfl
  | item :: items => by
    rw [List.map_cons, List.map_cons, List.map_cons, read_syntaxTree item, map_read_syntaxTree items]

end

end Item

open SyntaxTree

namespace Item

/-- The leaves that tokens become. -/
def leavesOf (pieces : List (TokenKind × List Char)) : List (SyntaxKind × List Char) :=
  pieces.map fun piece => (.token piece.1, piece.2)

mutual

theorem toList_addLeaves : ∀ (item : Item) (out : Array (SyntaxKind × List Char)),
    (addLeaves out item.syntaxTree).toList = out.toList ++ leavesOf item.pieces
  | token kind raw, out => Array.toList_push
  | pair tag opener inside closer, out => by
    simp [syntaxTree, addLeaves, addAllLeaves, addAllLeaves_append, toList_addAllLeaves inside, pieces,
      leavesOf]

theorem toList_addAllLeaves : ∀ (items : List Item) (out : Array (SyntaxKind × List Char)),
    (addAllLeaves out (items.map syntaxTree)).toList = out.toList ++ leavesOf (allPieces items)
  | [], out => by simp [addAllLeaves, allPieces, leavesOf]
  | item :: items, out => by
    simp [addAllLeaves, toList_addAllLeaves items, toList_addLeaves item, allPieces, leavesOf]

end

theorem leaves_syntaxTree (item : Item) : item.syntaxTree.leaves = leavesOf item.pieces :=
  toList_addLeaves item #[]

theorem leaves_node (kind : SyntaxKind) (items : List Item) :
    (SyntaxTree.node kind (items.map syntaxTree)).leaves = leavesOf (allPieces items) :=
  toList_addAllLeaves items #[]

end Item

/-- The kind of the token that the event brings, if it brings one. -/
def Event.tokenKind? : Event → Option SyntaxKind
  | .token kind => some kind
  | .start _ | .finish | .placeholder => none

/-- Whether every node that begins is finished and every node that is finished has begun before,
those within it being finished first. -/
inductive Event.Balanced : List Event → Prop
  | nil : Balanced []
  | token {events : List Event} (kind : SyntaxKind) (h : Balanced events) :
      Balanced (.token kind :: events)
  | placeholder {events : List Event} (h : Balanced events) : Balanced (.placeholder :: events)
  | node {inside events : List Event} (kind : SyntaxKind) (hinside : Balanced inside)
      (h : Balanced events) : Balanced (.start kind :: inside ++ .finish :: events)

/-- Whether the events build the items, each pair as a node. Events kept free may stand between. -/
inductive Builds : List Event → List Item → Prop
  | nil : Builds [] []
  | placeholder {events : List Event} {items : List Item} (h : Builds events items) :
      Builds (.placeholder :: events) items
  | token {events : List Event} {items : List Item} (kind : TokenKind) (raw : List Char)
      (h : Builds events items) :
      Builds (.token (.token kind) :: events) (.token kind raw :: items)
  | pair {inner events : List Event} {inside items : List Item} (tag : Tag)
      (opener closer : List Char) (hinside : Builds inner inside) (h : Builds events items) :
      Builds
        (.start tag.syntaxKind ::
          (.token (.token tag.opener) :: inner ++ [.token (.token tag.closer)]) ++ .finish :: events)
        (.pair tag opener inside closer :: items)

variable {events more : List Event} {items further : List Item} {kind : TokenKind}
  {raw : List Char}

theorem Event.Balanced.append (h : Balanced events) (hmore : Balanced more) :
    Balanced (events ++ more) := by
  induction h with
  | nil => exact hmore
  | token kind h ih => exact .token kind ih
  | placeholder h ih => exact .placeholder ih
  | node kind hinside h _ ih =>
    rw [List.append_assoc, List.cons_append]
    exact .node kind hinside ih

namespace Builds

theorem append (h : Builds events items) (hmore : Builds more further) :
    Builds (events ++ more) (items ++ further) := by
  induction h with
  | nil => exact hmore
  | placeholder h ih => exact .placeholder ih
  | token kind raw h ih => exact .token kind raw ih
  | pair tag opener closer hinside h _ ih =>
    rw [List.append_assoc, List.cons_append]
    exact .pair tag opener closer hinside ih

theorem balanced (h : Builds events items) : Event.Balanced events := by
  induction h with
  | nil => exact .nil
  | placeholder h ih => exact .placeholder ih
  | token kind raw h ih => exact .token _ ih
  | pair tag opener closer hinside h ihinside ih =>
    exact .node _ (.token _ (ihinside.append (.token _ .nil))) ih

theorem filterMap_tokenKind? (h : Builds events items) :
    events.filterMap Event.tokenKind? =
      (Item.allPieces items).map fun piece => .token piece.1 := by
  induction h with
  | nil => rfl
  | placeholder h ih => exact ih
  | token kind raw h ih => exact congrArg _ ih
  | pair tag opener closer hinside h ihinside ih =>
    simp [List.filterMap_cons, Event.tokenKind?, ihinside, ih, Item.allPieces, Item.pieces]

/-- The events take the texts of the tokens that the items hold, and leave all else as it is. -/
theorem foldlM_step? (h : Builds events items) (unfinished : List (SyntaxKind × List SyntaxTree))
    (level : List SyntaxTree) (pieces : List (List Char)) :
    events.foldlM Builder.step? ⟨unfinished, level, (Item.allPieces items).map (·.2) ++ pieces⟩ =
      some ⟨unfinished, (items.map Item.syntaxTree).reverse ++ level, pieces⟩ := by
  induction h generalizing unfinished level pieces with
  | nil => rfl
  | placeholder h ih => exact ih _ _ _
  | token kind raw h ih =>
    simp [Item.allPieces, Item.pieces, Item.syntaxTree, Builder.step?, ih]
  | pair tag opener closer hinside h ihinside ih =>
    simp [Item.allPieces, Item.pieces, Item.syntaxTree, Builder.step?, List.foldlM_append,
      ihinside, ih]

/-- The tree of all the tokens, when its events stand between the begin and the end of a root. -/
theorem ofEvents? (h : Builds events items) {tokens : List Token}
    (htokens : tokens.map (fun token => (token.kind, token.raw)) = Item.allPieces items) :
    SyntaxTree.ofEvents? tokens (.start .root :: events ++ [.finish]) =
      some (.node .root (items.map Item.syntaxTree)) := by
  have hraws : tokens.map (·.raw) = (Item.allPieces items).map (·.2) ++ [] := by
    rw [← htokens, List.map_map, List.append_nil]
    rfl
  have hbuild := h.foldlM_step? [(.root, [])] [] []
  simp only [SyntaxTree.ofEvents?, hraws, List.cons_append, List.foldlM_cons, Builder.step?,
    Option.bind_eq_bind, Option.bind_some, List.foldlM_append, hbuild]
  simp [Builder.elements]

end Builds

end InlineMarkup

import InlineMarkup.Proofs.Pairing

/-! Nesting: no style within itself, and no more containers around each other than may be open. -/

namespace InlineMarkup

namespace Tree

variable {outer : List Style} {room : Nat} {tree : Tree} {ts us : List Tree}

mutual

/-- Whether the tree may stand within containers of the styles in `outer`, where `room` more may be
open at once. -/
def Nests (outer : List Style) (room : Nat) : Tree → Prop
  | code _ _ | text _ => True
  | styled style children => style ∉ outer ∧ 0 < room ∧ AllNest (style :: outer) (room - 1) children
  | link _ children | image _ children => 0 < room ∧ AllNest outer (room - 1) children
  | root _ => False

def AllNest (outer : List Style) (room : Nat) : List Tree → Prop
  | [] => True
  | tree :: trees => Nests outer room tree ∧ AllNest outer room trees

end

@[simp] theorem allNest_append :
    AllNest outer room (ts ++ us) ↔ AllNest outer room ts ∧ AllNest outer room us := by
  induction ts with
  | nil => simp [AllNest]
  | cons tree ts ih => simp [AllNest, ih, and_assoc]

mutual

theorem Nests.weaken : ∀ (tree : Tree) {outer outer' : List Style} {room room' : Nat},
    tree.Nests outer room → outer' ⊆ outer → room ≤ room' → tree.Nests outer' room'
  | code _ _, _, _, _, _, _, _, _ | text _, _, _, _, _, _, _, _ => trivial
  | styled style children, _, _, _, _, ⟨hfree, hpos, hchildren⟩, ho, hr =>
    ⟨fun hs => hfree (ho hs), by omega,
      AllNest.weaken children hchildren (List.cons_subset_cons style ho) (by omega)⟩
  | link _ children, _, _, _, _, ⟨hpos, hchildren⟩, ho, hr
  | image _ children, _, _, _, _, ⟨hpos, hchildren⟩, ho, hr =>
    ⟨by omega, AllNest.weaken children hchildren ho (by omega)⟩

theorem AllNest.weaken : ∀ (trees : List Tree) {outer outer' : List Style} {room room' : Nat},
    AllNest outer room trees → outer' ⊆ outer → room ≤ room' → AllNest outer' room' trees
  | [], _, _, _, _, _, _, _ => trivial
  | tree :: trees, _, _, _, _, ⟨htree, htrees⟩, ho, hr =>
    ⟨Nests.weaken tree htree ho hr, AllNest.weaken trees htrees ho hr⟩

end

theorem allNest_before : AllNest outer room (before tree ts) ↔
    tree.Nests outer room ∧ AllNest outer room ts := by
  cases tree with
  | text s =>
    cases ts with
    | nil => rfl
    | cons u ts => cases u <;> simp [before, AllNest, Nests]
  | root | styled | code | link | image => rfl

theorem allNest_merge : AllNest outer room (merge ts) ↔ AllNest outer room ts := by
  induction ts with
  | nil => rfl
  | cons tree ts ih => rw [merge, List.foldr_cons, allNest_before, ← merge, ih, AllNest]

end Tree

namespace Tag

/-- The styles that the tag adds to those around what it holds. -/
def styles : Tag → List Style
  | styled style => [style]
  | link | image => []

theorem nests_tree {tag : Tag} {outer : List Style} {room : Nat} {url : List Char}
    {children : List Tree} : (tag.tree url children).Nests outer room ↔
      (∀ style ∈ tag.styles, style ∉ outer) ∧ 0 < room ∧
        Tree.AllNest (tag.styles ++ outer) (room - 1) children := by
  cases tag <;> simp [Tag.tree, Tree.Nests, styles]

/-- A style whose delimiter closes no tag around it is not the style of one of them. -/
theorem notMem_styles {tag : Tag} {outer : List Tag} (h : ∀ other ∈ outer, tag.opener ≠ other.closer) :
    ∀ style ∈ tag.styles, style ∉ outer.flatMap styles := by
  intro style hstyle hmem
  obtain ⟨other, hother, hsame⟩ := List.mem_flatMap.1 hmem
  cases tag with
  | styled s =>
    cases other with
    | styled s' =>
      obtain rfl := List.mem_singleton.1 hstyle
      obtain rfl := List.mem_singleton.1 hsame
      exact h _ hother rfl
    | link | image => cases hsame
  | link | image => cases hstyle

end Tag

namespace Waiting

/-- The styles of the openers. -/
def styles (waiting : List Waiting) : List Style := waiting.flatMap (·.tag.styles)

/-- Whether the trees on each level may stand within the openers that wait around it. -/
def Nested : List Waiting → List Item → Prop
  | [], level => Tree.AllNest [] Assembly.maxDepth (level.map Item.tree)
  | w :: waiting, level =>
    Tree.AllNest (styles (w :: waiting)) (Assembly.maxDepth - (w :: waiting).length)
        (level.map Item.tree) ∧
      (∀ style ∈ w.tag.styles, style ∉ styles waiting) ∧
      waiting.length < Assembly.maxDepth ∧ Nested waiting w.before

variable {w : Waiting} {above waiting : List Waiting} {level more : List Item}

theorem nested_append : Nested waiting (level ++ more) ↔ Nested waiting level ∧
    Tree.AllNest (styles waiting) (Assembly.maxDepth - waiting.length) (more.map Item.tree) := by
  cases waiting with
  | nil => simp [Nested, styles]
  | cons w waiting =>
    simp only [Nested, List.map_append, Tree.allNest_append]
    tauto

theorem nests_opener (tag : Tag) (raw : List Char) (outer : List Style) (room : Nat) :
    (Item.token tag.opener raw).tree.Nests outer room := by
  rcases tag with (_ | _ | _ | _) | _ | _ <;> trivial

/-- What an opener held may stand around it too, once it stands for itself. -/
theorem Nested.demote_cons (h : Nested (w :: waiting) level) :
    Nested waiting (w.before ++ .token w.tag.opener w.raw :: level) := by
  obtain ⟨hlevel, _, _, hbefore⟩ := h
  refine nested_append.2 ⟨hbefore, nests_opener .., hlevel.weaken _ ?_ ?_⟩
  · exact List.subset_append_right _ _
  · rw [List.length_cons]
    omega

theorem Nested.demote (h : Nested (above ++ waiting) level) :
    Nested waiting (Waiting.demote above level) := by
  induction above generalizing level with
  | nil => exact h
  | cons w above ih => exact ih (Nested.demote_cons h)

end Waiting

namespace Pairing

variable {pairing : Pairing} {kind : TokenKind} {raw : List Char}

def Nested (pairing : Pairing) : Prop := Waiting.Nested pairing.waiting pairing.level

theorem Nested.step (h : pairing.Nested) (hurl : kind ≠ .bareUrl) :
    (pairing.step kind raw).Nested := by
  have hstep := step_spec pairing kind raw
  generalize pairing.step kind raw = next at hstep ⊢
  cases hstep with
  | push hstray hfull =>
    refine Waiting.nested_append.2 ⟨h, ?_, trivial⟩
    cases kind <;> trivial
  | opened tag hkind hdepth hfree =>
    refine ⟨trivial, ?_, hdepth, h⟩
    intro style hstyle hin
    obtain ⟨w, hw, hws⟩ := List.mem_flatMap.1 hin
    have htag (t : Tag) (ht : style ∈ t.styles) : t = .styled style := by
      cases t <;> simp_all [Tag.styles]
    obtain rfl : tag = .styled style := htag tag hstyle
    exact hfree rfl w hw (htag _ hws)
  | closed above w waiting hsplit hkind habove =>
    rw [Nested, hsplit] at h
    obtain ⟨hinside, hfresh, hdepth, hbefore⟩ := h.demote
    have hroom : 0 < Assembly.maxDepth - waiting.length := by omega
    refine Waiting.nested_append.2 ⟨hbefore, ?_, trivial⟩
    rw [Item.tree, Tag.nests_tree, Item.trees_eq_map, Tree.allNest_merge]
    exact ⟨hfresh, hroom, hinside⟩

theorem Nested.run {pieces : List (TokenKind × List Char)} (h : pairing.Nested)
    (hurl : ∀ piece ∈ pieces, piece.1 ≠ .bareUrl) : (pairing.run pieces).Nested := by
  induction pieces generalizing pairing with
  | nil => exact h
  | cons piece pieces ih =>
    obtain ⟨hpiece, hpieces⟩ := List.forall_mem_cons.1 hurl
    exact ih (h.step hpiece) hpieces

end Pairing

/-- What delimiters make nests as it should. -/
theorem allNest_pairUp {pieces : List (TokenKind × List Char)}
    (hurl : ∀ piece ∈ pieces, piece.1 ≠ .bareUrl) :
    Tree.AllNest [] Assembly.maxDepth ((pairUp pieces).map Item.tree) := by
  have hrun : (Pairing.run {} pieces).Nested := Pairing.Nested.run trivial hurl
  have hitems : Waiting.Nested ((Pairing.run {} pieces).waiting ++ [])
      (Pairing.run {} pieces).level := by
    rw [List.append_nil]
    exact hrun
  exact hitems.demote

end InlineMarkup

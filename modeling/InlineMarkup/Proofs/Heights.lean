import InlineMarkup.Proofs.Recording

/-! Heights: no more nodes of a syntax tree stand around each other than tags may be open. -/

namespace InlineMarkup

namespace SyntaxTree

variable {trees more : List SyntaxTree} {bound : Nat}

mutual

/-- The number of nodes around each other in a syntax tree. -/
def height : SyntaxTree → Nat
  | token _ _ => 0
  | node _ children => allHeight children + 1

def allHeight : List SyntaxTree → Nat
  | [] => 0
  | tree :: trees => max (height tree) (allHeight trees)

end

theorem allHeight_append : allHeight (trees ++ more) = max (allHeight trees) (allHeight more) := by
  induction trees with
  | nil => exact (Nat.zero_max _).symm
  | cons tree trees ih => rw [List.cons_append, allHeight, ih, allHeight, Nat.max_assoc]

theorem allHeight_le_iff : allHeight trees ≤ bound ↔ ∀ tree ∈ trees, tree.height ≤ bound := by
  induction trees with
  | nil => simp [allHeight]
  | cons tree trees ih => rw [allHeight, Nat.max_le, ih, List.forall_mem_cons]

end SyntaxTree

open SyntaxTree

/-- Delimiters add one node to those inside them. -/
theorem Item.height_pair (tag : Tag) (opener closer : List Char) (inside : List Item) :
    (Item.pair tag opener inside closer).syntaxTree.height =
      allHeight (inside.map Item.syntaxTree) + 1 := by
  rw [syntaxTree, syntaxTrees_eq_map, height, List.cons_append, allHeight, allHeight_append, height,
    allHeight, allHeight, height, Nat.max_self, Nat.max_zero, Nat.zero_max]

namespace Waiting

/-- Whether on each level no more pairs stand around each other than tags may be open besides those
around it. -/
def Low : List Waiting → List Item → Prop
  | [], level => ∀ item ∈ level, item.syntaxTree.height ≤ Assembly.maxDepth
  | w :: waiting, level =>
    (∀ item ∈ level, item.syntaxTree.height ≤ Assembly.maxDepth - (waiting.length + 1)) ∧
      waiting.length < Assembly.maxDepth ∧ Low waiting w.before

variable {w : Waiting} {above waiting : List Waiting} {level more : List Item}

theorem low_append : Low waiting (level ++ more) ↔ Low waiting level ∧
    ∀ item ∈ more, item.syntaxTree.height ≤ Assembly.maxDepth - waiting.length := by
  cases waiting with
  | nil => exact List.forall_mem_append
  | cons w waiting =>
    simp only [Low, List.forall_mem_append, List.length_cons]
    tauto

/-- What an opener held is low enough around it too, once it stands for itself. -/
theorem Low.demote_cons (h : Low (w :: waiting) level) :
    Low waiting (w.before ++ .token w.tag.opener w.raw :: level) := by
  obtain ⟨hlevel, -, hbefore⟩ := h
  refine low_append.2 ⟨hbefore, List.forall_mem_cons.2 ⟨Nat.zero_le _, fun item hitem => ?_⟩⟩
  exact (hlevel item hitem).trans (Nat.sub_le_sub_left (Nat.le_succ _) _)

theorem Low.demote (h : Low (above ++ waiting) level) : Low waiting (Waiting.demote above level) := by
  induction above generalizing level with
  | nil => exact h
  | cons w above ih => exact ih (Low.demote_cons h)

end Waiting

namespace Pairing

variable {pairing : Pairing} {kind : TokenKind} {raw : List Char}

def Low (pairing : Pairing) : Prop := Waiting.Low pairing.waiting pairing.level

theorem Low.step (h : pairing.Low) : (pairing.step kind raw).Low := by
  have hstep := step_spec pairing kind raw
  generalize pairing.step kind raw = next at hstep ⊢
  cases hstep with
  | push hstray hfull =>
    exact Waiting.low_append.2 ⟨h, List.forall_mem_singleton.2 (Nat.zero_le _)⟩
  | opened tag hkind hdepth hfree => exact ⟨List.forall_mem_nil _, hdepth, h⟩
  | closed above w waiting hsplit hkind habove =>
    rw [Low, hsplit] at h
    obtain ⟨hinside, hdepth, hbefore⟩ := h.demote
    refine Waiting.low_append.2 ⟨hbefore, List.forall_mem_singleton.2 ?_⟩
    have hle := allHeight_le_iff.2 (List.forall_mem_map.2 hinside)
    rw [Item.height_pair]
    change _ ≤ Assembly.maxDepth - waiting.length
    omega

theorem Low.run {pieces : List (TokenKind × List Char)} (h : pairing.Low) : (pairing.run pieces).Low := by
  induction pieces generalizing pairing with
  | nil => exact h
  | cons piece pieces ih => exact ih h.step

end Pairing

/-- No more pairs stand around each other than tags may be open. -/
theorem height_pairUp_le (pieces : List (TokenKind × List Char)) :
    ∀ item ∈ pairUp pieces, item.syntaxTree.height ≤ Assembly.maxDepth := by
  have hstart : Pairing.Low {} := List.forall_mem_nil _
  have hrun : Waiting.Low ((Pairing.run {} pieces).waiting ++ []) (Pairing.run {} pieces).level := by
    rw [List.append_nil]
    exact hstart.run
  exact hrun.demote

end InlineMarkup

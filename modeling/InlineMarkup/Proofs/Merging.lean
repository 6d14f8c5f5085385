import InlineMarkup.Document.Tree
import Mathlib.Data.List.Chain

/-! Trees in a row. Texts that stand side by side are one text. -/

namespace InlineMarkup.Tree

variable {tree : Tree} {ts us : List Tree} {s t : List Char}

def isText : Tree → Bool
  | text _ => true
  | _ => false

/-- Puts a tree before others. A text goes into the one that it meets. -/
def before : Tree → List Tree → List Tree
  | text s, text t :: rest => text (s ++ t) :: rest
  | tree, rest => tree :: rest

/-- Makes one text of texts that stand side by side. -/
def merge (trees : List Tree) : List Tree := trees.foldr before []

/-- Whether no two texts stand side by side. -/
def Merged (trees : List Tree) : Prop := trees.IsChain fun a b => ¬(a.isText ∧ b.isText)

theorem merged_append : Merged (ts ++ us) ↔ Merged ts ∧ Merged us ∧
    ∀ a ∈ ts.getLast?, ∀ b ∈ us.head?, ¬(a.isText ∧ b.isText) :=
  List.isChain_append

theorem merged_cons_cons {a b : Tree} :
    Merged (a :: b :: ts) ↔ ¬(a.isText ∧ b.isText) ∧ Merged (b :: ts) :=
  List.isChain_cons_cons

theorem merged_singleton (tree : Tree) : Merged [tree] := List.IsChain.singleton _

theorem Merged.tail (h : Merged (tree :: ts)) : Merged ts := List.IsChain.tail h

theorem isText_iff : tree.isText ↔ ∃ s, tree = text s := by
  cases tree <;> simp [isText]

theorem before_nil (tree : Tree) : before tree [] = [tree] := by
  cases tree <;> rfl

theorem before_of_not_isText (h : ¬tree.isText) (ts : List Tree) : before tree ts = tree :: ts := by
  cases tree <;> first | rfl | simp [isText] at h

theorem before_cons_of_not_isText {u : Tree} (h : ¬u.isText) (tree : Tree) (ts : List Tree) :
    before tree (u :: ts) = tree :: u :: ts := by
  cases tree <;> cases u <;> first | rfl | simp [isText] at h

theorem before_before (s t : List Char) (ts : List Tree) :
    before (text s) (before (text t) ts) = before (text (s ++ t)) ts := by
  cases ts with
  | nil => rfl
  | cons u ts => cases u <;> simp [before]

theorem foldr_before_before (tree : Tree) (ts us : List Tree) :
    (before tree ts).foldr before us = before tree (ts.foldr before us) := by
  by_cases ht : tree.isText
  · obtain ⟨s, rfl⟩ := isText_iff.1 ht
    cases ts with
    | nil => rfl
    | cons u ts =>
      by_cases hu : u.isText
      · obtain ⟨t, rfl⟩ := isText_iff.1 hu
        exact (before_before s t _).symm
      · rw [before_cons_of_not_isText hu]
        rfl
  · rw [before_of_not_isText ht]
    rfl

theorem foldr_before_merge (ts us : List Tree) :
    (merge ts).foldr before us = ts.foldr before us := by
  induction ts with
  | nil => rfl
  | cons tree ts ih =>
    rw [merge, List.foldr_cons, foldr_before_before, ← merge, ih, List.foldr_cons]

theorem merge_ne_nil (h : ts ≠ []) : merge ts ≠ [] := by
  obtain ⟨tree, ts, rfl⟩ := List.exists_cons_of_ne_nil h
  rw [merge, List.foldr_cons, ← merge]
  cases tree <;> cases merge ts with
  | nil => simp [before]
  | cons u ts => cases u <;> simp [before]

/-- Trees that are merged into one that is no text were that one before. -/
theorem merge_eq_singleton (h : merge ts = [tree]) (htree : ¬tree.isText) : ts = [tree] := by
  cases ts with
  | nil => cases h
  | cons first ts =>
    rw [merge, List.foldr_cons, ← merge] at h
    by_cases hfirst : first.isText
    · obtain ⟨s, rfl⟩ := isText_iff.1 hfirst
      have htext : (before (text s) (merge ts)).head?.any isText := by
        cases merge ts with
        | nil => rfl
        | cons u us => cases u <;> rfl
      rw [h] at htext
      exact absurd htext htree
    · rw [before_of_not_isText hfirst, List.cons_eq_cons] at h
      obtain ⟨rfl, hmerge⟩ := h
      rw [not_imp_not.1 merge_ne_nil hmerge]

theorem merge_append (ts us : List Tree) : merge (ts ++ us) = ts.foldr before (merge us) := by
  rw [merge, List.foldr_append, ← merge]

theorem merge_merge (ts : List Tree) : merge (merge ts) = merge ts := foldr_before_merge ts []

@[simp] theorem merge_merge_append (ts us : List Tree) :
    merge (merge ts ++ us) = merge (ts ++ us) := by
  rw [merge_append, foldr_before_merge, ← merge_append]

@[simp] theorem merge_append_merge (ts us : List Tree) :
    merge (ts ++ merge us) = merge (ts ++ us) := by
  rw [merge_append, merge_merge, ← merge_append]

theorem merged_before (h : Merged ts) : Merged (before tree ts) := by
  cases ts with
  | nil => exact before_nil tree ▸ merged_singleton tree
  | cons u ts =>
    by_cases hu : u.isText
    · obtain ⟨t, rfl⟩ := isText_iff.1 hu
      by_cases ht : tree.isText
      · obtain ⟨s, rfl⟩ := isText_iff.1 ht
        cases ts with
        | nil => exact merged_singleton _
        | cons v ts => exact merged_cons_cons.2 ⟨(merged_cons_cons.1 h).1, h.tail⟩
      · rw [before_of_not_isText ht]
        exact merged_cons_cons.2 ⟨fun hb => ht hb.1, h⟩
    · rw [before_cons_of_not_isText hu]
      exact merged_cons_cons.2 ⟨fun hb => hu hb.2, h⟩

theorem merged_merge (ts : List Tree) : Merged (merge ts) := by
  induction ts with
  | nil => exact List.IsChain.nil
  | cons tree ts ih => exact merged_before ih

theorem Merged.before_eq (h : Merged (tree :: ts)) : before tree ts = tree :: ts := by
  cases ts with
  | nil => exact before_nil tree
  | cons u ts =>
    by_cases hu : u.isText
    · exact before_of_not_isText (fun ht => (merged_cons_cons.1 h).1 ⟨ht, hu⟩) _
    · exact before_cons_of_not_isText hu tree ts

theorem Merged.foldr_before (h : Merged (ts ++ us)) : ts.foldr before us = ts ++ us := by
  induction ts with
  | nil => rfl
  | cons tree ts ih =>
    rw [List.foldr_cons, ih h.tail]
    exact Merged.before_eq h

theorem Merged.merge_eq (h : Merged ts) : merge ts = ts := by
  have hnil : Merged (ts ++ []) := by rwa [List.append_nil]
  exact hnil.foldr_before.trans (List.append_nil ts)

/-- A text at the end makes the text before it longer. -/
theorem merge_concat_text (h : Merged (ts ++ [text s])) (t : List Char) :
    merge (ts ++ [text s, text t]) = ts ++ [text (s ++ t)] := by
  have hm : Merged (ts ++ [text (s ++ t)]) := by
    obtain ⟨hts, _, hl⟩ := merged_append.1 h
    refine merged_append.2 ⟨hts, merged_singleton _, ?_⟩
    intro a ha b hb
    simp only [List.head?_cons, Option.mem_def, Option.some.injEq] at hb
    subst hb
    exact hl a ha (text s) rfl
  rw [merge_append]
  exact hm.foldr_before

/-- A tree at the end stays by itself where it meets no text or is none. -/
theorem merge_concat (h : Merged ts) (hl : ∀ a ∈ ts.getLast?, ¬(a.isText ∧ tree.isText)) :
    merge (ts ++ [tree]) = ts ++ [tree] :=
  Merged.merge_eq (merged_append.2 ⟨h, merged_singleton tree, by simpa using hl⟩)

end InlineMarkup.Tree

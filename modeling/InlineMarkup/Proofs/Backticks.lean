import InlineMarkup.Backtick
import InlineMarkup.Text.Bytes
import Mathlib.Data.List.Perm.Subperm

/-! Runs of backticks: where a fence closes, and what a code token is taken apart into. -/

namespace InlineMarkup.Backtick

variable {fence run passed n : Nat} {s t rest content : List Char}

theorem byteSize_replicate (n : Nat) : byteSize (List.replicate n '`') = n := by
  induction n with
  | zero => rfl
  | succ n ih =>
    have hsize : '`'.utf8Size = 1 := rfl
    rw [List.replicate_succ, byteSize_cons, ih, hsize, Nat.add_comm]

theorem head?_replicate_append (hn : n ≠ 0) : (List.replicate n '`' ++ t).head? = some '`' := by
  cases n with
  | zero => exact absurd rfl hn
  | succ n => simp [List.replicate_succ]

theorem runLength_replicate_append (ht : t.head? ≠ some '`') :
    runLength (List.replicate n '`' ++ t) = n := by
  induction n with
  | zero =>
    cases t with
    | nil => rfl
    | cons c t =>
      have hc : c ≠ '`' := by simpa using ht
      simp [runLength, hc]
  | succ n ih =>
    simp only [runLength, List.replicate_succ, List.cons_append] at ih ⊢
    rw [List.takeWhile_cons_of_pos (by rfl), List.length_cons, ih]

/-- A text is its leading run of backticks and what follows, which starts with none. -/
theorem exists_run (s : List Char) :
    ∃ t, s = List.replicate (runLength s) '`' ++ t ∧ t.head? ≠ some '`' := by
  induction s with
  | nil => exact ⟨[], rfl, by simp⟩
  | cons c s ih =>
    by_cases hc : c = '`'
    · subst hc
      obtain ⟨t, hs, ht⟩ := ih
      refine ⟨t, ?_, ht⟩
      have hrun : runLength ('`' :: s) = runLength s + 1 := by simp [runLength]
      rw [hrun, List.replicate_succ, List.cons_append, ← hs]
    · refine ⟨c :: s, ?_, by simpa using hc⟩
      have hrun : runLength (c :: s) = 0 := by simp [runLength, hc]
      rw [hrun]
      rfl

theorem drop_runLength (ht : t.head? ≠ some '`') :
    (List.replicate n '`' ++ t).drop (runLength (List.replicate n '`' ++ t)) = t := by
  rw [runLength_replicate_append ht, List.drop_left' (List.length_replicate ..)]

/-! ### The search for a closing run -/

theorem go_passed (rest : List Char) :
    closing?.go fence rest run passed = (closing?.go fence rest run 0).map (passed + ·) := by
  induction rest generalizing run passed with
  | nil => simp only [closing?.go]; split <;> simp
  | cons c rest ih =>
    simp only [closing?.go]
    by_cases hc : c = '`'
    · rw [if_pos hc, if_pos hc, ih, @ih _ (0 + 1), Option.map_map]
      congr 1
      funext k
      simp only [Function.comp_apply]
      omega
    · rw [if_neg hc, if_neg hc]
      by_cases hr : run ≠ 0 ∧ run = fence
      · rw [if_pos hr, if_pos hr]
        rfl
      · rw [if_neg hr, if_neg hr, ih, @ih _ (0 + 1), Option.map_map]
        congr 1
        funext k
        simp only [Function.comp_apply]
        omega

/-- A run before other text closes the fence if it has its length, and is passed otherwise. -/
theorem go_replicate_append (ht : t.head? ≠ some '`') :
    closing?.go fence (List.replicate n '`' ++ t) run passed =
      if run + n ≠ 0 ∧ run + n = fence then some (passed + n)
      else closing?.go fence t 0 (passed + n) := by
  induction n generalizing run passed with
  | zero =>
    cases t with
    | nil =>
      simp only [closing?.go, List.replicate_zero, List.append_nil, Nat.add_zero, ne_eq,
        not_true_eq_false, false_and, if_false]
    | cons c t =>
      have hc : c ≠ '`' := by simpa using ht
      simp only [List.replicate_zero, List.nil_append, closing?.go, if_neg hc, Nat.add_zero]
      simp
  | succ n ih =>
    rw [List.replicate_succ, List.cons_append, closing?.go, if_pos rfl, ih]
    simp only [Nat.add_assoc, Nat.add_comm 1 n]

/-- The search in a text that ends in something else than a backtick goes on after it only if
nothing closes the fence inside. -/
theorem go_append (hs : s ≠ []) (hlast : s.getLast? ≠ some '`') :
    closing?.go fence (s ++ t) run passed =
      (closing?.go fence s run passed).or (closing?.go fence t 0 (passed + s.length)) := by
  induction s generalizing run passed with
  | nil => exact absurd rfl hs
  | cons c s ih =>
    simp only [List.cons_append, closing?.go]
    cases s with
    | nil =>
      have hc : c ≠ '`' := by simpa using hlast
      simp only [if_neg hc, List.nil_append, closing?.go, List.length_singleton]
      split <;> simp
    | cons d s =>
      have hlast' : (d :: s).getLast? ≠ some '`' := by simpa using hlast
      have hlen (k : Nat) : k + 1 + (d :: s).length = k + (c :: d :: s).length := by simp; omega
      by_cases hc : c = '`'
      · rw [if_pos hc, if_pos hc, ih (by simp) hlast', hlen]
      · rw [if_neg hc, if_neg hc]
        by_cases hr : run ≠ 0 ∧ run = fence
        · rw [if_pos hr, if_pos hr]
          rfl
        · rw [if_neg hr, if_neg hr, ih (by simp) hlast', hlen]

/-- What lies before the run that closes a fence, if the search finds one. -/
theorem exists_of_go_eq_some {k : Nat} (h : closing?.go fence rest run 0 = some k) :
    ∃ s t, List.replicate run '`' ++ rest = s ++ List.replicate fence '`' ++ t ∧
      run + k = s.length + fence ∧ s.getLast? ≠ some '`' ∧ t.head? ≠ some '`' ∧
      closing? fence s = none := by
  induction rest generalizing run k with
  | nil =>
    simp only [closing?.go, Option.ite_none_right_eq_some, Option.some.injEq] at h
    obtain ⟨⟨_, rfl⟩, rfl⟩ := h
    exact ⟨[], [], by simp, by simp, by simp, by simp, by simp [closing?, closing?.go]⟩
  | cons c rest ih =>
    simp only [closing?.go] at h
    by_cases hc : c = '`'
    · subst hc
      rw [if_pos rfl, go_passed] at h
      obtain ⟨j, hj, rfl⟩ := Option.map_eq_some_iff.1 h
      obtain ⟨s, t, heq, hlen, hlast, hhead, hfree⟩ := ih hj
      refine ⟨s, t, ?_, by omega, hlast, hhead, hfree⟩
      rw [← heq, List.replicate_succ', List.append_assoc, List.singleton_append]
    · rw [if_neg hc] at h
      by_cases hr : run ≠ 0 ∧ run = fence
      · rw [if_pos hr, Option.some.injEq] at h
        exact ⟨[], c :: rest, by simp [hr.2], by simp [← h, hr.2], by simp, by simpa using hc,
          by simp [closing?, closing?.go]⟩
      · rw [if_neg hr, go_passed] at h
        obtain ⟨j, hj, rfl⟩ := Option.map_eq_some_iff.1 h
        obtain ⟨s, t, heq, hlen, hlast, hhead, hfree⟩ := ih hj
        simp only [List.replicate_zero, List.nil_append] at heq
        refine ⟨List.replicate run '`' ++ c :: s, t, by simp [heq], by simp; omega, ?_, hhead, ?_⟩
        · cases s with
          | nil => simpa using hc
          | cons d s => simpa using hlast
        · rw [closing?, go_replicate_append (by simpa using hc), Nat.zero_add, if_neg hr,
            closing?.go, if_neg hc, if_neg (by simp), go_passed, ← closing?, hfree]
          rfl

/-- What closes a fence in text that starts with no backtick. -/
theorem exists_of_closing?_eq_some {k : Nat} (hf : fence ≠ 0) (hr : rest.head? ≠ some '`')
    (h : closing? fence rest = some k) :
    ∃ s t, rest = s ++ (List.replicate fence '`' ++ t) ∧ k = s.length + fence ∧ s ≠ [] ∧
      s.getLast? ≠ some '`' ∧ t.head? ≠ some '`' ∧ closing? fence s = none := by
  obtain ⟨s, t, heq, hlen, hlast, hhead, hfree⟩ := exists_of_go_eq_some h
  simp only [List.replicate_zero, List.nil_append, List.append_assoc] at heq
  refine ⟨s, t, heq, by omega, ?_, hlast, hhead, hfree⟩
  rintro rfl
  rw [List.nil_append] at heq
  exact hr (heq ▸ head?_replicate_append hf)

theorem closing?_fenced (hc : content ≠ []) (hlast : content.getLast? ≠ some '`')
    (hfree : closing? fence content = none) (hf : fence ≠ 0) (ht : t.head? ≠ some '`') :
    closing? fence (content ++ (List.replicate fence '`' ++ t)) = some (content.length + fence) := by
  rw [closing?, go_append hc hlast, ← closing?, hfree, Option.none_or, go_replicate_append ht]
  simp [hf]

/-- Whether a run of exactly `fence` backticks stands in the text, with none before or after it. -/
def HasRun (fence : Nat) (s : List Char) : Prop :=
  ∃ before after, s = before ++ (List.replicate fence '`' ++ after) ∧
    before.getLast? ≠ some '`' ∧ after.head? ≠ some '`'

theorem closing?_eq_none_iff (hf : fence ≠ 0) : closing? fence s = none ↔ ¬HasRun fence s := by
  constructor
  · rintro hnone ⟨before, after, rfl, hlast, hhead⟩
    cases before with
    | nil =>
      rw [List.nil_append, closing?, go_replicate_append hhead, Nat.zero_add, if_pos ⟨hf, rfl⟩] at hnone
      cases hnone
    | cons c before =>
      rw [closing?, go_append (List.cons_ne_nil c before) hlast, Option.or_eq_none_iff,
        go_replicate_append hhead, Nat.zero_add, if_pos ⟨hf, rfl⟩] at hnone
      cases hnone.2
  · intro hfree
    rw [Option.eq_none_iff_forall_ne_some]
    intro len hlen
    obtain ⟨before, after, hs, -, hlast, hhead, -⟩ := exists_of_go_eq_some hlen
    exact hfree ⟨before, after, by simpa using hs, hlast, hhead⟩

/-- A fence after a text that ends in backticks makes their run longer, and closes nothing. -/
theorem closing?_append_fence (hf : fence ≠ 0) (hlast : content.getLast? = some '`')
    (hfree : closing? fence content = none) :
    closing? fence (content ++ List.replicate fence '`') = none := by
  rw [closing?_eq_none_iff hf] at hfree ⊢
  rintro ⟨before, after, hsplit, hbefore, hafter⟩
  rw [← List.append_assoc] at hsplit
  rcases List.append_eq_append_iff.1 hsplit with ⟨t, hcontent, hticks⟩ | ⟨t, hcontent, hticks⟩
  · -- the run is the fence, after the whole text
    obtain rfl : after = [] := by
      by_contra hne
      obtain ⟨c, u, rfl⟩ := List.exists_cons_of_ne_nil hne
      have hmem : c ∈ List.replicate fence '`' := by simp [hticks]
      exact hafter (congrArg some (List.eq_of_mem_replicate hmem))
    rw [hticks, List.append_nil] at hcontent
    exact hbefore (List.append_cancel_right hcontent ▸ hlast)
  · -- the run stands in the text
    refine hfree ⟨before, t, by rw [hcontent, List.append_assoc], hbefore, ?_⟩
    cases t with
    | nil => simp
    | cons c t => simpa [hticks] using hafter

/-! ### Code tokens -/

theorem ne_zero_of_blockFence_le (h : blockFence ≤ fence) : fence ≠ 0 := by
  rintro rfl
  exact absurd h (by decide)

theorem parts_fenced (hc : content ≠ []) (hhead : content.head? ≠ some '`')
    (hlast : content.getLast? ≠ some '`') :
    parts (List.replicate fence '`' ++ (content ++ List.replicate fence '`')) =
      (fence, content) := by
  have hbody : (content ++ List.replicate fence '`').head? ≠ some '`' := by
    cases content with
    | nil => exact absurd rfl hc
    | cons c content => simpa using hhead
  have hback : runLength (content ++ List.replicate fence '`').reverse = fence := by
    rw [List.reverse_append, List.reverse_replicate, runLength_replicate_append]
    rwa [List.head?_reverse]
  have hpos := List.length_pos_iff.2 hc
  rw [parts, drop_runLength hbody, runLength_replicate_append hbody, if_pos]
  · simp
  · exact ⟨by simp; omega, hback⟩

theorem parts_unclosed (hf : fence ≠ 0) (hhead : content.head? ≠ some '`')
    (hfree : closing? fence content = none) :
    parts (List.replicate fence '`' ++ content) = (fence, content) := by
  rw [parts, drop_runLength hhead, runLength_replicate_append hhead, if_neg]
  rintro ⟨_, hback⟩
  obtain ⟨t, hrev, ht⟩ := exists_run content.reverse
  rw [hback, List.reverse_eq_iff, List.reverse_append, List.reverse_replicate] at hrev
  by_cases htn : t = []
  · subst htn
    exact hhead (by rw [hrev, List.reverse_nil, List.nil_append, ← List.append_nil (List.replicate ..),
      head?_replicate_append hf])
  · rw [hrev, closing?, go_append (by simpa using htn) (by simpa using ht), Option.or_eq_none_iff,
      ← List.append_nil (List.replicate ..), go_replicate_append (by simp), Nat.zero_add,
      if_pos ⟨hf, rfl⟩] at hfree
    exact Option.some_ne_none _ hfree.2

/-! ### The shortest fence -/

theorem mem_runs_go {found : List Nat} (h : n ∈ found) : n ∈ runs.go content run found := by
  induction content generalizing run found with
  | nil =>
    rw [runs.go]
    split
    · exact h
    · exact List.mem_cons_of_mem _ h
  | cons c content ih =>
    rw [runs.go]
    split
    · exact ih h
    · apply ih
      split
      · exact h
      · exact List.mem_cons_of_mem _ h

theorem closing?_go_eq_none {found : List Nat} (h : fence ∉ runs.go content run found) :
    closing?.go fence content run passed = none := by
  induction content generalizing run passed found with
  | nil =>
    rw [runs.go] at h
    rw [closing?.go, if_neg]
    rintro ⟨hrun, rfl⟩
    rw [if_neg hrun] at h
    exact h (List.mem_cons_self ..)
  | cons c content ih =>
    rw [runs.go] at h
    rw [closing?.go]
    split
    · rename_i hc
      rw [if_pos hc] at h
      exact ih h
    · rename_i hc
      rw [if_neg hc] at h
      rw [if_neg, ih h]
      rintro ⟨hrun, rfl⟩
      rw [if_neg hrun] at h
      exact h (mem_runs_go (List.mem_cons_self ..))

/-- A fence that differs from every run in the content is not closed by any of them. -/
theorem closing?_eq_none (h : fence ∉ runs content) : closing? fence content = none :=
  closing?_go_eq_none h

/-- Among one more candidates than there are runs, one is free. -/
theorem exists_free (content : List Char) (least : Nat) :
    ∃ n ∈ List.range' least ((runs content).length + 1), n ∉ runs content := by
  by_contra hall
  have hsubset : List.range' least ((runs content).length + 1) ⊆ runs content :=
    fun n hn => by_contra fun hnot => hall ⟨n, hn, hnot⟩
  have hle := (List.subperm_of_subset List.nodup_range' hsubset).length_le
  rw [List.length_range'] at hle
  omega

/-- The search for the shortest fence finds it. -/
theorem find?_eq_shortestFence (content : List Char) (least : Nat) :
    (List.range' least ((runs content).length + 1)).find? (fun n => !(runs content).contains n) =
      some (shortestFence content least) := by
  obtain ⟨n, hn, hnot⟩ := exists_free content least
  have hfound : ((List.range' least ((runs content).length + 1)).find?
      fun n => !(runs content).contains n).isSome :=
    List.find?_isSome.2 ⟨n, hn, by simpa using hnot⟩
  obtain ⟨fence, hfence⟩ := Option.isSome_iff_exists.1 hfound
  rw [shortestFence, hfence, Option.getD_some]

theorem shortestFence_spec (content : List Char) (least : Nat) :
    least ≤ shortestFence content least ∧ shortestFence content least ∉ runs content := by
  have hfound := find?_eq_shortestFence content least
  refine ⟨(List.mem_range'_1.1 (List.mem_of_find?_eq_some hfound)).1, ?_⟩
  simpa using List.find?_some hfound

end InlineMarkup.Backtick

import InlineMarkup.Toml.Text
import Mathlib.Data.List.TakeDrop
import Mathlib.Data.List.TakeWhile

/-! Complete lines: what a reader finds in them does not depend on the text that follows them. -/

namespace InlineMarkup.Toml

variable {s : List Char} {α : Type}

/-- Every line of the text is complete. -/
def Lines (s : List Char) : Prop := ∀ c ∈ s.getLast?, c = '\n'

theorem lines_nil : Lines [] := by simp [Lines]

theorem lines_of_getLast? (h : s.getLast? = some '\n') : Lines s := by
  intro c hc
  exact (Option.some.inj (h.symm.trans hc)).symm

theorem Lines.of_suffix {r : List Char} (h : Lines s) (hr : r <:+ s) : Lines r := by
  obtain ⟨t, rfl⟩ := hr
  intro c hc
  exact h c (by simp [List.getLast?_append, Option.mem_def.mp hc])

theorem Lines.tail {c : Char} (h : Lines (c :: s)) : Lines s := h.of_suffix (List.suffix_cons c s)

theorem Lines.drop (h : Lines s) (n : Nat) : Lines (s.drop n) := h.of_suffix (List.drop_suffix n s)

theorem Lines.dropWhile (h : Lines s) (p : Char → Bool) : Lines (s.dropWhile p) :=
  h.of_suffix (List.dropWhile_suffix p)

theorem Lines.append {t : List Char} (hs : Lines s) (ht : Lines t) : Lines (s ++ t) := by
  intro c hc
  rw [List.getLast?_append] at hc
  cases h : t.getLast? with
  | none => exact hs c (by simpa [h] using hc)
  | some d => exact ht c (by simpa [h] using hc)

/-- Something follows a character that does not break the line. -/
theorem Lines.ne_nil {c : Char} (h : Lines (c :: s)) (hc : c ≠ '\n') : s ≠ [] := by
  rintro rfl
  exact hc (h c rfl)

theorem Lines.dropWhile_ne_nil (h : Lines s) (hne : s ≠ []) {p : Char → Bool} (hp : p '\n' = false) :
    s.dropWhile p ≠ [] := by
  intro hnil
  obtain ⟨c, hc⟩ := List.getLast?_isSome.mpr hne |> Option.isSome_iff_exists.mp
  obtain rfl := h c hc
  have hbreak := List.dropWhile_eq_nil_iff.mp hnil '\n' (List.mem_of_getLast? hc)
  simp [hp] at hbreak

theorem dropWhile_append_of_ne_nil {p : Char → Bool} (h : s.dropWhile p ≠ []) (more : List Char) :
    (s ++ more).dropWhile p = s.dropWhile p ++ more := by
  rw [List.dropWhile_append, if_neg (by simpa using h)]

theorem takeWhile_append_of_ne_nil {p : Char → Bool} (h : s.dropWhile p ≠ []) (more : List Char) :
    (s ++ more).takeWhile p = s.takeWhile p := by
  rw [List.takeWhile_append, if_neg]
  intro hlen
  have := congrArg List.length (List.takeWhile_append_dropWhile (p := p) (l := s))
  rw [List.length_append, hlen] at this
  exact h (List.eq_nil_of_length_eq_zero (by omega))

/-- Reads complete lines in the same way whatever follows them, and stops before their end. -/
def Local (read? : List Char → Option (α × List Char)) : Prop :=
  ∀ ⦃s value rest⦄, Lines s → read? s = some (value, rest) →
    rest ≠ [] ∧ Lines rest ∧ ∀ more, read? (s ++ more) = some (value, rest ++ more)

theorem Local.map {β : Type} {read? : List Char → Option (α × List Char)} (h : Local read?) (f : α → β) :
    Local fun s => (read? s).map fun found => (f found.1, found.2) := by
  intro s value rest hs hread
  obtain ⟨⟨a, rest⟩, ha, heq⟩ := Option.map_eq_some_iff.mp hread
  cases heq
  obtain ⟨hne, hlines, hmore⟩ := h hs ha
  exact ⟨hne, hlines, fun more => by simp only [hmore more, Option.map_some]⟩

/-- Passes over complete lines in the same way whatever follows them, unless it passes over all. -/
def Passes (skip : List Char → List Char) : Prop :=
  ∀ ⦃s⦄, Lines s → Lines (skip s) ∧ (skip s ≠ [] → ∀ more, skip (s ++ more) = skip s ++ more)

theorem Local.comp {read? : List Char → Option (α × List Char)} {skip : List Char → List Char}
    (h : Local read?) (hnil : read? [] = none) (hskip : Passes skip) :
    Local fun s => read? (skip s) := by
  intro s value rest hs hread
  have hne : skip s ≠ [] := by
    intro heq
    simp only [heq, hnil, reduceCtorEq] at hread
  obtain ⟨hrest, hlines, hmore⟩ := h (hskip hs).1 hread
  exact ⟨hrest, hlines, fun more => by simp only [(hskip hs).2 hne, hmore]⟩

/-! ### Blanks, comments and line breaks -/

theorem passes_skipBlanks : Passes skipBlanks :=
  fun _ h => ⟨h.dropWhile _, dropWhile_append_of_ne_nil⟩

theorem skipBlanks_ne_nil (h : Lines s) (hne : s ≠ []) : skipBlanks s ≠ [] :=
  h.dropWhile_ne_nil hne (by decide)

theorem skipComment_of_ne {c : Char} (hc : c ≠ '#') : skipComment (c :: s) = c :: s := by
  rw [skipComment]
  intro rest heq
  exact hc (List.cons.inj heq).1

theorem skipComment_ne_nil (h : Lines s) (hne : s ≠ []) : skipComment s ≠ [] := by
  obtain _ | ⟨c, s⟩ := s
  · exact absurd rfl hne
  · by_cases hc : c = '#'
    · subst hc
      exact h.tail.dropWhile_ne_nil (h.ne_nil (by decide)) (by decide)
    · rw [skipComment_of_ne hc]
      exact hne

theorem skipComment_suffix (s : List Char) : skipComment s <:+ s := by
  unfold skipComment
  split
  · exact (List.dropWhile_suffix _).trans (List.suffix_cons _ _)
  · exact List.suffix_rfl

theorem skipComment_append (h : skipComment s ≠ []) (more : List Char) :
    skipComment (s ++ more) = skipComment s ++ more := by
  obtain _ | ⟨c, s⟩ := s
  · exact absurd rfl h
  · by_cases hc : c = '#'
    · subst hc
      exact dropWhile_append_of_ne_nil h more
    · rw [List.cons_append, skipComment_of_ne hc, skipComment_of_ne hc, List.cons_append]

/-- The rest of a line after the blanks and the comment that stand here. -/
def skipRemark (s : List Char) : List Char := skipComment (skipBlanks s)

theorem skipRemark_suffix (s : List Char) : skipRemark s <:+ s :=
  (skipComment_suffix _).trans (List.dropWhile_suffix _)

theorem skipRemark_ne_nil (h : Lines s) (hne : s ≠ []) : skipRemark s ≠ [] :=
  skipComment_ne_nil (passes_skipBlanks h).1 (skipBlanks_ne_nil h hne)

theorem skipRemark_append (h : Lines s) (hne : s ≠ []) (more : List Char) :
    skipRemark (s ++ more) = skipRemark s ++ more := by
  rw [skipRemark, (passes_skipBlanks h).2 (skipBlanks_ne_nil h hne),
    skipComment_append (skipRemark_ne_nil h hne), skipRemark]

theorem endLine?_append (h : Lines s) (hne : s ≠ []) {rest : List Char} (hend : endLine? s = some rest) :
    Lines rest ∧ ∀ more, endLine? (s ++ more) = some (rest ++ more) := by
  have hremark := skipRemark_append h hne
  have hsuffix := skipRemark_suffix s
  rw [endLine?, ← skipRemark] at hend
  split at hend
  · rename_i hnil
    exact absurd hnil (skipRemark_ne_nil h hne)
  · rename_i heq
    cases hend
    rw [heq] at hremark hsuffix
    refine ⟨(h.of_suffix hsuffix).tail, fun more => ?_⟩
    rw [endLine?, ← skipRemark, hremark]
    rfl
  · cases hend

/-- More fuel than characters is enough to pass over all lines. -/
theorem skipLines_eq (fuel more : Nat) (s : List Char) (hfuel : s.length < fuel)
    (hmore : s.length < more) : skipLines fuel s = skipLines more s := by
  induction fuel generalizing more s with
  | zero => omega
  | succ fuel ih =>
    obtain _ | more := more
    · omega
    have hlen := (skipRemark_suffix s).length_le
    rw [skipLines, skipLines, ← skipRemark]
    split
    · rename_i rest heq
      rw [heq, List.length_cons] at hlen
      exact ih more rest (by omega) (by omega)
    · rfl

theorem skipSpace_of_eq {rest : List Char} (h : skipRemark s = '\n' :: rest) :
    skipSpace s = skipSpace rest := by
  have hlen := (skipRemark_suffix s).length_le
  rw [skipSpace, skipLines, ← skipRemark, h, skipSpace]
  rw [h, List.length_cons] at hlen
  exact skipLines_eq _ _ _ (by omega) (by omega)

theorem skipSpace_of_ne (h : ∀ rest, skipRemark s ≠ '\n' :: rest) : skipSpace s = skipRemark s := by
  rw [skipSpace, skipLines, ← skipRemark]
  split
  · rename_i rest heq
    exact absurd heq (h rest)
  · rfl

/-- What stands after lines that are passed over altogether is passed over as if it came first. -/
theorem skipSpace_cases (h : Lines s) : Lines (skipSpace s) ∧
    ((skipSpace s = [] ∧ ∀ more, skipSpace (s ++ more) = skipSpace more) ∨
      (skipSpace s ≠ [] ∧ ∀ more, skipSpace (s ++ more) = skipSpace s ++ more)) := by
  induction hn : s.length using Nat.strongRecOn generalizing s with
  | _ n ih =>
    subst hn
    by_cases hnil : s = []
    · subst hnil
      exact ⟨h, .inl ⟨rfl, fun _ => rfl⟩⟩
    have hremark := skipRemark_append h hnil
    have hsuffix := skipRemark_suffix s
    by_cases hbreak : ∃ rest, skipRemark s = '\n' :: rest
    · obtain ⟨rest, heq⟩ := hbreak
      rw [heq] at hremark hsuffix
      have hlen := hsuffix.length_le
      have hmore (more) : skipSpace (s ++ more) = skipSpace (rest ++ more) :=
        skipSpace_of_eq (hremark more)
      simp only [skipSpace_of_eq heq, hmore]
      exact ih rest.length (by rw [List.length_cons] at hlen; omega) (h.of_suffix hsuffix).tail rfl
    · obtain ⟨c, rest, heq⟩ := List.exists_cons_of_ne_nil (skipRemark_ne_nil h hnil)
      have hc : c ≠ '\n' := fun hc => hbreak ⟨rest, by rw [heq, hc]⟩
      rw [heq] at hremark hsuffix
      have hspace := skipSpace_of_ne (s := s) (by simp [heq, hc])
      rw [heq] at hspace
      have hmore (more) : skipSpace (s ++ more) = c :: rest ++ more := by
        rw [skipSpace_of_ne (by simp [hremark, hc]), hremark]
      rw [hspace]
      exact ⟨h.of_suffix hsuffix, .inr ⟨List.cons_ne_nil _ _, hmore⟩⟩

theorem passes_skipSpace : Passes skipSpace := by
  intro s h
  obtain ⟨hlines, ⟨hnil, -⟩ | ⟨-, hmore⟩⟩ := skipSpace_cases h
  · exact ⟨hlines, fun hne => absurd hnil hne⟩
  · exact ⟨hlines, fun _ => hmore⟩

/-! ### Strings -/

theorem length_of_mapM {f : Char → Option α} {found : List α} (h : s.mapM f = some found) :
    found.length = s.length := by
  induction s generalizing found with
  | nil => cases h; rfl
  | cons c s ih =>
    rw [List.mapM_cons] at h
    obtain ⟨a, -, h⟩ := Option.bind_eq_some_iff.mp h
    obtain ⟨as, has, h⟩ := Option.bind_eq_some_iff.mp h
    cases h
    rw [List.length_cons, List.length_cons, ih has]

theorem hexScalar?_append {count : Nat} {c : Char} (h : hexScalar? count s = some c) :
    count ≤ s.length ∧ ∀ more, hexScalar? count (s ++ more) = some c := by
  have hcount : count ≤ s.length := by
    obtain ⟨digits, hdigits, hread⟩ := Option.bind_eq_some_iff.mp h
    have hlen := length_of_mapM hdigits
    rw [List.length_take] at hlen
    dsimp only at hread
    split at hread
    · omega
    · cases hread
  refine ⟨hcount, fun more => ?_⟩
  rw [hexScalar?, List.take_append_of_le_length hcount, ← hexScalar?, h]

theorem escaped?_append {c : Char} {count : Nat} (h : escaped? s = some (c, count)) :
    count ≤ s.length ∧ ∀ more, escaped? (s ++ more) = some (c, count) := by
  obtain _ | ⟨d, s⟩ := s
  · cases h
  have hhex {n : Nat} (h : (hexScalar? n s).map (·, n + 1) = some (c, count)) :
      count ≤ (d :: s).length ∧ ∀ more, (hexScalar? n (s ++ more)).map (·, n + 1) = some (c, count) := by
    obtain ⟨e, he, heq⟩ := Option.map_eq_some_iff.mp h
    cases heq
    obtain ⟨hlen, hmore⟩ := hexScalar?_append he
    exact ⟨by rw [List.length_cons]; omega, fun more => by rw [hmore]; rfl⟩
  simp only [List.cons_append]
  unfold escaped? at h ⊢
  simp only [List.head?_cons, List.drop_succ_cons, List.drop_zero] at h ⊢
  split at h
  case h_9 => exact hhex h
  case h_10 => exact hhex h
  case h_11 => exact hhex h
  case h_12 => cases h
  all_goals
    cases h
    exact ⟨by simp, fun _ => rfl⟩

theorem local_basicString? (seen : List Char) : Local (basicString? seen) := by
  intro s value rest hs hread
  induction seen, s using basicString?.induct generalizing value rest with
  | case1 seen => simp [basicString?] at hread
  | case2 seen after =>
    rw [basicString?, if_pos rfl] at hread
    cases hread
    refine ⟨hs.ne_nil (by decide), hs.tail, fun more => ?_⟩
    rw [List.cons_append, basicString?, if_pos rfl]
  | case3 seen after => simp [basicString?] at hread
  | case4 seen after c count hescape _ _ ih =>
    rw [basicString?, if_neg (by decide), if_neg (by decide), if_pos rfl, hescape] at hread
    obtain ⟨hcount, hmore⟩ := escaped?_append hescape
    obtain ⟨hne, hlines, hrest⟩ := ih (hs.tail.drop count) hread
    refine ⟨hne, hlines, fun more => ?_⟩
    rw [List.cons_append, basicString?, if_neg (by decide), if_neg (by decide), if_pos rfl, hmore]
    simpa only [List.drop_append_of_le_length hcount] using hrest more
  | case5 seen after hescape _ _ => simp [basicString?, hescape] at hread
  | case6 seen c after hquote hbreak hescape ih =>
    rw [basicString?, if_neg hquote, if_neg hbreak, if_neg hescape] at hread
    obtain ⟨hne, hlines, hrest⟩ := ih hs.tail hread
    refine ⟨hne, hlines, fun more => ?_⟩
    rw [List.cons_append, basicString?, if_neg hquote, if_neg hbreak, if_neg hescape, hrest]

theorem local_literalString? : Local literalString? := by
  intro s value rest hs hread
  rw [literalString?, List.span_eq_takeWhile_dropWhile] at hread
  split at hread
  · rename_i content after heq
    cases hread
    obtain ⟨rfl, hafter⟩ := Prod.mk.inj heq
    have hnil : s.dropWhile (fun c => c != '\'' && c != '\n') ≠ [] := by simp [hafter]
    have hlines := hs.dropWhile fun c => c != '\'' && c != '\n'
    rw [hafter] at hlines
    refine ⟨hlines.ne_nil (by decide), hlines.tail, fun more => ?_⟩
    rw [literalString?, List.span_eq_takeWhile_dropWhile, takeWhile_append_of_ne_nil hnil,
      dropWhile_append_of_ne_nil hnil, hafter]
    rfl
  · cases hread

theorem local_lineString? : Local lineString? := by
  intro s value rest hs hread
  unfold lineString? at hread
  split at hread
  · exact local_basicString? [] hs.tail hread
  · exact local_literalString? hs.tail hread
  · cases hread

theorem closeTripled?_append (hs : Lines s) (hne : s ≠ []) {quote : Char} (hq : quote ≠ '\n')
    (more : List Char) :
    closeTripled? quote (s ++ more) =
      (closeTripled? quote s).map fun (text, rest) => (text, rest ++ more) := by
  have hrest : s.dropWhile (· == quote) ≠ [] := hs.dropWhile_ne_nil hne (by simpa using Ne.symm hq)
  have hlen := (List.takeWhile_prefix (· == quote) (l := s)).length_le
  simp only [closeTripled?, takeWhile_append_of_ne_nil hrest]
  split
  · rw [Option.map_some, List.drop_append_of_le_length (by omega)]
  · rfl

theorem closeTripled?_cons_append {c quote : Char} (hs : Lines (c :: s)) (hq : quote ≠ '\n')
    (h : closeTripled? quote (c :: s) = none) (more : List Char) :
    closeTripled? quote (c :: (s ++ more)) = none := by
  rw [← List.cons_append, closeTripled?_append hs (List.cons_ne_nil c s) hq, h, Option.map_none]

theorem closeTripled?_ne_nil (hs : Lines s) {quote : Char} (hq : quote ≠ '\n') {text rest : List Char}
    (h : closeTripled? quote s = some (text, rest)) : rest ≠ [] ∧ Lines rest := by
  simp only [closeTripled?] at h
  split at h
  · rename_i hthree
    have hne : s ≠ [] := by
      rintro rfl
      simp at hthree
    have hrest := hs.dropWhile_ne_nil hne (p := (· == quote)) (by simpa using Ne.symm hq)
    have hlen := congrArg List.length (List.takeWhile_append_dropWhile (p := (· == quote)) (l := s))
    have hpos := List.length_pos_iff.mpr hrest
    rw [List.length_append] at hlen
    cases h
    refine ⟨fun hnil => ?_, hs.drop _⟩
    have := List.drop_eq_nil_iff.mp hnil
    omega
  · cases h

theorem continuation?_append (hs : Lines s) (hne : s ≠ []) (h : continuation? s = none)
    (more : List Char) : continuation? (s ++ more) = none := by
  obtain ⟨c, rest, hrest⟩ := List.exists_cons_of_ne_nil (skipBlanks_ne_nil hs hne)
  have hmore := (passes_skipBlanks hs).2 (skipBlanks_ne_nil hs hne) more
  rw [continuation?, hrest] at h
  rw [continuation?, hmore, hrest, List.cons_append]
  split at h
  · cases h
  · rename_i hc
    split
    · rename_i heq
      exact absurd (by rw [(List.cons.inj heq).1]) (hc rest)
    · rfl

theorem continuation?_append_of_ne_nil (hs : Lines s) (hne : s ≠ []) {count : Nat}
    (h : continuation? s = some count) (hrest : s.drop count ≠ []) (more : List Char) :
    continuation? (s ++ more) = some count ∧ count ≤ s.length := by
  obtain ⟨c, rest, hblanks⟩ := List.exists_cons_of_ne_nil (skipBlanks_ne_nil hs hne)
  have hmore := (passes_skipBlanks hs).2 (skipBlanks_ne_nil hs hne) more
  rw [continuation?, hblanks] at h
  rw [continuation?, hmore, hblanks, List.cons_append]
  split at h
  · rename_i heq
    cases heq
    cases h
    have hlen := (List.takeWhile_prefix (fun c => isBlank c || c == '\n') (l := s)).length_le
    have hnil : s.dropWhile (fun c => isBlank c || c == '\n') ≠ [] := by
      intro hnil
      have htake := List.takeWhile_append_dropWhile (p := fun c => isBlank c || c == '\n') (l := s)
      rw [hnil, List.append_nil] at htake
      exact hrest (by rw [htake, List.drop_length])
    exact ⟨by rw [takeWhile_append_of_ne_nil hnil]; rfl, hlen⟩
  · cases h

theorem local_tripledString? {quote : Char} (hq : quote ≠ '\n') (seen : List Char) :
    Local (tripledString? quote seen) := by
  intro s value rest hs hread
  induction seen, s using tripledString?.induct quote generalizing value rest with
  | case1 seen => simp [tripledString?] at hread
  | case2 seen c after content behind hclose =>
    have hmore := closeTripled?_append hs (List.cons_ne_nil c after) hq
    rw [tripledString?, hclose] at hread
    cases hread
    obtain ⟨hne, hlines⟩ := closeTripled?_ne_nil hs hq hclose
    refine ⟨hne, hlines, fun more => ?_⟩
    rw [List.cons_append, tripledString?, ← List.cons_append, hmore, hclose]
    rfl
  | case3 seen c after hclose hescape count hcount ih =>
    have hafter : after ≠ [] := hs.ne_nil (by rw [hescape.1]; decide)
    rw [tripledString?, hclose, if_pos hescape, hcount] at hread
    -- Were nothing left after the blanks and line breaks, the string would not be closed.
    have hdrop : after.drop count ≠ [] := by
      intro hnil
      simp [hnil, tripledString?] at hread
    obtain ⟨hne, hlines, hrest⟩ := ih (hs.tail.drop count) hread
    refine ⟨hne, hlines, fun more => ?_⟩
    obtain ⟨hmore, hcount⟩ := continuation?_append_of_ne_nil hs.tail hafter hcount hdrop more
    rw [List.cons_append, tripledString?, closeTripled?_cons_append hs hq hclose, if_pos hescape, hmore]
    simpa only [List.drop_append_of_le_length hcount] using hrest more
  | case4 seen c after hclose hescape d count hd hcontinue ih =>
    have hafter : after ≠ [] := hs.ne_nil (by rw [hescape.1]; decide)
    rw [tripledString?, hclose, if_pos hescape, hcontinue, hd] at hread
    obtain ⟨hcount, hmore⟩ := escaped?_append hd
    obtain ⟨hne, hlines, hrest⟩ := ih (hs.tail.drop count) hread
    refine ⟨hne, hlines, fun more => ?_⟩
    rw [List.cons_append, tripledString?, closeTripled?_cons_append hs hq hclose, if_pos hescape,
      continuation?_append hs.tail hafter hcontinue, hmore]
    simpa only [List.drop_append_of_le_length hcount] using hrest more
  | case5 seen c after hclose hescape hd hcontinue =>
    rw [tripledString?, hclose, if_pos hescape, hcontinue, hd] at hread
    cases hread
  | case6 seen c after hclose hescape ih =>
    rw [tripledString?, hclose, if_neg hescape] at hread
    obtain ⟨hne, hlines, hrest⟩ := ih hs.tail hread
    refine ⟨hne, hlines, fun more => ?_⟩
    rw [List.cons_append, tripledString?, closeTripled?_cons_append hs hq hclose, if_neg hescape, hrest]

theorem Lines.dropLineBreak (h : Lines s) : Lines (dropLineBreak s) := by
  unfold Toml.dropLineBreak
  split
  · exact h.tail
  · exact h

theorem dropLineBreak_append (hne : s ≠ []) (more : List Char) :
    dropLineBreak (s ++ more) = dropLineBreak s ++ more := by
  obtain _ | ⟨c, s⟩ := s
  · exact absurd rfl hne
  · by_cases hc : c = '\n'
    · subst hc
      rfl
    · rw [List.cons_append, dropLineBreak, dropLineBreak, List.cons_append]
      all_goals simpa using hc

theorem local_tripledString?_dropLineBreak {quote : Char} (hq : quote ≠ '\n') :
    Local fun s => tripledString? quote [] (dropLineBreak s) := by
  intro s value rest hs hread
  have hne : s ≠ [] := by
    rintro rfl
    simp [dropLineBreak, tripledString?] at hread
  obtain ⟨hrest, hlines, hmore⟩ := local_tripledString? hq [] hs.dropLineBreak hread
  exact ⟨hrest, hlines, fun more => by simp only [dropLineBreak_append hne, hmore]⟩

theorem string?_eq_lineString? {t : List Char} (hs : Lines s)
    (hdouble : ∀ rest, s ≠ '"' :: '"' :: '"' :: rest)
    (hsingle : ∀ rest, s ≠ '\'' :: '\'' :: '\'' :: rest)
    (hread : (lineString? s).isSome) : string? (s ++ t) = lineString? (s ++ t) := by
  rw [string?]
  all_goals
    intro rest heq
    rcases s with _ | ⟨c, _ | ⟨d, _ | ⟨e, s⟩⟩⟩
    · simp [lineString?] at hread
    · simp [hs c rfl] at heq
    · simp [hs d rfl] at heq
    · simp_all

theorem local_string? : Local string? := by
  intro s value rest hs hread
  unfold string? at hread
  split at hread
  · exact local_tripledString?_dropLineBreak (by decide) hs.tail.tail.tail hread
  · exact local_tripledString?_dropLineBreak (by decide) hs.tail.tail.tail hread
  · rename_i hdouble hsingle
    obtain ⟨hne, hlines, hmore⟩ := local_lineString? hs hread
    refine ⟨hne, hlines, fun more => ?_⟩
    rw [string?_eq_lineString? hs hdouble hsingle (by rw [hread]; rfl), hmore]

end InlineMarkup.Toml

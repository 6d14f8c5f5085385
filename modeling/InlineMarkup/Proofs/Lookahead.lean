import InlineMarkup.Proofs.CompleteLines
import InlineMarkup.Toml.Reader

/-! Lookahead: the statement that starts in complete lines is the same whatever follows them. -/

namespace InlineMarkup.Toml

variable {s : List Char}

/-! ### Keys -/

theorem local_simpleKey? : Local simpleKey? := by
  intro s value rest hs hread
  have hne : s ≠ [] := by
    rintro rfl
    simp [simpleKey?, lineString?] at hread
  have hnil : s.dropWhile isBareKeyChar ≠ [] := hs.dropWhile_ne_nil hne (by decide)
  simp only [simpleKey?, List.span_eq_takeWhile_dropWhile, takeWhile_append_of_ne_nil hnil,
    dropWhile_append_of_ne_nil hnil] at hread ⊢
  split at hread
  · rename_i after heq
    obtain ⟨htake, rfl⟩ := Prod.mk.inj heq
    simp only [htake]
    exact local_lineString? (hs.dropWhile _) hread
  · rename_i key after hkey heq
    obtain ⟨rfl, rfl⟩ := Prod.mk.inj heq
    cases hread
    refine ⟨hnil, hs.dropWhile _, fun more => ?_⟩
    split
    · rename_i heq
      exact absurd (Prod.mk.inj heq).1 (by simpa using hkey)
    · rename_i heq
      obtain ⟨rfl, rfl⟩ := Prod.mk.inj heq
      rfl

theorem keyParts?_succ_eq_some_iff {count : Nat} {seen path : List Key} {rest : List Char} :
    keyParts? (count + 1) seen s = some (path, rest) ↔
      ∃ key after, simpleKey? (skipBlanks s) = some (key, after) ∧
        ((∃ tail, skipBlanks after = '.' :: tail ∧
            keyParts? count (key :: seen) tail = some (path, rest)) ∨
          ((skipBlanks after).head? ≠ some '.' ∧ rest = skipBlanks after ∧
            path = (key :: seen).reverse)) := by
  rw [keyParts?]
  constructor
  · intro h
    obtain ⟨⟨key, after⟩, hkey, h⟩ := Option.bind_eq_some_iff.mp h
    refine ⟨key, after, hkey, ?_⟩
    dsimp only at h
    split at h
    · rename_i tail heq
      exact .inl ⟨tail, heq, h⟩
    · rename_i hpoint
      cases h
      refine .inr ⟨fun hhead => ?_, rfl, rfl⟩
      obtain ⟨tail, htail⟩ := List.head?_eq_some_iff.mp hhead
      exact hpoint tail htail
  · rintro ⟨key, after, hkey, ⟨tail, heq, h⟩ | ⟨hhead, rfl, rfl⟩⟩
    · simp only [hkey, Option.bind_eq_bind, Option.bind_some, heq, h]
    · simp only [hkey, Option.bind_eq_bind, Option.bind_some]
      split
      · rename_i heq
        simp [heq] at hhead
      · rfl

theorem local_keyParts? (count : Nat) (seen : List Key) : Local (keyParts? count seen) := by
  induction count generalizing seen with
  | zero =>
    intro s path rest _ hread
    cases hread
  | succ count ih =>
    intro s path rest hs hread
    obtain ⟨key, after, hkey, hafter⟩ := keyParts?_succ_eq_some_iff.1 hread
    obtain ⟨hne, hlines, hmore⟩ := local_simpleKey?.comp rfl passes_skipBlanks hs hkey
    have hblanks := skipBlanks_ne_nil hlines hne
    obtain ⟨hblanksLines, hmoreBlanks⟩ := passes_skipBlanks hlines
    obtain ⟨tail, hpoint, htail⟩ | ⟨hhead, rfl, rfl⟩ := hafter
    · rw [hpoint] at hblanks hblanksLines hmoreBlanks
      obtain ⟨hrest, hrestLines, hmoreParts⟩ := ih (key :: seen) hblanksLines.tail htail
      exact ⟨hrest, hrestLines, fun more => keyParts?_succ_eq_some_iff.2
        ⟨key, after ++ more, hmore more, .inl ⟨tail ++ more, hmoreBlanks hblanks more, hmoreParts more⟩⟩⟩
    · refine ⟨hblanks, hblanksLines, fun more => keyParts?_succ_eq_some_iff.2
        ⟨key, after ++ more, hmore more, .inr ⟨?_, (hmoreBlanks hblanks more).symm, rfl⟩⟩⟩
      obtain ⟨c, tail, heq⟩ := List.exists_cons_of_ne_nil hblanks
      rw [heq] at hhead
      rw [hmoreBlanks hblanks, heq]
      exact hhead

theorem local_key? : Local key? := local_keyParts? keyPartsLimit []

/-! ### Values -/

/-- A time follows the date. -/
theorem splitAtom_of_date {d : Char} {after : List Char}
    (hdate : date? (s.takeWhile isAtomChar) = some [])
    (hafter : s.dropWhile isAtomChar = ' ' :: d :: after) (hd : d.isDigit) :
    splitAtom s = (s.takeWhile isAtomChar ++ ' ' :: (d :: after).takeWhile isAtomChar,
      (d :: after).dropWhile isAtomChar) := by
  simp only [splitAtom, List.span_eq_takeWhile_dropWhile, hdate, hafter, hd, if_true]

theorem splitAtom_of_not_date (h : ∀ d after, date? (s.takeWhile isAtomChar) = some [] →
      s.dropWhile isAtomChar = ' ' :: d :: after → ¬d.isDigit) :
    splitAtom s = (s.takeWhile isAtomChar, s.dropWhile isAtomChar) := by
  simp only [splitAtom, List.span_eq_takeWhile_dropWhile]
  split
  · rename_i hdate hafter
    rw [if_neg (h _ _ hdate hafter), hafter]
  · rfl

theorem splitAtom_append (hs : Lines s) (hne : s ≠ []) : (splitAtom s).2 ≠ [] ∧ Lines (splitAtom s).2 ∧
    ∀ more, splitAtom (s ++ more) = ((splitAtom s).1, (splitAtom s).2 ++ more) := by
  have hnil : s.dropWhile isAtomChar ≠ [] := hs.dropWhile_ne_nil hne (by decide)
  have hlines := hs.dropWhile isAtomChar
  have htake := takeWhile_append_of_ne_nil hnil
  have hdrop := dropWhile_append_of_ne_nil hnil
  by_cases hdate : ∃ d after, date? (s.takeWhile isAtomChar) = some [] ∧
      s.dropWhile isAtomChar = ' ' :: d :: after ∧ d.isDigit
  · obtain ⟨d, after, hdate, hafter, hd⟩ := hdate
    rw [hafter] at hlines
    have hclock := hlines.tail.dropWhile_ne_nil (List.cons_ne_nil d after) (p := isAtomChar) (by decide)
    rw [splitAtom_of_date hdate hafter hd]
    refine ⟨hclock, hlines.tail.dropWhile _, fun more => ?_⟩
    have hafter : (s ++ more).dropWhile isAtomChar = ' ' :: d :: (after ++ more) := by
      rw [hdrop, hafter]
      rfl
    rw [splitAtom_of_date (by rw [htake, hdate]) hafter hd, htake, ← List.cons_append,
      takeWhile_append_of_ne_nil hclock, dropWhile_append_of_ne_nil hclock]
  · rw [splitAtom_of_not_date fun d after hd hafter hdigit => hdate ⟨d, after, hd, hafter, hdigit⟩]
    refine ⟨hnil, hlines, fun more => ?_⟩
    rw [splitAtom_of_not_date, htake, hdrop]
    intro d after hd hafter hdigit
    rw [htake] at hd
    rw [hdrop] at hafter
    -- The character after the space stands before the end of the line.
    obtain ⟨c, tail, hc⟩ := List.exists_cons_of_ne_nil hnil
    rw [hc] at hafter hlines
    obtain ⟨rfl, htail⟩ := List.cons.inj hafter
    obtain ⟨e, tail, rfl⟩ := List.exists_cons_of_ne_nil (hlines.ne_nil (by decide))
    obtain ⟨rfl, -⟩ := List.cons.inj htail
    exact hdate ⟨e, tail, hd, hc, hdigit⟩

theorem scalar?_of_ne {c : Char} (hdouble : c ≠ '"') (hsingle : c ≠ '\'') :
    scalar? (c :: s) =
      (atom? (splitAtom (c :: s)).1).map fun value => (value, (splitAtom (c :: s)).2) := by
  rw [scalar?]
  · simpa using hdouble
  · simpa using hsingle

theorem local_scalar? : Local scalar? := by
  intro s value rest hs hread
  obtain _ | ⟨c, s⟩ := s
  · cases hread
  by_cases hquote : c = '"' ∨ c = '\''
  · have heq (t : List Char) : scalar? (c :: t) =
        (string? (c :: t)).map fun found => (.string found.1, found.2) := by
      obtain rfl | rfl := hquote <;> rfl
    rw [heq] at hread
    simpa only [List.cons_append, heq] using local_string?.map Value.string hs hread
  · obtain ⟨hdouble, hsingle⟩ := not_or.mp hquote
    rw [scalar?_of_ne hdouble hsingle] at hread
    obtain ⟨value, hvalue, heq⟩ := Option.map_eq_some_iff.mp hread
    cases heq
    obtain ⟨hrest, hlines, hmore⟩ := splitAtom_append hs (List.cons_ne_nil c s)
    refine ⟨hrest, hlines, fun more => ?_⟩
    rw [List.cons_append, scalar?_of_ne hdouble hsingle, ← List.cons_append, hmore, hvalue]
    rfl

variable {value? : List Char → Option (Value × List Char)} {fuel : Nat} {rest : List Char}

theorem assignment?_eq_some_iff {skip : List Char → List Char} {path : List Key} {value : Value} :
    assignment? skip value? s = some ((path, value), rest) ↔ ∃ after tail, key? s = some (path, after) ∧
      skip after = '=' :: tail ∧ value? (skip tail) = some (value, rest) := by
  rw [assignment?]
  constructor
  · intro h
    obtain ⟨⟨path, after⟩, hpath, h⟩ := Option.bind_eq_some_iff.mp h
    dsimp only at h
    split at h
    · rename_i tail heq
      obtain ⟨⟨found, last⟩, hfound, h⟩ := Option.bind_eq_some_iff.mp h
      cases h
      exact ⟨after, tail, hpath, heq, hfound⟩
    · cases h
  · rintro ⟨after, tail, hpath, heq, hvalue⟩
    simp only [hpath, Option.bind_eq_bind, Option.bind_some, heq, hvalue]
    rfl

theorem local_assignment? {skip : List Char → List Char} (hskip : Passes skip) (hvalue : Local value?)
    (hnil : value? [] = none) :
    Local (assignment? skip value?) := by
  rintro s ⟨path, value⟩ rest hs hread
  obtain ⟨after, tail, hpath, heq, hfound⟩ := assignment?_eq_some_iff.1 hread
  obtain ⟨-, hafter, hmorePath⟩ := local_key? hs hpath
  have hequals := hskip hafter
  rw [heq] at hequals
  obtain ⟨hrest, hlines, hmore⟩ := hvalue.comp hnil hskip hequals.1.tail hfound
  exact ⟨hrest, hlines, fun more => assignment?_eq_some_iff.2
    ⟨after ++ more, tail ++ more, hmorePath more, hequals.2 (List.cons_ne_nil _ _) more, hmore more⟩⟩

theorem items?_succ_eq_some_iff {seen items : List Value} :
    items? value? (fuel + 1) seen s = some (items, rest) ↔
      (skipSpace s = ']' :: rest ∧ items = seen.reverse) ∨
      ((skipSpace s).head? ≠ some ']' ∧ ∃ item after, value? (skipSpace s) = some (item, after) ∧
        ((∃ tail, skipSpace after = ',' :: tail ∧
            items? value? fuel (item :: seen) tail = some (items, rest)) ∨
          (skipSpace after = ']' :: rest ∧ items = (item :: seen).reverse))) := by
  rw [items?]
  split
  · rename_i tail heq
    simp [heq, and_comm, eq_comm]
  · rename_i hclose
    have hhead : (skipSpace s).head? ≠ some ']' := fun h => by
      obtain ⟨tail, htail⟩ := List.head?_eq_some_iff.mp h
      exact hclose tail htail
    constructor
    · intro h
      obtain ⟨⟨item, after⟩, hitem, h⟩ := Option.bind_eq_some_iff.mp h
      refine .inr ⟨hhead, item, after, hitem, ?_⟩
      dsimp only at h
      split at h
      · rename_i tail heq
        exact .inl ⟨tail, heq, h⟩
      · rename_i tail heq
        cases h
        exact .inr ⟨heq, rfl⟩
      · cases h
    · rintro (⟨h, -⟩ | ⟨-, item, after, hitem, ⟨tail, heq, h⟩ | ⟨heq, rfl⟩⟩)
      · exact absurd h (hclose rest)
      · simp only [hitem, Option.bind_eq_bind, Option.bind_some, heq, h]
      · simp only [hitem, Option.bind_eq_bind, Option.bind_some, heq]
        rfl

theorem entries?_succ_eq_some_iff {table found : Value} :
    entries? value? (fuel + 1) table s = some (found, rest) ↔
      (skipSpace s = '\x7d' :: rest ∧ found = table) ∨
      ((skipSpace s).head? ≠ some '\x7d' ∧ ∃ path value after grown,
        assignment? skipSpace value? (skipSpace s) = some ((path, value), after) ∧
        Value.assignPath path value table = some grown ∧
        ((∃ tail, skipSpace after = ',' :: tail ∧ entries? value? fuel grown tail = some (found, rest)) ∨
          (skipSpace after = '\x7d' :: rest ∧ found = grown))) := by
  rw [entries?]
  split
  · rename_i tail heq
    simp [heq, and_comm, eq_comm]
  · rename_i hclose
    have hhead : (skipSpace s).head? ≠ some '\x7d' := fun h => by
      obtain ⟨tail, htail⟩ := List.head?_eq_some_iff.mp h
      exact hclose tail htail
    constructor
    · intro h
      obtain ⟨⟨⟨path, value⟩, after⟩, hentry, h⟩ := Option.bind_eq_some_iff.mp h
      obtain ⟨grown, hgrown, h⟩ := Option.bind_eq_some_iff.mp h
      refine .inr ⟨hhead, path, value, after, grown, hentry, hgrown, ?_⟩
      split at h
      · rename_i tail heq
        exact .inl ⟨tail, heq, h⟩
      · rename_i tail heq
        cases h
        exact .inr ⟨heq, rfl⟩
      · cases h
    · rintro (⟨h, -⟩ | ⟨-, path, value, after, grown, hentry, hgrown, ⟨tail, heq, h⟩ | ⟨heq, rfl⟩⟩)
      · exact absurd h (hclose rest)
      · simp only [hentry, hgrown, Option.bind_eq_bind, Option.bind_some, heq, h]
      · simp only [hentry, hgrown, Option.bind_eq_bind, Option.bind_some, heq]
        rfl

/-- What closes or separates the items of a list does not end the line. -/
theorem skipSpace_eq_cons (hs : Lines s) {c : Char} (hc : c ≠ '\n') (h : skipSpace s = c :: rest) :
    rest ≠ [] ∧ Lines rest ∧ ∀ more, skipSpace (s ++ more) = c :: (rest ++ more) := by
  obtain ⟨hlines, hmore⟩ := passes_skipSpace hs
  rw [h] at hlines hmore
  exact ⟨hlines.ne_nil hc, hlines.tail, hmore (List.cons_ne_nil c rest)⟩

theorem head?_skipSpace_append (hs : Lines s) (hne : skipSpace s ≠ []) (more : List Char) :
    (skipSpace (s ++ more)).head? = (skipSpace s).head? := by
  obtain ⟨c, tail, h⟩ := List.exists_cons_of_ne_nil hne
  rw [(passes_skipSpace hs).2 hne, h]
  rfl

/-- More text takes more fuel. -/
theorem items?_append (hvalue : Local value?) (hnil : value? [] = none) {enough : Nat}
    {seen items : List Value} (hs : Lines s) (hread : items? value? fuel seen s = some (items, rest))
    (hle : fuel ≤ enough) :
    rest ≠ [] ∧ Lines rest ∧
      ∀ more, items? value? enough seen (s ++ more) = some (items, rest ++ more) := by
  induction fuel generalizing enough seen s with
  | zero => cases hread
  | succ fuel ih =>
    obtain ⟨enough, rfl⟩ := Nat.exists_eq_add_of_le' (Nat.le_trans (Nat.le_add_left 1 fuel) hle)
    obtain ⟨hclose, rfl⟩ | ⟨hhead, item, after, hitem, hafter⟩ := items?_succ_eq_some_iff.1 hread
    · obtain ⟨hrest, hlines, hmore⟩ := skipSpace_eq_cons hs (by decide) hclose
      exact ⟨hrest, hlines, fun more => items?_succ_eq_some_iff.2 (.inl ⟨hmore more, rfl⟩)⟩
    have hspace : skipSpace s ≠ [] := fun h => by simp [h, hnil] at hitem
    obtain ⟨-, hlines, hmoreItem⟩ := hvalue.comp hnil passes_skipSpace hs hitem
    obtain ⟨tail, hcomma, htail⟩ | ⟨hclose, rfl⟩ := hafter
    · obtain ⟨-, htailLines, hmoreComma⟩ := skipSpace_eq_cons hlines (by decide) hcomma
      obtain ⟨hrest, hrestLines, hmoreItems⟩ := ih htailLines htail (Nat.le_of_succ_le_succ hle)
      exact ⟨hrest, hrestLines, fun more => items?_succ_eq_some_iff.2 (.inr
        ⟨by rwa [head?_skipSpace_append hs hspace], item, after ++ more, hmoreItem more,
          .inl ⟨tail ++ more, hmoreComma more, hmoreItems more⟩⟩)⟩
    · obtain ⟨hrest, hrestLines, hmoreClose⟩ := skipSpace_eq_cons hlines (by decide) hclose
      exact ⟨hrest, hrestLines, fun more => items?_succ_eq_some_iff.2 (.inr
        ⟨by rwa [head?_skipSpace_append hs hspace], item, after ++ more, hmoreItem more,
          .inr ⟨hmoreClose more, rfl⟩⟩)⟩

theorem entries?_append (hvalue : Local value?) (hnil : value? [] = none) {enough : Nat}
    {table found : Value} (hs : Lines s) (hread : entries? value? fuel table s = some (found, rest))
    (hle : fuel ≤ enough) :
    rest ≠ [] ∧ Lines rest ∧
      ∀ more, entries? value? enough table (s ++ more) = some (found, rest ++ more) := by
  induction fuel generalizing enough table s with
  | zero => cases hread
  | succ fuel ih =>
    obtain ⟨enough, rfl⟩ := Nat.exists_eq_add_of_le' (Nat.le_trans (Nat.le_add_left 1 fuel) hle)
    obtain ⟨hclose, rfl⟩ | ⟨hhead, path, value, after, grown, hentry, hgrown, hafter⟩ :=
      entries?_succ_eq_some_iff.1 hread
    · obtain ⟨hrest, hlines, hmore⟩ := skipSpace_eq_cons hs (by decide) hclose
      exact ⟨hrest, hlines, fun more => entries?_succ_eq_some_iff.2 (.inl ⟨hmore more, rfl⟩)⟩
    have hspace : skipSpace s ≠ [] := fun h => by
      rw [h] at hentry
      cases hentry
    obtain ⟨-, hlines, hmoreEntry⟩ :=
      (local_assignment? passes_skipSpace hvalue hnil).comp rfl passes_skipSpace hs hentry
    obtain ⟨tail, hcomma, htail⟩ | ⟨hclose, rfl⟩ := hafter
    · obtain ⟨-, htailLines, hmoreComma⟩ := skipSpace_eq_cons hlines (by decide) hcomma
      obtain ⟨hrest, hrestLines, hmoreEntries⟩ := ih htailLines htail (Nat.le_of_succ_le_succ hle)
      exact ⟨hrest, hrestLines, fun more => entries?_succ_eq_some_iff.2 (.inr
        ⟨by rwa [head?_skipSpace_append hs hspace], path, value, after ++ more, grown, hmoreEntry more,
          hgrown, .inl ⟨tail ++ more, hmoreComma more, hmoreEntries more⟩⟩)⟩
    · obtain ⟨hrest, hrestLines, hmoreClose⟩ := skipSpace_eq_cons hlines (by decide) hclose
      exact ⟨hrest, hrestLines, fun more => entries?_succ_eq_some_iff.2 (.inr
        ⟨by rwa [head?_skipSpace_append hs hspace], path, value, after ++ more, found, hmoreEntry more,
          hgrown, .inr ⟨hmoreClose more, rfl⟩⟩)⟩

theorem valueWithin?_nil (levels : Nat) : valueWithin? levels [] = none := by
  cases levels <;> rfl

theorem valueWithin?_of_ne {c : Char} (harray : c ≠ '[') (hbraces : c ≠ '\x7b') (levels : Nat) :
    valueWithin? levels (c :: s) = scalar? (c :: s) := by
  cases levels with
  | zero => rfl
  | succ levels =>
    rw [valueWithin?]
    · simpa using harray
    · simpa using hbraces

theorem local_items? (hvalue : Local value?) (hnil : value? [] = none) :
    Local fun s => items? value? (s.length + 1) [] s := by
  intro s items rest hs hread
  obtain ⟨hrest, hlines, -⟩ := items?_append hvalue hnil hs hread (Nat.le_refl _)
  refine ⟨hrest, hlines, fun more => ?_⟩
  exact (items?_append hvalue hnil hs hread (by simp)).2.2 more

theorem local_entries? (hvalue : Local value?) (hnil : value? [] = none) (table : Value) :
    Local fun s => entries? value? (s.length + 1) table s := by
  intro s found rest hs hread
  obtain ⟨hrest, hlines, -⟩ := entries?_append hvalue hnil hs hread (Nat.le_refl _)
  refine ⟨hrest, hlines, fun more => ?_⟩
  exact (entries?_append hvalue hnil hs hread (by simp)).2.2 more

theorem local_valueWithin? (levels : Nat) : Local (valueWithin? levels) := by
  induction levels with
  | zero => exact local_scalar?
  | succ levels ih =>
    intro s value rest hs hread
    obtain _ | ⟨c, s⟩ := s
    · cases hread
    by_cases harray : c = '['
    · subst harray
      exact (local_items? ih (valueWithin?_nil levels)).map Value.array hs.tail hread
    by_cases hbraces : c = '\x7b'
    · subst hbraces
      exact local_entries? ih (valueWithin?_nil levels) _ hs.tail hread
    · rw [valueWithin?_of_ne harray hbraces] at hread
      simpa only [List.cons_append, valueWithin?_of_ne harray hbraces] using local_scalar? hs hread

theorem local_value? : Local Toml.value? := local_valueWithin? nestingLimit

/-! ### Statements -/

theorem statement?_of_ne {c : Char} (hc : c ≠ '[') : statement? (c :: s) =
    (assignment? skipBlanks Toml.value? (c :: s)).map fun found =>
      (.assign found.1.1 found.1.2, found.2) := by
  rw [statement?]
  · simpa using fun rest h => absurd h hc
  · simpa using hc

theorem statement?_header {d : Char} (hd : d ≠ '[') : statement? ('[' :: d :: s) =
    (key? (d :: s)).bind fun (path, rest) =>
      match rest with
      | ']' :: rest => some (.header path, rest)
      | _ => none := by
  rw [statement?]
  · rfl
  · simpa using hd

theorem local_statement? : Local statement? := by
  intro s statement rest hs hread
  rcases s with _ | ⟨c, s⟩
  · cases hread
  by_cases hc : c = '['
  · subst hc
    obtain ⟨d, s, rfl⟩ := List.exists_cons_of_ne_nil (hs.ne_nil (by decide))
    by_cases hd : d = '['
    · subst hd
      obtain ⟨⟨path, after⟩, hpath, hread⟩ := Option.bind_eq_some_iff.mp hread
      obtain ⟨-, hlines, hmore⟩ := local_key? hs.tail.tail hpath
      dsimp only at hread
      split at hread
      · cases hread
        refine ⟨hlines.tail.ne_nil (by decide), hlines.tail.tail, fun more => ?_⟩
        simp only [List.cons_append, statement?, hmore, Option.bind_eq_bind, Option.bind_some]
        rfl
      · cases hread
    · rw [statement?_header hd] at hread
      obtain ⟨⟨path, after⟩, hpath, hread⟩ := Option.bind_eq_some_iff.mp hread
      obtain ⟨-, hlines, hmore⟩ := local_key? hs.tail hpath
      dsimp only at hread
      split at hread
      · cases hread
        refine ⟨hlines.ne_nil (by decide), hlines.tail, fun more => ?_⟩
        simp only [List.cons_append] at hmore ⊢
        simp only [statement?_header hd, hmore, Option.bind_some]
      · cases hread
  · rw [statement?_of_ne hc] at hread
    obtain ⟨⟨⟨path, value⟩, after⟩, hassign, heq⟩ := Option.map_eq_some_iff.mp hread
    cases heq
    obtain ⟨hrest, hlines, hmore⟩ := local_assignment? passes_skipBlanks local_value? rfl hs hassign
    refine ⟨hrest, hlines, fun more => ?_⟩
    rw [List.cons_append, statement?_of_ne hc, ← List.cons_append, hmore]
    rfl

end InlineMarkup.Toml

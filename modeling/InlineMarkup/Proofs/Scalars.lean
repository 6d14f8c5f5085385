import InlineMarkup.Proofs.Lookahead

/-! Scalars: the decimal digits of a number are read as that number, and a plain text in quotes as
itself. -/

namespace InlineMarkup.Toml

variable {s rest : List Char} {c : Char} {n : Nat}

/-! ### Digits -/

theorem toNat_of_isDigit (h : c.isDigit) : 48 ≤ c.toNat ∧ c.toNat ≤ 57 :=
  Char.isDigit_iff_toNat.mp h

theorem digit?_of_isDigit (h : c.isDigit) : digit? 10 c = some (c.toNat - '0'.toNat) := by
  have hlt : c.toNat - '0'.toNat < 10 := by
    have := (toNat_of_isDigit h).2
    have hzero : '0'.toNat = 48 := rfl
    omega
  rw [digit?, hexDigit?, if_pos h, Option.filter_some, if_pos (by simpa using hlt)]

theorem groupedDigits?_go_of_isDigit (h : ∀ c ∈ s, c.isDigit) {parted : Bool} (hne : s ≠ [] ∨ parted)
    (seen : List Nat) : groupedDigits?.go (digit? 10) s parted seen =
      some (seen.reverse ++ s.map fun c => c.toNat - '0'.toNat) := by
  induction s generalizing parted seen with
  | nil =>
    obtain h | rfl := hne
    · exact absurd rfl h
    · simp [groupedDigits?.go]
  | cons c s ih =>
    have hc : c ≠ '_' := by
      rintro rfl
      exact absurd (h '_' List.mem_cons_self) (by decide)
    rw [groupedDigits?.go, if_neg hc, digit?_of_isDigit (h c List.mem_cons_self), Option.bind_some,
      ih (fun d hd => h d (List.mem_cons_of_mem _ hd)) (.inr rfl)]
    simp

theorem groupedDigits?_of_isDigit (h : ∀ c ∈ s, c.isDigit) (hne : s ≠ []) :
    groupedDigits? (digit? 10) s = some (s.map fun c => c.toNat - '0'.toNat) :=
  groupedDigits?_go_of_isDigit h (.inl hne) []

theorem ofDigits_map (s : List Char) :
    ofDigits 10 (s.map fun c => c.toNat - '0'.toNat) = Nat.ofDigitChars 10 s 0 := by
  rw [ofDigits, Nat.ofDigitChars, List.foldl_map]

theorem isDigit_of_mem_toDigits (h : c ∈ Nat.toDigits 10 n) : c.isDigit :=
  Nat.isDigit_of_mem_toDigits (by decide) (by decide) h

/-- Only zero starts with the digit zero. -/
theorem eq_nil_of_toDigits_eq (h : Nat.toDigits 10 n = '0' :: rest) : rest = [] := by
  induction hn : n using Nat.strongRecOn generalizing n rest with
  | _ m ih =>
    subst hn
    by_cases hlt : n < 10
    · rw [Nat.toDigits_of_lt_base hlt] at h
      exact (List.cons.inj h).2.symm
    · have hdigits := Nat.toDigits_of_base_le (by decide : 1 < 10) (Nat.le_of_not_lt hlt)
      obtain ⟨d, digits, hd⟩ := List.exists_cons_of_ne_nil (Nat.toDigits_ne_nil (n := n / 10) (b := 10))
      rw [hdigits, hd] at h
      obtain ⟨rfl, -⟩ := List.cons.inj h
      obtain rfl := ih (n / 10) (by omega) hd rfl
      have hzero : Nat.ofDigitChars 10 (Nat.toDigits 10 (n / 10)) 0 = n / 10 :=
        Nat.ofDigitChars_ten_toDigits
      rw [hd] at hzero
      have : n / 10 = 0 := hzero.symm
      omega

theorem decimalDigits?_toDigits (n : Nat) : decimalDigits? (Nat.toDigits 10 n) =
    some ((Nat.toDigits 10 n).map fun c => c.toNat - '0'.toNat) := by
  rw [decimalDigits?, groupedDigits?_of_isDigit (fun c => isDigit_of_mem_toDigits) Nat.toDigits_ne_nil]
  have hdigit (c) (h : c ∈ Nat.toDigits 10 n) := toNat_of_isDigit (isDigit_of_mem_toDigits h)
  have hzero (rest) (h : Nat.toDigits 10 n = '0' :: rest) := eq_nil_of_toDigits_eq h
  generalize Nat.toDigits 10 n = digits at hdigit hzero
  split
  · rename_i heq
    exact heq.symm
  · rename_i tail hlong heq
    obtain _ | ⟨c, digits⟩ := digits
    · cases heq
    have hhead : c.toNat - 48 = 0 := (List.cons.inj (Option.some.inj heq)).1
    have hc : c = '0' := Char.toNat_inj.mp (by have := hdigit c List.mem_cons_self; simp; omega)
    obtain rfl := hzero digits (by rw [hc])
    exact (hlong (List.cons.inj (Option.some.inj heq)).2.symm).elim
  · rfl

/-! ### Other atoms -/

theorem mem_of_after? {d : Char} (h : after? d s = some rest) : d ∈ s := by
  obtain _ | ⟨c, s⟩ := s
  · cases h
  · rw [after?] at h
    split at h
    · rename_i hc
      rw [hc]
      exact List.mem_cons_self
    · cases h

theorem fixedDigits?_suffix {count value : Nat} (h : fixedDigits? count s = some (value, rest)) :
    rest <:+ s := by
  obtain ⟨digits, -, h⟩ := Option.bind_eq_some_iff.mp h
  obtain ⟨-, -, h⟩ := Option.bind_eq_some_iff.mp h
  cases h
  exact List.drop_suffix count s

theorem mem_of_date? (h : date? s = some rest) : '-' ∈ s := by
  obtain ⟨⟨year, after⟩, hyear, h⟩ := Option.bind_eq_some_iff.mp h
  obtain ⟨month, hmonth, -⟩ := Option.bind_eq_some_iff.mp h
  exact (fixedDigits?_suffix hyear).mem (mem_of_after? hmonth)

theorem mem_of_clock? (h : clock? s = some rest) : ':' ∈ s := by
  obtain ⟨⟨hour, after⟩, hhour, h⟩ := Option.bind_eq_some_iff.mp h
  obtain ⟨minute, hminute, -⟩ := Option.bind_eq_some_iff.mp h
  exact (fixedDigits?_suffix hhour).mem (mem_of_after? hminute)

theorem date?_of_isDigit (h : ∀ c ∈ s, c.isDigit) : date? s = none := by
  cases hdate : date? s with
  | none => rfl
  | some rest => exact absurd (h '-' (mem_of_date? hdate)) (by decide)

theorem isMoment_of_isDigit (h : ∀ c ∈ s, c.isDigit) : isMoment s = false := by
  have htime : time? s = none := by
    cases hclock : clock? s with
    | none => rw [time?, hclock, Option.bind_none]
    | some rest => exact absurd (h ':' (mem_of_clock? hclock)) (by decide)
  rw [isMoment, date?_of_isDigit h]
  simp [htime]

theorem splitSign_of_isDigit (h : ∀ c ∈ s, c.isDigit) : splitSign s = (false, s) := by
  unfold splitSign
  split
  · exact absurd (h '-' List.mem_cons_self) (by decide)
  · exact absurd (h '+' List.mem_cons_self) (by decide)
  · rfl

theorem span_of_isDigit {p : Char → Bool} (h : ∀ c ∈ s, c.isDigit) (hp : ∀ c, c.isDigit → p c) :
    s.span p = (s, []) := by
  have hall : ∀ c ∈ s, p c := fun c hc => hp c (h c hc)
  rw [List.span_eq_takeWhile_dropWhile, List.takeWhile_eq_self_iff.mpr hall,
    List.dropWhile_eq_nil_iff.mpr hall]

theorem ne_of_isDigit {d : Char} (h : c.isDigit) (hd : d.isDigit = false) : c ≠ d := by
  rintro rfl
  simp [h] at hd

/-- A whole number is no float. -/
theorem isFloat_of_isDigit (h : ∀ c ∈ s, c.isDigit) : isFloat s = false := by
  have hletter : s ≠ "inf".toList ∧ s ≠ "nan".toList := by
    constructor
    · rintro rfl
      exact absurd (h 'i' (by decide)) (by decide)
    · rintro rfl
      exact absurd (h 'n' (by decide)) (by decide)
  have hexponent : s.span (fun c => c != 'e' && c != 'E') = (s, []) := span_of_isDigit h fun c hc => by
    simp [ne_of_isDigit hc (d := 'e') rfl, ne_of_isDigit hc (d := 'E') rfl]
  have hpoint : s.span (· != '.') = (s, []) := span_of_isDigit h fun c hc => by
    simp [ne_of_isDigit hc (d := '.') rfl]
  simp only [isFloat, splitSign_of_isDigit h, hletter, or_self, if_false, hexponent, hpoint]
  split <;> simp

/-! ### The digits of a number -/

theorem integer?_toDigits (hn : n < Nat.pow 2 127) : integer? (Nat.toDigits 10 n) = some (n : Int) := by
  have h : ∀ c ∈ Nat.toDigits 10 n, c.isDigit := fun c => isDigit_of_mem_toDigits
  have hrange : inIntegerRange n = true := by
    simp only [inIntegerRange, Bool.and_eq_true, decide_eq_true_eq]
    have hpow : Int.pow 2 127 = ((Nat.pow 2 127 : Nat) : Int) := by decide
    have hpow' : Int.pow 2 128 = ((Nat.pow 2 128 : Nat) : Int) := by decide
    have hle : Nat.pow 2 127 ≤ Nat.pow 2 128 := by decide
    rw [hpow, hpow']
    omega
  have hbase {d : Char} (hd : d.isDigit = false) {rest} : Nat.toDigits 10 n ≠ '0' :: d :: rest := by
    intro heq
    have := h d (by simp [heq])
    simp [hd] at this
  rw [integer?]
  · simp only [splitSign_of_isDigit h, decimalDigits?_toDigits, Option.map_some, ofDigits_map,
      Nat.ofDigitChars_ten_toDigits]
    simp [hrange]
  all_goals
    intro rest heq
    exact hbase rfl heq

theorem atom?_toDigits (hn : n < Nat.pow 2 127) : atom? (Nat.toDigits 10 n) = some (.integer n) := by
  have h : ∀ c ∈ Nat.toDigits 10 n, c.isDigit := fun c => isDigit_of_mem_toDigits
  have hword {word : List Char} (hletter : word.any fun c => !c.isDigit) : Nat.toDigits 10 n ≠ word := by
    obtain ⟨c, hc, hdigit⟩ := List.any_eq_true.mp hletter
    rintro rfl
    simp [h c hc] at hdigit
  rw [atom?, if_neg (hword (by decide)), if_neg (hword (by decide)), isMoment_of_isDigit h,
    isFloat_of_isDigit h, integer?_toDigits hn]
  rfl

theorem isAtomChar_of_isDigit (h : c.isDigit) : isAtomChar c := by
  simp [isAtomChar, isBareKeyChar, Char.isAlphanum, h]

theorem splitAtom_toDigits (n : Nat) (rest : List Char) :
    splitAtom (Nat.toDigits 10 n ++ '\n' :: rest) = (Nat.toDigits 10 n, '\n' :: rest) := by
  have h : ∀ c ∈ Nat.toDigits 10 n, isAtomChar c := fun c hc =>
    isAtomChar_of_isDigit (isDigit_of_mem_toDigits hc)
  have htake : (Nat.toDigits 10 n ++ '\n' :: rest).takeWhile isAtomChar = Nat.toDigits 10 n := by
    rw [List.takeWhile_append_of_pos h, List.takeWhile_cons_of_neg (by decide), List.append_nil]
  have hdrop : (Nat.toDigits 10 n ++ '\n' :: rest).dropWhile isAtomChar = '\n' :: rest := by
    rw [List.dropWhile_append_of_pos h, List.dropWhile_cons_of_neg (by decide)]
  rw [splitAtom_of_not_date, htake, hdrop]
  intro d after _ hafter
  rw [hdrop] at hafter
  simp at hafter

/-- The digits of a number and the end of the line after them. -/
theorem value?_toDigits (hn : n < Nat.pow 2 127) (rest : List Char) :
    value? (Nat.toDigits 10 n ++ '\n' :: rest) = some (.integer n, '\n' :: rest) := by
  obtain ⟨c, digits, hdigits⟩ := List.exists_cons_of_ne_nil (Nat.toDigits_ne_nil (n := n) (b := 10))
  have hc : c.isDigit := isDigit_of_mem_toDigits (by rw [hdigits]; exact List.mem_cons_self)
  have hsplit := splitAtom_toDigits n rest
  have hatom := atom?_toDigits hn
  rw [hdigits] at hsplit hatom ⊢
  rw [List.cons_append] at hsplit ⊢
  rw [value?, valueWithin?_of_ne (ne_of_isDigit hc rfl) (ne_of_isDigit hc rfl),
    scalar?_of_ne (ne_of_isDigit hc rfl) (ne_of_isDigit hc rfl), hsplit, hatom]
  rfl

/-! ### Plain text in quotes -/

/-- Whether the character stands for itself in double quotes. -/
def isPlain (c : Char) : Bool := c != '"' && c != '\\' && c != '\n'

theorem isPlain_iff : isPlain c ↔ c ≠ '"' ∧ c ≠ '\\' ∧ c ≠ '\n' := by
  simp [isPlain, and_assoc]

theorem basicString?_of_isPlain (h : ∀ c ∈ s, isPlain c) (seen rest : List Char) :
    basicString? seen (s ++ '"' :: rest) = some (seen.reverse ++ s, rest) := by
  induction s generalizing seen with
  | nil => rw [List.nil_append, basicString?, if_pos rfl, List.append_nil]
  | cons c s ih =>
    obtain ⟨hquote, hescape, hbreak⟩ := isPlain_iff.1 (h c List.mem_cons_self)
    rw [List.cons_append, basicString?, if_neg hquote, if_neg hbreak, if_neg hescape,
      ih fun d hd => h d (List.mem_cons_of_mem c hd)]
    simp

theorem value?_quoted (h : ∀ c ∈ s, isPlain c) (hne : s ≠ []) (rest : List Char) :
    value? ('"' :: s ++ '"' :: rest) = some (.string s, rest) := by
  obtain ⟨c, s, rfl⟩ := List.exists_cons_of_ne_nil hne
  have hquote := (isPlain_iff.1 (h c List.mem_cons_self)).1
  have hstring : string? ('"' :: c :: (s ++ '"' :: rest)) = some (c :: s, rest) := by
    rw [string?]
    · exact basicString?_of_isPlain h [] rest
    · simpa using fun _ heq => absurd heq hquote
    · simp
  simp only [List.cons_append]
  rw [value?, valueWithin?_of_ne (by decide) (by decide), scalar?, hstring]
  rfl

end InlineMarkup.Toml

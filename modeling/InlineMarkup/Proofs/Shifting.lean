import InlineMarkup.Proofs.Stretches

/-! Shifting: a text that stands further on is scanned alike, and what is said about it moves along. -/

namespace InlineMarkup

/-- The same token `n` bytes further on. -/
def Token.shift (n : Nat) (token : Token) : Token := { token with pos := n + token.pos }

/-- The same warning `n` bytes further on. -/
def Warning.shift (n : Nat) (warning : Warning) : Warning :=
  { warning with byteIndex := n + warning.byteIndex }

/-- The same finding `n` bytes further on. -/
def Finding.shift (n : Nat) (finding : Finding) : Finding :=
  { finding with pos := n + finding.pos, warning := finding.warning.shift n }

def Reading.shift (n : Nat) (reading : Reading) : Reading :=
  { reading with warning := reading.warning.map (Warning.shift n) }

def Construct.shift (n : Nat) : Construct → Construct
  | owned trigger reading => owned trigger (reading.shift n)
  | bareUrl len => bareUrl len

/-- The same stretch `n` bytes further on. -/
def Stretch.shift (n : Nat) (stretch : Stretch) : Stretch :=
  { stretch with construct := stretch.construct.map (Construct.shift n) }

variable {options : ScanOptions} {lastParen lastParen' : Option Nat} {prev prev' : Option Char}
  {index n : Nat} {rest before after : List Char} {stretch : Stretch} {stretches : List Stretch}

theorem Token.placeFrom_shift (n pos : Nat) (pieces : List (TokenKind × List Char)) :
    placeFrom (n + pos) pieces = (placeFrom pos pieces).map (Token.shift n) := by
  induction pieces generalizing pos with
  | nil => rfl
  | cons piece pieces ih =>
    rw [placeFrom, placeFrom, List.map_cons, ← ih, Nat.add_assoc]
    rfl

/-! ### The last occurrence of a scalar value -/

theorem lastOffset?_go_append (c : Char) (s t : List Char) (index : Nat) (found : Option Nat) :
    lastOffset?.go c (s ++ t) index found =
      lastOffset?.go c t (index + byteSize s) (lastOffset?.go c s index found) := by
  induction s generalizing index found with
  | nil => rfl
  | cons d s ih =>
    rw [List.cons_append, lastOffset?.go, ih, lastOffset?.go, byteSize_cons, Nat.add_assoc]

theorem lastOffset?_go_shift (c : Char) (n : Nat) (t : List Char) (index : Nat)
    (found found' : Option Nat) :
    lastOffset?.go c t (n + index) ((found.map (n + ·)).or found') =
      ((lastOffset?.go c t index found).map (n + ·)).or found' := by
  induction t generalizing index found with
  | nil => rfl
  | cons d t ih =>
    rw [lastOffset?.go, lastOffset?.go, ← ih, Nat.add_assoc]
    split <;> rfl

/-- Of two texts side by side the second one decides, unless there is nothing in it. -/
theorem lastOffset?_append (c : Char) (s t : List Char) : lastOffset? c (s ++ t) =
    ((lastOffset? c t).map (byteSize s + ·)).or (lastOffset? c s) := by
  rw [lastOffset?, lastOffset?_go_append, Nat.zero_add]
  exact lastOffset?_go_shift c (byteSize s) t 0 none _

/-! ### Rules and constructs -/

/-- Whether addresses reach as far at byte `n + index` of one text as at byte `index` of another. -/
def SameWindow (n : Nat) (lastParen lastParen' : Option Nat) : Prop :=
  ∀ index, lastParen'.elim 0 (· + 1 - (n + index + 2)) = lastParen.elim 0 (· + 1 - (index + 2))

theorem sameWindow_append {s t : List Char} {c : Char}
    (hlast : ∀ last ∈ lastOffset? c s, last < byteSize s) :
    SameWindow (byteSize s) (lastOffset? c t) (lastOffset? c (s ++ t)) := by
  intro index
  rw [lastOffset?_append]
  cases lastOffset? c t with
  | some last =>
    simp only [Option.map_some, Option.some_or, Option.elim_some]
    omega
  | none =>
    cases hs : lastOffset? c s with
    | none => rfl
    | some last =>
      have := hlast last hs
      simp only [Option.map_none, Option.none_or, Option.elim_some, Option.elim_none]
      omega

namespace Reading

theorem unexpected_shift (n : Nat) (kind : TokenKind) (index : Nat) (rest : List Char)
    (expected : String) (found : Option Char) (suggestion : Option String) :
    Warning.unexpected kind (n + index) rest expected found suggestion =
      (Warning.unexpected kind index rest expected found suggestion).shift n := by
  cases found <;> rfl

theorem tilde_shift (n index : Nat) (rest : List Char) :
    tilde (n + index) rest = (tilde index rest).shift n := by
  unfold tilde
  split
  · rfl
  · rw [unexpected_shift]
    rfl

theorem bang_shift (n index : Nat) (rest : List Char) :
    bang (n + index) rest = (bang index rest).shift n := by
  unfold bang
  split
  · rfl
  · rw [unexpected_shift]
    rfl

theorem openBracket_shift (n index : Nat) (rest : List Char) :
    openBracket (n + index) rest = (openBracket index rest).shift n := by
  unfold openBracket
  split <;> rfl

theorem escape_shift (n index : Nat) (rest : List Char) :
    escape (n + index) rest = (escape index rest).shift n := by
  unfold escape
  split
  · split <;> rfl
  · rfl

theorem code_shift (n index : Nat) (rest : List Char) :
    code (n + index) rest = (code index rest).shift n := by
  unfold code
  dsimp only
  split
  · rfl
  · split
    · rfl
    · split <;> rfl

theorem addressTo_shift (n index : Nat) (rest : List Char) (len : Option Nat) :
    addressTo (n + index) rest len = (addressTo index rest len).shift n := by
  cases len with
  | none => rfl
  | some len => cases len <;> rfl

theorem closeBracketBefore_shift (h : SameWindow n lastParen lastParen') (index : Nat)
    (rest : List Char) : closeBracketBefore lastParen' (n + index) rest =
      (closeBracketBefore lastParen index rest).shift n := by
  unfold closeBracketBefore
  rw [h index]
  unfold closeBracketWith
  split
  · exact addressTo_shift ..
  · rfl
  · rfl

theorem read_shift (h : SameWindow n lastParen lastParen') (trigger : Trigger) (index : Nat)
    (rest : List Char) : (Scan.ruleFor lastParen' trigger).read (n + index) rest =
      ((Scan.ruleFor lastParen trigger).read index rest).shift n := by
  cases trigger with
  | star =>
    simp only [Scan.ruleFor, Trigger.rule, Rule.read, star]
    split <;> rfl
  | tilde => exact tilde_shift n index rest
  | backtick => exact code_shift n index rest
  | backslash => exact escape_shift n index rest
  | underscore => rfl
  | bang => exact bang_shift n index rest
  | openBracket => exact openBracket_shift n index rest
  | closeBracket => exact closeBracketBefore_shift h index rest

end Reading

namespace Construct

variable {construct : Construct}

theorem shift_reading (n : Nat) (construct : Construct) :
    (construct.shift n).reading = construct.reading.shift n := by
  cases construct <;> rfl

theorem finding?_shift (n pos : Nat) (construct : Construct) :
    (construct.shift n).finding? (n + pos) = (construct.finding? pos).map (Finding.shift n) := by
  cases construct with
  | owned trigger reading =>
    simp only [shift, finding?, Reading.shift, Option.map_map]
    rfl
  | bareUrl len => rfl

end Construct

/-- Whether two scalar values are alike as what stands before a construct: both the same, or a white
space and the start of a text. -/
def SameBefore (prev prev' : Option Char) : Prop :=
  prev' = prev ∨ prev = none ∧ prev'.all Unicode.isWhiteSpace

theorem isAlphanumeric_of_isWhiteSpace {c : Char} (h : Unicode.isWhiteSpace c) :
    Unicode.isAlphanumeric c = false := by
  have hall : Unicode.whiteSpace.all (!Unicode.isAlphanumeric ·) := by decide +kernel
  simpa using List.all_eq_true.1 hall c (List.contains_iff_mem.1 h)

theorem SameBefore.any_isAlphanumeric (h : SameBefore prev prev') :
    prev'.any Unicode.isAlphanumeric = prev.any Unicode.isAlphanumeric := by
  rcases h with rfl | ⟨rfl, hspace⟩
  · rfl
  · cases prev' with
    | none => rfl
    | some c => exact isAlphanumeric_of_isWhiteSpace hspace

theorem SameBefore.underlineAllowed_eq (h : SameBefore prev prev') (next : Option Char) :
    Reading.underlineAllowed prev' next = Reading.underlineAllowed prev next := by
  rw [Reading.underlineAllowed, Reading.underlineAllowed, h.any_isAlphanumeric]
  rcases h with rfl | ⟨rfl, hspace⟩
  · rfl
  · have hother : prev' ≠ some '_' := by
      rintro rfl
      exact absurd hspace (by decide)
    rw [bne_iff_ne.2 hother]
    rfl

namespace Scan

theorem construct?_shift (h : SameWindow n lastParen lastParen') (hprev : SameBefore prev prev')
    (options : ScanOptions) (index : Nat) (c : Char) (after : List Char) :
    construct? options lastParen' prev' (n + index) c after =
      (construct? options lastParen prev index c after).map (Construct.shift n) := by
  have htrigger : trigger? prev' c after.head? = trigger? prev c after.head? := by
    simp only [trigger?, hprev.underlineAllowed_eq]
  unfold construct?
  rw [htrigger, hprev.any_isAlphanumeric]
  split
  · rw [Reading.read_shift h]
    rfl
  · split
    · cases Reading.bareUrl? (c :: after) <;> rfl
    · rfl

end Scan

/-! ### Stretches -/

namespace Stretch

open Scan

theorem shift_piece (n : Nat) (stretch : Stretch) : (stretch.shift n).piece = stretch.piece := by
  obtain ⟨construct, raw⟩ := stretch
  cases construct with
  | none => rfl
  | some construct => cases construct <;> rfl

theorem map_piece_shift (n : Nat) (stretches : List Stretch) :
    (stretches.map (shift n)).map piece = stretches.map piece := by
  rw [List.map_map]
  exact List.map_congr_left fun stretch _ => shift_piece n stretch

theorem flatMap_raw_shift (n : Nat) (stretches : List Stretch) :
    (stretches.map (shift n)).flatMap raw = stretches.flatMap raw := by
  rw [List.flatMap_map]
  rfl

theorem shift_construct_eq_none : (stretch.shift n).construct = none ↔ stretch.construct = none :=
  Option.map_eq_none_iff

theorem findingsFrom_shift (n pos : Nat) (stretches : List Stretch) :
    findingsFrom (n + pos) (stretches.map (shift n)) =
      (findingsFrom pos stretches).map (Finding.shift n) := by
  induction stretches generalizing pos with
  | nil => rfl
  | cons stretch stretches ih =>
    obtain ⟨construct, raw⟩ := stretch
    have hrest := ih (pos + byteSize raw)
    rw [← Nat.add_assoc] at hrest
    rw [List.map_cons, findingsFrom, findingsFrom, List.map_append, ← hrest]
    congr 1
    cases construct with
    | none => rfl
    | some construct =>
      simp only [shift, Option.map_some, Option.bind_some, Construct.finding?_shift]
      cases construct.finding? pos <;> rfl

variable {first : List Char}

/-- Whether what stands after `before` stands alike after `first` and `before`. -/
theorem constructAfter?_shift (h : SameWindow (byteSize first) lastParen lastParen')
    (hspace : first.getLast?.all Unicode.isWhiteSpace) (before : List Char) (c : Char)
    (after : List Char) :
    constructAfter? options lastParen' (first ++ before) c after =
      (constructAfter? options lastParen before c after).map (Construct.shift (byteSize first)) := by
  rw [constructAfter?, byteSize_append]
  refine construct?_shift h ?_ options _ c after
  rcases List.eq_nil_or_concat before with rfl | ⟨s, d, rfl⟩
  · rw [List.append_nil]
    exact .inr ⟨rfl, hspace⟩
  · refine .inl ?_
    rw [List.getLast?_append_of_ne_nil _ (by simp)]

theorem Stands.shift (h : SameWindow (byteSize first) lastParen lastParen')
    (hspace : first.getLast?.all Unicode.isWhiteSpace)
    (hstands : Stands options lastParen before after stretch) :
    Stands options lastParen' (first ++ before) after (stretch.shift (byteSize first)) := by
  cases hstands with
  | plain hraw hnone =>
    refine .plain hraw fun s c t hs => ?_
    rw [List.append_assoc, constructAfter?_shift h hspace, hnone s c t hs]
    rfl
  | construct hconstruct hlen =>
    refine .construct ?_ ?_
    · rw [constructAfter?_shift h hspace, hconstruct]
      rfl
    · rw [Construct.shift_reading]
      exact hlen

/-- What a scan passes over, it passes over alike further on. -/
theorem Passed.shift (h : SameWindow (byteSize first) lastParen lastParen')
    (hspace : first.getLast?.all Unicode.isWhiteSpace)
    (hpassed : Passed options lastParen before stretches) :
    Passed options lastParen' (first ++ before) (stretches.map (Stretch.shift (byteSize first))) := by
  induction stretches generalizing before with
  | nil => trivial
  | cons stretch stretches ih =>
    obtain ⟨hstands, hnext, hmore⟩ := hpassed
    have hrest := ih hmore
    rw [← List.append_assoc] at hrest
    refine ⟨?_, ?_, hrest⟩
    · rw [flatMap_raw_shift]
      exact hstands.shift h hspace
    · intro hplain next hmem
      rw [List.head?_map] at hmem
      obtain ⟨other, hother, rfl⟩ := Option.map_eq_some_iff.1 hmem
      exact mt shift_construct_eq_none.1 (hnext (shift_construct_eq_none.1 hplain) other hother)

end Stretch

end InlineMarkup

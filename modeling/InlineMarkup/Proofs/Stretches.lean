import InlineMarkup.Proofs.Cutting

/-! Stretches: what a scan passes over, one token after the other. A text is passed over in one way. -/

namespace InlineMarkup

/-- The text of one token, and the construct that it is unless it is plain. -/
structure Stretch where
  construct : Option Construct
  raw : List Char

namespace Scan

/-- The construct that starts at `c`, which stands after `before` in its text. -/
def constructAfter? (options : ScanOptions) (lastParen : Option Nat) (before : List Char)
    (c : Char) (after : List Char) : Option Construct :=
  construct? options lastParen before.getLast? (byteSize before) c after

variable {options : ScanOptions} {lastParen : Option Nat} {prev : Option Char} {index : Nat}
  {c : Char} {after : List Char} {construct : Construct}

/-- A construct is what the rule of a trigger reads, or an address that stands alone. -/
theorem construct?_eq_some (h : construct? options lastParen prev index c after = some construct) :
    (∃ trigger, c = Trigger.char trigger ∧
      (trigger = .underscore → Reading.underlineAllowed prev after.head?) ∧
      construct = .owned trigger ((ruleFor lastParen trigger).read index (c :: after))) ∨
    (options.bareUrls ∧ ¬prev.any Unicode.isAlphanumeric ∧
      ∃ len, Reading.bareUrl? (c :: after) = some len ∧ construct = .bareUrl len) := by
  unfold construct? at h
  split at h
  · rename_i trigger htrigger
    obtain ⟨hchar, hallowed⟩ := Option.filter_eq_some_iff.1 htrigger
    refine .inl ⟨trigger, (Trigger.char_of_ofChar? hchar).symm, ?_, (Option.some.inj h).symm⟩
    rintro rfl
    simpa using hallowed
  · obtain ⟨hcond, hurl⟩ := Option.ite_none_right_eq_some.1 h
    obtain ⟨len, hlen, rfl⟩ := Option.map_eq_some_iff.1 hurl
    simp only [Bool.and_eq_true, Bool.not_eq_true'] at hcond
    exact .inr ⟨hcond.1.1, by simp [hcond.2], len, hlen, rfl⟩

theorem trigger?_eq_none_iff {next : Option Char} : trigger? prev c next = none ↔
    (isTrigger c → c = '_' ∧ ¬Reading.underlineAllowed prev next) := by
  rw [trigger?, Option.filter_eq_none_iff, isTrigger]
  constructor
  · intro h htrigger
    obtain ⟨trigger, hchar⟩ := Option.isSome_iff_exists.1 htrigger
    have hother := h trigger hchar
    simp only [Bool.or_eq_true, bne_iff_ne, ne_eq, not_or, Decidable.not_not] at hother
    obtain ⟨rfl, hallowed⟩ := hother
    exact ⟨(Trigger.char_of_ofChar? hchar).symm, hallowed⟩
  · intro h trigger hchar
    obtain ⟨rfl, hallowed⟩ := h (Option.isSome_iff_exists.2 ⟨trigger, hchar⟩)
    obtain rfl : Trigger.underscore = trigger := Option.some.inj hchar
    simpa using hallowed

/-- Nothing starts at a scalar value that is no trigger, or an underscore that is no tag, and at which
no address stands alone. -/
theorem construct?_eq_none_iff : construct? options lastParen prev index c after = none ↔
    (isTrigger c → c = '_' ∧ ¬Reading.underlineAllowed prev after.head?) ∧
      (options.bareUrls → c = 'h' → ¬prev.any Unicode.isAlphanumeric →
        Reading.bareUrl? (c :: after) = none) := by
  rw [← trigger?_eq_none_iff, construct?]
  cases htrigger : trigger? prev c after.head? with
  | some trigger => simp
  | none =>
    simp only [true_and, ite_eq_right_iff, Option.map_eq_none_iff, Bool.and_eq_true, beq_iff_eq,
      Bool.not_eq_true', and_imp, Bool.not_eq_true]

end Scan

namespace Stretch

def kind (stretch : Stretch) : TokenKind := (stretch.construct.map (·.reading.kind)).getD .text

def piece (stretch : Stretch) : TokenKind × List Char := (stretch.kind, stretch.raw)

/-- What is found in stretches, the first of which stands at byte `pos`. -/
def findingsFrom (pos : Nat) : List Stretch → List Finding
  | [] => []
  | stretch :: stretches => (stretch.construct.bind (·.finding? pos)).toList ++
      findingsFrom (pos + byteSize stretch.raw) stretches

/-- Whether a scan passes over the stretch between `before` and `after`: as plain text where nothing
starts in it, and as a construct where that starts with it. -/
inductive Stands (options : ScanOptions) (lastParen : Option Nat) (before after : List Char) :
    Stretch → Prop
  | plain {raw : List Char} (hraw : raw ≠ [])
      (hnone : ∀ s c t, raw = s ++ c :: t →
        Scan.constructAfter? options lastParen (before ++ s) c (t ++ after) = none) :
      Stands options lastParen before after ⟨none, raw⟩
  | construct {c : Char} {t : List Char} {construct : Construct}
      (hconstruct : Scan.constructAfter? options lastParen before c (t ++ after) = some construct)
      (hlen : construct.reading.len = (c :: t).length) :
      Stands options lastParen before after ⟨some construct, c :: t⟩

/-- Whether a scan passes over the stretches after `before`. Two of them are never one plain text. -/
def Passed (options : ScanOptions) (lastParen : Option Nat) : List Char → List Stretch → Prop
  | _, [] => True
  | before, stretch :: stretches =>
    Stands options lastParen before (stretches.flatMap raw) stretch ∧
      (stretch.construct = none → ∀ next ∈ stretches.head?, next.construct ≠ none) ∧
      Passed options lastParen (before ++ stretch.raw) stretches

theorem textOf_map_piece (stretches : List Stretch) :
    textOf (stretches.map piece) = stretches.flatMap raw := by
  simp [textOf, List.flatMap_map, piece]

/-- The stretch of plain text, held backwards, if there is any. -/
def ofPlain (plain : List Char) : List Stretch :=
  if plain.isEmpty then [] else [⟨none, plain.reverse⟩]

theorem flatMap_raw_ofPlain (plain : List Char) : (ofPlain plain).flatMap raw = plain.reverse := by
  cases plain <;> simp [ofPlain]

theorem findingsFrom_ofPlain (pos : Nat) (plain : List Char) (stretches : List Stretch) :
    findingsFrom pos (ofPlain plain ++ stretches) =
      findingsFrom (pos + byteSize plain) stretches := by
  cases plain <;> simp [ofPlain, findingsFrom, Nat.add_comm]

theorem map_piece_ofPlain (plain : List Char) :
    (ofPlain plain).map piece = Scanned.plainPieces plain := by
  cases plain <;> rfl

variable {options : ScanOptions} {lastParen : Option Nat} {before after plain : List Char}
  {stretch : Stretch} {stretches more : List Stretch}

theorem Stands.raw_ne_nil (h : Stands options lastParen before after stretch) : stretch.raw ≠ [] := by
  cases h with
  | plain hraw => exact hraw
  | construct => exact List.cons_ne_nil _ _

/-- Plain text comes before anything else but plain text. -/
theorem passed_ofPlain (h : Passed options lastParen (before ++ plain.reverse) stretches)
    (hnext : ∀ next ∈ stretches.head?, next.construct ≠ none)
    (hnone : ∀ s c t, plain.reverse = s ++ c :: t → Scan.constructAfter? options lastParen
      (before ++ s) c (t ++ stretches.flatMap raw) = none) :
    Passed options lastParen before (ofPlain plain ++ stretches) := by
  cases plain with
  | nil => simpa [ofPlain] using h
  | cons c plain => exact ⟨.plain (by simp) hnone, fun _ => hnext, h⟩

/-- Where two ways to pass over a text both start, they go on alike. -/
theorem Stands.eq {stretch' : Stretch} (h : Stands options lastParen before after stretch)
    (hnext : stretch.construct = none → ∀ next ∈ stretches.head?, next.construct ≠ none)
    (hafter : after = stretches.flatMap raw)
    (hmore : Passed options lastParen (before ++ stretch.raw) stretches)
    {after' : List Char} (h' : Stands options lastParen before after' stretch')
    (htext : stretch.raw ++ after = stretch'.raw ++ after')
    (hlen : stretch.raw.length ≤ stretch'.raw.length) : stretch = stretch' := by
  obtain ⟨extra, hextra⟩ : stretch.raw <+: stretch'.raw :=
    List.prefix_of_prefix_length_le ⟨after, rfl⟩ ⟨after', htext.symm⟩ hlen
  rw [← hextra, List.append_assoc, List.append_cancel_left_eq] at htext
  cases h with
  | @plain raw hraw hnone =>
    obtain ⟨c, t, rfl⟩ := List.exists_cons_of_ne_nil hraw
    cases h' with
    | @plain raw' hraw' hnone' =>
      cases extra with
      | nil => simp_all
      | cons d extra =>
        -- the plain text would go on where the other way meets a construct
        cases stretches with
        | nil => simp [hafter] at htext
        | cons next stretches =>
          have hstands := hmore.1
          cases hstands with
          | plain => exact absurd rfl (hnext rfl _ rfl)
          | @construct e u construct hconstruct hlen' =>
            simp only [hafter, List.flatMap_cons, List.cons_append] at htext
            obtain ⟨rfl, hrest⟩ := List.cons_eq_cons.1 htext
            have hfree := hnone' (c :: t) e extra hextra.symm
            rw [← hrest, hconstruct] at hfree
            cases hfree
    | @construct d u construct hconstruct hlen' =>
      obtain ⟨rfl, (hu : t ++ extra = u)⟩ := List.cons_eq_cons.1 hextra
      have hfree := hnone [] c t rfl
      rw [List.append_nil, htext, ← List.append_assoc, hu, hconstruct] at hfree
      cases hfree
  | @construct c t construct hconstruct hlen' =>
    cases h' with
    | @plain raw' hraw' hnone' =>
      have hfree := hnone' [] c (t ++ extra) hextra.symm
      rw [List.append_nil, List.append_assoc, ← htext, hconstruct] at hfree
      cases hfree
    | @construct d u construct' hconstruct' hlen'' =>
      obtain ⟨rfl, (hu : t ++ extra = u)⟩ := List.cons_eq_cons.1 hextra
      subst hu
      rw [List.append_assoc, ← htext, hconstruct, Option.some.injEq] at hconstruct'
      subst hconstruct'
      have hnil : extra = [] := by
        rw [← List.length_eq_zero_iff]
        simp only [List.length_cons, List.length_append] at hlen' hlen''
        omega
      rw [hnil, List.append_nil]

theorem Passed.unique {stretches' : List Stretch} (h : Passed options lastParen before stretches)
    (h' : Passed options lastParen before stretches')
    (htext : stretches.flatMap raw = stretches'.flatMap raw) : stretches = stretches' := by
  induction stretches generalizing before stretches' with
  | nil =>
    cases stretches' with
    | nil => rfl
    | cons stretch' stretches' =>
      exact absurd (List.append_eq_nil_iff.1 htext.symm).1 h'.1.raw_ne_nil
  | cons stretch stretches ih =>
    cases stretches' with
    | nil => exact absurd (List.append_eq_nil_iff.1 htext).1 h.1.raw_ne_nil
    | cons stretch' stretches' =>
      obtain ⟨hstands, hnext, hmore⟩ := h
      obtain ⟨hstands', hnext', hmore'⟩ := h'
      have hsame : stretch = stretch' := by
        rcases Nat.le_total stretch.raw.length stretch'.raw.length with hle | hle
        · exact hstands.eq hnext rfl hmore hstands' htext hle
        · exact (hstands'.eq hnext' rfl hmore' hstands htext.symm hle).symm
      subst hsame
      rw [ih hmore hmore' (List.append_cancel_left htext)]

end Stretch

/-! ### What a scan passes over -/

theorem Token.placeFrom_append (pos : Nat) (ps qs : List (TokenKind × List Char)) :
    placeFrom pos (ps ++ qs) = placeFrom pos ps ++ placeFrom (pos + byteSize (textOf ps)) qs := by
  induction ps generalizing pos with
  | nil => rfl
  | cons piece ps ih =>
    simp [placeFrom, ih, Nat.add_assoc]

namespace Scan

open Stretch

variable {options : ScanOptions} {lastParen : Option Nat} {prev : Option Char} {index : Nat}
  {before plain text : List Char} {out : Scanned}

theorem tokens_addPlain (out : Scanned) (start : Nat) (plain : List Char) :
    (out.addPlain (start + byteSize plain) plain).tokens.toList =
      out.tokens.toList ++ Token.placeFrom start (Scanned.plainPieces plain) := by
  cases plain <;> simp [Scanned.addPlain, Scanned.plainPieces, Token.placeFrom]

theorem tokens_add (out : Scanned) (token : Token) (finding : Option Finding) :
    (out.add token finding).tokens.toList = out.tokens.toList ++ [token] := by
  cases finding <;> simp [Scanned.add]

/-- What a construct covers: the scalar value that it starts with and some of those after it. -/
theorem exists_covered {c : Char} {after : List Char} {construct : Construct}
    (h : construct? options lastParen prev index c after = some construct) :
    ∃ u rest, after = u ++ rest ∧ construct.reading.len = (c :: u).length ∧
      (construct.reading.token index (c :: after)).raw = c :: u ∧
      after.drop (construct.reading.len - 1) = rest := by
  have hcuts : construct.reading.Cuts options (fun _ _ => True) prev (c :: after) :=
    construct.cuts h fun _ _ => trivial
  obtain ⟨raw, rest, hsplit, hlen, hfits⟩ := hcuts
  obtain ⟨htake, hdrop⟩ := split_at_len hsplit hlen hfits.raw_ne_nil
  obtain ⟨d, u, rfl⟩ := List.exists_cons_of_ne_nil hfits.raw_ne_nil
  obtain ⟨rfl, (hafter : after = u ++ rest)⟩ := List.cons_eq_cons.1 hsplit
  exact ⟨u, rest, hafter, hlen, htake, hdrop⟩

/-- A scan that goes on after `before` and the plain text held backwards makes one token of each
stretch that it passes over. -/
theorem exists_passed (hprev : prev = (before ++ plain.reverse).getLast?)
    (hindex : index = byteSize before + byteSize plain)
    (hnone : ∀ s c t, plain.reverse = s ++ c :: t →
      constructAfter? options lastParen (before ++ s) c (t ++ text) = none) :
    ∃ stretches, Passed options lastParen before stretches ∧
      stretches.flatMap raw = plain.reverse ++ text ∧
      (scanFrom options lastParen prev index plain out text).tokens.toList =
        out.tokens.toList ++ Token.placeFrom (byteSize before) (stretches.map piece) ∧
      (scanFrom options lastParen prev index plain out text).findings.toList =
        out.findings.toList ++ findingsFrom (byteSize before) stretches := by
  fun_induction scanFrom options lastParen prev index plain out text generalizing before with
  | case1 prev index plain out =>
    refine ⟨ofPlain plain, ?_, ?_, ?_, ?_⟩
    · rw [← List.append_nil (ofPlain plain)]
      exact passed_ofPlain trivial (by simp) hnone
    · rw [flatMap_raw_ofPlain, List.append_nil]
    · rw [hindex, tokens_addPlain, map_piece_ofPlain]
    · rw [Scanned.findings_addPlain, ← List.append_nil (ofPlain plain), findingsFrom_ofPlain,
        findingsFrom, List.append_nil]
  | case2 prev index plain out c after construct hconstruct token =>
    rename_i ih
    subst hprev hindex
    obtain ⟨u, rest, rfl, hlen, hraw, hrest⟩ := exists_covered hconstruct
    rw [hrest] at ih ⊢
    have hbytes : byteSize (before ++ plain.reverse ++ c :: u) =
        byteSize before + byteSize plain + byteSize (c :: u) := by
      rw [byteSize_append, byteSize_append, byteSize_reverse]
    have hstop : token.stop = byteSize (before ++ plain.reverse ++ c :: u) + byteSize [] := by
      rw [hbytes, Token.stop, Token.byteLen, hraw]
      rfl
    have hlast : token.raw.getLast? =
        (before ++ plain.reverse ++ c :: u ++ [].reverse).getLast? := by
      rw [hraw, List.reverse_nil, List.append_nil, List.getLast?_append_of_ne_nil _ (by simp)]
    obtain ⟨stretches, hpassed, htext, htokens, hfindings⟩ := ih hlast hstop (by simp)
    have hstands : Stands options lastParen (before ++ plain.reverse) (stretches.flatMap raw)
        ⟨some construct, c :: u⟩ := by
      refine .construct ?_ hlen
      rw [htext, constructAfter?, byteSize_append, byteSize_reverse]
      exact hconstruct
    refine ⟨ofPlain plain ++ ⟨some construct, c :: u⟩ :: stretches, ?_, ?_, ?_, ?_⟩
    · refine passed_ofPlain ⟨hstands, by simp, hpassed⟩ (by simp) ?_
      simpa [htext] using hnone
    · rw [List.flatMap_append, flatMap_raw_ofPlain, List.flatMap_cons, htext]
      rfl
    · have htoken : token = ⟨construct.reading.kind, byteSize before + byteSize plain, c :: u⟩ :=
        congrArg (Token.mk _ _) hraw
      rw [htokens, tokens_add, tokens_addPlain, List.map_append, map_piece_ofPlain,
        Token.placeFrom_append, Scanned.textOf_plainPieces, byteSize_reverse, hbytes, htoken]
      simp [Token.placeFrom, piece, kind]
    · rw [hfindings, Scanned.findings_add, Scanned.findings_addPlain, findingsFrom_ofPlain,
        findingsFrom, hbytes, List.append_assoc]
      rfl
  | case3 prev index plain out c after hconstruct ih =>
    subst hprev hindex
    have hnone' : ∀ s d t, (c :: plain).reverse = s ++ d :: t →
        constructAfter? options lastParen (before ++ s) d (t ++ after) = none := by
      intro s d t hd
      rw [List.reverse_cons] at hd
      rcases List.eq_nil_or_concat t with rfl | ⟨u, e, rfl⟩
      · obtain ⟨rfl, hc⟩ := List.append_inj' hd rfl
        obtain rfl : c = d := by simpa using hc
        simpa [constructAfter?] using hconstruct
      · rw [List.concat_eq_append, ← List.cons_append, ← List.append_assoc] at hd
        obtain ⟨hu, he⟩ := List.append_inj' hd rfl
        obtain rfl : c = e := by simpa using he
        simpa using hnone s d u hu
    obtain ⟨stretches, hpassed, htext, htokens, hfindings⟩ :=
      @ih before (by simp) (by simp; omega) hnone'
    exact ⟨stretches, hpassed, by simpa using htext, htokens, hfindings⟩

end Scan

/-- The scan of a text makes one token of each stretch, and the stretches cover the text. -/
theorem exists_stretches (options : ScanOptions) (text : List Char) :
    ∃ stretches, Stretch.Passed options (lastOffset? ')' text) [] stretches ∧
      stretches.flatMap Stretch.raw = text ∧
      (scan options text).tokens.toList = Token.placeFrom 0 (stretches.map Stretch.piece) ∧
      (scan options text).findings.toList = Stretch.findingsFrom 0 stretches := by
  have hprev : (none : Option Char) = ([] ++ ([] : List Char).reverse).getLast? := rfl
  exact Scan.exists_passed hprev rfl (by simp)

end InlineMarkup

import InlineMarkup.Proofs.Delimiters
import InlineMarkup.Proofs.Escaping

/-! Rescanning: canonical markdown is cut where its marks meet. -/

namespace InlineMarkup

namespace Mark

def isText : Mark → Bool
  | text _ => true
  | _ => false

/-- The kind of the token that a mark is read as. -/
def kind : Mark → TokenKind
  | delimiter style => style.tokenKind
  | linkStart => .linkStart
  | imageStart => .imageStart
  | address _ => .address
  | code fence _ => if Backtick.blockFence ≤ fence then .codeBlock else .codeInline
  | text _ => .text

/-- What is said to be wrong with a mark. -/
def issues : Mark → List Issue
  | address [] => [.malformedLink]
  | _ => []

/-- Whether a mark between the scalar values `prev` and `next` is read as what it is. -/
def Stable (prev next : Option Char) : Mark → Prop
  | delimiter .italic => next ≠ some '*'
  | delimiter .underline => Reading.underlineAllowed prev next
  | delimiter .bold | delimiter .strikethrough | imageStart => True
  | linkStart => next ≠ none
  | address url => ')' ∉ url
  | code fence content => Backtick.Encloses fence content ∧ next ≠ some '`'
  | text content => content ≠ []

def AllStable : Option Char → List Mark → Option Char → Prop
  | _, [], _ => True
  | prev, mark :: marks, next =>
    mark.Stable prev ((writtenAll marks).head?.or next) ∧
      AllStable mark.written.getLast? marks next

variable {prev next : Option Char} {mark : Mark}

theorem Stable.written_ne_nil (h : mark.Stable prev next) : mark.written ≠ [] := by
  cases mark with
  | delimiter style => cases style <;> simp [written, Style.delimiter]
  | linkStart | imageStart | address => simp [written]
  | code fence content => simp [written, Markdown.fenced, h.1.content_ne_nil]
  | text content => exact Markdown.escapeFrom_ne_nil h

end Mark

/-! ### The last parenthesis -/

/-- Whether every `)` of a text at byte `index` is at or before byte `lastParen`. -/
def Covers (lastParen : Option Nat) (index : Nat) (rest : List Char) : Prop :=
  ∀ s t, rest = s ++ ')' :: t → ∃ last, lastParen = some last ∧ index + byteSize s ≤ last

variable {lastParen : Option Nat} {index : Nat} {rest s t : List Char}

theorem Covers.drop (h : Covers lastParen index (s ++ rest)) :
    Covers lastParen (index + byteSize s) rest := by
  intro s' t hrest
  obtain ⟨last, hlast, hle⟩ := h (s ++ s') t (by rw [hrest, List.append_assoc])
  exact ⟨last, hlast, by rw [byteSize_append] at hle; omega⟩

theorem le_lastOffset?_go {found : Nat} (text : List Char) (h : found ≤ index) :
    ∃ last, lastOffset?.go ')' text index (some found) = some last ∧ found ≤ last := by
  induction text generalizing index found with
  | nil => exact ⟨found, rfl, Nat.le_refl _⟩
  | cons d text ih =>
    rw [lastOffset?.go]
    split
    · obtain ⟨last, hlast, hle⟩ := ih (Nat.le_add_right index d.utf8Size)
      exact ⟨last, hlast, Nat.le_trans h hle⟩
    · exact ih (Nat.le_add_right_of_le h)

theorem covers_lastOffset?_go (found : Option Nat) :
    Covers (lastOffset?.go ')' rest index found) index rest := by
  intro s t hrest
  induction s generalizing rest index found with
  | nil =>
    rw [hrest, List.nil_append, lastOffset?.go, if_pos rfl]
    exact le_lastOffset?_go t (Nat.le_add_right ..)
  | cons d s ih =>
    rw [hrest, List.cons_append, lastOffset?.go]
    obtain ⟨last, hlast, hle⟩ := ih _ rfl
    exact ⟨last, hlast, by rw [byteSize_cons]; omega⟩

theorem covers_lastOffset? (text : List Char) : Covers (lastOffset? ')' text) 0 text :=
  covers_lastOffset?_go none

namespace Reading

theorem parenWithin?_go {window passed : Nat} {url : List Char} (hurl : ')' ∉ url)
    (hwindow : byteSize url < window) :
    parenWithin?.go window (url ++ ')' :: t) passed = some (passed + url.length) := by
  induction url generalizing window passed with
  | nil =>
    obtain ⟨n, rfl⟩ : ∃ n, window = n + 1 := ⟨window - 1, by simp at hwindow; omega⟩
    simp [parenWithin?.go]
  | cons c url ih =>
    obtain ⟨hc, hurl⟩ := not_or.1 (mt List.mem_cons.2 hurl)
    rw [byteSize_cons] at hwindow
    obtain ⟨n, rfl⟩ : ∃ n, window = n + 1 := ⟨window - 1, by omega⟩
    rw [List.cons_append, parenWithin?.go, if_neg (Ne.symm hc), ih hurl (by omega),
      List.length_cons]
    congr 1
    omega

/-! ### What the rules make of marks -/

theorem read_address {url : List Char} (hurl : ')' ∉ url)
    (hcovers : Covers lastParen index ((Mark.address url).written ++ t)) :
    closeBracketBefore lastParen index ((Mark.address url).written ++ t) =
      addressTo index ((Mark.address url).written ++ t) (some url.length) := by
  have hrest : (Mark.address url).written ++ t = ']' :: '(' :: (url ++ ')' :: t) := by
    simp [Mark.written]
  rw [hrest] at hcovers ⊢
  obtain ⟨last, rfl, hle⟩ := hcovers (']' :: '(' :: url) t rfl
  have hwindow : byteSize url < last + 1 - (index + 2) := by
    simp only [byteSize_cons, show ']'.utf8Size = 1 from rfl, show '('.utf8Size = 1 from rfl] at hle
    omega
  simp only [closeBracketBefore, closeBracketWith, Option.elim_some, parenWithin?,
    parenWithin?_go hurl hwindow, Nat.zero_add]

theorem read_code {fence : Nat} {content : List Char} (hcode : Backtick.Encloses fence content)
    (ht : t.head? ≠ some '`') :
    code index (Markdown.fenced fence content ++ t) =
      clean (if Backtick.blockFence ≤ fence then .codeBlock else .codeInline)
        (Markdown.fenced fence content).length := by
  have hbody : (content ++ (List.replicate fence '`' ++ t)).head? ≠ some '`' := by
    cases hcontent : content with
    | nil => exact absurd hcontent hcode.content_ne_nil
    | cons c s => simpa [hcontent] using hcode.head
  have hclosing := Backtick.closing?_fenced hcode.content_ne_nil hcode.last hcode.free
    hcode.fence_ne_zero ht
  have hempty : (content ++ (List.replicate fence '`' ++ t)).isEmpty = false := by
    simp [hcode.content_ne_nil]
  rw [Markdown.fenced, List.append_assoc, List.append_assoc, code,
    Backtick.runLength_replicate_append hbody, List.drop_left' (List.length_replicate ..)]
  simp only [hempty, hclosing, Bool.false_eq_true, if_false]
  simp only [List.length_append, List.length_replicate, Nat.add_assoc]

theorem read_star (ht : t.head? ≠ some '*') : star ('*' :: t) = clean .italic 1 := by
  unfold star
  split
  · rename_i heq
    obtain ⟨_, rfl⟩ := List.cons_eq_cons.1 heq
    exact absurd rfl ht
  · rfl

theorem read_openBracket (ht : t.head? ≠ none) :
    openBracket index ('[' :: t) = clean .linkStart 1 := by
  cases t with
  | nil => exact absurd rfl ht
  | cons c t => rfl

/-- What is read at a mark that is no text. -/
structure Reads (reading : Reading) (mark : Mark) : Prop where
  kind : reading.kind = mark.kind
  len : reading.len = mark.written.length
  issues : reading.warning.toList.map (·.issue) = mark.issues

end Reading

open Reading

variable {prev : Option Char} {mark : Mark} {out : Scanned} {plain : List Char}

/-- The trigger that a mark starts with and what its rule makes of the mark. -/
theorem exists_trigger (hmark : ¬mark.isText) (h : mark.Stable prev t.head?)
    (hcovers : Covers lastParen index (mark.written ++ t)) :
    ∃ trigger after, mark.written ++ t = Trigger.char trigger :: after ∧
      (trigger = .underscore → underlineAllowed prev after.head?) ∧
      ((Scan.ruleFor lastParen trigger).read index (mark.written ++ t)).Reads mark := by
  cases mark with
  | delimiter style =>
    cases style with
    | bold => exact ⟨.star, '*' :: t, rfl, by simp, rfl, rfl, rfl⟩
    | italic =>
      have hread : (Scan.ruleFor lastParen .star).read index
          ((Mark.delimiter .italic).written ++ t) = clean .italic 1 := read_star h
      exact ⟨.star, t, rfl, by simp, by rw [hread]; exact ⟨rfl, rfl, rfl⟩⟩
    | underline => exact ⟨.underscore, t, rfl, fun _ => h, rfl, rfl, rfl⟩
    | strikethrough => exact ⟨.tilde, '~' :: t, rfl, by simp, rfl, rfl, rfl⟩
  | linkStart =>
    have hread : (Scan.ruleFor lastParen .openBracket).read index (Mark.linkStart.written ++ t) =
        clean .linkStart 1 := read_openBracket h
    exact ⟨.openBracket, t, rfl, by simp, by rw [hread]; exact ⟨rfl, rfl, rfl⟩⟩
  | imageStart => exact ⟨.bang, '[' :: t, rfl, by simp, rfl, rfl, rfl⟩
  | address url =>
    refine ⟨.closeBracket, '(' :: url ++ [')'] ++ t, by simp [Mark.written, Trigger.char], by simp, ?_⟩
    have hread : (Scan.ruleFor lastParen .closeBracket).read index ((Mark.address url).written ++ t) =
        addressTo index ((Mark.address url).written ++ t) (some url.length) := read_address h hcovers
    rw [hread]
    cases url with
    | nil => exact ⟨rfl, rfl, rfl⟩
    | cons c url => exact ⟨rfl, by simp [addressTo, clean, Mark.written], rfl⟩
  | code fence content =>
    obtain ⟨hcode, hnext⟩ := h
    obtain ⟨n, rfl⟩ := Nat.exists_eq_succ_of_ne_zero hcode.fence_ne_zero
    have hread : (Scan.ruleFor lastParen .backtick).read index
        ((Mark.code (n + 1) content).written ++ t) = _ := read_code hcode hnext
    refine ⟨.backtick, List.replicate n '`' ++ content ++ List.replicate (n + 1) '`' ++ t, ?_, by simp,
      ?_⟩
    · simp [Mark.written, Markdown.fenced, List.replicate_succ, Trigger.char]
    · rw [hread]
      exact ⟨rfl, rfl, rfl⟩
  | text content => exact absurd rfl hmark

namespace Scan

variable {options : ScanOptions}

theorem construct?_trigger (trigger : Trigger) {after : List Char}
    (h : trigger = .underscore → underlineAllowed prev after.head?) :
    construct? options lastParen prev index trigger.char after =
      some (.owned trigger ((ruleFor lastParen trigger).read index (trigger.char :: after))) := by
  have htrigger : trigger? prev trigger.char after.head? = some trigger := by
    refine Option.filter_eq_some_iff.2 ⟨Trigger.ofChar?_char trigger, ?_⟩
    by_cases hu : trigger = .underscore
    · simp [h hu]
    · simp [hu]
  simp only [construct?, htrigger]

theorem scanFrom_construct {c : Char} {after raw : List Char} {construct : Construct}
    (h : construct? options lastParen prev index c after = some construct)
    (hsplit : c :: after = raw ++ rest) (hlen : construct.reading.len = raw.length)
    (hraw : raw ≠ []) :
    scanFrom options lastParen prev index plain out (c :: after) =
      scanFrom options lastParen raw.getLast? (index + byteSize raw) []
        ((out.addPlain index plain).add ⟨construct.reading.kind, index, raw⟩
          (construct.finding? index)) rest := by
  obtain ⟨htake, hdrop⟩ := split_at_len hsplit hlen hraw
  rw [scanFrom]
  simp only [h, Reading.token, htake, hdrop, Token.stop, Token.byteLen]

theorem scanFrom_plain {c : Char} {after : List Char}
    (h : construct? options lastParen prev index c after = none) :
    scanFrom options lastParen prev index plain out (c :: after) =
      scanFrom options lastParen (some c) (index + c.utf8Size) (c :: plain) out after := by
  rw [scanFrom]
  simp only [h]

/-- A mark that is no text is one token. -/
theorem scanFrom_mark (options : ScanOptions) (plain : List Char) (out : Scanned)
    (hmark : ¬mark.isText) (h : mark.Stable prev t.head?)
    (hcovers : Covers lastParen index (mark.written ++ t)) :
    ∃ out', out'.pieces = out.pieces ++ Scanned.plainPieces plain ++ [(mark.kind, mark.written)] ∧
      out'.findings.toList.map (·.warning.issue) =
        out.findings.toList.map (·.warning.issue) ++ mark.issues ∧
      scanFrom options lastParen prev index plain out (mark.written ++ t) =
        scanFrom options lastParen mark.written.getLast? (index + byteSize mark.written) [] out' t := by
  obtain ⟨trigger, after, hsplit, hallowed, hreads⟩ := exists_trigger hmark h hcovers
  rw [hsplit] at hreads ⊢
  have hconstruct : construct? options lastParen prev index trigger.char after = some _ :=
    construct?_trigger trigger hallowed
  refine ⟨_, ?_, ?_, scanFrom_construct hconstruct hsplit.symm hreads.len h.written_ne_nil⟩
  · rw [Scanned.pieces_add, Scanned.pieces_addPlain, Token.piece]
    exact congrArg (fun kind => _ ++ [(kind, mark.written)]) hreads.kind
  · rw [Scanned.findings_add, Scanned.findings_addPlain, List.map_append, ← hreads.issues]
    simp only [Construct.finding?]
    cases (Rule.read (ruleFor lastParen trigger) index (trigger.char :: after)).warning <;> rfl

end Scan

/-! ### Text -/

/-- Whether pieces stand for a text between them, none of them for anything else. -/
inductive Spells : List (TokenKind × List Char) → List Char → Prop
  | nil : Spells [] []
  | text {raw s : List Char} {pieces : List (TokenKind × List Char)} (hraw : raw ≠ [])
      (h : Spells pieces s) : Spells ((.text, raw) :: pieces) (raw ++ s)
  | escape {c : Char} {s : List Char} {pieces : List (TokenKind × List Char)}
      (h : Spells pieces s) :
      Spells ((.escape, ['\\', c]) :: pieces) (c :: s)

theorem Spells.plainPieces {ps : List (TokenKind × List Char)} (h : Spells ps s)
    (plain : List Char) :
    Spells (Scanned.plainPieces plain ++ ps) (plain.reverse ++ s) := by
  cases plain with
  | nil => exact h
  | cons c plain => exact .text (by simp) h

theorem isAlphanumeric_char (trigger : Trigger) : Unicode.isAlphanumeric trigger.char = false := by
  cases trigger <;> decide

theorem not_isTrigger_of_isAlphanumeric {c : Char} (h : Unicode.isAlphanumeric c) :
    ¬isTrigger c := by
  intro htrigger
  obtain ⟨trigger, hc⟩ := Option.isSome_iff_exists.1 htrigger
  rw [← Trigger.char_of_ofChar? hc, isAlphanumeric_char] at h
  exact Bool.false_ne_true h

namespace Markdown

/-- What follows an underscore that stands as it is. -/
theorem head?_of_not_needsEscape (hnext : s.head?.any Unicode.isAlphanumeric) (p : Option Char) :
    (escapeFrom p [] s ++ t).head? = s.head? := by
  cases s with
  | nil => simp at hnext
  | cons d s =>
    have hd : needsEscape p d s.head? = false := by
      simp [needsEscape, not_isTrigger_of_isAlphanumeric hnext]
    rw [escapeFrom_cons, hd]
    rfl

end Markdown

namespace Scan

/-- A character that takes no backslash starts nothing. -/
theorem construct?_eq_none {c : Char} {p : Option Char} (hprev : p = none ∨ prev = p)
    (h : Markdown.needsEscape p c s.head? = false) :
    construct? {} lastParen prev index c (Markdown.escapeFrom (some c) [] s ++ t) = none := by
  have htrigger : trigger? prev c (Markdown.escapeFrom (some c) [] s ++ t).head? = none := by
    by_cases hc : isTrigger c
    · simp only [Markdown.needsEscape, hc, Bool.true_and, Bool.not_eq_false', Bool.and_eq_true,
        beq_iff_eq] at h
      obtain ⟨⟨rfl, hp⟩, hnext⟩ := h
      obtain rfl : prev = p := by
        rcases hprev with rfl | hprev
        · simp at hp
        · exact hprev
      rw [Markdown.head?_of_not_needsEscape hnext]
      simp [trigger?, Trigger.ofChar?, underlineAllowed, hp, hnext]
    · have hnone : Trigger.ofChar? c = none := by simpa [isTrigger] using hc
      simp [trigger?, hnone]
  simp only [construct?, htrigger, Bool.false_and, Bool.false_eq_true, if_false]

theorem getLast?_cons_or (c : Char) (s : List Char) (prev : Option Char) :
    (c :: s).getLast?.or prev = s.getLast?.or (some c) := by
  rw [List.getLast?_cons]
  cases s.getLast? <;> rfl

/-- A text is cut into plain text and escapes. Plain text at its end goes on in what follows. -/
theorem scanFrom_escapeFrom (lastParen : Option Nat) (s t : List Char) {p prev : Option Char}
    (hprev : p = none ∨ prev = p) (index : Nat) (plain : List Char) (out : Scanned) :
    ∃ pieces plain' out', scanFrom {} lastParen prev index plain out
        (Markdown.escapeFrom p [] s ++ t) =
          scanFrom {} lastParen (s.getLast?.or prev)
            (index + byteSize (Markdown.escapeFrom p [] s)) plain' out' t ∧
      out'.pieces = out.pieces ++ pieces ∧ out'.findings = out.findings ∧
      Spells (pieces ++ Scanned.plainPieces plain') (plain.reverse ++ s) := by
  induction s generalizing p prev index plain out with
  | nil =>
    refine ⟨[], plain, out, rfl, (List.append_nil _).symm, rfl, ?_⟩
    simpa using Spells.nil.plainPieces plain
  | cons c s ih =>
    rw [Markdown.escapeFrom_cons, getLast?_cons_or]
    cases hneeds : Markdown.needsEscape p c s.head? with
    | true =>
      have hread : Reading.escape index ('\\' :: c :: (Markdown.escapeFrom (some c) [] s ++ t)) =
          clean .escape 2 := if_pos (Markdown.isTrigger_of_needsEscape hneeds)
      have hconstruct : construct? {} lastParen prev index '\\'
          (c :: (Markdown.escapeFrom (some c) [] s ++ t)) = some (.owned .backslash (clean .escape 2)) :=
        hread ▸ construct?_trigger .backslash (by simp)
      obtain ⟨pieces, plain', out', hscan, hpieces, hfindings, hspells⟩ :=
        ih (p := some c) (.inr rfl) (index + byteSize ['\\', c]) []
          ((out.addPlain index plain).add ⟨.escape, index, ['\\', c]⟩ none)
      refine ⟨Scanned.plainPieces plain ++ (.escape, ['\\', c]) :: pieces, plain', out', ?_, ?_, ?_, ?_⟩
      · simp only [if_true, List.cons_append, List.nil_append, byteSize_cons, byteSize_nil,
          Nat.add_zero, ← Nat.add_assoc] at hscan ⊢
        have hsplit : '\\' :: c :: (Markdown.escapeFrom (some c) [] s ++ t) =
            ['\\', c] ++ (Markdown.escapeFrom (some c) [] s ++ t) := rfl
        rw [scanFrom_construct hconstruct hsplit rfl (by simp)]
        simpa [Nat.add_assoc, Construct.reading, Construct.finding?, clean] using hscan
      · rw [hpieces, Scanned.pieces_add, Scanned.pieces_addPlain]
        simp [Token.piece]
      · rw [hfindings, Scanned.add, Scanned.findings_addPlain]
      · rw [List.append_assoc]
        exact (Spells.escape hspells).plainPieces plain
    | false =>
      obtain ⟨pieces, plain', out', hscan, hpieces, hfindings, hspells⟩ := ih (.inr rfl)
        (index + c.utf8Size) (c :: plain) out
      refine ⟨pieces, plain', out', ?_, hpieces, hfindings, by simpa using hspells⟩
      simp only [Bool.false_eq_true, if_false, List.cons_append, List.nil_append, byteSize_cons,
        ← Nat.add_assoc]
      rw [scanFrom_plain (construct?_eq_none hprev hneeds), hscan]

end Scan

/-! ### Marks -/

/-- What marks are read as: text in any pieces, everything else as a token of its own. -/
inductive ReadAs : List Mark → List (TokenKind × List Char) → Prop
  | nil : ReadAs [] []
  | text {content : List Char} {marks : List Mark} {ps qs : List (TokenKind × List Char)}
      (hcontent : content ≠ []) (hspells : Spells ps content) (h : ReadAs marks qs) :
      ReadAs (.text content :: marks) (ps ++ qs)
  | token {mark : Mark} {marks : List Mark} {pieces : List (TokenKind × List Char)}
      {prev next : Option Char} (hmark : ¬mark.isText) (hstable : mark.Stable prev next)
      (h : ReadAs marks pieces) :
      ReadAs (mark :: marks) ((mark.kind, mark.written) :: pieces)

namespace Mark

/-- Whether no two texts stand side by side. -/
def Apart (marks : List Mark) : Prop := marks.IsChain fun a b => ¬(a.isText ∧ b.isText)

end Mark

/-- A mark that is text is cut as that text is, with the plain text before it. -/
theorem Scan.scanFrom_text {content : List Char} (hcontent : content ≠ []) (lastParen : Option Nat)
    (prev : Option Char) (index : Nat) (plain : List Char) (out : Scanned) (t : List Char) :
    ∃ pieces plain' out', scanFrom {} lastParen prev index plain out
        ((Mark.text content).written ++ t) =
          scanFrom {} lastParen (Mark.text content).written.getLast?
            (index + byteSize (Mark.text content).written) plain' out' t ∧
      out'.pieces = out.pieces ++ pieces ∧ out'.findings = out.findings ∧
      Spells (pieces ++ Scanned.plainPieces plain') (plain.reverse ++ content) := by
  have hstart : (none : Option Char) = none ∨ prev = none := .inl rfl
  obtain ⟨pieces, plain', out', hscan, hpieces, hfindings, hspells⟩ :=
    scanFrom_escapeFrom lastParen content t hstart index plain out
  refine ⟨pieces, plain', out', ?_, hpieces, hfindings, hspells⟩
  rw [Mark.written, Markdown.getLast?_escape, Markdown.escape, hscan, getLast?_or hcontent]

theorem Scan.scanFrom_marks {marks : List Mark} (plain : List Char) (out : Scanned)
    (hstable : Mark.AllStable prev marks none) (hapart : Mark.Apart marks)
    (hplain : plain ≠ [] → ∀ mark ∈ marks.head?, ¬mark.isText)
    (hcovers : Covers lastParen index (Mark.writtenAll marks)) :
    ∃ pieces, (scanFrom {} lastParen prev index plain out (Mark.writtenAll marks)).pieces =
        out.pieces ++ Scanned.plainPieces plain ++ pieces ∧ ReadAs marks pieces ∧
      (scanFrom {} lastParen prev index plain out (Mark.writtenAll marks)).findings.toList.map
          (·.warning.issue) =
        out.findings.toList.map (·.warning.issue) ++ marks.flatMap Mark.issues := by
  induction marks generalizing prev index plain out with
  | nil =>
    refine ⟨[], ?_, .nil, ?_⟩
    · rw [Mark.writtenAll_nil, scanFrom, Scanned.pieces_addPlain, List.append_nil]
    · rw [Mark.writtenAll_nil, scanFrom, Scanned.findings_addPlain, List.flatMap_nil, List.append_nil]
  | cons mark marks ih =>
    obtain ⟨hmark, hmarks⟩ := hstable
    rw [Option.or_none] at hmark
    rw [Mark.writtenAll_cons] at hcovers ⊢
    rw [List.flatMap_cons]
    cases htext : mark.isText with
    | true =>
      cases mark with
      | text content =>
        obtain rfl : plain = [] := by
          by_contra hne
          exact hplain hne _ rfl htext
        obtain ⟨ps, plain', out', hscan, hpieces, hfindings, hspells⟩ :=
          scanFrom_text hmark lastParen prev index [] out (Mark.writtenAll marks)
        -- the text may go on in what follows it, which is no text
        have hnext : plain' ≠ [] → ∀ mark ∈ marks.head?, ¬mark.isText :=
          fun _ mark hhead ht => (List.isChain_cons.1 hapart).1 mark hhead ⟨rfl, ht⟩
        obtain ⟨qs, hrest, hread, hissues⟩ := ih plain' out' hmarks hapart.tail hnext hcovers.drop
        refine ⟨ps ++ Scanned.plainPieces plain' ++ qs, ?_, .text hmark hspells hread, ?_⟩
        · rw [hscan, hrest, hpieces]
          simp [Scanned.plainPieces]
        · rw [hscan, hissues, hfindings]
          rfl
      | _ => simp [Mark.isText] at htext
    | false =>
      have hother : ¬mark.isText := by simp [htext]
      obtain ⟨out', hpieces, hfindings, hscan⟩ := scanFrom_mark {} plain out hother hmark hcovers
      obtain ⟨qs, hrest, hread, hissues⟩ :=
        ih [] out' hmarks hapart.tail (fun hnil => absurd rfl hnil) hcovers.drop
      refine ⟨(mark.kind, mark.written) :: qs, ?_, .token hother hmark hread, ?_⟩
      · rw [hscan, hrest, hpieces]
        simp [Scanned.plainPieces]
      · rw [hscan, hissues, hfindings, List.append_assoc]

/-- Canonical markdown is cut into its marks. What is wrong with it is wrong with a mark. -/
theorem scan_marks {marks : List Mark} (hstable : Mark.AllStable none marks none)
    (hapart : Mark.Apart marks) :
    ReadAs marks (scan {} (Mark.writtenAll marks)).pieces ∧
      (scan {} (Mark.writtenAll marks)).warnings.toList.map (·.issue) =
        marks.flatMap Mark.issues := by
  obtain ⟨pieces, hpieces, hread, hissues⟩ := Scan.scanFrom_marks [] {} hstable hapart
    (fun hnil => absurd rfl hnil) (covers_lastOffset? _)
  have hall : (scan {} (Mark.writtenAll marks)).pieces = pieces := hpieces
  refine ⟨hall ▸ hread, ?_⟩
  have hmap : (scan {} (Mark.writtenAll marks)).warnings.toList.map (·.issue) =
      (scan {} (Mark.writtenAll marks)).findings.toList.map (·.warning.issue) := by
    simp [Scanned.warnings]
  rw [hmap]
  exact hissues

end InlineMarkup

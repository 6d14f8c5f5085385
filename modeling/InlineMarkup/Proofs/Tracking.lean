import InlineMarkup.Proofs.Grammar

/-! Tracking: canonical markdown of what a text says is written with marks that stand like the tokens of
the text, but where the text holds something that canonical markdown does not keep. -/

namespace InlineMarkup

open Backtick Reading

variable {options : ScanOptions} {noted : TokenKind → Issue → Prop} {lossy : Prop}
  {prev prev' next next' : Option Char} {kind : TokenKind} {raw s t : List Char} {tree : Tree}
  {us : List Tree} {ms ns : List Mark} {mark : Mark}

/-! ### Marks that are read as what they are, or nearly so -/

namespace Mark

/-- Whether a mark between the scalar values `prev` and `next` is read as what it is, but for an underscore
within a word, and for the closing fence of a block that ends in backticks. -/
def Loose (prev next : Option Char) : Mark → Prop
  | delimiter .underline => prev ≠ some '_' ∧ next ≠ some '_'
  | code fence content => (code fence content).Stable prev next ∨
      blockFence ≤ fence ∧ content.head? ≠ some '`' ∧ content.getLast? = some '`' ∧
        closing? fence content = none ∧ next = none
  | mark => mark.Stable prev next

/-- Whether a mark is stable, or at least loose where canonical markdown is `lossy`. -/
def Steady (lossy : Prop) (prev next : Option Char) (mark : Mark) : Prop :=
  mark.Stable prev next ∨ lossy ∧ mark.Loose prev next

def AllSteady (lossy : Prop) : Option Char → List Mark → Option Char → Prop
  | _, [], _ => True
  | prev, mark :: marks, next =>
    mark.Steady lossy prev ((writtenAll marks).head?.or next) ∧
      AllSteady lossy mark.written.getLast? marks next

theorem steady_text : (text s).Steady lossy prev next ↔ s ≠ [] :=
  ⟨fun h => h.elim id And.right, .inl⟩

theorem Loose.written_ne_nil (h : mark.Loose prev next) : mark.written ≠ [] := by
  cases mark with
  | delimiter style => cases style <;> simp [written, Style.delimiter]
  | code fence content =>
    rcases h with h | ⟨-, -, hlast, -⟩
    · exact h.written_ne_nil
    · have hcontent : content ≠ [] := by
        rintro rfl
        cases hlast
      simp [written, Markdown.fenced, hcontent]
  | linkStart | imageStart | address => simp [written]
  | text content => exact Markdown.escapeFrom_ne_nil h

theorem Steady.written_ne_nil (h : mark.Steady lossy prev next) : mark.written ≠ [] :=
  h.elim Stable.written_ne_nil fun h => h.2.written_ne_nil

theorem allSteady_append : AllSteady lossy prev (ms ++ ns) next ↔
    AllSteady lossy prev ms ((writtenAll ns).head?.or next) ∧
      AllSteady lossy ((writtenAll ms).getLast?.or prev) ns next := by
  induction ms generalizing prev with
  | nil => simp [AllSteady]
  | cons mark ms ih =>
    simp only [List.cons_append, AllSteady, ih, writtenAll_append, writtenAll_cons,
      List.head?_append, List.getLast?_append, Option.or_assoc, and_assoc]
    refine and_congr_right fun hmark => and_congr_right ?_
    intro _
    rw [getLast?_or hmark.written_ne_nil]

/-- Where nothing is lost, steady marks are stable. -/
theorem AllSteady.allStable (h : AllSteady False prev ms next) : AllStable prev ms next := by
  induction ms generalizing prev with
  | nil => trivial
  | cons mark ms ih => exact ⟨h.1.resolve_right And.left, ih h.2⟩

end Mark

/-! ### What stands around marks -/

/-- What may be written before a mark where `prev` stands before its token: the same, or what is neither
part of a word nor an underscore. -/
def PrevShown (prev shown : Option Char) : Prop :=
  shown = prev ∨ ∃ c, shown = some c ∧ c ≠ '_' ∧ ¬Unicode.isAlphanumeric c

/-- What may be written after a mark where `next` stands after its token: the same, or what neither goes on
in a delimiter nor, unless something is lost, in a word. -/
def NextShown (lossy : Prop) (next shown : Option Char) : Prop :=
  shown = next ∨ next ≠ none ∧ ∃ c, shown = some c ∧ c ≠ '*' ∧ c ≠ '_' ∧ c ≠ '`' ∧
    (lossy ∨ ¬Unicode.isAlphanumeric c)

theorem PrevShown.or (h : PrevShown prev prev') (c : Option Char) :
    PrevShown (c.or prev) (c.or prev') := by
  cases c with
  | none => exact h
  | some c => exact .inl rfl

theorem NextShown.or (h : NextShown lossy next next') (c : Option Char) :
    NextShown lossy (c.or next) (c.or next') := by
  cases c with
  | none => exact h
  | some c => exact .inl rfl

theorem NextShown.ne {c : Char} (h : NextShown lossy next next') (hc : c = '*' ∨ c = '_' ∨ c = '`')
    (hne : next ≠ some c) : next' ≠ some c := by
  rcases h with rfl | ⟨-, d, rfl, hstar, hunder, htick, -⟩
  · exact hne
  · rintro ⟨⟩
    rcases hc with rfl | rfl | rfl
    · exact hstar rfl
    · exact hunder rfl
    · exact htick rfl

/-- A trigger that takes a backslash is shown as that. -/
theorem nextShown_trigger (c : Char) : NextShown lossy (some c) (some '\\') :=
  .inr ⟨Option.some_ne_none c, '\\', rfl, by decide, by decide, by decide, .inr (by decide)⟩

theorem nextShown_escape (hs : s ≠ []) :
    NextShown lossy (s.head?.or next) ((Markdown.escape s).head?.or next') := by
  obtain ⟨c, s, rfl⟩ := List.exists_cons_of_ne_nil hs
  rw [Markdown.head?_escape, List.head?_cons, Option.some_or, Option.some_or]
  split
  · exact nextShown_trigger c
  · exact .inl rfl

/-- An underscore that is a tag is steady whatever is shown around it. -/
theorem steady_underline (h : underlineAllowed prev next) (hprev : PrevShown prev prev')
    (hnext : NextShown lossy next next') :
    (Mark.delimiter .underline).Steady lossy prev' next' := by
  simp only [underlineAllowed, Bool.and_eq_true, bne_iff_ne, Bool.not_eq_true'] at h
  obtain ⟨⟨hbefore, hafter⟩, hword⟩ := h
  have hbefore' : prev' ≠ some '_' := by
    rcases hprev with rfl | ⟨c, rfl, hc, -⟩
    · exact hbefore
    · simpa using hc
  have hafter' : next' ≠ some '_' := hnext.ne (.inr (.inl rfl)) hafter
  by_cases hwithin : prev'.any Unicode.isAlphanumeric && next'.any Unicode.isAlphanumeric
  · -- the letter after it is not that of the source
    obtain ⟨hletter, hletter'⟩ := Bool.and_eq_true_iff.1 hwithin
    have hsame : prev' = prev := by
      rcases hprev with rfl | ⟨c, rfl, -, hc⟩
      · rfl
      · exact absurd hletter hc
    rcases hnext with rfl | ⟨-, c, rfl, -, -, -, hlossy | hc⟩
    · rw [← hsame, hwithin] at hword
      cases hword
    · exact .inr ⟨hlossy, hbefore', hafter'⟩
    · exact absurd hletter' hc
  · refine .inl ?_
    simp only [Mark.Stable, underlineAllowed, Bool.and_eq_true, bne_iff_ne, Bool.not_eq_true']
    exact ⟨⟨hbefore', hafter'⟩, Bool.eq_false_iff.2 hwithin⟩

/-- Whether marks stand as steady as the tokens of their source, with much the same scalar values at their
ends. -/
structure Tracks (lossy : Prop) (noted : TokenKind → Issue → Prop) (prev : Option Char)
    (source : List Char) (next : Option Char) (marks : List Mark) (next' : Option Char) : Prop where
  steady : ∀ prev', PrevShown prev prev' → Mark.AllSteady lossy prev' marks next'
  head : NextShown lossy (source.head?.or next) ((Mark.writtenAll marks).head?.or next')
  last : ∀ prev', PrevShown prev prev' →
    PrevShown (source.getLast?.or prev) ((Mark.writtenAll marks).getLast?.or prev')
  clean : ¬noted .address .malformedLink → ∀ mark ∈ marks, mark.issues = []

theorem tracks_nil (h : NextShown lossy next next') : Tracks lossy noted prev [] next [] next' :=
  ⟨fun _ _ => trivial, h, fun _ h => h, fun _ => by simp⟩

theorem Tracks.append (h : Tracks lossy noted prev s (t.head?.or next) ms
      ((Mark.writtenAll ns).head?.or next'))
    (hns : Tracks lossy noted (s.getLast?.or prev) t next ns next') :
    Tracks lossy noted prev (s ++ t) next (ms ++ ns) next' := by
  refine ⟨fun prev' hprev => ?_, ?_, fun prev' hprev => ?_, fun hurls => ?_⟩
  · exact Mark.allSteady_append.2 ⟨h.steady prev' hprev, hns.steady _ (h.last prev' hprev)⟩
  · rw [Mark.writtenAll_append, List.head?_append, List.head?_append, Option.or_assoc, Option.or_assoc]
    exact h.head
  · rw [Mark.writtenAll_append, List.getLast?_append, List.getLast?_append, Option.or_assoc,
      Option.or_assoc]
    exact hns.last _ (h.last prev' hprev)
  · exact List.forall_mem_append.2 ⟨h.clean hurls, hns.clean hurls⟩

/-! ### Single tokens -/

/-- A mark tracks its own text. -/
theorem tracks_written (h : ∀ prev', PrevShown prev prev' → mark.Steady lossy prev' next')
    (hnext : NextShown lossy next next') (hclean : ¬noted .address .malformedLink → mark.issues = []) :
    Tracks lossy noted prev mark.written next [mark] next' := by
  refine ⟨fun prev' hprev => ⟨by simpa using h prev' hprev, trivial⟩, ?_, fun prev' hprev => ?_,
    fun hurls => by simpa using hclean hurls⟩
  · simpa using hnext.or _
  · simpa using hprev.or _

theorem tracks_text (hs : s ≠ []) : Tracks lossy noted prev s next [.text s] next' := by
  refine ⟨fun _ _ => ⟨.inl hs, trivial⟩, ?_, fun prev' hprev => ?_, fun _ => by simp [Mark.issues]⟩
  · simpa [Mark.written] using nextShown_escape hs
  · simpa [Mark.written, Markdown.getLast?_escape] using hprev.or _

/-- An escape shows what it escapes, without the backslash where there need not be one. -/
theorem tracks_escape {c : Char} (hc : isTrigger c ∨ lossy) :
    Tracks lossy noted prev ['\\', c] next [.text [c]] next' := by
  refine ⟨fun _ _ => ⟨.inl (by simp [Mark.Stable]), trivial⟩, ?_, fun prev' _ => ?_,
    fun _ => by simp [Mark.issues]⟩
  · have hhead := Markdown.head?_escape c []
    simp only [Mark.writtenAll_cons, Mark.written, Mark.writtenAll_nil, List.append_nil, hhead,
      List.head?_cons, Option.some_or]
    split
    · exact .inl rfl
    · rename_i hplain
      have hne {d : Char} (hd : isTrigger d) : c ≠ d := by
        rintro rfl
        exact hplain hd
      exact .inr ⟨Option.some_ne_none _, c, rfl, hne rfl, hne rfl, hne rfl,
        .inl (hc.resolve_left hplain)⟩
  · exact .inl (by simp [Mark.written, Markdown.getLast?_escape])

/-- An address that stands alone is written as a link to itself. -/
theorem tracks_bareUrl (hne : raw ≠ []) (hparen : ')' ∉ raw) :
    Tracks lossy noted prev raw next (Tree.ofToken .bareUrl raw).marks next' := by
  have hmarks : (Tree.ofToken .bareUrl raw).marks = [.linkStart, .text raw, .address raw] := rfl
  obtain ⟨c, t, rfl⟩ := List.exists_cons_of_ne_nil hne
  rw [hmarks]
  refine ⟨fun _ _ => ⟨.inl ?_, .inl hne, .inl hparen, trivial⟩, ?_, fun prev' _ => ?_,
    fun _ => by simp [Mark.issues]⟩
  · simp [Mark.Stable, Mark.written]
  · exact .inr ⟨Option.some_ne_none c, '[', rfl, by decide, by decide, by decide, .inr (by decide)⟩
  · refine .inr ⟨')', ?_, by decide, by decide⟩
    have hwritten : Mark.writtenAll [.linkStart, .text (c :: t), .address (c :: t)] =
        '[' :: Markdown.escape (c :: t) ++ [']', '('] ++ c :: t ++ [')'] := by
      simp [Mark.written]
    rw [hwritten, List.getLast?_concat, Option.some_or]

/-- A block without its closing fence is written with one. -/
theorem tracks_openCode {fence : Nat} {content : List Char} (hfence : blockFence ≤ fence)
    (hcontent : content ≠ []) (hhead : content.head? ≠ some '`')
    (hfree : closing? fence content = none) (hlossy : lossy) (hnext : NextShown lossy none next') :
    Tracks lossy noted prev (List.replicate fence '`' ++ content) none [.code fence content] next' := by
  have hpos := ne_zero_of_blockFence_le hfence
  obtain ⟨n, rfl⟩ := Nat.exists_eq_succ_of_ne_zero hpos
  obtain rfl : next' = none := hnext.resolve_right fun h => h.1 rfl
  refine ⟨fun prev' _ => ⟨?_, trivial⟩, ?_, fun prev' _ => ?_, fun _ => by simp [Mark.issues]⟩
  · by_cases hlast : content.getLast? = some '`'
    · exact .inr ⟨hlossy, .inr ⟨hfence, hhead, hlast, hfree, rfl⟩⟩
    · exact .inl ⟨⟨hpos, hcontent, hhead, hlast, hfree⟩, by simp⟩
  · exact .inl (by simp [Mark.written, Markdown.fenced, List.replicate_succ])
  · refine .inr ⟨'`', ?_, by decide, by decide⟩
    have hwritten : Mark.writtenAll [.code (n + 1) content] =
        List.replicate (n + 1) '`' ++ content ++ List.replicate n '`' ++ ['`'] := by
      simp [Mark.written, Markdown.fenced, List.replicate_succ']
    rw [hwritten, List.getLast?_concat, Option.some_or]

/-- What is known of a token besides how it fits: an address that stands alone has no closing parenthesis
in it, and the fence of a block is long. -/
structure Solid (piece : TokenKind × List Char) : Prop where
  url : piece.1 = .bareUrl → ')' ∉ piece.2
  fence : piece.1 = .codeBlock → blockFence ≤ runLength piece.2

/-- A token by itself is written as steady as it stands. -/
theorem tracks_ofToken (h : Fits options noted prev kind raw next) (hsolid : Solid (kind, raw))
    (hlossy : noted .escape .redundantEscape ∨ noted .codeBlock .unclosedTag → lossy)
    (hnext : NextShown lossy next next') :
    Tracks lossy noted prev raw next (Tree.ofToken kind raw).marks next' := by
  cases h with
  | bold | italic | strikethrough | underline | linkStart | imageStart | address =>
    exact tracks_text (by simp)
  | text _ hraw => exact tracks_text hraw
  | escape _ huse => exact tracks_escape (huse.imp_right fun hnoted => hlossy (.inl hnoted))
  | @code kind fence content _ hkind hcode hticks =>
    rw [Tree.ofToken_fenced hkind hcode]
    have hsteady (prev' : Option Char) : (Mark.code fence content).Steady lossy prev' next' :=
      .inl ⟨hcode, hnext.ne (by simp) hticks⟩
    exact tracks_written (fun prev' _ => hsteady prev') hnext fun _ => rfl
  | @unclosed fence content hpos hcontent hhead hfree hnoted =>
    have hparts : Tree.ofToken .codeBlock (List.replicate fence '`' ++ content) = .code fence content := by
      rw [Tree.ofToken, parts_unclosed hpos hhead hfree]
    have hfence := hsolid.fence rfl
    rw [runLength_replicate_append hhead] at hfence
    rw [hparts]
    exact tracks_openCode hfence hcontent hhead hfree (hlossy (.inr hnoted)) hnext
  | bareUrl _ hon hraw => exact tracks_bareUrl hraw (hsolid.url rfl)

theorem steady_delimiter {style : Style} (h : Fits options noted prev style.tokenKind raw next)
    (hprev : PrevShown prev prev') (hnext : NextShown lossy next next') :
    (Mark.delimiter style).Steady lossy prev' next' := by
  cases style with
  | bold | strikethrough => exact .inl trivial
  | italic =>
    have hitalic : Fits options noted prev .italic raw next := h
    cases hitalic with
    | italic hstar => exact .inl (hnext.ne (.inl rfl) hstar)
    | code hkind => simp at hkind
  | underline =>
    have hunderline : Fits options noted prev .underline raw next := h
    cases hunderline with
    | underline hallowed => exact steady_underline hallowed hprev hnext
    | code hkind => simp at hkind

theorem steady_opening {tag : Tag} (h : Fits options noted prev tag.opener raw next)
    (hprev : PrevShown prev prev') (hnext : NextShown lossy next next') :
    tag.opening.Steady lossy prev' next' := by
  cases tag with
  | styled style => exact steady_delimiter h hprev hnext
  | image => exact .inl trivial
  | link =>
    have hlink : Fits options noted prev .linkStart raw next := h
    cases hlink with
    | linkStart hsome =>
      rcases hnext with rfl | ⟨-, c, rfl, -⟩
      · exact .inl hsome
      · exact .inl (Option.some_ne_none c)
    | code hkind => simp at hkind

theorem issues_opening (tag : Tag) : tag.opening.issues = [] := by
  cases tag <;> rfl

theorem steady_closing {tag : Tag} (h : Fits options noted prev tag.closer raw next)
    (hprev : PrevShown prev prev') (hnext : NextShown lossy next next') :
    (tag.closing (Reading.addressOf raw)).Steady lossy prev' next' := by
  cases tag with
  | styled style => exact steady_delimiter h hprev hnext
  | link | image =>
    obtain ⟨url, rfl, hurl, _⟩ := h.eq_address
    rw [Reading.addressOf_written]
    exact .inl hurl

theorem issues_closing {tag : Tag} (h : Fits options noted prev tag.closer raw next)
    (hurls : ¬noted .address .malformedLink) :
    (tag.closing (Reading.addressOf raw)).issues = [] := by
  cases tag with
  | styled style => rfl
  | link | image =>
    obtain ⟨url, rfl, _, hempty⟩ := h.eq_address
    rw [Reading.addressOf_written]
    obtain ⟨c, url, rfl⟩ := List.exists_cons_of_ne_nil (hempty.resolve_right hurls)
    rfl

/-! ### Texts that meet -/

/-- Two texts are written as one where they meet. -/
theorem Tracks.mergeTexts {x y : List Char}
    (h : Tracks lossy noted prev s next (.text x :: .text y :: ms) next') :
    Tracks lossy noted prev s next (.text (x ++ y) :: ms) next' := by
  obtain ⟨hsteady, hhead, hlast, hclean⟩ := h
  obtain ⟨hx, hy, -⟩ := hsteady prev (.inl rfl)
  rw [Mark.steady_text] at hx hy
  obtain ⟨c, x, rfl⟩ := List.exists_cons_of_ne_nil hx
  have hhead' : (Markdown.escape (c :: x ++ y)).head? = (Markdown.escape (c :: x)).head? := by
    rw [List.cons_append, Markdown.head?_escape, Markdown.head?_escape]
  have hlast' : (Markdown.escape (c :: x ++ y)).getLast? = (Markdown.escape y).getLast? := by
    rw [Markdown.getLast?_escape, Markdown.getLast?_escape, List.getLast?_append_of_ne_nil _ hy]
  refine ⟨fun prev' hprev => ⟨.inl (by simp [Mark.Stable]), ?_⟩, ?_, fun prev' hprev => ?_, ?_⟩
  · rw [Mark.written, hlast']
    exact (hsteady prev' hprev).2.2
  · simp only [Mark.writtenAll_cons, Mark.written, List.head?_append, hhead'] at hhead ⊢
    rw [Markdown.head?_escape] at hhead ⊢
    exact hhead
  · have hne : (Markdown.escape y).getLast? ≠ none := by
      simpa [Markdown.getLast?_escape] using hy
    obtain ⟨d, hd⟩ := Option.ne_none_iff_exists'.1 hne
    have hend := hlast prev' hprev
    simp only [Mark.writtenAll_cons, Mark.written, List.getLast?_append, hlast', hd] at hend ⊢
    simpa using hend
  · intro hurls
    have hms := hclean hurls
    simp only [List.forall_mem_cons] at hms ⊢
    exact ⟨rfl, hms.2.2⟩

/-- A tree goes before others, into the first one if both are text. -/
theorem Tracks.before (h : Tracks lossy noted prev s next (Tree.allMarks (tree :: us)) next') :
    Tracks lossy noted prev s next (Tree.allMarks (Tree.before tree us)) next' := by
  cases tree with
  | text x =>
    cases us with
    | nil => exact h
    | cons u us =>
      cases u with
      | text y => exact h.mergeTexts
      | _ => exact h
  | _ => exact h

/-! ### All tokens -/

mutual

theorem tracks_item
    (hlossy : noted .escape .redundantEscape ∨ noted .codeBlock .unclosedTag → lossy) :
    ∀ (item : Item) {prev next next' : Option Char}, Cut options noted prev item.pieces next →
    (∀ piece ∈ item.pieces, Solid piece) → NextShown lossy next next' →
    Tracks lossy noted prev (textOf item.pieces) next item.tree.marks next'
  | .token kind raw, prev, next, next', hcut, hsolid, hnext => by
    have hfits : Fits options noted prev kind raw next := hcut.1
    have htracks := tracks_ofToken hfits (hsolid _ (List.mem_singleton.2 rfl)) hlossy hnext
    rwa [Item.pieces, textOf_cons, textOf_nil, List.append_nil]
  | .pair tag opener inside closer, prev, next, next', hcut, hsolid, hnext => by
    obtain ⟨⟨hopener, hinside⟩, hcloser, _⟩ := cut_append.1 hcut
    simp only [textOf_cons, textOf_nil, List.append_nil, List.head?_nil, Option.none_or] at *
    have hstart : opener.getLast?.or prev = opener.getLast? := getLast?_or hopener.raw_ne_nil prev
    have hclosing : Tracks lossy noted ((opener ++ textOf (Item.allPieces inside)).getLast?.or prev)
        closer next [tag.closing (Reading.addressOf closer)] next' := by
      have hwritten := tracks_written (fun _ hprev => steady_closing hcloser hprev hnext) hnext
        (issues_closing hcloser)
      rwa [← hcloser.eq_closing] at hwritten
    have hsolid' := (List.forall_mem_append.1 hsolid).1
    have hchildren := tracks_items hlossy inside hinside (List.forall_mem_cons.1 hsolid').2 hclosing.head
    have hopening := tracks_written (fun _ hprev => steady_opening hopener hprev hchildren.head)
      hchildren.head fun _ : ¬noted .address .malformedLink => issues_opening tag
    rw [← hopener.eq_opening] at hopening
    have hall := (hopening.append (hstart.symm ▸ hchildren)).append hclosing
    rw [Item.tree, Tag.marks_tree, Item.trees_eq_map, Item.pieces, textOf_append, textOf_cons,
      textOf_cons, textOf_nil, List.append_nil]
    exact hall

theorem tracks_items
    (hlossy : noted .escape .redundantEscape ∨ noted .codeBlock .unclosedTag → lossy) :
    ∀ (items : List Item) {prev next next' : Option Char},
    Cut options noted prev (Item.allPieces items) next →
    (∀ piece ∈ Item.allPieces items, Solid piece) → NextShown lossy next next' →
    Tracks lossy noted prev (textOf (Item.allPieces items)) next
      (Tree.allMarks (Tree.merge (items.map Item.tree))) next'
  | [], _, _, _, _, _, hnext => tracks_nil hnext
  | item :: items, prev, next, next', hcut, hsolid, hnext => by
    obtain ⟨hitem, hitems⟩ := cut_append.1 hcut
    obtain ⟨hsolid, hsolids⟩ := List.forall_mem_append.1 hsolid
    -- from the right, since what follows a mark decides whether it is steady
    have hrest := tracks_items hlossy items hitems hsolids hnext
    have hfirst := tracks_item hlossy item hitem hsolid hrest.head
    rw [Item.allPieces, textOf_append]
    exact Tracks.before (hfirst.append hrest)

end

theorem Lexeme.solid {before after : List Char} (h : Lexeme options before kind raw after) :
    Solid (kind, raw) := by
  cases h with
  | @code fence content _ hfence hcontent hhead =>
    have hbody : (content ++ List.replicate fence '`').head? ≠ some '`' := by
      obtain ⟨c, content, rfl⟩ := List.exists_cons_of_ne_nil hcontent
      simpa using hhead
    split
    · rename_i hlong
      refine ⟨by simp, fun _ => ?_⟩
      rwa [Markdown.fenced, List.append_assoc, runLength_replicate_append hbody]
    · exact ⟨by simp, by simp⟩
  | openCode hfence hcontent hhead =>
    exact ⟨by simp, fun _ => by rwa [runLength_replicate_append hhead]⟩
  | @bareUrl scheme target _ hon hprev hscheme htarget hchars =>
    refine ⟨fun _ => ?_, by simp⟩
    rw [List.mem_append, not_or]
    constructor
    · rcases hscheme with rfl | rfl <;> decide
    · intro hparen
      exact absurd (hchars _ hparen) (by decide)
  | _ => exact ⟨by simp, by simp⟩

theorem solid_of_mem_scan {text : List Char} {piece : TokenKind × List Char}
    (h : piece ∈ (scan options text).pieces) : Solid piece := by
  obtain ⟨ps, qs, hsplit⟩ := List.append_of_mem h
  exact ((lexed_scan options text).lexeme ps piece.1 piece.2 qs hsplit).solid

/-- The marks of what a text says track its tokens. -/
theorem tracks_pairUp (options : ScanOptions) (text : List Char)
    (hlossy : (scan options text).Notes .escape .redundantEscape ∨
      (scan options text).Notes .codeBlock .unclosedTag → lossy) :
    Tracks lossy (scan options text).Notes none text none
      (Tree.allMarks (Tree.merge ((pairUp (scan options text).pieces).map Item.tree))) none := by
  obtain ⟨htext, hcut⟩ := cut_scan options text
  have hsolid : ∀ piece ∈ Item.allPieces (pairUp (scan options text).pieces), Solid piece := by
    rw [allPieces_pairUp]
    exact fun piece => solid_of_mem_scan
  rw [← allPieces_pairUp (scan options text).pieces] at htext hcut
  have htracks := tracks_items hlossy _ hcut hsolid (.inl rfl)
  rwa [htext] at htracks

end InlineMarkup

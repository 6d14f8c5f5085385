import InlineMarkup.Proofs.Pairing

/-! Pairing is greedy: no delimiter stands by itself where it could have closed a tag, and of the openers
that no closer came for, few stand by themselves on one level. -/

namespace InlineMarkup

/-- Whether delimiters of the kind may open a tag. -/
def TokenKind.isOpener (kind : TokenKind) : Bool := kind.isDelimiter && kind != .address

theorem Tag.isOpener_opener (tag : Tag) : tag.opener.isOpener := by
  rcases tag with (_ | _ | _ | _) | _ | _ <;> rfl

theorem Tag.opener_eq_tokenKind {tag : Tag} {style : Style} :
    tag.opener = style.tokenKind ↔ tag = .styled style := by
  rcases tag with (_ | _ | _ | _) | _ | _ <;> cases style <;> simp [opener, Style.tokenKind]

theorem Tag.isSymmetric_eq_false_iff {tag : Tag} :
    tag.isSymmetric = false ↔ tag.opener = .linkStart ∨ tag.opener = .imageStart := by
  rcases tag with (_ | _ | _ | _) | _ | _ <;> simp [isSymmetric, opener, Style.tokenKind]

namespace Item

/-- Whether nothing in the item could have closed a tag in `outer` or a pair around it in the item. -/
inductive Settled : List Tag → Item → Prop
  | token {outer : List Tag} {kind : TokenKind} (raw : List Char)
      (hstray : ∀ tag ∈ outer, kind ≠ tag.closer) : Settled outer (.token kind raw)
  | pair {outer : List Tag} {tag : Tag} {inside : List Item} (opener closer : List Char)
      (hstray : ∀ other ∈ outer, tag.opener ≠ other.closer)
      (hinside : ∀ item ∈ inside, Settled (tag :: outer) item) :
      Settled outer (.pair tag opener inside closer)

/-- The kinds of the tokens that stand by themselves. -/
def looseKinds (items : List Item) : List TokenKind :=
  items.filterMap fun
    | token kind _ => some kind
    | pair .. => none

/-- Whether few tokens stand by themselves: of the delimiters that both open and close a tag one of a
kind, and no opener of a link or image before an address. -/
structure Sparse (items : List Item) : Prop where
  once : ∀ style : Style, (looseKinds items).count style.tokenKind ≤ 1
  apart : (looseKinds items).Pairwise fun kind later =>
    kind = .linkStart ∨ kind = .imageStart → later ≠ .address

/-- Whether few tokens stand by themselves in each pair of the item, and in a link or image no opener of
another one. -/
inductive Orderly : Item → Prop
  | token (kind : TokenKind) (raw : List Char) : Orderly (.token kind raw)
  | pair {tag : Tag} {inside : List Item} (opener closer : List Char) (hsparse : Sparse inside)
      (hlink : ¬tag.isSymmetric → ∀ kind ∈ looseKinds inside, kind ≠ .linkStart ∧ kind ≠ .imageStart)
      (hinside : ∀ item ∈ inside, Orderly item) : Orderly (.pair tag opener inside closer)

/-- Whether no opener stands by itself. -/
structure Calm (items : List Item) : Prop where
  loose : ∀ kind ∈ looseKinds items, ∀ tag : Tag, kind ≠ tag.opener
  orderly : ∀ item ∈ items, item.Orderly

variable {outer outer' : List Tag} {item : Item} {items more : List Item} {kind : TokenKind}
  {raw : List Char} {tag : Tag}

@[simp] theorem looseKinds_append :
    looseKinds (items ++ more) = looseKinds items ++ looseKinds more := List.filterMap_append

theorem mem_looseKinds : kind ∈ looseKinds items ↔ ∃ raw, .token kind raw ∈ items := by
  rw [looseKinds, List.mem_filterMap]
  constructor
  · rintro ⟨_ | _, hitem, heq⟩
    · obtain rfl := Option.some.inj heq
      exact ⟨_, hitem⟩
    · cases heq
  · rintro ⟨raw, hitem⟩
    exact ⟨_, hitem, rfl⟩

theorem mem_allPieces {piece : TokenKind × List Char} :
    piece ∈ allPieces items ↔ ∃ item ∈ items, piece ∈ item.pieces := by
  induction items with
  | nil => simp [allPieces]
  | cons item items ih => simp [allPieces, ih]

namespace Settled

theorem weaken (h : item.Settled outer) (hsubset : outer' ⊆ outer) : item.Settled outer' := by
  induction h generalizing outer' with
  | token raw hstray => exact .token raw fun tag htag => hstray tag (hsubset htag)
  | @pair _ tag _ opener closer hstray hinside ih =>
    refine .pair opener closer (fun other hother => hstray other (hsubset hother)) fun item hitem => ?_
    exact ih item hitem (List.cons_subset_cons tag hsubset)

theorem kind_ne (h : (Item.token kind raw).Settled outer) : ∀ tag ∈ outer, kind ≠ tag.closer := by
  cases h with
  | token raw hstray => exact hstray

/-- Inside a style there is no delimiter of that style. -/
theorem piece_ne {style : Style} (h : item.Settled outer) (hstyle : .styled style ∈ outer) :
    ∀ piece ∈ item.pieces, piece.1 ≠ style.tokenKind := by
  induction h with
  | token raw hstray => exact List.forall_mem_singleton.2 (hstray _ hstyle)
  | @pair _ tag inside opener closer hstray hinside ih =>
    have hopener : tag.opener ≠ style.tokenKind := hstray _ hstyle
    have hcloser : tag.closer ≠ style.tokenKind := by
      cases tag with
      | styled other => exact hopener
      | link | image => cases style <;> decide
    refine List.forall_mem_append.2 ⟨List.forall_mem_cons.2 ⟨hopener, fun piece hpiece => ?_⟩,
      List.forall_mem_singleton.2 hcloser⟩
    obtain ⟨item, hitem, hpiece⟩ := mem_allPieces.1 hpiece
    exact ih item hitem (List.mem_cons_of_mem tag hstyle) piece hpiece

end Settled

theorem Calm.append_singleton (h : Calm items) (hitem : item.Orderly)
    (hkind : ∀ kind ∈ looseKinds [item], ∀ tag : Tag, kind ≠ tag.opener) : Calm (items ++ [item]) := by
  refine ⟨?_, List.forall_mem_append.2 ⟨h.orderly, List.forall_mem_singleton.2 hitem⟩⟩
  rw [looseKinds_append]
  exact List.forall_mem_append.2 ⟨h.loose, hkind⟩

theorem Calm.sparse (h : Calm items) : Sparse items := by
  constructor
  · intro style
    have hnone : (looseKinds items).count style.tokenKind = 0 :=
      List.count_eq_zero.2 fun hin => h.loose _ hin (.styled style) rfl
    omega
  · refine List.pairwise_of_forall_mem_list ?_
    rintro kind hkind later - (rfl | rfl)
    · exact absurd rfl (h.loose _ hkind .link)
    · exact absurd rfl (h.loose _ hkind .image)

/-- An opener that is demoted stands between the levels around and inside it. -/
theorem Sparse.demote (hbefore : Calm items) (h : Sparse more) (hstray : tag.closer ∉ looseKinds more) :
    Sparse (items ++ .token tag.opener raw :: more) := by
  have hkinds : looseKinds (items ++ .token tag.opener raw :: more) =
      looseKinds items ++ tag.opener :: looseKinds more := by
    rw [looseKinds_append]
    rfl
  constructor
  · intro style
    have hnone : (looseKinds items).count style.tokenKind = 0 :=
      List.count_eq_zero.2 fun hin => hbefore.loose _ hin (.styled style) rfl
    rw [hkinds, List.count_append, hnone, Nat.zero_add, List.count_cons]
    split
    · rename_i hopener
      obtain rfl := Tag.opener_eq_tokenKind.1 (eq_of_beq hopener)
      exact Nat.succ_le_succ (Nat.le_of_eq (List.count_eq_zero.2 hstray))
    · exact h.once style
  · rw [hkinds, List.pairwise_append, List.pairwise_cons]
    refine ⟨hbefore.sparse.apart, ⟨fun later hlater hopener haddress => ?_, h.apart⟩, ?_⟩
    · have hcloser : tag.closer = .address := by
        rw [Tag.closer_eq_address, Tag.isSymmetric_eq_false_iff.2 hopener]
        rfl
      exact hstray (hcloser ▸ haddress ▸ hlater)
    · rintro kind hkind later - (rfl | rfl)
      · exact absurd rfl (hbefore.loose _ hkind .link)
      · exact absurd rfl (hbefore.loose _ hkind .image)

end Item

namespace Waiting

open Item

/-- Whether nothing on any level could have closed one of the openers that wait around it. -/
def Settled : List Waiting → List Item → Prop
  | [], level => ∀ item ∈ level, item.Settled []
  | w :: waiting, level => (∀ item ∈ level, item.Settled ((w :: waiting).map (·.tag))) ∧
      (∀ v ∈ waiting, w.tag.opener ≠ v.tag.closer) ∧ Settled waiting w.before

variable {w : Waiting} {above waiting : List Waiting} {level more : List Item} {item : Item}

theorem Settled.items (h : Settled waiting level) :
    ∀ item ∈ level, item.Settled (waiting.map (·.tag)) := by
  cases waiting with
  | nil => exact h
  | cons w waiting => exact h.1

theorem settled_append : Settled waiting (level ++ more) ↔
    Settled waiting level ∧ ∀ item ∈ more, item.Settled (waiting.map (·.tag)) := by
  cases waiting with
  | nil => exact List.forall_mem_append
  | cons w waiting =>
    simp only [Settled, List.forall_mem_append]
    tauto

/-- What an opener held is settled around it too, once it stands for itself. -/
theorem Settled.demote_cons (h : Settled (w :: waiting) level) :
    Settled waiting (w.before ++ .token w.tag.opener w.raw :: level) := by
  obtain ⟨hlevel, hfresh, hbefore⟩ := h
  refine settled_append.2 ⟨hbefore, List.forall_mem_cons.2 ⟨.token _ ?_, fun item hitem => ?_⟩⟩
  · exact List.forall_mem_map.2 hfresh
  · exact (hlevel item hitem).weaken (List.subset_cons_self _ _)

theorem Settled.demote (h : Settled (above ++ waiting) level) :
    Settled waiting (Waiting.demote above level) := by
  induction above generalizing level with
  | nil => exact h
  | cons w above ih => exact ih (Settled.demote_cons h)

theorem mem_demote : item ∈ Waiting.demote above level ↔
    item ∈ level ∨ ∃ w ∈ above, item ∈ w.before ∨ item = .token w.tag.opener w.raw := by
  induction above generalizing level with
  | nil => simp [Waiting.demote]
  | cons w above ih =>
    simp only [Waiting.demote, ih, List.mem_append, List.mem_cons, exists_eq_or_imp]
    grind

/-- Openers that are demoted leave a sparse level, as no two of them are alike. -/
theorem sparse_demote (hsettled : Settled (above ++ waiting) level) (hlevel : Sparse level)
    (hbefore : ∀ w ∈ above, Calm w.before) : Sparse (Waiting.demote above level) := by
  induction above generalizing level with
  | nil => exact hlevel
  | cons w above ih =>
    obtain ⟨hw, habove⟩ := List.forall_mem_cons.1 hbefore
    refine ih hsettled.demote_cons (Sparse.demote hw hlevel fun hin => ?_) habove
    obtain ⟨raw, hitem⟩ := mem_looseKinds.1 hin
    exact (hsettled.items _ hitem).kind_ne w.tag List.mem_cons_self rfl

theorem orderly_demote (hlevel : Calm level) (hbefore : ∀ w ∈ above, Calm w.before) :
    ∀ item ∈ Waiting.demote above level, item.Orderly := by
  intro item hitem
  rcases mem_demote.1 hitem with hitem | ⟨w, hw, hitem | rfl⟩
  · exact hlevel.orderly item hitem
  · exact (hbefore w hw).orderly item hitem
  · exact .token _ _

/-- Among tags that are demoted in a link or image there is none of another one. -/
theorem loose_demote_of_closer (hlevel : Calm level)
    (habove : ∀ v ∈ above, Calm v.before ∧ v.tag.closer ≠ .address) :
    ∀ kind ∈ looseKinds (Waiting.demote above level), kind ≠ .linkStart ∧ kind ≠ .imageStart := by
  intro kind hkind
  obtain ⟨raw, hitem⟩ := mem_looseKinds.1 hkind
  have hcalm {items : List Item} (hcalm : Calm items) (hitem : .token kind raw ∈ items) :
      kind ≠ .linkStart ∧ kind ≠ .imageStart :=
    ⟨hcalm.loose kind (mem_looseKinds.2 ⟨raw, hitem⟩) .link,
      hcalm.loose kind (mem_looseKinds.2 ⟨raw, hitem⟩) .image⟩
  rcases mem_demote.1 hitem with hitem | ⟨v, hv, hitem | hitem⟩
  · exact hcalm hlevel hitem
  · exact hcalm (habove v hv).1 hitem
  · obtain ⟨rfl, -⟩ := Item.token.inj hitem
    have hsymmetric := mt Tag.closer_eq_address.2 (habove v hv).2
    rw [Bool.not_eq_true', Tag.isSymmetric_eq_false_iff, not_or] at hsymmetric
    exact hsymmetric

end Waiting

namespace Pairing

variable {pairing : Pairing} {kind : TokenKind} {raw : List Char}
  {pieces : List (TokenKind × List Char)}

def Settled (pairing : Pairing) : Prop := Waiting.Settled pairing.waiting pairing.level

/-- Whether no opener stands by itself on any level. -/
structure Calm (pairing : Pairing) : Prop where
  level : Item.Calm pairing.level
  before : ∀ w ∈ pairing.waiting, Item.Calm w.before

theorem Settled.step (h : pairing.Settled) : (pairing.step kind raw).Settled := by
  have hstep := step_spec pairing kind raw
  generalize pairing.step kind raw = next at hstep ⊢
  cases hstep with
  | push hstray hfull =>
    exact Waiting.settled_append.2
      ⟨h, List.forall_mem_singleton.2 (.token raw (List.forall_mem_map.2 hstray))⟩
  | opened tag hkind hdepth hfree =>
    exact ⟨by simp, fun v hv => Tag.opener_ne_closer fun hs => hfree hs v hv, h⟩
  | closed above w waiting hsplit hkind habove =>
    rw [Settled, hsplit] at h
    obtain ⟨hinside, hfresh, hbefore⟩ := h.demote
    exact Waiting.settled_append.2
      ⟨hbefore, List.forall_mem_singleton.2 (.pair _ _ (List.forall_mem_map.2 hfresh) hinside)⟩

theorem Settled.run (h : pairing.Settled) : (pairing.run pieces).Settled := by
  induction pieces generalizing pairing with
  | nil => exact h
  | cons piece pieces ih => exact ih h.step

/-- Where there is room for every opener, none of them is left to stand by itself. -/
theorem Calm.step (h : pairing.Calm) (hsettled : pairing.Settled)
    (hroom : kind.isOpener → pairing.waiting.length < Assembly.maxDepth) :
    (pairing.step kind raw).Calm := by
  have hstep := step_spec pairing kind raw
  generalize pairing.step kind raw = next at hstep ⊢
  cases hstep with
  | push hstray hfull =>
    refine ⟨h.level.append_singleton (.token kind raw) ?_, h.before⟩
    refine List.forall_mem_singleton.2 fun tag hkind => ?_
    exact absurd (hroom (hkind ▸ tag.isOpener_opener)) (Nat.not_lt.2 (hfull tag hkind))
  | opened tag hkind hdepth hfree =>
    exact ⟨⟨by simp [Item.looseKinds], by simp⟩, List.forall_mem_cons.2 ⟨h.level, h.before⟩⟩
  | closed above w waiting hsplit hkind habove =>
    have hbefore := h.before
    rw [hsplit, List.forall_mem_append, List.forall_mem_cons] at hbefore
    obtain ⟨hinner, hw, houter⟩ := hbefore
    rw [Settled, hsplit] at hsettled
    refine ⟨hw.append_singleton (.pair _ _ ?_ ?_ ?_) (by simp [Item.looseKinds]), houter⟩
    · exact Waiting.sparse_demote hsettled h.level.sparse hinner
    · intro hlink
      have haddress : w.tag.closer = .address := Tag.closer_eq_address.2 (by simpa using hlink)
      exact Waiting.loose_demote_of_closer h.level fun v hv =>
        ⟨hinner v hv, fun hv' => habove v hv (hkind.trans (haddress.trans hv'.symm))⟩
    · exact Waiting.orderly_demote h.level hinner

/-- Only an opener makes more openers wait. -/
theorem length_step_le (pairing : Pairing) (kind : TokenKind) (raw : List Char) :
    (pairing.step kind raw).waiting.length ≤
      pairing.waiting.length + if kind.isOpener then 1 else 0 := by
  have hstep := step_spec pairing kind raw
  generalize pairing.step kind raw = next at hstep ⊢
  cases hstep with
  | push hstray hfull => exact Nat.le_add_right _ _
  | opened tag hkind hdepth hfree =>
    rw [hkind, if_pos tag.isOpener_opener]
    exact Nat.le_refl _
  | closed above w waiting hsplit hkind habove =>
    have hless : waiting.length ≤ pairing.waiting.length := by
      rw [hsplit, List.length_append, List.length_cons]
      omega
    exact Nat.le_add_right_of_le hless

theorem Calm.run (h : pairing.Calm) (hsettled : pairing.Settled)
    (hroom : pairing.waiting.length + pieces.countP (·.1.isOpener) ≤ Assembly.maxDepth) :
    (pairing.run pieces).Calm := by
  induction pieces generalizing pairing with
  | nil => exact h
  | cons piece pieces ih =>
    rw [List.countP_cons, Nat.add_comm (List.countP _ _), ← Nat.add_assoc] at hroom
    refine ih (h.step hsettled fun hopener => ?_) hsettled.step ?_
    · rw [if_pos hopener] at hroom
      omega
    · exact (Nat.add_le_add_right (pairing.length_step_le piece.1 piece.2) _).trans hroom

end Pairing

theorem settled_start : Pairing.Settled {} := List.forall_mem_nil _

theorem settled_run (pieces : List (TokenKind × List Char)) :
    Waiting.Settled ((Pairing.run {} pieces).waiting ++ []) (Pairing.run {} pieces).level := by
  rw [List.append_nil]
  exact settled_start.run

/-- Nothing that is left by itself could have closed a pair around it. -/
theorem settled_pairUp (pieces : List (TokenKind × List Char)) :
    ∀ item ∈ pairUp pieces, item.Settled [] :=
  (settled_run pieces).demote

/-- Where every opener has room, few tokens are left by themselves on each level. -/
theorem sparse_pairUp {pieces : List (TokenKind × List Char)}
    (hroom : pieces.countP (·.1.isOpener) ≤ Assembly.maxDepth) :
    Item.Sparse (pairUp pieces) ∧ ∀ item ∈ pairUp pieces, item.Orderly := by
  have hstart : Pairing.Calm {} := ⟨⟨by simp [Item.looseKinds], by simp⟩, by simp⟩
  have hrun : (Pairing.run {} pieces).Calm := hstart.run settled_start (by simpa using hroom)
  exact ⟨Waiting.sparse_demote (settled_run pieces) hrun.level.sparse hrun.before,
    Waiting.orderly_demote hrun.level hrun.before⟩

end InlineMarkup

import InlineMarkup.Proofs.Events
import InlineMarkup.Proofs.Moments

/-! Recording: at every moment of assembly the events record what has been made of the tokens, with a
place kept free for each tag that is open. -/

namespace InlineMarkup

/-- Whether the events record what has been made of the tokens, with a place kept free for each
open tag. -/
inductive Records : List Event → List OpenTag → List Waiting → List Item → Prop
  | root (events : List Event) (level : List Item) (hbuilds : Builds events level) :
      Records (.start .root :: events) [] [] level
  | inside {openTags : List OpenTag} {waiting : List Waiting}
      (outer events : List Event) (opened : OpenTag) (w : Waiting) (level : List Item)
      (hmarker : opened.marker.index = outer.length) (htag : opened.tag = w.tag)
      (hbuilds : Builds events level) (houter : Records outer openTags waiting w.before) :
      Records (outer ++ .placeholder :: .token (.token w.tag.opener) :: events)
        (opened :: openTags) (w :: waiting) level

namespace Records

variable {events new : List Event} {opened : OpenTag} {openTags : List OpenTag} {w : Waiting}
  {waiting : List Waiting} {level more : List Item}

theorem append (h : Records events openTags waiting level) (hnew : Builds new more) :
    Records (events ++ new) openTags waiting (level ++ more) := by
  cases h with
  | root events level hbuilds => exact .root _ _ (hbuilds.append hnew)
  | inside outer events opened w level hmarker htag hbuilds houter =>
    rw [List.append_assoc, List.cons_append, List.cons_append]
    exact .inside outer _ opened w _ hmarker htag (hbuilds.append hnew) houter

/-- A tag that is never closed leaves its place free, and its opener is a token like others. -/
theorem demote (h : Records events (opened :: openTags) (w :: waiting) level) :
    opened.marker.index + 1 < events.length ∧
      Records events openTags waiting (w.before ++ .token w.tag.opener w.raw :: level) := by
  cases h with
  | inside outer events opened w level hmarker htag hbuilds houter =>
    refine ⟨by simp [hmarker], ?_⟩
    exact houter.append (.placeholder (.token w.tag.opener w.raw hbuilds))

/-- A tag that is closed starts where a place was kept free for it. -/
theorem complete (h : Records events (opened :: openTags) (w :: waiting) level) (closer : List Char) :
    Records (((events ++ [Event.token (.token w.tag.closer)]).set opened.marker.index
        (.start opened.tag.syntaxKind)) ++ [.finish])
      openTags waiting (w.before ++ [.pair w.tag w.raw level closer]) := by
  cases h with
  | inside outer events opened w level hmarker htag hbuilds houter =>
    have hpair := houter.append (hbuilds.pair w.tag w.raw closer .nil)
    simpa [hmarker, htag] using hpair

/-- The place of every open tag is still free. -/
theorem getElem?_marker (h : Records events openTags waiting level) :
    ∀ opened ∈ openTags, events[opened.marker.index]? = some .placeholder := by
  induction h with
  | root => simp
  | inside outer events opened w level hmarker htag hbuilds houter ih =>
    refine List.forall_mem_cons.2 ⟨by simp [hmarker], ?_⟩
    intro other hother
    rw [List.getElem?_append_left (List.getElem?_eq_some_iff.1 (ih other hother)).1]
    exact ih other hother

end Records

theorem Trace.holds_push {trace : Trace} {marker : Marker} (h : trace.holds marker) (event : Event) :
    (trace.push event).holds marker := by
  have hfree : trace.events[marker.index]? = some .placeholder := eq_of_beq h
  have hlt := (Array.getElem?_eq_some_iff.1 hfree).1
  rwa [holds, push, Array.getElem?_push_lt hlt, ← Array.getElem?_eq_getElem hlt]

namespace Assembly

namespace Reached

variable {tokens : List Token} {assembly : Assembly} {pairing : Pairing}

theorem records (h : Reached tokens assembly pairing) :
    Records assembly.trace.events.toList assembly.openTags pairing.waiting pairing.level := by
  induction h with
  | start => exact .root [] [] .nil
  | leaf h token recoveries ih =>
    simpa [Trace.push, Pairing.push] using ih.append (.token token.kind token.raw .nil)
  | @opened _ assembly pairing h token tag hkind hroom ih =>
    have hinside := Records.inside _ []
      ⟨tag, (assembly.document.addEmpty assembly.current tag.nodeKind).2, assembly.current, token.raw,
        assembly.trace.mark.2⟩ ⟨tag, token.raw, pairing.level⟩ [] rfl rfl .nil ih
    simpa [openTag_of_lt tag token hroom, Trace.mark, Trace.push, hkind] using hinside
  | demoted h hopen ih =>
    rw [hopen] at ih
    obtain ⟨hlast, hdemote⟩ := ih.demote
    rw [Array.length_toList] at hlast
    simpa [Assembly.demote, Trace.abandon, Nat.ne_of_lt hlast] using hdemote
  | finished h hopen token hkind ih =>
    rw [hopen] at ih
    simpa [Trace.complete, Trace.push, hkind] using ih.complete token.raw

/-- Every open tag has its mark at an event still kept free. -/
theorem holds_marker (h : Reached tokens assembly pairing) :
    ∀ opened ∈ assembly.openTags, assembly.trace.holds opened.marker := by
  intro opened hopened
  have hmarker := h.records.getElem?_marker opened hopened
  rw [Array.getElem?_toList] at hmarker
  rw [Trace.holds, hmarker]
  rfl

theorem intact (h : Reached tokens assembly pairing) : assembly.trace.intact := by
  induction h with
  | start => rfl
  | leaf h token recoveries ih => simpa [Trace.push] using ih
  | opened h token tag hkind hroom ih =>
    simpa [openTag_of_lt tag token hroom, Trace.mark, Trace.push] using ih
  | @demoted _ assembly opened _ _ _ _ h hopen ih =>
    have hholds := h.holds_marker opened (hopen ▸ List.mem_cons_self)
    exact Bool.and_eq_true_iff.2 ⟨ih, hholds⟩
  | @finished _ assembly opened _ _ _ _ h hopen token hkind ih =>
    have hholds := h.holds_marker opened (hopen ▸ List.mem_cons_self)
    rw [trace_finish]
    exact Bool.and_eq_true_iff.2 ⟨ih, Trace.holds_push hholds _⟩

end Reached

/-- The events of all tokens stand between the start and the end of a root and build what pairing
makes of the tokens. -/
theorem exists_events_assemble (tokens : List Token) : ∃ events,
    (assemble tokens).trace.events.toList = .start .root :: events ++ [.finish] ∧
      Builds events (pairUp (tokens.map fun token => (token.kind, token.raw))) := by
  obtain ⟨last, hreached, -, htrace⟩ := exists_reached tokens
  have hrecords := hreached.records
  generalize hevents : last.trace.events.toList = all at hrecords
  generalize last.openTags = openTags at hrecords
  cases hrecords with
  | root events _ hbuilds =>
    refine ⟨events, ?_, hbuilds⟩
    rw [htrace, ← hevents]
    exact Array.toList_push

theorem ofEvents?_assemble (tokens : List Token) :
    SyntaxTree.ofEvents? tokens (assemble tokens).trace.events.toList =
      some (.node .root ((pairUp (tokens.map fun token => (token.kind, token.raw))).map
        Item.syntaxTree)) := by
  obtain ⟨events, hevents, hbuilds⟩ := exists_events_assemble tokens
  rw [hevents]
  exact hbuilds.ofEvents? (allPieces_pairUp _).symm

end Assembly

end InlineMarkup

import InlineMarkup.Proofs.EarlierEvents
import InlineMarkup.Proofs.Lossless
import InlineMarkup.Proofs.OpenTags

/-! Sessions: marks that are made and used by hand, in any order, before the tokens are taken in. A mark
that is not used yet always stands at an event kept free for it. -/

namespace InlineMarkup

namespace Event

def isStart : Event → Bool
  | start _ => true
  | token _ | finish | placeholder => false

/-- Whether as many nodes end as begin, and up to no place do more end than begin. -/
structure Paired (events : List Event) : Prop where
  even : events.count .finish = events.countP isStart
  covered : ∀ n, (events.take n).count .finish ≤ (events.take n).countP isStart

variable {events more : List Event} {pos : Nat}

theorem start_ne_finish (kind : SyntaxKind) : start kind ≠ finish := nofun

theorem paired_nil : Paired [] := ⟨rfl, by simp⟩

theorem Paired.append (h : Paired events) (hmore : Paired more) : Paired (events ++ more) := by
  refine ⟨?_, fun n => ?_⟩
  · rw [List.count_append, List.countP_append, h.even, hmore.even]
  · rw [List.take_append, List.count_append, List.countP_append]
    exact Nat.add_le_add (h.covered n) (hmore.covered _)

/-- An event that neither begins nor ends a node. -/
theorem Paired.cons {event : Event} (h : Paired events) (hstart : event.isStart = false)
    (hfinish : event ≠ .finish) : Paired (event :: events) := by
  have heven := h.even
  refine ⟨?_, fun n => ?_⟩
  · rwa [List.count_cons_of_ne hfinish, List.countP_cons_of_neg (by simp [hstart])]
  · cases n with
    | zero => exact Nat.le_refl _
    | succ n =>
      have hcovered := h.covered n
      rwa [List.take_succ_cons, List.count_cons_of_ne hfinish,
        List.countP_cons_of_neg (by simp [hstart])]

/-- A node begins before what is in it, and ends after that. -/
theorem Paired.node (h : Paired events) (kind : SyntaxKind) :
    Paired (.start kind :: events ++ [.finish]) := by
  refine ⟨?_, fun n => ?_⟩
  · have heven := h.even
    rw [List.count_append, List.countP_append, List.count_cons_of_ne (start_ne_finish kind),
      List.countP_cons_of_pos (by rfl), heven]
    rfl
  cases n with
  | zero => exact Nat.le_refl _
  | succ n =>
    have hinside := h.covered n
    have hlast : ([Event.finish].take (n - events.length)).count .finish ≤ 1 :=
      (List.count_le_length ..).trans (List.length_take_le' ..)
    rw [List.cons_append, List.take_succ_cons, List.take_append,
      List.count_cons_of_ne (start_ne_finish kind), List.countP_cons_of_pos (by rfl), List.count_append,
      List.countP_append]
    omega

theorem Balanced.paired (h : Balanced events) : Paired events := by
  induction h with
  | nil => exact paired_nil
  | token kind h ih => exact ih.cons rfl nofun
  | placeholder h ih => exact ih.cons rfl nofun
  | node kind hinside h ihinside ih =>
    have hnode := (ihinside.node kind).append ih
    simpa using hnode

/-- Where an event kept free becomes the start of a node, one more node begins. -/
theorem count_set_start (kind : SyntaxKind) (hfree : ∀ event ∈ events[pos]?, event = .placeholder) :
    (events.set pos (.start kind)).count .finish = events.count .finish ∧
      (events.set pos (.start kind)).countP isStart =
        events.countP isStart + if pos < events.length then 1 else 0 := by
  by_cases hlt : pos < events.length
  · have hpos := hfree _ (List.getElem?_eq_getElem hlt)
    simp [List.count_set, List.countP_set, hlt, hpos, isStart]
  · simp [List.set_eq_of_length_le (Nat.le_of_not_lt hlt), hlt]

/-- A node begins where an event was kept free, and ends after all that is there. -/
theorem Paired.complete (h : Paired events) (hfree : events[pos]? = some .placeholder)
    (kind : SyntaxKind) : Paired (events.set pos (.start kind) ++ [.finish]) := by
  have hlt := (List.getElem?_eq_some_iff.1 hfree).1
  refine ⟨?_, fun n => ?_⟩
  · have hbegun : ∀ event ∈ events[pos]?, event = .placeholder := by simp [hfree]
    obtain ⟨hfinish, hstart⟩ := count_set_start kind hbegun
    rw [List.count_append, List.countP_append, hfinish, hstart, h.even, if_pos hlt]
    rfl
  · have hcovered := h.covered n
    have hbegun : ∀ event ∈ (events.take n)[pos]?, event = .placeholder := by
      intro event hevent
      rw [List.getElem?_take] at hevent
      split at hevent <;> simp_all
    obtain ⟨hfinish, hstart⟩ := count_set_start kind hbegun
    rw [List.take_append, List.take_set, List.length_set, List.count_append, List.countP_append, hfinish,
      hstart, List.length_take]
    by_cases hall : n ≤ events.length
    · simp only [Nat.sub_eq_zero_of_le hall, List.take_zero, List.count_nil, List.countP_nil]
      omega
    · have hlast : ([Event.finish].take (n - events.length)).count .finish ≤ 1 :=
        (List.count_le_length ..).trans (List.length_take_le' ..)
      rw [if_pos (by omega)]
      omega

theorem Paired.of_append_placeholder (h : Paired (events ++ [.placeholder])) : Paired events := by
  have heven : events.count .finish = events.countP isStart := by
    have hall := h.even
    rwa [List.count_append, List.countP_append] at hall
  refine ⟨heven, fun n => ?_⟩
  by_cases hn : n ≤ events.length
  · have hcovered := h.covered n
    rwa [List.take_append_of_le_length hn] at hcovered
  · rw [List.take_of_length_le (Nat.le_of_not_le hn)]
    exact Nat.le_of_eq heven

end Event

/-! ### Marks used by hand -/

namespace MarkerStep

/-- The number of the mark that the step uses, if it uses one. -/
def number? : MarkerStep → Option Nat
  | start => none
  | complete number _ | abandon number => some number

/-- The number of marks that the steps make. -/
def made (steps : List MarkerStep) : Nat := steps.count .start

/-- The numbers of the marks that the steps use. -/
def used (steps : List MarkerStep) : List Nat := steps.filterMap number?

section Append

variable {act : MarkerStep} {number : Nat} (steps more : List MarkerStep)

theorem used_append : used (steps ++ more) = used steps ++ used more := List.filterMap_append

theorem used_start : used (steps ++ [.start]) = used steps := by simp [used, number?]

theorem made_start : made (steps ++ [.start]) = made steps + 1 := by simp [made]

theorem used_use (h : act.number? = some number) : used (steps ++ [act]) = used steps ++ [number] := by
  simp [used, h]

theorem made_use (h : act.number? = some number) : made (steps ++ [act]) = made steps := by
  cases act with
  | start => cases h
  | complete | abandon => simp [made]

end Append

/-- Whether every mark that is made is used exactly once, by a step after the one that makes it. -/
structure UseOnce (steps : List MarkerStep) : Prop where
  once : (used steps).Perm (List.range (made steps))
  after : ∀ n < steps.length, ∀ number ∈ steps[n]?.bind number?, number < made (steps.take n)

end MarkerStep

open MarkerStep

namespace Trace

variable {trace : Trace} {marker kept : Marker}

theorem holds_iff : trace.holds marker ↔ trace.events[marker.index]? = some .placeholder := beq_iff_eq

theorem holds_complete (h : trace.holds kept) (hindex : kept.index ≠ marker.index) (kind : SyntaxKind) :
    (trace.complete marker kind).holds kept := by
  have hset : Trace.holds { trace with events := trace.events.setIfInBounds marker.index (.start kind) }
      kept := by
    rw [holds_iff] at h ⊢
    rw [Array.getElem?_setIfInBounds_ne hindex.symm, h]
  exact Trace.holds_push hset .finish

theorem holds_abandon (h : trace.holds kept) (hindex : kept.index ≠ marker.index) :
    (trace.abandon marker).holds kept := by
  rw [holds_iff] at h ⊢
  rw [abandon]
  split
  · have hlt := (Array.getElem?_eq_some_iff.1 h).1
    rwa [Array.getElem?_pop, if_pos (by omega)]
  · exact h

theorem paired_complete (h : Event.Paired trace.events.toList) (hmarker : trace.holds marker)
    (kind : SyntaxKind) : Event.Paired (trace.complete marker kind).events.toList := by
  rw [complete, Array.toList_push, Array.toList_setIfInBounds]
  refine h.complete ?_ kind
  rw [Array.getElem?_toList]
  exact holds_iff.1 hmarker

theorem paired_abandon (h : Event.Paired trace.events.toList) (hmarker : trace.holds marker) :
    Event.Paired (trace.abandon marker).events.toList := by
  rw [abandon]
  split
  · rename_i hlast
    have hplace : trace.events.back? = some .placeholder := by
      rw [Array.back?, ← hlast]
      exact holds_iff.1 hmarker
    obtain ⟨events, hevents⟩ := Array.back?_eq_some_iff.1 hplace
    rw [hevents] at h ⊢
    rw [Array.toList_push] at h
    rw [Array.pop_push]
    exact h.of_append_placeholder
  · exact h

end Trace

namespace MarkerSession

/-- Whether every mark that is not used yet stands at an event kept free for it alone. -/
structure Sound (session : MarkerSession) : Prop where
  intact : session.trace.intact
  holds : ∀ (number : Nat) (marker : Marker), session.markers[number]? = some (some marker) → session.trace.holds marker
  apart : ∀ (number other : Nat) (marker : Marker), session.markers[number]? = some (some marker) →
    session.markers[other]? = some (some marker) → number = other
  paired : Event.Paired session.trace.events.toList

variable {session next : MarkerSession} {done steps : List MarkerStep} {number : Nat} {marker : Marker}
  {act : MarkerStep}

theorem sound_empty : Sound {} := ⟨rfl, by simp, by simp, Event.paired_nil⟩

theorem use_eq (h : session.markers[number]? = some (some marker)) (f : Trace → Marker → Trace) :
    session.use number f = .ok ⟨f session.trace marker, session.markers.setIfInBounds number none⟩ := by
  rw [use, h]

theorem exists_of_use {f : Trace → Marker → Trace} (h : session.use number f = .ok next) :
    ∃ marker, session.markers[number]? = some (some marker) ∧
      next = ⟨f session.trace marker, session.markers.setIfInBounds number none⟩ := by
  unfold use at h
  split at h
  · exact ⟨_, ‹_›, (Except.ok.inj h).symm⟩
  · cases h

/-- A step makes a mark at the end of the events, or uses one that is not used yet. -/
theorem step_cases (h : session.step act = .ok next) :
    (act = .start ∧ next =
      ⟨session.trace.push .placeholder, session.markers.push (some ⟨session.trace.events.size⟩)⟩) ∨
    ∃ number marker, act.number? = some number ∧ session.markers[number]? = some (some marker) ∧
      next.markers = session.markers.setIfInBounds number none ∧
      ((∃ kind, next.trace = session.trace.complete marker kind) ∨
        next.trace = session.trace.abandon marker) := by
  cases act with
  | start => exact .inl ⟨rfl, (Except.ok.inj h).symm⟩
  | complete number kind =>
    have huse : session.use number (fun trace marker => trace.complete marker kind) = .ok next := h
    obtain ⟨marker, hmarker, rfl⟩ := exists_of_use huse
    exact .inr ⟨number, marker, rfl, hmarker, rfl, .inl ⟨kind, rfl⟩⟩
  | abandon number =>
    have huse : session.use number Trace.abandon = .ok next := h
    obtain ⟨marker, hmarker, rfl⟩ := exists_of_use huse
    exact .inr ⟨number, marker, rfl, hmarker, rfl, .inr rfl⟩

/-- The marks that are left when one is used are not that one. -/
theorem getElem?_use_iff {other : Nat} {kept : Marker} :
    (session.markers.setIfInBounds number none)[other]? = some (some kept) ↔
      other ≠ number ∧ session.markers[other]? = some (some kept) := by
  rw [Array.getElem?_setIfInBounds]
  split
  · simp_all
  · simp_all [Ne.symm]

namespace Sound

theorem start (h : session.Sound) : Sound
    ⟨session.trace.push .placeholder, session.markers.push (some ⟨session.trace.events.size⟩)⟩ := by
  have hold (number : Nat) (marker : Marker) (hmarker : session.markers[number]? = some (some marker)) :
      marker.index < session.trace.events.size :=
    (Array.getElem?_eq_some_iff.1 (Trace.holds_iff.1 (h.holds number marker hmarker))).1
  refine ⟨h.intact, fun number marker hmarker => ?_, fun number other marker hmarker hother => ?_, ?_⟩
  · rw [Array.getElem?_push] at hmarker
    split at hmarker
    · obtain rfl := Option.some.inj (Option.some.inj hmarker)
      simp [Trace.holds_iff, Trace.push]
    · exact Trace.holds_push (h.holds number marker hmarker) _
  · rw [Array.getElem?_push] at hmarker hother
    split at hmarker <;> split at hother
    · omega
    · obtain rfl := Option.some.inj (Option.some.inj hmarker)
      exact absurd (hold other _ hother) (Nat.lt_irrefl _)
    · obtain rfl := Option.some.inj (Option.some.inj hother)
      exact absurd (hold number _ hmarker) (Nat.lt_irrefl _)
    · exact h.apart number other marker hmarker hother
  · rw [Trace.push, Array.toList_push]
    exact h.paired.append (Event.paired_nil.cons rfl (by decide))

/-- A mark that is used stands at an event kept free, and no other mark does. -/
theorem use (h : session.Sound) (hmarker : session.markers[number]? = some (some marker))
    (hnext : next.markers = session.markers.setIfInBounds number none)
    (hintact : next.trace.intact = (session.trace.intact && session.trace.holds marker))
    (hkept : ∀ kept : Marker, kept.index ≠ marker.index → session.trace.holds kept →
      next.trace.holds kept) (hpaired : Event.Paired next.trace.events.toList) : next.Sound := by
  refine ⟨?_, fun other kept hother => ?_, fun one other kept hone hother => ?_, hpaired⟩
  · rw [hintact, h.intact, h.holds number marker hmarker]
    rfl
  · rw [hnext, getElem?_use_iff] at hother
    refine hkept kept (fun hindex => hother.1 ?_) (h.holds other kept hother.2)
    have hsame : kept = marker := congrArg Marker.mk hindex
    exact h.apart other number kept hother.2 (hsame ▸ hmarker)
  · rw [hnext, getElem?_use_iff] at hone hother
    exact h.apart one other kept hone.2 hother.2

end Sound

theorem Sound.step (h : session.Sound) (hstep : session.step act = .ok next) : next.Sound := by
  rcases step_cases hstep with ⟨-, rfl⟩ | ⟨number, marker, -, hmarker, hnext, ⟨kind, htrace⟩ | htrace⟩
  · exact h.start
  · have hholds := h.holds number marker hmarker
    refine h.use hmarker hnext (htrace ▸ rfl) (fun kept hindex hkept => ?_) ?_
    · exact htrace ▸ Trace.holds_complete hkept hindex kind
    · exact htrace ▸ Trace.paired_complete h.paired hholds kind
  · have hholds := h.holds number marker hmarker
    refine h.use hmarker hnext (htrace ▸ rfl) (fun kept hindex hkept => ?_) ?_
    · exact htrace ▸ Trace.holds_abandon hkept hindex
    · exact htrace ▸ Trace.paired_abandon h.paired hholds

/-- Which marks are used and which are not, after the steps that are done. -/
structure Tracks (session : MarkerSession) (done : List MarkerStep) : Prop where
  sound : session.Sound
  size : session.markers.size = made done
  live : ∀ number < made done, number ∉ used done →
    ∃ marker : Marker, session.markers[number]? = some (some marker)
  gone : ∀ number ∈ used done, session.markers[number]? = some none

theorem tracks_nil : Tracks {} [] := ⟨sound_empty, rfl, by simp [made], by simp [used]⟩

/-- A new mark is not used yet. -/
theorem Tracks.start (h : session.Tracks done) :
    ∃ next, session.step .start = .ok next ∧ next.Tracks (done ++ [.start]) := by
  refine ⟨_, rfl, h.sound.start, ?_, fun number hlt hnot => ?_, fun number hgone => ?_⟩
  · rw [made_start, ← h.size]
    exact Array.size_push ..
  · rw [made_start, ← h.size] at hlt
    rw [used_start] at hnot
    rw [Array.getElem?_push]
    split
    · exact ⟨_, rfl⟩
    · exact h.live number (by rw [← h.size]; omega) hnot
  · rw [used_start] at hgone
    have hold := h.gone number hgone
    rw [Array.getElem?_push, if_neg, hold]
    exact Nat.ne_of_lt (Array.getElem?_eq_some_iff.1 hold).1

/-- A step that uses a mark made before and not used yet is carried out. -/
theorem Tracks.use (h : session.Tracks done) (hnumber : act.number? = some number)
    (hmade : number < made done) (hfree : number ∉ used done) :
    ∃ next, session.step act = .ok next ∧ next.Tracks (done ++ [act]) := by
  obtain ⟨marker, hmarker⟩ := h.live number hmade hfree
  obtain ⟨next, hnext, hmarkers⟩ : ∃ next, session.step act = .ok next ∧
      next.markers = session.markers.setIfInBounds number none := by
    cases act with
    | start => cases hnumber
    | complete number kind =>
      obtain rfl := Option.some.inj hnumber
      exact ⟨_, use_eq hmarker fun trace marker => trace.complete marker kind, rfl⟩
    | abandon number =>
      obtain rfl := Option.some.inj hnumber
      exact ⟨_, use_eq hmarker Trace.abandon, rfl⟩
  refine ⟨next, hnext, h.sound.step hnext, ?_, fun other hother hnot => ?_, fun other hgone => ?_⟩
  · rw [hmarkers, Array.size_setIfInBounds, made_use done hnumber, h.size]
  · rw [made_use done hnumber] at hother
    rw [used_use done hnumber, List.mem_append, List.mem_singleton, not_or] at hnot
    obtain ⟨kept, hkept⟩ := h.live other hother hnot.1
    exact ⟨kept, by rw [hmarkers, getElem?_use_iff]; exact ⟨hnot.2, hkept⟩⟩
  · rw [used_use done hnumber, List.mem_append, List.mem_singleton] at hgone
    rw [hmarkers, Array.getElem?_setIfInBounds]
    split
    · rename_i hsame
      rw [if_pos (hsame ▸ (Array.getElem?_eq_some_iff.1 hmarker).1)]
    · rename_i hne
      exact h.gone other (hgone.resolve_right fun heq => hne heq.symm)

end MarkerSession

open MarkerSession

namespace MarkerStep

variable {done rest steps : List MarkerStep}

/-- Steps that use every mark once are carried out one by one. -/
theorem UseOnce.exists_tracks (h : UseOnce steps) (hsplit : steps = done ++ rest) :
    ∃ session, done.foldlM MarkerSession.step {} = .ok session ∧ session.Tracks done := by
  induction done using List.reverseRecOn generalizing rest with
  | nil => exact ⟨{}, rfl, tracks_nil⟩
  | append_singleton done act ih =>
    rw [List.append_assoc] at hsplit
    obtain ⟨session, hrun, htracks⟩ := ih hsplit
    have hnodup : (used steps).Nodup := h.once.nodup_iff.2 List.nodup_range
    obtain ⟨next, hstep, hnext⟩ : ∃ next, session.step act = .ok next ∧ next.Tracks (done ++ [act]) := by
      cases hnumber : act.number? with
      | none =>
        obtain rfl : act = .start := by cases act <;> first | rfl | cases hnumber
        exact htracks.start
      | some number =>
        have hmade := h.after done.length (by simp [hsplit]) number (by simp [hsplit, hnumber])
        rw [hsplit, List.take_left] at hmade
        refine htracks.use hnumber hmade fun hmem => ?_
        rw [hsplit, used_append, used_append] at hnodup
        refine (List.nodup_append.1 hnodup).2.2 number hmem number (List.mem_append_left _ ?_) rfl
        exact List.mem_filterMap.2 ⟨act, List.mem_singleton_self act, hnumber⟩
    refine ⟨next, ?_, hnext⟩
    rw [List.foldlM_append, hrun]
    exact (bind_pure _).trans hstep

/-- In the end no mark is left. -/
theorem UseOnce.exists_ofSteps (h : UseOnce steps) :
    ∃ session : MarkerSession, session.Sound ∧ Trace.ofSteps steps = .ok session.trace := by
  obtain ⟨session, hrun, htracks⟩ := h.exists_tracks (List.append_nil steps).symm
  refine ⟨session, htracks.sound, ?_⟩
  have hnone : session.markers.any Option.isSome = false := by
    rw [Array.any_eq_false]
    intro number hlt
    have hused : number ∈ used steps := by
      rw [h.once.mem_iff, List.mem_range, ← htracks.size]
      exact hlt
    have hgone := htracks.gone number hused
    rw [Array.getElem?_eq_getElem hlt] at hgone
    rw [Option.some.inj hgone]
    exact Bool.false_ne_true
  rw [Trace.ofSteps, hrun]
  simp [hnone, bind, Except.bind]

end MarkerStep

/-! ### Tokens after them -/

namespace Assembly

/-- Assembly that starts on a trace, after the first `n` tokens. -/
def afterOn (trace : Trace) (tokens : List Token) (n : Nat) : Assembly :=
  (tokens.take n).foldl step { trace := trace.push (.start .root) }

variable {trace : Trace} {assembly : Assembly} {tokens : List Token} {pairing : Pairing}

theorem behind_empty (h : trace.intact) : Trace.behind trace.events {} = trace := by
  obtain ⟨events, intact⟩ := trace
  simpa [Trace.behind] using h.symm

theorem afterOn_eq (h : trace.intact) (tokens : List Token) (n : Nat) :
    afterOn trace tokens n = (after tokens n).behind trace.events := by
  have hstart : ({ trace := trace.push (.start .root) } : Assembly) =
      behind trace.events { trace := Trace.push {} (.start .root) } := by
    conv_lhs => rw [← behind_empty h, Trace.behind_push]
    rfl
  rw [afterOn, hstart, behind_foldl_step, after]

/-- While tags are demoted, those that are left keep their places. -/
theorem holds_afterOn (h : trace.intact) {n : Nat} {inner outer : List OpenTag}
    (hopen : (afterOn trace tokens n).openTags = inner ++ outer) :
    (inner.foldl demote { afterOn trace tokens n with openTags := outer }).trace.intact ∧
      ∀ opened ∈ outer, (inner.foldl demote
        { afterOn trace tokens n with openTags := outer }).trace.holds opened.marker := by
  rw [afterOn_eq h] at hopen ⊢
  obtain ⟨inner, outer, hsplit, rfl, rfl⟩ := List.map_eq_append_iff.1 hopen
  obtain ⟨pairing, hreached⟩ := (Reached.start.run (tokens.take n)).exists_demoted hsplit
  rw [behind_foldl_demote]
  refine ⟨hreached.intact, List.forall_mem_map.2 fun opened hopened => ?_⟩
  have hholds := hreached.holds_marker opened (by rwa [openTags_foldl_demote])
  rwa [← Trace.holds_behind trace.events] at hholds

end Assembly

open Assembly

/-- Marks may be made and used by hand in any order. Whoever uses each of them once finds it at an event
kept free for it, and so does assembly, which records its own events after that. -/
theorem MarkerStep.UseOnce.marks_kept {steps : List MarkerStep} (h : UseOnce steps)
    (tokens : List Token) :
    (∀ done rest, steps = done ++ rest → ∃ session : MarkerSession,
      done.foldlM MarkerSession.step {} = .ok session ∧ session.trace.intact ∧
        ∀ marker : Marker, some marker ∈ session.markers → session.trace.holds marker) ∧
    ∃ trace, Trace.ofSteps steps = .ok trace ∧
      (∀ n inner outer, (afterOn trace tokens n).openTags = inner ++ outer →
        (inner.foldl demote { afterOn trace tokens n with openTags := outer }).trace.intact ∧
        ∀ opened ∈ outer, (inner.foldl demote
          { afterOn trace tokens n with openTags := outer }).trace.holds opened.marker) ∧
      (Assembly.run { trace } tokens).trace.intact ∧
      Event.Paired (Assembly.run { trace } tokens).trace.events.toList := by
  refine ⟨fun done rest hsplit => ?_, ?_⟩
  · obtain ⟨session, hrun, htracks⟩ := h.exists_tracks hsplit
    refine ⟨session, hrun, htracks.sound.intact, fun marker hmarker => ?_⟩
    obtain ⟨number, hnumber⟩ := Array.mem_iff_getElem?.1 hmarker
    exact htracks.sound.holds number marker hnumber
  · obtain ⟨session, hsound, hsteps⟩ := h.exists_ofSteps
    obtain ⟨last, hreached, -, htrace⟩ := exists_reached tokens
    obtain ⟨⟨inside, hevents, hinside⟩, -⟩ := events_assemble tokens
    have hrun := run_behind session.trace.events tokens
    rw [behind_empty hsound.intact] at hrun
    refine ⟨session.trace, hsteps, fun n inner outer => holds_afterOn hsound.intact, ?_, ?_⟩
    · rw [hrun, behind, Trace.behind, htrace]
      exact hreached.intact
    · rw [hrun, behind, Trace.behind, Array.toList_append, hevents]
      exact hsound.paired.append (hinside.paired.node .root)

/-- Two marks, the first of which is used first, and a third one that takes the place of the second. -/
def crossingMarks : List MarkerStep :=
  [.start, .start, .abandon 1, .start, .complete 0 .link, .complete 2 .image]

theorem MarkerStep.UseOnce.marks_kept_crossingMarks : UseOnce crossingMarks ∧
    ∃ trace, Trace.ofSteps crossingMarks = .ok trace ∧
      trace.events = #[.start .link, .start .image, .finish, .finish] ∧
      Event.Paired (Assembly.run { trace } unclosedStylesInLink).trace.events.toList := by
  have honce : UseOnce crossingMarks := ⟨by decide, by decide⟩
  obtain ⟨-, trace, hsteps, -, -, hpaired⟩ := honce.marks_kept unclosedStylesInLink
  have htrace : Trace.ofSteps crossingMarks =
      .ok ⟨#[.start .link, .start .image, .finish, .finish], true⟩ := by decide +kernel
  obtain rfl := Except.ok.inj (htrace.symm.trans hsteps)
  exact ⟨honce, _, hsteps, rfl, hpaired⟩

end InlineMarkup

import InlineMarkup.Proofs.Sessions

/-! Ledgers: assembly together with what it does to its events, where every mark has a number. A mark is
made where a tag is opened. It is used once, where that tag is closed or demoted. -/

namespace InlineMarkup

/-- What assembly does to its events. -/
inductive TraceStep
  | token (kind : TokenKind)
  | mark (step : MarkerStep)
deriving DecidableEq, Repr

namespace TraceStep

def tokenKind? : TraceStep → Option TokenKind
  | token kind => some kind
  | mark _ => none

def markerStep? : TraceStep → Option MarkerStep
  | token _ => none
  | mark step => some step

/-- What is done to marks, without the tokens that are recorded in between. -/
def markerSteps (steps : List TraceStep) : List MarkerStep := steps.filterMap markerStep?

variable (steps : List TraceStep)

@[simp] theorem markerSteps_token (kind : TokenKind) :
    markerSteps (steps ++ [.token kind]) = markerSteps steps := by
  simp [markerSteps, markerStep?]

@[simp] theorem markerSteps_mark (act : MarkerStep) :
    markerSteps (steps ++ [.mark act]) = markerSteps steps ++ [act] := by
  simp [markerSteps, markerStep?]

end TraceStep

open TraceStep MarkerStep

/-- Whether every mark that is used has been made before. -/
def MarkerStep.InOrder (steps : List MarkerStep) : Prop :=
  ∀ n < steps.length, ∀ number ∈ steps[n]?.bind number?, number < made (steps.take n)

theorem MarkerStep.InOrder.concat {steps : List MarkerStep} {act : MarkerStep} (h : InOrder steps)
    (hact : ∀ number ∈ act.number?, number < made steps) : InOrder (steps ++ [act]) := by
  intro n hn number hnumber
  rw [List.length_append, List.length_singleton] at hn
  rcases Nat.lt_succ_iff_lt_or_eq.1 hn with hlt | rfl
  · rw [List.getElem?_append_left hlt] at hnumber
    rw [List.take_append_of_le_length (Nat.le_of_lt hlt)]
    exact h n hlt number hnumber
  · rw [List.getElem?_concat_length, Option.bind_some] at hnumber
    rw [List.take_left]
    exact hact number hnumber

/-- Carries out a step that makes or uses a mark, or records a token. -/
def MarkerSession.perform (session : MarkerSession) : TraceStep → Except MarkerFault MarkerSession
  | .token kind => .ok { session with trace := session.trace.push (.token (.token kind)) }
  | .mark act => session.step act

/-- The session in which assembly starts: the root has begun, and there are no marks. -/
def MarkerSession.rooted : MarkerSession := { trace := Trace.push {} (.start .root) }

/-! ### Marks that are left -/

/-- Whether the steps have led to a session with the given events, in which the marks that are left have the
given numbers. -/
structure Keeps (steps : List TraceStep) (session : MarkerSession) (trace : Trace) (numbers : List Nat)
    (markers : List Marker) : Prop where
  run : steps.foldlM MarkerSession.perform .rooted = .ok session
  trace : session.trace = trace
  size : session.markers.size = made (markerSteps steps)
  held : ∀ (number : Nat) (marker : Marker),
    session.markers[number]? = some (some marker) ↔ (number, marker) ∈ numbers.zip markers

namespace Keeps

variable {steps : List TraceStep} {session next : MarkerSession} {trace : Trace} {number : Nat}
  {numbers : List Nat} {marker : Marker} {markers : List Marker} {act : MarkerStep}

theorem run_append (h : Keeps steps session trace numbers markers) {step : TraceStep}
    (hstep : session.perform step = .ok next) :
    (steps ++ [step]).foldlM MarkerSession.perform .rooted = .ok next := by
  rw [List.foldlM_append, h.run]
  exact (bind_pure _).trans hstep

theorem token (h : Keeps steps session trace numbers markers) (kind : TokenKind) :
    ∃ next, Keeps (steps ++ [.token kind]) next (trace.push (.token (.token kind))) numbers markers := by
  refine ⟨{ session with trace := session.trace.push (.token (.token kind)) }, h.run_append rfl, ?_, ?_,
    h.held⟩
  · rw [h.trace]
  · rw [markerSteps_token]
    exact h.size

/-- A new mark takes the next number. -/
theorem start (h : Keeps steps session trace numbers markers) :
    ∃ next, Keeps (steps ++ [.mark .start]) next trace.mark.1
      (made (markerSteps steps) :: numbers) (trace.mark.2 :: markers) := by
  refine ⟨_, h.run_append rfl, congrArg (·.mark.1) h.trace, ?_, fun number marker => ?_⟩
  · rw [markerSteps_mark, made_start, ← h.size]
    exact Array.size_push ..
  · rw [Array.getElem?_push, List.zip_cons_cons, List.mem_cons, ← h.size, ← h.held]
    split
    · rename_i hnew
      simp [hnew, h.trace, Trace.mark, eq_comm]
    · rename_i hold
      simp [hold]

/-- A mark that is left can be used, and is not left after that. -/
theorem use (h : Keeps steps session trace (number :: numbers) (marker :: markers))
    (hfresh : number ∉ numbers) (hnumber : act.number? = some number) {f : Trace → Marker → Trace}
    (hact : session.step act = session.use number f) :
    ∃ next, Keeps (steps ++ [.mark act]) next (f trace marker) numbers markers := by
  have hmarker : session.markers[number]? = some (some marker) :=
    (h.held number marker).2 List.mem_cons_self
  refine ⟨_, h.run_append (hact.trans (MarkerSession.use_eq hmarker f)), ?_, ?_, fun other kept => ?_⟩
  · rw [h.trace]
  · rw [markerSteps_mark, made_use _ hnumber, Array.size_setIfInBounds]
    exact h.size
  · -- the number that is used is not among the others, so nothing else goes with it
    rw [MarkerSession.getElem?_use_iff, h.held, List.zip_cons_cons, List.mem_cons, Prod.mk.injEq]
    constructor
    · rintro ⟨hne, ⟨rfl, -⟩ | hkept⟩
      · exact absurd rfl hne
      · exact hkept
    · intro hkept
      exact ⟨fun heq => hfresh (heq ▸ (List.of_mem_zip hkept).1), .inr hkept⟩

theorem complete (h : Keeps steps session trace (number :: numbers) (marker :: markers))
    (hfresh : number ∉ numbers) (kind : SyntaxKind) :
    ∃ next, Keeps (steps ++ [.mark (.complete number kind)]) next (trace.complete marker kind) numbers
      markers :=
  h.use (f := fun trace marker => trace.complete marker kind) hfresh rfl rfl

theorem abandon (h : Keeps steps session trace (number :: numbers) (marker :: markers))
    (hfresh : number ∉ numbers) :
    ∃ next, Keeps (steps ++ [.mark (.abandon number)]) next (trace.abandon marker) numbers markers :=
  h.use (f := Trace.abandon) hfresh rfl rfl

end Keeps

/-! ### Assembly -/

namespace Assembly

/-- The moments of assembly, with what it has done to its events until then and the numbers of the marks of
its open tags, the innermost one first. -/
inductive Ledger : Assembly → List TraceStep → List Nat → Prop
  | start : Ledger { trace := Trace.push {} (.start .root) } [] []
  | leaf {assembly : Assembly} {steps : List TraceStep} {numbers : List Nat}
      (h : Ledger assembly steps numbers) (token : Token) (recoveries : Array Recovery) :
      Ledger ({ assembly with recoveries }.takeLeaf token) (steps ++ [.token token.kind]) numbers
  /-- The mark gets a number that no mark has had before. -/
  | opened {assembly : Assembly} {steps : List TraceStep} {numbers : List Nat}
      (h : Ledger assembly steps numbers) (token : Token) (tag : Tag)
      (hroom : assembly.openTags.length < maxDepth) :
      Ledger (assembly.openTag tag token) (steps ++ [.mark .start] ++ [.token token.kind])
        (made (markerSteps steps) :: numbers)
  | demoted {assembly : Assembly} {opened : OpenTag} {openTags : List OpenTag} {steps : List TraceStep}
      {number : Nat} {numbers : List Nat} (h : Ledger assembly steps (number :: numbers))
      (hopen : assembly.openTags = opened :: openTags) :
      Ledger ({ assembly with openTags }.demote opened) (steps ++ [.mark (.abandon number)]) numbers
  | finished {assembly : Assembly} {opened : OpenTag} {openTags : List OpenTag} {steps : List TraceStep}
      {number : Nat} {numbers : List Nat} (h : Ledger assembly steps (number :: numbers))
      (hopen : assembly.openTags = opened :: openTags) (token : Token) :
      Ledger ({ assembly with openTags }.finish opened token)
        (steps ++ [.token token.kind] ++ [.mark (.complete number opened.tag.syntaxKind)]) numbers

variable {assembly : Assembly} {steps : List TraceStep} {number : Nat} {numbers : List Nat}
  {tokens : List Token} {pairing : Pairing}

namespace Ledger

theorem length_eq (h : Ledger assembly steps numbers) : numbers.length = assembly.openTags.length := by
  induction h with
  | start => rfl
  | leaf h token recoveries ih => simpa using ih
  | opened h token tag hroom ih => simpa [openTag_of_lt tag token hroom] using ih
  | demoted h hopen ih =>
    rw [hopen] at ih
    exact Nat.succ.inj ih
  | finished h hopen token ih =>
    rw [hopen] at ih
    simpa using Nat.succ.inj ih

theorem exists_head (h : Ledger assembly steps numbers) {opened : OpenTag} {openTags : List OpenTag}
    (hopen : assembly.openTags = opened :: openTags) : ∃ number rest, numbers = number :: rest :=
  List.exists_cons_of_length_eq_add_one (h.length_eq.trans (congrArg List.length hopen))

/-- The marks that have been made are those that have been used and those of the open tags. -/
theorem perm (h : Ledger assembly steps numbers) :
    (used (markerSteps steps) ++ numbers).Perm (List.range (made (markerSteps steps))) := by
  induction h with
  | start => exact .nil
  | leaf h token recoveries ih => simpa using ih
  | opened h token tag hroom ih =>
    rw [markerSteps_token, markerSteps_mark, used_start, made_start, List.range_succ]
    exact List.perm_middle.trans ((ih.cons _).trans (List.perm_append_singleton _ _).symm)
  | demoted h hopen ih =>
    rwa [markerSteps_mark, used_use _ rfl, made_use _ rfl, List.append_assoc]
  | finished h hopen token ih =>
    rwa [markerSteps_mark, markerSteps_token, used_use _ rfl, made_use _ rfl, List.append_assoc]

theorem head_lt_made (h : Ledger assembly steps (number :: numbers)) :
    number < made (markerSteps steps) :=
  List.mem_range.1 (h.perm.mem_iff.1 (List.mem_append_right _ List.mem_cons_self))

/-- No two open tags have the same mark. -/
theorem head_notMem (h : Ledger assembly steps (number :: numbers)) : number ∉ numbers := by
  have hnodup := h.perm.nodup_iff.2 List.nodup_range
  exact (List.nodup_cons.1 (List.nodup_append.1 hnodup).2.1).1

/-- Carrying out what a ledger says makes the events of assembly and leaves the marks of its open tags. -/
theorem exists_keeps (h : Ledger assembly steps numbers) :
    ∃ session, Keeps steps session assembly.trace numbers (assembly.openTags.map (·.marker)) := by
  induction h with
  | start => exact ⟨.rooted, rfl, rfl, rfl, by simp [MarkerSession.rooted]⟩
  | leaf h token recoveries ih =>
    obtain ⟨session, hkeeps⟩ := ih
    simpa using hkeeps.token token.kind
  | opened h token tag hroom ih =>
    obtain ⟨session, hkeeps⟩ := ih
    obtain ⟨marked, hmarked⟩ := hkeeps.start
    simpa [openTag_of_lt tag token hroom] using hmarked.token token.kind
  | demoted h hopen ih =>
    obtain ⟨session, hkeeps⟩ := ih
    rw [hopen, List.map_cons] at hkeeps
    exact hkeeps.abandon h.head_notMem
  | @finished _ opened _ _ _ _ h hopen token ih =>
    obtain ⟨session, hkeeps⟩ := ih
    rw [hopen, List.map_cons] at hkeeps
    obtain ⟨recorded, hrecorded⟩ := hkeeps.token token.kind
    simpa using hrecorded.complete h.head_notMem opened.tag.syntaxKind

/-- Every mark is made before it is used. -/
theorem inOrder (h : Ledger assembly steps numbers) : InOrder (markerSteps steps) := by
  induction h with
  | start => exact fun n hn => absurd hn (Nat.not_lt_zero n)
  | leaf h token recoveries ih => simpa using ih
  | opened h token tag hroom ih =>
    rw [markerSteps_token, markerSteps_mark]
    exact ih.concat nofun
  | demoted h hopen ih =>
    rw [markerSteps_mark]
    exact ih.concat fun _ hnumber => Option.some.inj hnumber ▸ h.head_lt_made
  | finished h hopen token ih =>
    rw [markerSteps_mark, markerSteps_token]
    exact ih.concat fun _ hnumber => Option.some.inj hnumber ▸ h.head_lt_made

end Ledger

/-- Every moment of assembly has a ledger, which tells of the tokens in order. -/
theorem Reached.exists_ledger (h : Reached tokens assembly pairing) :
    ∃ steps numbers, Ledger assembly steps numbers ∧
      steps.filterMap tokenKind? = tokens.map (·.kind) := by
  induction h with
  | start => exact ⟨[], [], .start, rfl⟩
  | leaf h token recoveries ih =>
    obtain ⟨steps, numbers, hledger, htokens⟩ := ih
    exact ⟨_, _, hledger.leaf token recoveries, by simp [htokens, tokenKind?]⟩
  | opened h token tag hkind hroom ih =>
    obtain ⟨steps, numbers, hledger, htokens⟩ := ih
    exact ⟨_, _, hledger.opened token tag hroom, by simp [htokens, List.filterMap_cons, tokenKind?]⟩
  | demoted h hopen ih =>
    obtain ⟨steps, numbers, hledger, htokens⟩ := ih
    obtain ⟨number, rest, rfl⟩ := hledger.exists_head hopen
    exact ⟨_, _, hledger.demoted hopen, by simp [htokens, tokenKind?]⟩
  | finished h hopen token hkind ih =>
    obtain ⟨steps, numbers, hledger, htokens⟩ := ih
    obtain ⟨number, rest, rfl⟩ := hledger.exists_head hopen
    exact ⟨_, _, hledger.finished hopen token, by simp [htokens, tokenKind?]⟩

/-- Every mark that is made where a tag is opened is completed where that tag is closed or abandoned where it
is demoted, once and not before it is made. In the end none is left, and the events are those that come of
this. -/
theorem marks_used_once (tokens : List Token) :
    ∃ steps, Ledger (after tokens tokens.length).demoteAll steps [] ∧
      steps.filterMap tokenKind? = tokens.map (·.kind) ∧ UseOnce (markerSteps steps) ∧
      ∃ session, steps.foldlM MarkerSession.perform .rooted = .ok session ∧
        (∀ (number : Nat) (marker : Marker), session.markers[number]? ≠ some (some marker)) ∧
        (assemble tokens).trace = session.trace.push .finish := by
  have hreached := (Reached.start.run (tokens.take tokens.length)).demoteAll
  obtain ⟨steps, numbers, hledger, htokens⟩ := hreached.exists_ledger
  obtain ⟨session, hkeeps⟩ := hledger.exists_keeps
  -- no tag is open in the end, so no mark is left and all that were made are used
  have hclosed : (after tokens tokens.length).demoteAll.openTags = [] :=
    List.length_eq_zero_iff.1 hreached.length_eq
  obtain rfl : numbers = [] :=
    List.length_eq_zero_iff.1 (hledger.length_eq.trans (congrArg List.length hclosed))
  have honce := hledger.perm
  rw [List.append_nil] at honce
  refine ⟨steps, hledger, ?_, ⟨honce, hledger.inOrder⟩, session, hkeeps.run, fun number marker hmarker => ?_,
    ?_⟩
  · rw [htokens, List.nil_append, List.take_length]
  · rw [hkeeps.held] at hmarker
    exact List.not_mem_nil hmarker
  · rw [assemble_eq_after, hkeeps.trace]
    rfl

/-- The styles that are never closed give their marks up where the address closes the link around them. -/
example : ([.mark .start, .token .linkStart, .mark .start, .token .bold, .mark .start, .token .italic,
    .token .escape, .mark (.abandon 2), .mark (.abandon 1), .token .address, .mark (.complete 0 .link)].foldlM
      MarkerSession.perform .rooted).map (·.trace.push .finish) =
    .ok (assemble unclosedStylesInLink).trace := by
  decide +kernel

end Assembly

end InlineMarkup

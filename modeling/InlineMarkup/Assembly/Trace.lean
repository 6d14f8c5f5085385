import InlineMarkup.SyntaxTree.Event

/-! Traces: the events of a syntax tree as they are recorded. The place of a node's start is
marked before it is known whether the node will ever end. -/

namespace InlineMarkup

/-- A mark at the event kept free for the start of a node. -/
structure Marker where
  index : Nat
deriving DecidableEq, Repr

structure Trace where
  events : Array Event := #[]
  /-- Whether every mark that was used stood at an event still kept free. -/
  intact : Bool := true
deriving DecidableEq, Repr

namespace Trace

variable (trace : Trace)

def push (event : Event) : Trace := { trace with events := trace.events.push event }

/-- Whether the event at the mark is still kept free. -/
def holds (marker : Marker) : Bool := trace.events[marker.index]? == some .placeholder

/-- Keeps an event free for the start of a node. -/
def mark : Trace × Marker :=
  let marker := ⟨trace.events.size⟩
  (trace.push .placeholder, marker)

/-- Ends the node that starts at the mark. -/
def complete (marker : Marker) (kind : SyntaxKind) : Trace :=
  let intact := trace.intact && trace.holds marker
  { events := (trace.events.setIfInBounds marker.index (.start kind)).push .finish, intact }

/-- Gives up the node at the mark. The event kept free goes away if it is the last one, and
stays without effect otherwise. -/
def abandon (marker : Marker) : Trace :=
  let intact := trace.intact && trace.holds marker
  { events := if marker.index + 1 = trace.events.size then trace.events.pop else trace.events
    intact }

end Trace

/-- A step of one who marks nodes by hand. Marks are numbered from 0 as they are made. -/
inductive MarkerStep
  | start
  | complete (number : Nat) (kind : SyntaxKind)
  | abandon (number : Nat)
deriving DecidableEq, Repr

inductive MarkerFault
  /-- A step names a mark that was never made or has been used. -/
  | unknown (number : Nat)
  /-- A mark was made and never used. -/
  | unfinished
deriving DecidableEq, Repr

namespace MarkerFault

def message : MarkerFault → String
  | unknown number => s!"Marker {number} is not there to be completed or abandoned"
  | unfinished => "Marker must be either completed or abandoned"

end MarkerFault

/-- A trace and the marks made in it, those used taken out. -/
structure MarkerSession where
  trace : Trace := {}
  markers : Array (Option Marker) := #[]

namespace MarkerSession

variable (session : MarkerSession)

/-- Uses the mark of the given number. -/
def use (number : Nat) (f : Trace → Marker → Trace) : Except MarkerFault MarkerSession :=
  match session.markers[number]? with
  | some (some marker) => .ok
      { trace := f session.trace marker, markers := session.markers.setIfInBounds number none }
  | _ => .error (.unknown number)

def step : MarkerStep → Except MarkerFault MarkerSession
  | .start =>
    let (trace, marker) := session.trace.mark
    .ok { trace, markers := session.markers.push marker }
  | .complete number kind => session.use number fun trace marker => trace.complete marker kind
  | .abandon number => session.use number Trace.abandon

end MarkerSession

/-- Carries out steps one by one. All marks made must have been used in the end. -/
def Trace.ofSteps (steps : List MarkerStep) : Except MarkerFault Trace := do
  let session ← steps.foldlM MarkerSession.step {}
  if session.markers.any Option.isSome then .error .unfinished else .ok session.trace

end InlineMarkup

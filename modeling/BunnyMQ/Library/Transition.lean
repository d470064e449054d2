/-
This file describes runs of a system of labelled steps and the invariants along them.
-/

import Mathlib.Logic.Basic

namespace Foundation.Transition
variable {State Event : Type}

/-- A system starts in some states and takes labelled steps. -/
structure System (State Event : Type) where
  start : State → Prop
  step : State → Event → State → Prop

/-- These states are reached by runs in which every event is allowed where it happens. -/
inductive System.Reaches (system : System State Event) (allowed : State → Event → Prop) : State → Prop
  | start {state : State} : system.start state → system.Reaches allowed state
  | step {state next : State} {event : Event} : system.Reaches allowed state → allowed state event →
      system.step state event next → system.Reaches allowed next

/-- Every run of the system counts as a run. -/
def System.Free : State → Event → Prop := fun _ _ => True

/-- An invariant that every allowed step keeps holds in every reached state. -/
theorem System.Reaches.invariant {system : System State Event} {allowed : State → Event → Prop}
    {holds : State → Prop} (initial : ∀ state, system.start state → holds state)
    (preserved : ∀ state event next, holds state → allowed state event → system.step state event next → holds next)
    {state : State} (reached : system.Reaches allowed state) : holds state := by
  induction reached with
  | start begins => exact initial _ begins
  | step _ permitted moves ih => exact preserved _ _ _ ih permitted moves

/-- A weaker condition on the events allows the same runs. -/
theorem System.Reaches.mono {system : System State Event} {allowed wider : State → Event → Prop}
    (weaker : ∀ state event, allowed state event → wider state event) {state : State}
    (reached : system.Reaches allowed state) : system.Reaches wider state := by
  induction reached with
  | start begins => exact .start begins
  | step _ permitted moves ih => exact .step ih (weaker _ _ permitted) moves

/-- The state behind a list of events of a partial transition function. -/
def follow (next : State → Event → Option State) : State → List Event → Option State
  | state, [] => some state
  | state, event :: rest => (next state event).bind fun after => follow next after rest

theorem follow_append (next : State → Event → Option State) (state : State) (first second : List Event) :
    follow next state (first ++ second) = (follow next state first).bind fun after => follow next after second := by
  induction first generalizing state with
  | nil => rfl
  | cons event first ih =>
    rw [List.cons_append, follow, follow, Option.bind_assoc]
    exact congrArg _ (funext fun after => ih after)

/-- Every event of the list is allowed where it happens. -/
def permits (next : State → Event → Option State) (allowed : State → Event → Prop)
    [∀ state event, Decidable (allowed state event)] : State → List Event → Bool
  | _, [] => true
  | state, event :: rest =>
    decide (allowed state event) && (next state event).all fun after => permits next allowed after rest

instance : ∀ (state : State) (event : Event), Decidable (System.Free state event) := fun _ _ => .isTrue trivial

/-- A permitted list of events reaches the state behind it. -/
theorem System.Reaches.follow {system : System State Event} {allowed : State → Event → Prop}
    [∀ state event, Decidable (allowed state event)] {next : State → Event → Option State} {events : List Event}
    (steps : ∀ event ∈ events, ∀ state after, next state event = some after → system.step state event after)
    {state last : State} (reached : system.Reaches allowed state) (permitted : permits next allowed state events)
    (followed : Transition.follow next state events = some last) : system.Reaches allowed last := by
  induction events generalizing state with
  | nil =>
    cases followed
    exact reached
  | cons event rest ih =>
    obtain ⟨after, moved, further⟩ := Option.bind_eq_some_iff.mp followed
    simp only [permits, moved, Option.all_some, Bool.and_eq_true, decide_eq_true_eq] at permitted
    have stepped := steps event List.mem_cons_self state after moved
    exact ih (fun other member => steps other (List.mem_cons_of_mem _ member)) (.step reached permitted.1 stepped)
      permitted.2 further

/-- In a system of a partial function a permitted list of events reaches the state behind it. -/
theorem System.Reaches.run {begins : State → Prop} {allowed : State → Event → Prop}
    [∀ state event, Decidable (allowed state event)] {next : State → Event → Option State} {events : List Event}
    {state last : State} (started : begins state) (permitted : permits next allowed state events)
    (followed : Transition.follow next state events = some last) :
    System.Reaches ⟨begins, fun state event after => next state event = some after⟩ allowed last :=
  .follow (fun _ _ _ _ moved => moved) (.start started) permitted followed

/-- Some list of events leads from the one state to the other. -/
def Leads (next : State → Event → Option State) (first last : State) : Prop :=
  ∃ events, follow next first events = some last

section
variable {next : State → Event → Option State} {first middle last : State}

theorem Leads.refl (next : State → Event → Option State) (state : State) : Leads next state state := ⟨[], rfl⟩

theorem Leads.head (event : Event) (moved : next first event = some middle) (rest : Leads next middle last) :
    Leads next first last := by
  obtain ⟨events, followed⟩ := rest
  refine ⟨event :: events, ?_⟩
  rw [follow, moved]
  exact followed

theorem Leads.trans (before : Leads next first middle) (behind : Leads next middle last) : Leads next first last := by
  obtain ⟨events, followed⟩ := before
  obtain ⟨later, further⟩ := behind
  exact ⟨events ++ later, by rw [follow_append, followed]; exact further⟩

end

end Foundation.Transition

import Mathlib.Tactic

/-! Runs of a step relation. A run records the events it performed, and every one
of them was permitted in the state it was performed in. -/

namespace BtServer.Lib

variable {σ ε : Type}

inductive Run (step : σ → ε → σ → Prop) (permits : σ → ε → Prop) : σ → List ε → σ → Prop where
  | done (state : σ) : Run step permits state [] state
  | next {state middle final : σ} {event : ε} {events : List ε}
      (permitted : permits state event) (moved : step state event middle)
      (rest : Run step permits middle events final) : Run step permits state (event :: events) final

/-- Nothing is asked of the events of a free run. -/
def free (_ : σ) (_ : ε) : Prop := True

variable {step : σ → ε → σ → Prop} {permits : σ → ε → Prop}

namespace Run

theorem trans {first middle last : σ} {before after : List ε}
    (run : Run step permits first before middle) (rest : Run step permits middle after last) :
    Run step permits first (before ++ after) last := by
  induction run with
  | done state => exact rest
  | next permitted moved _ ih => exact .next permitted moved (ih rest)

theorem snoc {first middle last : σ} {events : List ε} {event : ε}
    (run : Run step permits first events middle) (permitted : permits middle event)
    (moved : step middle event last) : Run step permits first (events ++ [event]) last :=
  run.trans (.next permitted moved (.done last))

theorem split {first last : σ} {before after : List ε} (run : Run step permits first (before ++ after) last) :
    ∃ middle, Run step permits first before middle ∧ Run step permits middle after last := by
  induction before generalizing first with
  | nil => exact ⟨first, .done first, run⟩
  | cons event rest ih =>
    cases run with
    | next permitted moved later =>
      obtain ⟨middle, earlier, remaining⟩ := ih later
      exact ⟨middle, .next permitted moved earlier, remaining⟩

/-- What holds at the start and survives every permitted step holds at the end. -/
theorem invariant (holds : σ → Prop) (preserved : ∀ before event after, holds before → permits before event →
      step before event after → holds after) {first last : σ} {events : List ε} (run : Run step permits first events last)
    (initial : holds first) : holds last := by
  induction run with
  | done state => exact initial
  | next permitted moved _ ih => exact ih (preserved _ _ _ initial permitted moved)

/-- As `invariant`, for a property of the state and of the events that led to it. -/
theorem history (holds : List ε → σ → Prop) (preserved : ∀ past before event after, holds past before → permits before event →
      step before event after → holds (past ++ [event]) after)
    {first last : σ} {events : List ε} (run : Run step permits first events last)
    (initial : holds [] first) : holds events last := by
  have extended : ∀ {state final : σ} {events : List ε}, Run step permits state events final →
      ∀ past, holds past state → holds (past ++ events) final := by
    intro state final events run
    induction run with
    | done state => intro past kept; simpa using kept
    | next permitted moved _ ih =>
      intro past kept
      have later := ih _ (preserved _ _ _ _ kept permitted moved)
      simpa using later
  simpa using extended run [] initial

theorem weaken {other : σ → ε → Prop} (implies : ∀ state event, permits state event → other state event)
    {first last : σ} {events : List ε} (run : Run step permits first events last) :
    Run step other first events last := by
  induction run with
  | done state => exact .done state
  | next permitted moved _ ih => exact .next (implies _ _ permitted) moved ih

end Run

/-- Every event is admitted by the state that the events before it lead to. -/
def Along (admits : σ → ε → Prop) (next : σ → ε → σ) : σ → List ε → Prop
  | _, [] => True
  | state, event :: events => admits state event ∧ Along admits next (next state event) events

section Functions
variable {admits : σ → ε → Prop} {next : σ → ε → σ} {events : List ε}

instance [∀ state event, Decidable (admits state event)] (state : σ) :
    (events : List ε) → Decidable (Along admits next state events)
  | [] => inferInstanceAs (Decidable True)
  | event :: events =>
    have : Decidable (Along admits next (next state event) events) := instDecidableAlong (next state event) events
    inferInstanceAs (Decidable (_ ∧ _))

theorem Run.within (holds : σ → Prop) (allowed : ∀ state event, holds state → admits state event →
      permits state event ∧ step state event (next state event) ∧ holds (next state event))
    {state : σ} (initial : holds state) (admitted : Along admits next state events) :
    Run step permits state events (events.foldl next state) ∧ holds (events.foldl next state) := by
  induction events generalizing state with
  | nil => exact ⟨.done state, initial⟩
  | cons event events ih =>
    obtain ⟨permitted, moved, kept⟩ := allowed state event initial admitted.1
    exact (ih kept admitted.2).imp_left (.next permitted moved)

theorem Run.along (allowed : ∀ state event, admits state event → permits state event ∧ step state event (next state event))
    {state : σ} (admitted : Along admits next state events) : Run step permits state events (events.foldl next state) :=
  (within (fun _ => True) (fun state event _ admitted => (allowed state event admitted).imp_right fun moved => ⟨moved, trivial⟩)
    trivial admitted).1

theorem Run.foldl (allowed : ∀ state, ∀ event ∈ events, permits state event ∧ step state event (next state event)) (state : σ) :
    Run step permits state events (events.foldl next state) := by
  refine along (fun _ _ => id) ?_
  induction events generalizing state with
  | nil => trivial
  | cons event events ih =>
    exact ⟨allowed state event List.mem_cons_self, ih (fun state other member => allowed state other (.tail _ member)) _⟩

end Functions

end BtServer.Lib

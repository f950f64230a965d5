import Mathlib.Tactic

/-!
# Runs of a guarded step function

A system is given by a partial step function: `none` is a step that the program
does not survive, or an event that cannot happen.  A guard restricts which events
a run may contain, by a condition on the state before them.  Runs are extended at
their end; an invariant of a run is therefore proved from its first state and from
one step.
-/

namespace Protocol

variable {State Event : Type}

/-- `Run step guard start events state`: the events, each allowed by the guard
in the state it finds, lead from `start` to `state`. -/
inductive Run (step : State → Event → Option State)
    (guard : State → Event → Prop) (start : State) :
    List Event → State → Prop
  | nil : Run step guard start [] start
  | snoc {events : List Event} {state next : State} {event : Event} :
      Run step guard start events state → guard state event →
      step state event = some next →
      Run step guard start (events ++ [event]) next

variable {step : State → Event → Option State}
  {guard : State → Event → Prop} {start state next : State}
  {events : List Event} {event : Event}

/-- What holds at the start and is kept by every guarded step holds at the end
of every run. -/
theorem Run.invariant (Inv : State → Prop)
    (hrun : Run step guard start events state) (hstart : Inv start)
    (hstep : ∀ before event after, Inv before → guard before event →
      step before event = some after → Inv after) : Inv state := by
  induction hrun with
  | nil => exact hstart
  | snoc _ hguard hnext ih => exact hstep _ _ _ ih hguard hnext

/-- If every guarded step succeeds and keeps an invariant, no run gets stuck. -/
theorem Run.progress (Inv : State → Prop)
    (hrun : Run step guard start events state) (hstart : Inv start)
    (hstep : ∀ before event, Inv before → guard before event →
      ∃ after, step before event = some after ∧ Inv after) :
    Inv state ∧ ∀ event, guard state event → (step state event).isSome := by
  have hinv : Inv state := by
    refine hrun.invariant Inv hstart fun before event after h hguard hnext => ?_
    obtain ⟨_, hafter, hinv⟩ := hstep before event h hguard
    rw [hnext] at hafter
    exact Option.some.inj hafter ▸ hinv
  refine ⟨hinv, fun event hguard => ?_⟩
  obtain ⟨_, hafter, -⟩ := hstep state event hinv hguard
  rw [hafter]
  rfl

/-- If every step also lowers a measure, the measure bounds the run. -/
theorem Run.bounded (Inv : State → Prop) (measure : State → Nat)
    (hrun : Run step guard start events state) (hstart : Inv start)
    (hstep : ∀ before event after, Inv before → guard before event →
      step before event = some after → Inv after ∧ measure after < measure before) :
    Inv state ∧ measure state + events.length ≤ measure start := by
  induction hrun with
  | nil => exact ⟨hstart, le_rfl⟩
  | snoc _ hguard hnext ih =>
    obtain ⟨hinv, _⟩ := ih
    obtain ⟨hnextInv, _⟩ := hstep _ _ _ hinv hguard hnext
    refine ⟨hnextInv, ?_⟩
    rw [List.length_append, List.length_singleton]
    omega

theorem Run.weaken (hrun : Run step guard start events state)
    (hweaker : ∀ before event, guard before event → weaker before event) :
    Run step weaker start events state := by
  induction hrun with
  | nil => exact .nil
  | snoc _ hguard hnext ih => exact .snoc ih (hweaker _ _ hguard) hnext

theorem Run.single (hguard : guard start event) (hnext : step start event = some next) :
    Run step guard start [event] next := by
  have hrun : Run step guard start ([] ++ [event]) next := .snoc .nil hguard hnext
  exact hrun

theorem Run.append (hrun : Run step guard start events state)
    (hmore : Run step guard state more final) : Run step guard start (events ++ more) final := by
  induction hmore with
  | nil => simpa using hrun
  | snoc _ hguard hnext ih =>
    rw [← List.append_assoc]
    exact .snoc ih hguard hnext

def exec (step : State → Event → Option State)
    (guard : State → Event → Prop) [∀ state event, Decidable (guard state event)] :
    State → List Event → Option State
  | state, [] => some state
  | state, event :: events =>
      if guard state event then
        (step state event).bind fun next => exec step guard next events
      else none

theorem Run.exec_eq (hrun : Run step guard start events state) (more : List Event) :
    exec step (fun _ _ => True) start (events ++ more) =
      exec step (fun _ _ => True) state more := by
  induction hrun generalizing more with
  | nil => rfl
  | snoc _ _ hnext ih =>
    rw [List.append_assoc, ih]
    simp [exec, hnext]

theorem Run.of_exec [∀ state event, Decidable (guard state event)]
    (hexec : exec step guard start events = some state) : Run step guard start events state := by
  induction events generalizing start with
  | nil =>
    simp only [exec, Option.some.injEq] at hexec
    subst hexec
    exact .nil
  | cons event events ih =>
    simp only [exec] at hexec
    split at hexec
    next hguard =>
      obtain ⟨_, hnext, hrest⟩ := Option.bind_eq_some_iff.mp hexec
      exact (Run.single hguard hnext).append (ih hrest)
    · cases hexec

theorem Run.of_foldlM (hloop : events.foldlM step start = some state) :
    Run step (fun _ _ => True) start events state := by
  induction events generalizing start with
  | nil =>
    cases hloop
    exact .nil
  | cons event events ih =>
    obtain ⟨_, hnext, hrest⟩ := Option.bind_eq_some_iff.mp hloop
    exact (Run.single trivial hnext).append (ih hrest)

/-- A loop whose every round succeeds and keeps an invariant succeeds and keeps
the invariant. -/
theorem exists_foldlM (Inv : State → Prop) (hround : ∀ before, ∀ event ∈ events, Inv before →
      ∃ after, step before event = some after ∧ Inv after)
    (hstart : Inv start) : ∃ final, events.foldlM step start = some final ∧ Inv final := by
  induction events generalizing start with
  | nil => exact ⟨start, rfl, hstart⟩
  | cons event events ih =>
    obtain ⟨_, hnext, hinv⟩ := hround start event (by simp) hstart
    rw [List.foldlM_cons, hnext]
    exact ih (fun before e he => hround before e (by simp [he])) hinv

theorem foldlM_isSome (Inv : State → Prop) (hround : ∀ before, ∀ event ∈ events, Inv before →
      ∃ after, step before event = some after ∧ Inv after)
    (hstart : Inv start) : (events.foldlM step start).isSome := by
  obtain ⟨_, hfinal, -⟩ := exists_foldlM Inv hround hstart
  rw [hfinal]
  rfl

theorem Run.of_exec_any [∀ state event, Decidable (guard state event)]
    (hexec : (exec step guard start events).any test = true) :
    ∃ state, Run step guard start events state ∧ test state = true := by
  cases hstate : exec step guard start events with
  | none => simp [hstate] at hexec
  | some state =>
    rw [hstate] at hexec
    exact ⟨state, Run.of_exec hstate, hexec⟩

/-- A run is found by executing it; what was tested on its last state holds there. -/
theorem Run.exists_of_exec [∀ state event, Decidable (guard state event)]
    {P : State → Prop} [DecidablePred P]
    (hexec : (exec step guard start events).any (fun state => decide (P state)) = true) :
    ∃ state, Run step guard start events state ∧ P state := by
  obtain ⟨state, hrun, htest⟩ := Run.of_exec_any hexec
  exact ⟨state, hrun, of_decide_eq_true htest⟩

theorem Run.exists_of_exec_and [∀ state event, Decidable (guard state event)]
    {P R : State → Prop} [DecidablePred P]
    (hexec : (exec step guard start events).any (fun state => decide (P state)) = true)
    (hall : ∀ state, Run step guard start events state → P state → R state) :
    ∃ state, Run step guard start events state ∧ P state ∧ R state := by
  obtain ⟨state, hrun, htest⟩ := Run.exists_of_exec hexec
  exact ⟨state, hrun, htest, hall state hrun htest⟩

end Protocol

import Mathlib.Tactic.Common

/-!
# Runs of a system with labelled steps

A step is a partial function of the state and of a label that names what happens:
who acts, and what the environment answers. A label that is not possible in a
state, or that ends the system there, gives `none`, and the run stops.

A safety property of runs is one of their steps or of their states. The first is
`EveryStep`, with one rule that compares two properties step by step under an
invariant; the second is an invariant, which may rest on a property of the steps.
-/

namespace NetLab.Systems

variable {State Label : Type*}

/-- The state after a list of labels, if each of them was possible. -/
def run (step : State → Label → Option State) (state : State) (labels : List Label) :
    Option State :=
  labels.foldlM step state

/-- A property of the states before and after each step that is taken. -/
def EveryStep (step : State → Label → Option State) (holds : State → Label → State → Prop) :
    State → List Label → Prop
  | _, [] => True
  | state, label :: labels =>
      ∀ next, step state label = some next →
        holds state label next ∧ EveryStep step holds next labels

section Run

variable {step : State → Label → Option State} {state final : State} {label : Label}
  {labels : List Label}

theorem run_cons : run step state (label :: labels) =
    (step state label).bind fun next => run step next labels :=
  rfl

theorem run_cons_eq_some : run step state (label :: labels) = some final ↔
    ∃ next, step state label = some next ∧ run step next labels = some final := by
  rw [run_cons, Option.bind_eq_some_iff]

theorem run_append (more : List Label) : run step state (labels ++ more) =
    (run step state labels).bind fun next => run step next more :=
  List.foldlM_append

end Run

section EveryStep

variable {step : State → Label → Option State} {holds other : State → Label → State → Prop}
  {state next final : State} {label : Label} {labels : List Label}

@[simp]
theorem everyStep_nil : EveryStep step holds state [] :=
  trivial

theorem everyStep_cons (taken : step state label = some next) :
    EveryStep step holds state (label :: labels) ↔
      holds state label next ∧ EveryStep step holds next labels := by
  simp only [EveryStep, taken, Option.some.injEq, forall_eq']

theorem everyStep_cons_of_none (stopped : step state label = none) :
    EveryStep step holds state (label :: labels) := by
  intro next taken
  cases stopped.symm.trans taken

/-- Two properties of steps agree on a run when an invariant makes them agree on a step, and a step
with the first property keeps the invariant. -/
theorem everyStep_iff (Invariant : State → Prop) (start : Invariant state)
    (agree : ∀ state label next, Invariant state → step state label = some next →
      (holds state label next ↔ other state label next))
    (kept : ∀ state label next, Invariant state → step state label = some next →
      holds state label next → Invariant next) :
    EveryStep step holds state labels ↔ EveryStep step other state labels := by
  induction labels generalizing state with
  | nil => simp only [everyStep_nil]
  | cons label labels ih =>
      cases taken : step state label with
      | none => simp only [everyStep_cons_of_none taken]
      | some next =>
          simp only [everyStep_cons taken, ← agree state label next start taken]
          apply and_congr_right
          intro held
          exact ih (kept state label next start taken held)

/-- An invariant of the steps with a property is one of the runs whose steps all have it. -/
theorem EveryStep.invariant (every : EveryStep step holds state labels)
    (Invariant : State → Prop) (start : Invariant state)
    (kept : ∀ state label next, Invariant state → step state label = some next →
      holds state label next → Invariant next)
    (reached : run step state labels = some final) : Invariant final := by
  induction labels generalizing state with
  | nil =>
      cases reached
      exact start
  | cons label labels ih =>
      rcases run_cons_eq_some.mp reached with ⟨next, taken, rest⟩
      have ⟨held, later⟩ := (everyStep_cons taken).mp every
      exact ih later (kept state label next start taken held) rest

/-- Under an invariant of the steps with a property, they have what follows from both. -/
theorem EveryStep.imp (every : EveryStep step holds state labels)
    (Invariant : State → Prop) (start : Invariant state)
    (one : ∀ state label next, Invariant state → step state label = some next →
      holds state label next → other state label next ∧ Invariant next) :
    EveryStep step other state labels := by
  induction labels generalizing state with
  | nil => exact everyStep_nil
  | cons label labels ih =>
      intro next taken
      have ⟨held, later⟩ := every next taken
      have ⟨follows, kept⟩ := one state label next start taken held
      exact ⟨follows, ih later kept⟩

/-- A property of the labels alone holds of every step of a run that was taken to its end exactly
when it holds of every label. -/
theorem everyStep_label_iff {allowed : Label → Prop}
    (reached : run step state labels = some final) :
    EveryStep step (fun _ label _ => allowed label) state labels ↔
      ∀ label ∈ labels, allowed label := by
  induction labels generalizing state with
  | nil => simp
  | cons label labels ih =>
      rcases run_cons_eq_some.mp reached with ⟨next, taken, rest⟩
      rw [everyStep_cons taken, ih rest, List.forall_mem_cons]

theorem everyStep_of_mem
    (always : ∀ label ∈ labels, ∀ state next, step state label = some next →
      holds state label next) :
    EveryStep step holds state labels := by
  induction labels generalizing state with
  | nil => exact everyStep_nil
  | cons label labels ih =>
      intro next taken
      have ⟨first, later⟩ := List.forall_mem_cons.mp always
      exact ⟨first state next taken, ih later⟩

/-- What every step keeps holds at the end of a run. -/
theorem run_invariant (Invariant : State → Prop) (start : Invariant state)
    (kept : ∀ state label next, Invariant state → step state label = some next → Invariant next)
    (reached : run step state labels = some final) : Invariant final := by
  have every : EveryStep step (fun _ _ _ => True) state labels :=
    everyStep_of_mem fun _ _ _ _ _ => trivial
  apply every.invariant Invariant start _ reached
  intro state label next held taken _
  exact kept state label next held taken

/-- When a step ends well exactly if it starts well and has a property, a run does exactly if it
starts well and all its steps have the property. -/
theorem good_final_iff (Invariant good : State → Prop) (start : Invariant state)
    (one : ∀ state label next, Invariant state → step state label = some next →
      Invariant next ∧ (good next ↔ good state ∧ holds state label next))
    (reached : run step state labels = some final) :
    good final ↔ good state ∧ EveryStep step holds state labels := by
  induction labels generalizing state with
  | nil =>
      cases reached
      simp only [everyStep_nil, and_true]
  | cons label labels ih =>
      rcases run_cons_eq_some.mp reached with ⟨next, taken, rest⟩
      have ⟨kept, here⟩ := one state label next start taken
      rw [everyStep_cons taken, ih kept rest, here, and_assoc]

end EveryStep

end NetLab.Systems

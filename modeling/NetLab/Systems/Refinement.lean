import NetLab.Systems.Runs

/-!
# Runs of two systems

A system whose steps are steps of another one, or change nothing, has the runs of the other one.
With a relation between the states of both, each run is followed by one of the other system.
-/

namespace NetLab.Systems

section Meaning

variable {State Label Other : Type*} {step : State → Label → Option State}
  {other : State → Other → Option State}

/-- Each label stands for a label of the other system or for nothing. -/
theorem run_filterMap (stands : Label → Option Other)
    (one : ∀ state label, step state label =
      match stands label with
      | none => some state
      | some meaning => other state meaning)
    (state : State) (labels : List Label) :
    run step state labels = run other state (labels.filterMap stands) := by
  induction labels generalizing state with
  | nil => rfl
  | cons label labels ih =>
      rw [run_cons, one, List.filterMap_cons]
      cases stands label with
      | none => exact ih state
      | some meaning =>
          simp only [run_cons, ih]

end Meaning

section Simulation

variable {State Abstract Label : Type*} {step : State → Label → Option State}
  {abstractStep : Abstract → Label → Option Abstract}

/-- Related states stay related when both systems take the same steps. -/
theorem run_simulated (Related : State → Abstract → Prop)
    (one : ∀ state spec label next, Related state spec → step state label = some next →
      ∃ specNext, abstractStep spec label = some specNext ∧ Related next specNext)
    {state final : State} {spec : Abstract} {labels : List Label} (related : Related state spec)
    (reached : run step state labels = some final) :
    ∃ specFinal, run abstractStep spec labels = some specFinal ∧ Related final specFinal := by
  induction labels generalizing state spec with
  | nil =>
      cases reached
      exact ⟨spec, rfl, related⟩
  | cons label labels ih =>
      rcases run_cons_eq_some.mp reached with ⟨next, taken, rest⟩
      rcases one state spec label next related taken with ⟨specNext, specTaken, nextRelated⟩
      rcases ih nextRelated rest with ⟨specFinal, specReached, finalRelated⟩
      exact ⟨specFinal, run_cons_eq_some.mpr ⟨specNext, specTaken, specReached⟩, finalRelated⟩

end Simulation

end NetLab.Systems

import Mathlib.Logic.Function.Basic
import Mathlib.Order.Nat
import Mathlib.Tactic.Common

/-!
# Loops of an imperative program

A counting loop whose body cannot leave early is a structural iteration
(`forUp`, `forDown`); it always ends. A loop whose exit depends on the data is
run with fuel (`loop`), so that a run that never ends is `none` for every fuel
instead of being ruled out by the definition.

Each form comes with its invariant rule. `loop_total` is the total one: an
invariant together with a variant that every further pass decreases. The
`sweep` lemmas give the closed form of the loops that fill an array cell by
cell.
-/

namespace NetLab.Imperative

universe u v

section Counting

variable {State : Type u}

/-- Run `body` on `first`, `first + 1`, and so on, `count` times. -/
def iterateFrom (first : ℕ) (body : ℕ → State → State) : ℕ → State → State
  | 0, state => state
  | count + 1, state => body (first + count) (iterateFrom first body count state)

/-- `for (i = first; i < last; i++) body`. -/
def forUp (first last : ℕ) (body : ℕ → State → State) (state : State) : State :=
  iterateFrom first body (last - first) state

/-- `for (i = last - 1; i >= first; i--) body`. -/
def forDown (first last : ℕ) (body : ℕ → State → State) (state : State) : State :=
  iterateFrom 0 (fun taken => body (last - 1 - taken)) (last - first) state

theorem forUp_of_le {first last : ℕ} (empty : last ≤ first) (body : ℕ → State → State)
    (state : State) : forUp first last body state = state := by
  simp [forUp, Nat.sub_eq_zero_of_le empty, iterateFrom]

theorem forUp_succ {first last : ℕ} (le : first ≤ last) (body : ℕ → State → State)
    (state : State) :
    forUp first (last + 1) body state = body last (forUp first last body state) := by
  have count : last + 1 - first = (last - first) + 1 := by omega
  have index : first + (last - first) = last := by omega
  simp only [forUp, count, iterateFrom, index]

theorem forUp_first {first last : ℕ} (less : first < last) (body : ℕ → State → State)
    (state : State) :
    forUp first last body state = forUp (first + 1) last body (body first state) := by
  induction last, Nat.succ_le_of_lt less using Nat.le_induction with
  | base =>
      rw [forUp_succ le_rfl, forUp_of_le le_rfl, forUp_of_le le_rfl]
  | succ last le ih =>
      rw [forUp_succ (Nat.le_of_succ_le le), forUp_succ le, ih le]

/-- An invariant of the body holds when an ascending loop ends. -/
theorem forUp_induction {first last : ℕ} {body : ℕ → State → State}
    (invariant : ℕ → State → Prop) (le : first ≤ last) {state : State}
    (start : invariant first state)
    (step : ∀ index current, first ≤ index → index < last → invariant index current →
      invariant (index + 1) (body index current)) :
    invariant last (forUp first last body state) := by
  induction last, le using Nat.le_induction with
  | base => simpa [forUp_of_le le_rfl] using start
  | succ last le ih =>
      rw [forUp_succ le]
      apply step last _ le (Nat.lt_succ_self last)
      apply ih
      intro index current lower upper
      exact step index current lower (Nat.lt_succ_of_lt upper)

/-- What one pass of an ascending loop brings about holds at its end, if the later ones keep it. -/
theorem forUp_establish {first last index : ℕ} {body : ℕ → State → State} (holds : State → Prop)
    (lower : first ≤ index) (upper : index < last) (state : State)
    (here : ∀ current, holds (body index current))
    (later : ∀ other current, index < other → other < last → holds current →
      holds (body other current)) :
    holds (forUp first last body state) := by
  induction last, Nat.succ_le_of_lt upper using Nat.le_induction with
  | base =>
      rw [forUp_succ lower]
      exact here _
  | succ last le ih =>
      rw [forUp_succ (by omega)]
      apply later last _ le (Nat.lt_succ_self last)
      apply ih le
      intro other current above below
      exact later other current above (Nat.lt_succ_of_lt below)

/-- An invariant of the body holds when a descending loop ends. The invariant is indexed by the
last value the counter was used at. -/
theorem forDown_induction {first last : ℕ} {body : ℕ → State → State}
    (invariant : ℕ → State → Prop) (le : first ≤ last) {state : State}
    (start : invariant last state)
    (step : ∀ index current, first ≤ index → index < last → invariant (index + 1) current →
      invariant index (body index current)) :
    invariant first (forDown first last body state) := by
  have taken_le : ∀ taken, taken ≤ last - first →
      invariant (last - taken)
        (iterateFrom 0 (fun taken => body (last - 1 - taken)) taken state) := by
    intro taken
    induction taken with
    | zero => simpa [iterateFrom] using start
    | succ taken ih =>
        intro bound
        have index : last - 1 - (0 + taken) = last - (taken + 1) := by omega
        simp only [iterateFrom, index]
        apply step _ _ (by omega) (by omega)
        rw [show last - (taken + 1) + 1 = last - taken by omega]
        exact ih (by omega)
  have whole := taken_le (last - first) le_rfl
  rwa [show last - (last - first) = first by omega] at whole

/-- A loop on the states that `convert` gives does what the loop on the states themselves does. -/
theorem forUp_map {Other : Type v} {first last : ℕ} (convert : State → Other)
    {body : ℕ → State → State} {other : ℕ → Other → Other}
    (step : ∀ index current, first ≤ index → index < last →
      other index (convert current) = convert (body index current)) (state : State) :
    forUp first last other (convert state) = convert (forUp first last body state) := by
  rcases Nat.lt_or_ge last first with empty | le
  · rw [forUp_of_le empty.le, forUp_of_le empty.le]
  · induction last, le using Nat.le_induction with
    | base => rw [forUp_of_le le_rfl, forUp_of_le le_rfl]
    | succ last le ih =>
        have earlier : forUp first last other (convert state) =
            convert (forUp first last body state) := by
          apply ih
          intro index current lower upper
          exact step index current lower (Nat.lt_succ_of_lt upper)
        rw [forUp_succ le, forUp_succ le, earlier, step last _ le (Nat.lt_succ_self last)]

theorem forDown_map {Other : Type v} {first last : ℕ} (convert : State → Other)
    {body : ℕ → State → State} {other : ℕ → Other → Other}
    (step : ∀ index current, first ≤ index → index < last →
      other index (convert current) = convert (body index current)) (state : State) :
    forDown first last other (convert state) = convert (forDown first last body state) := by
  refine @forUp_map State Other 0 (last - first) convert
    (fun taken => body (last - 1 - taken)) (fun taken => other (last - 1 - taken)) ?_ state
  intro taken current _ below
  exact step (last - 1 - taken) current (by omega) (by omega)

/-- Two ascending loops of the same length keep a relation that their bodies keep. -/
theorem forUp_relate {Other : Type v} (left right count : ℕ) {body : ℕ → State → State}
    {otherBody : ℕ → Other → Other} (relation : ℕ → State → Other → Prop) {state : State}
    {other : Other} (start : relation 0 state other)
    (step : ∀ taken current otherCurrent, taken < count →
      relation taken current otherCurrent →
      relation (taken + 1) (body (left + taken) current)
        (otherBody (right + taken) otherCurrent)) :
    relation count (forUp left (left + count) body state)
      (forUp right (right + count) otherBody other) := by
  induction count with
  | zero => simpa [forUp_of_le] using start
  | succ count ih =>
      rw [← Nat.add_assoc, ← Nat.add_assoc, forUp_succ (Nat.le_add_right left count),
        forUp_succ (Nat.le_add_right right count)]
      apply step count _ _ (Nat.lt_succ_self count)
      apply ih
      intro taken current otherCurrent below
      exact step taken current otherCurrent (Nat.lt_succ_of_lt below)

end Counting

section Sweep

variable {Cell : Type u}

/-- An ascending loop that assigns each cell a value read from cells it has not reached yet
leaves every cell of its range with the value read from the array it started on. -/
theorem forUp_sweep (value : ℕ → (ℕ → Cell) → Cell)
    (reads : ∀ index left right, (∀ position, index ≤ position → left position = right position) →
      value index left = value index right)
    (first last : ℕ) (cells : ℕ → Cell) :
    forUp first last (fun index current => Function.update current index (value index current))
        cells =
      fun position => if first ≤ position ∧ position < last then value position cells
        else cells position := by
  rcases Nat.lt_or_ge last first with empty | le
  · rw [forUp_of_le empty.le]
    funext position
    rw [if_neg (by omega)]
  · apply forUp_induction
      (fun bound current => current = fun position =>
        if first ≤ position ∧ position < bound then value position cells else cells position) le
    · funext position
      rw [if_neg (by omega)]
    · rintro index current lower upper rfl
      funext position
      rcases eq_or_ne position index with rfl | other
      · rw [Function.update_self, if_pos (by omega)]
        apply reads
        intro later later_ge
        rw [if_neg (by omega)]
      · rw [Function.update_of_ne other]
        exact if_congr (by omega) rfl rfl

theorem forUp_fill (value : ℕ → Cell) (first last : ℕ) (cells : ℕ → Cell) :
    forUp first last (fun index current => Function.update current index (value index)) cells =
      fun position => if first ≤ position ∧ position < last then value position
        else cells position :=
  forUp_sweep (fun index _ => value index) (fun _ _ _ _ => rfl) first last cells

theorem forDown_fill (value : ℕ → Cell) (first last : ℕ) (cells : ℕ → Cell) :
    forDown first last (fun index current => Function.update current index (value index)) cells =
      fun position => if first ≤ position ∧ position < last then value position
        else cells position := by
  rcases Nat.lt_or_ge last first with empty | le
  · simp only [forDown, Nat.sub_eq_zero_of_le empty.le, iterateFrom]
    funext position
    rw [if_neg (by omega)]
  · apply forDown_induction
      (fun bound current => current = fun position =>
        if bound ≤ position ∧ position < last then value position else cells position) le
    · funext position
      rw [if_neg (by omega)]
    · rintro index current lower upper rfl
      funext position
      rcases eq_or_ne position index with rfl | other
      · rw [Function.update_self, if_pos (by omega)]
      · rw [Function.update_of_ne other]
        exact if_congr (by omega) rfl rfl

end Sweep

section Exit

variable {State : Type u} {Result : Type v}

inductive Pass (State : Type u) (Result : Type v) where
  | leave (result : Result)
  | again (state : State)

/-- Repeat `pass` until it leaves the loop, at most `fuel` times. -/
def loop (pass : State → Pass State Result) : ℕ → State → Option Result
  | 0, _ => none
  | fuel + 1, state =>
      match pass state with
      | .leave result => some result
      | .again next => loop pass fuel next

/-- Total correctness of a loop: with an invariant and a variant that every further pass
decreases, any fuel above the variant reaches a result that meets the postcondition. -/
theorem loop_total {pass : State → Pass State Result} (invariant : State → Prop)
    (variant : State → ℕ) (post : Result → Prop)
    (leaves : ∀ state result, invariant state → pass state = .leave result → post result)
    (repeats : ∀ state next, invariant state → pass state = .again next →
      invariant next ∧ variant next < variant state)
    {state : State} (start : invariant state) {fuel : ℕ} (enough : variant state < fuel) :
    ∃ result, loop pass fuel state = some result ∧ post result := by
  induction fuel generalizing state with
  | zero => omega
  | succ fuel ih =>
      simp only [loop]
      cases decision : pass state with
      | leave result => exact ⟨result, rfl, leaves state result start decision⟩
      | again next =>
          have ⟨next_holds, decreases⟩ := repeats state next start decision
          exact ih next_holds (by omega)

/-- A loop has one result, whatever fuel it is run with. -/
theorem loop_unique {pass : State → Pass State Result} {fuel more : ℕ} {state : State}
    {left right : Result} (first : loop pass fuel state = some left)
    (second : loop pass more state = some right) : left = right := by
  induction fuel generalizing more state with
  | zero => cases first
  | succ fuel ih =>
      rcases more with _ | more
      · cases second
      · simp only [loop] at first second
        cases decision : pass state with
        | leave result =>
            simp only [decision] at first second
            cases first
            cases second
            rfl
        | again next =>
            simp only [decision] at first second
            exact ih first second

/-- A loop that is led from each state of an invariant to the next one never ends. -/
theorem loop_eq_none {pass : State → Pass State Result} (invariant : State → Prop)
    (repeats : ∀ state, invariant state → ∃ next, pass state = .again next ∧ invariant next)
    {state : State} (start : invariant state) (fuel : ℕ) : loop pass fuel state = none := by
  induction fuel generalizing state with
  | zero => rfl
  | succ fuel ih =>
      rcases repeats state start with ⟨next, decision, kept⟩
      simp only [loop, decision]
      exact ih kept

end Exit

end NetLab.Imperative

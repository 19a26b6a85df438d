import NetLab.Imperative.Loop

/-!
# Programs over arrays

A program reads and writes cells of named arrays, and returns a result. Its accesses are
recorded with their indices, so that it can be asked which of them are inside the arrays. The
record does not influence the run: behind the end of an array there are further cells.
-/

namespace NetLab.Imperative

universe u v w

structure Access (Name : Type u) where
  array : Name
  index : ℕ
deriving DecidableEq

abbrev Arrays (Name : Type u) (Cell : Type v) := Name → ℕ → Cell

structure Outcome (Name : Type u) (Cell : Type v) (Result : Type w) where
  result : Result
  arrays : Arrays Name Cell
  accesses : List (Access Name)

structure Program (Name : Type u) (Cell : Type v) (Result : Type w) where
  run : Arrays Name Cell → Outcome Name Cell Result

namespace Program

variable {Name : Type u} {Cell : Type v} {Result Other : Type w}

instance : Monad (Program Name Cell) where
  pure result := { run := fun arrays => { result := result, arrays := arrays, accesses := [] } }
  bind program next :=
    { run := fun arrays =>
        let first := program.run arrays
        let second := (next first.result).run first.arrays
        { second with accesses := first.accesses ++ second.accesses } }

/-- `name[index]` as a value. -/
def load (name : Name) (index : ℕ) : Program Name Cell Cell where
  run arrays :=
    { result := arrays name index
      arrays := arrays
      accesses := [{ array := name, index := index }] }

/-- `name[index] = value`. -/
def store [DecidableEq Name] (name : Name) (index : ℕ) (value : Cell) :
    Program Name Cell PUnit.{w + 1} where
  run arrays :=
    { result := ⟨⟩
      arrays := Function.update arrays name (Function.update (arrays name) index value)
      accesses := [{ array := name, index := index }] }

/-- An ascending loop with a body that makes accesses and passes on a result. -/
def forUp (first last : ℕ) (body : ℕ → Result → Program Name Cell Result) (start : Result) :
    Program Name Cell Result :=
  Imperative.forUp first last (fun index program => program >>= body index) (pure start)

def forDown (first last : ℕ) (body : ℕ → Result → Program Name Cell Result) (start : Result) :
    Program Name Cell Result :=
  Imperative.forDown first last (fun index program => program >>= body index) (pure start)

/-- The values of `count` cells, as a loop that prints them reads them. -/
def readOut (name : Name) (first count : ℕ) : Program Name Cell (List Cell) :=
  forUp first (first + count)
    (fun index values => do
      let value ← load name index
      return values ++ [value]) []

/-- The result and the arrays that a program leaves. -/
def effect (program : Program Name Cell Result) (arrays : Arrays Name Cell) :
    Result × Arrays Name Cell :=
  ((program.run arrays).result, (program.run arrays).arrays)

/-- All accesses of a program are admitted. -/
def Makes (program : Program Name Cell Result) (admitted : Access Name → Prop)
    (arrays : Arrays Name Cell) : Prop :=
  ∀ access ∈ (program.run arrays).accesses, admitted access

instance (program : Program Name Cell Result) (admitted : Access Name → Prop)
    [DecidablePred admitted] (arrays : Arrays Name Cell) :
    Decidable (program.Makes admitted arrays) :=
  inferInstanceAs (Decidable (∀ access ∈ (program.run arrays).accesses, admitted access))

section Effects

variable {arrays : Arrays Name Cell}

-- The proofs in brackets keep `simp` from using these lemmas below an `if` without its instance.

@[simp]
theorem effect_pure (result : Result) :
    (pure result : Program Name Cell Result).effect arrays = (result, arrays) :=
  (rfl)

@[simp]
theorem effect_bind (program : Program Name Cell Other) (next : Other → Program Name Cell Result) :
    (program >>= next).effect arrays =
      (next (program.effect arrays).1).effect (program.effect arrays).2 :=
  (rfl)

@[simp]
theorem effect_load (name : Name) (index : ℕ) :
    (load name index).effect arrays = (arrays name index, arrays) :=
  (rfl)

@[simp]
theorem effect_store [DecidableEq Name] (name : Name) (index : ℕ) (value : Cell) :
    (store name index value).effect arrays =
      (⟨⟩, Function.update arrays name (Function.update (arrays name) index value)) :=
  (rfl)

theorem effect_ite (condition : Prop) [Decidable condition]
    (left right : Program Name Cell Result) :
    (if condition then left else right).effect arrays =
      if condition then left.effect arrays else right.effect arrays :=
  apply_ite (fun program : Program Name Cell Result => program.effect arrays) condition left right

theorem effect_forUp (first last : ℕ) (body : ℕ → Result → Program Name Cell Result)
    (start : Result) :
    (forUp first last body start).effect arrays =
      Imperative.forUp first last (fun index current => (body index current.1).effect current.2)
        (start, arrays) :=
  (forUp_map (fun program : Program Name Cell Result => program.effect arrays)
    (fun _ _ _ _ => rfl) (pure start)).symm

theorem effect_forDown (first last : ℕ) (body : ℕ → Result → Program Name Cell Result)
    (start : Result) :
    (forDown first last body start).effect arrays =
      Imperative.forDown first last (fun index current => (body index current.1).effect current.2)
        (start, arrays) :=
  effect_forUp 0 (last - first) (fun taken => body (last - 1 - taken)) start

/-- A loop that changes a single array does with its cells what its passes do with them. -/
theorem effect_forUp_array [DecidableEq Name] {first last : ℕ}
    {body : ℕ → PUnit.{w + 1} → Program Name Cell PUnit.{w + 1}} (name : Name)
    (next : ℕ → (ℕ → Cell) → ℕ → Cell)
    (step : ∀ index cells, (body index ⟨⟩).effect (Function.update arrays name cells) =
      (⟨⟩, Function.update arrays name (next index cells))) :
    (forUp first last body ⟨⟩).effect arrays =
      (⟨⟩, Function.update arrays name (Imperative.forUp first last next (arrays name))) := by
  have start : (PUnit.unit.{w + 1}, arrays) =
      (PUnit.unit.{w + 1}, Function.update arrays name (arrays name)) := by
    rw [Function.update_eq_self]
  rw [effect_forUp, start]
  refine forUp_map (fun cells => (PUnit.unit.{w + 1}, Function.update arrays name cells)) ?_
    (arrays name)
  intro index cells _ _
  exact step index cells

theorem effect_forDown_array [DecidableEq Name] {first last : ℕ}
    {body : ℕ → PUnit.{w + 1} → Program Name Cell PUnit.{w + 1}} (name : Name)
    (next : ℕ → (ℕ → Cell) → ℕ → Cell)
    (step : ∀ index cells, (body index ⟨⟩).effect (Function.update arrays name cells) =
      (⟨⟩, Function.update arrays name (next index cells))) :
    (forDown first last body ⟨⟩).effect arrays =
      (⟨⟩, Function.update arrays name (Imperative.forDown first last next (arrays name))) :=
  effect_forUp_array name (fun taken => next (last - 1 - taken))
    fun taken => step (last - 1 - taken)

end Effects

section Accesses

variable {admitted : Access Name → Prop} {arrays : Arrays Name Cell}

@[simp]
theorem makes_pure (result : Result) :
    (pure result : Program Name Cell Result).Makes admitted arrays :=
  fun _ listed => absurd listed List.not_mem_nil

@[simp]
theorem makes_bind {program : Program Name Cell Other} {next : Other → Program Name Cell Result} :
    (program >>= next).Makes admitted arrays ↔ program.Makes admitted arrays ∧
      (next (program.effect arrays).1).Makes admitted (program.effect arrays).2 :=
  List.forall_mem_append

@[simp]
theorem makes_load {name : Name} {index : ℕ} :
    (load name index).Makes admitted arrays ↔ admitted { array := name, index := index } :=
  List.forall_mem_singleton

@[simp]
theorem makes_store [DecidableEq Name] {name : Name} {index : ℕ} {value : Cell} :
    (store name index value).Makes admitted arrays ↔
      admitted { array := name, index := index } :=
  List.forall_mem_singleton

/-- The accesses of a loop are those of its passes, each from the state that it comes to. -/
theorem makes_forUp {first last : ℕ} {body : ℕ → Result → Program Name Cell Result}
    {start : Result} :
    (forUp first last body start).Makes admitted arrays ↔
      ∀ index, first ≤ index → index < last →
        (body index ((forUp first index body start).effect arrays).1).Makes admitted
          ((forUp first index body start).effect arrays).2 := by
  rcases Nat.lt_or_ge last first with empty | le
  · rw [forUp, forUp_of_le empty.le]
    exact iff_of_true (makes_pure start) fun index lower upper => absurd upper (by omega)
  · induction last, le using Nat.le_induction with
    | base =>
        rw [forUp, forUp_of_le le_rfl]
        exact iff_of_true (makes_pure start) fun index lower upper => absurd upper (by omega)
    | succ last le ih =>
        have later :
            forUp first (last + 1) body start = forUp first last body start >>= body last :=
          forUp_succ le _ _
        rw [later, makes_bind, ih]
        constructor
        · rintro ⟨earlier, here⟩ index lower upper
          rcases Nat.lt_succ_iff_lt_or_eq.mp upper with below | rfl
          · exact earlier index lower below
          · exact here
        · intro all
          exact ⟨fun index lower upper => all index lower (Nat.lt_succ_of_lt upper),
            all last le (Nat.lt_succ_self last)⟩

/-- A loop makes only admitted accesses if its passes do from every state of an invariant. -/
theorem makes_forUp_of {first last : ℕ} {body : ℕ → Result → Program Name Cell Result}
    {start : Result} (invariant : ℕ → Result × Arrays Name Cell → Prop)
    (begins : invariant first (start, arrays))
    (step : ∀ index current, first ≤ index → index < last → invariant index current →
      (body index current.1).Makes admitted current.2 ∧
        invariant (index + 1) ((body index current.1).effect current.2)) :
    (forUp first last body start).Makes admitted arrays := by
  rw [makes_forUp]
  intro index lower upper
  have reached : invariant index ((forUp first index body start).effect arrays) := by
    rw [effect_forUp]
    apply forUp_induction invariant lower begins
    intro earlier current above below holds
    exact (step earlier current above (below.trans upper) holds).2
  exact (step index _ lower upper reached).1

/-- The accesses of a loop whose passes make the same ones from every state. -/
theorem makes_forUp_iff {first last : ℕ} {body : ℕ → Result → Program Name Cell Result}
    {start : Result} {condition : ℕ → Prop}
    (step : ∀ index result arrays, first ≤ index → index < last →
      ((body index result).Makes admitted arrays ↔ condition index)) :
    (forUp first last body start).Makes admitted arrays ↔
      ∀ index, first ≤ index → index < last → condition index := by
  rw [makes_forUp]
  apply forall₃_congr
  intro index lower upper
  exact step index _ _ lower upper

theorem makes_forUp_of_forall {first last : ℕ} {body : ℕ → Result → Program Name Cell Result}
    {start : Result}
    (step : ∀ index result arrays, first ≤ index → index < last →
      (body index result).Makes admitted arrays) :
    (forUp first last body start).Makes admitted arrays :=
  makes_forUp.mpr fun index lower upper => step index _ _ lower upper

/-- A descending loop makes the accesses of its passes, from the states that it comes to. -/
theorem makes_forDown_iff {first last : ℕ} {body : ℕ → Result → Program Name Cell Result}
    {start : Result} {condition : ℕ → Prop}
    (step : ∀ index result arrays, first ≤ index → index < last →
      ((body index result).Makes admitted arrays ↔ condition index)) :
    (forDown first last body start).Makes admitted arrays ↔
      ∀ index, first ≤ index → index < last → condition index := by
  have ascending : (forUp 0 (last - first) (fun taken => body (last - 1 - taken)) start).Makes
      admitted arrays ↔ ∀ taken, 0 ≤ taken → taken < last - first →
        condition (last - 1 - taken) := by
    apply makes_forUp_iff
    intro taken result arrays _ below
    exact step (last - 1 - taken) result arrays (by omega) (by omega)
  change (forUp 0 (last - first) (fun taken => body (last - 1 - taken)) start).Makes
    admitted arrays ↔ _
  rw [ascending]
  constructor
  · intro all index lower below
    have here := all (last - 1 - index) (Nat.zero_le _) (by omega)
    rwa [show last - 1 - (last - 1 - index) = index by omega] at here
  · intro all taken _ below
    exact all _ (by omega) (by omega)

theorem makes_forDown_of {first last : ℕ} {body : ℕ → Result → Program Name Cell Result}
    {start : Result} (invariant : ℕ → Result × Arrays Name Cell → Prop)
    (begins : invariant last (start, arrays))
    (step : ∀ index current, first ≤ index → index < last → invariant (index + 1) current →
      (body index current.1).Makes admitted current.2 ∧
        invariant index ((body index current.1).effect current.2)) :
    (forDown first last body start).Makes admitted arrays := by
  have ascending : (forUp 0 (last - first) (fun taken => body (last - 1 - taken)) start).Makes
      admitted arrays := by
    refine makes_forUp_of (fun taken => invariant (last - taken)) begins ?_
    intro taken current _ below holds
    have here : last - taken = last - 1 - taken + 1 := by omega
    have next : last - (taken + 1) = last - 1 - taken := by omega
    rw [next]
    exact step (last - 1 - taken) current (by omega) (by omega) (here ▸ holds)
  exact ascending

theorem makes_forDown_of_forall {first last : ℕ} {body : ℕ → Result → Program Name Cell Result}
    {start : Result}
    (step : ∀ index result arrays, first ≤ index → index < last →
      (body index result).Makes admitted arrays) :
    (forDown first last body start).Makes admitted arrays :=
  makes_forDown_of (fun _ _ => True) trivial fun index current lower upper _ =>
    ⟨step index current.1 current.2 lower upper, trivial⟩

theorem makes_readOut {name : Name} {first count : ℕ} :
    (readOut name first count).Makes admitted arrays ↔
      ∀ index, first ≤ index → index < first + count →
        admitted { array := name, index := index } := by
  apply makes_forUp_iff
  intro index values arrays _ _
  rw [makes_bind, makes_load]
  exact and_iff_left (makes_pure _)

theorem effect_readOut (name : Name) (first count : ℕ) :
    (readOut name first count).effect arrays =
      ((List.range' first count).map (arrays name), arrays) := by
  induction count with
  | zero =>
      rw [readOut, effect_forUp, Nat.add_zero, forUp_of_le le_rfl, List.range'_zero, List.map_nil]
  | succ count ih =>
      rw [readOut, effect_forUp] at ih
      rw [readOut, effect_forUp, ← Nat.add_assoc, forUp_succ (Nat.le_add_right first count), ih,
        List.range'_1_concat, List.map_append]
      rfl

end Accesses

end Program

end NetLab.Imperative

import Mathlib.Data.List.Basic
import Mathlib.Logic.Function.Basic

/-!
# Tables of descriptors

What the descriptors of a process stand for. A new descriptor is the lowest one that is free, below
the limit of the process; `fork` copies the table.
-/

namespace NetLab.Posix

abbrev DescriptorTable (File : Type*) :=
  ℕ → Option File

namespace DescriptorTable

variable {File : Type*}

/-- The lowest descriptor that is free. -/
def lowest (limit : ℕ) (table : DescriptorTable File) : Option ℕ :=
  (List.range limit).find? fun fd => (table fd).isNone

/-- A call that opens something, such as `accept`: without a free descriptor it fails. -/
def openFile (limit : ℕ) (table : DescriptorTable File) (file : File) :
    Option ℕ × DescriptorTable File :=
  match table.lowest limit with
  | some fd => (some fd, Function.update table fd (some file))
  | none => (none, table)

/-- Closing -1, the result of a call that failed, does nothing. -/
def closeFile (table : DescriptorTable File) : Option ℕ → DescriptorTable File
  | some fd => Function.update table fd none
  | none => table

/-- `dup2(old, new)`, which fails for a descriptor that is not open. -/
def dup2 (table : DescriptorTable File) (old : Option ℕ) (new : ℕ) : DescriptorTable File :=
  match old.bind table with
  | some file => Function.update table new (some file)
  | none => table

variable {limit fd : ℕ} {table : DescriptorTable File} {file : File}

theorem lowest_eq_some (used : ∀ other < fd, (table other).isSome = true) (free : table fd = none)
    (below : fd < limit) : table.lowest limit = some fd := by
  rw [lowest, List.find?_range_eq_some]
  refine ⟨by rw [free, Option.isNone_none], List.mem_range.mpr below, ?_⟩
  intro other earlier
  simp [used other earlier]

theorem lowest_eq_none (used : ∀ other < limit, (table other).isSome = true) :
    table.lowest limit = none := by
  rw [lowest, List.find?_eq_none]
  intro other mem
  rw [Bool.not_eq_true, Option.isNone_eq_false_iff]
  exact used other (List.mem_range.mp mem)

theorem closeFile_update (free : table fd = none) :
    closeFile (Function.update table fd (some file)) (some fd) = table := by
  rw [closeFile, Function.update_idem, ← free, Function.update_eq_self]

end DescriptorTable

end NetLab.Posix

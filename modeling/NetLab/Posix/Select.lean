import NetLab.Imperative.Loop
import Mathlib.Data.Finset.Card

/-!
# Waiting with `select`

A descriptor set, what `select` makes of it, and the loop that puts the descriptors
of a table into it. `select` takes out of the set whatever it does not report, so a
server waits for the part of its table that the loop goes through each time
(`Watching`).
-/

namespace NetLab.Posix

open NetLab.Imperative

/-- How a call of `select` ends: with an error, or because some descriptors can be read. -/
inductive Polled where
  | failed
  | ready (descriptors : Finset ℕ)

/-- `select` on a set for reading: what it returns, and the set afterwards. -/
def select (nfds : ℕ) (readset : Finset ℕ) : Polled → ℤ × Finset ℕ
  | .failed => (-1, readset)
  | .ready descriptors =>
      let reported := {descriptor ∈ readset ∩ descriptors | descriptor < nfds}
      (reported.card, reported)

/-- The set that is passed to `select`, and the highest descriptor put into it. -/
structure Interest where
  readset : Finset ℕ
  max : ℕ
deriving DecidableEq

/-- `FD_SET(fd[i], &readset)`, and `max` is raised to `fd[i]`. -/
def Interest.add (fd : ℕ → ℕ) (i : ℕ) (interest : Interest) : Interest where
  readset := insert (fd i) interest.readset
  max := if fd i > interest.max then fd i else interest.max

def Interest.fill (count : ℕ) (fd : ℕ → ℕ) (interest : Interest) : Interest :=
  forUp 0 count (Interest.add fd) interest

def FromTable (count : ℕ) (fd : ℕ → ℕ) (readset : Finset ℕ) : Prop :=
  ∀ descriptor ∈ readset, ∃ i < count, fd i = descriptor

/-- The server waits for the first `count` descriptors of the table, and for no others. -/
structure Watching (count : ℕ) (fd : ℕ → ℕ) (interest : Interest) : Prop where
  only : FromTable count fd interest.readset
  each : ∀ i < count, fd i ∈ interest.readset
  below : ∀ i < count, fd i ≤ interest.max

/-- In an iteration every one of `number` descriptors of the table is waited for, and those that can
be read are among the ones that are served. -/
structure WatchesAll (number : ℕ) (fd : ℕ → ℕ) (interest : Interest) (polled : Polled)
    (served : List ℕ) : Prop where
  watched : ∀ j < number, fd j ∈ interest.readset
  exceeded : ∀ j < number, fd j < interest.max + 1
  served : ∀ descriptors, polled = .ready descriptors →
    ∀ j < number, fd j ∈ descriptors → j ∈ served

section Select

variable {nfds descriptor : ℕ} {readset descriptors : Finset ℕ}

theorem select_subset (nfds : ℕ) (readset : Finset ℕ) (polled : Polled) :
    (select nfds readset polled).2 ⊆ readset := by
  cases polled with
  | failed => exact Finset.Subset.refl readset
  | ready descriptors =>
      intro descriptor reported
      simp only [select, Finset.mem_filter, Finset.mem_inter] at reported
      exact reported.1.1

theorem mem_select_ready :
    descriptor ∈ (select nfds readset (.ready descriptors)).2 ↔
      (descriptor ∈ readset ∧ descriptor ∈ descriptors) ∧ descriptor < nfds := by
  simp only [select, Finset.mem_filter, Finset.mem_inter]

/-- A set in which something is reported does not look like a timeout. -/
theorem select_ready_pos (reported : descriptor ∈ (select nfds readset (.ready descriptors)).2) :
    0 < (select nfds readset (.ready descriptors)).1 := by
  simp only [select] at reported ⊢
  exact_mod_cast Finset.card_pos.mpr ⟨descriptor, reported⟩

end Select

section Watching

variable {count : ℕ} {fd : ℕ → ℕ} {interest : Interest}

/-- Whatever part of the table was left in the set, filling it makes the server wait for all of the
table again. -/
theorem watching_fill (left : FromTable count fd interest.readset) :
    Watching count fd (interest.fill count fd) := by
  have filled : FromTable count fd (interest.fill count fd).readset ∧
      ∀ i < count, fd i ∈ (interest.fill count fd).readset ∧
        fd i ≤ (interest.fill count fd).max := by
    apply forUp_induction (fun bound (current : Interest) => FromTable count fd current.readset ∧
      ∀ i < bound, fd i ∈ current.readset ∧ fd i ≤ current.max) (Nat.zero_le count)
    · refine ⟨left, ?_⟩
      intro i below
      omega
    · rintro j current _ inside ⟨only, each⟩
      constructor
      · intro descriptor listed
        rcases Finset.mem_insert.mp listed with rfl | before
        · exact ⟨j, inside, rfl⟩
        · exact only descriptor before
      · intro i i_lt
        simp only [Interest.add]
        rcases Nat.lt_or_eq_of_le (Nat.le_of_lt_succ i_lt) with earlier | rfl
        · have ⟨listed, bounded⟩ := each i earlier
          refine ⟨Finset.mem_insert_of_mem listed, ?_⟩
          split <;> omega
        · refine ⟨Finset.mem_insert_self _ _, ?_⟩
          split <;> omega
  constructor
  case only => exact filled.1
  case each => exact fun i inside => (filled.2 i inside).1
  case below => exact fun i inside => (filled.2 i inside).2

theorem watching_start (count : ℕ) (fd : ℕ → ℕ) :
    Watching count fd (Interest.fill count fd { readset := ∅, max := 0 }) := by
  apply watching_fill
  intro descriptor listed
  cases listed

/-- One call of `select` and the loop after it: the server waits for the same descriptors again. -/
theorem Watching.again (watching : Watching count fd interest) (nfds : ℕ) (polled : Polled) :
    Watching count fd
      (Interest.fill count fd
        { interest with readset := (select nfds interest.readset polled).2 }) := by
  apply watching_fill
  intro descriptor listed
  exact watching.only descriptor (select_subset nfds interest.readset polled listed)

theorem Watching.mem_select (watching : Watching count fd interest) {i : ℕ} (inside : i < count)
    {descriptors : Finset ℕ} (readable : fd i ∈ descriptors) :
    fd i ∈ (select (interest.max + 1) interest.readset (.ready descriptors)).2 :=
  mem_select_ready.mpr
    ⟨⟨watching.each i inside, readable⟩, Nat.lt_succ_of_le (watching.below i inside)⟩

/-- A server that waits for all of the table and serves what is reported watches all of it. -/
theorem Watching.watchesAll (watching : Watching count fd interest) {polled : Polled}
    {served : List ℕ}
    (serves : 0 < (select (interest.max + 1) interest.readset polled).1 →
      ∀ j < count, fd j ∈ (select (interest.max + 1) interest.readset polled).2 → j ∈ served) :
    WatchesAll count fd interest polled served := by
  constructor
  case watched => exact watching.each
  case exceeded => exact fun j inside => Nat.lt_succ_of_le (watching.below j inside)
  case served =>
    rintro descriptors rfl j inside readable
    have reported := watching.mem_select inside readable
    exact serves (select_ready_pos reported) j inside reported

end Watching

end NetLab.Posix

import NetLab.Structures.PriorityQueue
import Mathlib.Order.Interval.Finset.Nat
import Mathlib.Tactic.Common

/-!
# Binary heaps in an array

The cells `1` to `size` of an array are read as a complete binary tree: the
parent of a position is its half. Nothing is said about cell `0`, where an
implementation may keep a sentinel.

A sift moves a hole through the tree. `SiftUp` and `SiftDown` say what is
ordered while the value that will fill the hole is still outside the array;
each has a `move` rule for one pass of its loop and a `finish` rule for the
assignment after it. `contents_move` says that the elements, counted with the
hole filled, stay the same.
-/

namespace NetLab.Structures

universe u

section Contents

variable {α : Type u}

/-- The elements of the cells `1` to `size`. -/
def contents (cells : ℕ → α) (size : ℕ) : Multiset α :=
  (Finset.Icc 1 size).val.map cells

@[simp]
theorem contents_zero (cells : ℕ → α) : contents cells 0 = 0 := by
  simp [contents]

theorem mem_contents {cells : ℕ → α} {size : ℕ} {element : α} :
    element ∈ contents cells size ↔
      ∃ position, 1 ≤ position ∧ position ≤ size ∧ cells position = element := by
  simp only [contents, Multiset.mem_map, Finset.mem_val, Finset.mem_Icc, and_assoc]

@[simp]
theorem card_contents (cells : ℕ → α) (size : ℕ) : (contents cells size).card = size := by
  simp [contents]

theorem contents_congr {cells other : ℕ → α} {size : ℕ}
    (same : ∀ position, 1 ≤ position → position ≤ size → cells position = other position) :
    contents cells size = contents other size := by
  apply Multiset.map_congr rfl
  intro position inside
  simp only [Finset.mem_val, Finset.mem_Icc] at inside
  exact same position inside.1 inside.2

theorem contents_succ (cells : ℕ → α) (size : ℕ) :
    contents cells (size + 1) = cells (size + 1) ::ₘ contents cells size := by
  have last : Finset.Icc 1 (size + 1) = insert (size + 1) (Finset.Icc 1 size) := by
    ext position
    simp only [Finset.mem_Icc, Finset.mem_insert]
    omega
  simp only [contents, last]
  rw [Finset.insert_val_of_notMem (by simp), Multiset.map_cons]

theorem contents_update (cells : ℕ → α) {size position : ℕ} (positive : 1 ≤ position)
    (inside : position ≤ size) (value : α) :
    cells position ::ₘ contents (Function.update cells position value) size =
      value ::ₘ contents cells size := by
  induction size, inside using Nat.le_induction with
  | base =>
      rcases position with _ | below
      · omega
      · have same : contents (Function.update cells (below + 1) value) below =
            contents cells below := by
          apply contents_congr
          intro other _ other_le
          exact Function.update_of_ne (by omega) _ _
        simp only [contents_succ, same, Function.update_self]
        exact Multiset.cons_swap _ _ _
  | succ size inside ih =>
      simp only [contents_succ]
      rw [Function.update_of_ne (by omega), Multiset.cons_swap, ih, Multiset.cons_swap]

/-- Moving the hole from one cell to another keeps the elements, counted with the hole filled. -/
theorem contents_move (cells : ℕ → α) {size hole target : ℕ} (hole_positive : 1 ≤ hole)
    (hole_le : hole ≤ size) (target_positive : 1 ≤ target) (target_le : target ≤ size)
    (distinct : hole ≠ target) (value : α) :
    contents (Function.update (Function.update cells hole (cells target)) target value) size =
      contents (Function.update cells hole value) size := by
  have filled := contents_update (Function.update cells hole (cells target)) target_positive
    target_le value
  have moved := contents_update cells hole_positive hole_le (cells target)
  have stayed := contents_update cells hole_positive hole_le value
  rw [Function.update_of_ne distinct.symm] at filled
  apply Multiset.cons_inj_right (cells target) |>.mp
  apply Multiset.cons_inj_right (cells hole) |>.mp
  calc cells hole ::ₘ cells target ::ₘ contents _ size
      = value ::ₘ cells hole ::ₘ
          contents (Function.update cells hole (cells target)) size := by
        rw [filled, Multiset.cons_swap]
    _ = cells target ::ₘ value ::ₘ contents cells size := by
        rw [moved, Multiset.cons_swap]
    _ = cells hole ::ₘ cells target ::ₘ contents (Function.update cells hole value) size := by
        rw [← stayed, Multiset.cons_swap]

/-- Putting the last element into the root, in a tree that is one shorter, takes the root's
element out. -/
theorem contents_root (cells : ℕ → α) (size : ℕ) :
    cells 1 ::ₘ contents (Function.update cells 1 (cells (size + 1))) size =
      contents cells (size + 1) := by
  rcases size with _ | size
  · simp [contents_succ]
  · rw [contents_update cells le_rfl (by omega), ← contents_succ]

end Contents

section Order

variable {α : Type u} [LinearOrder α] {cells : ℕ → α} {size hole : ℕ} {value : α}

/-- No element is below the one at its parent. -/
def HeapOrdered (cells : ℕ → α) (size : ℕ) : Prop :=
  ∀ position, 2 ≤ position → position ≤ size → cells (position / 2) ≤ cells position

theorem HeapOrdered.mono {smaller : ℕ} (ordered : HeapOrdered cells size) (le : smaller ≤ size) :
    HeapOrdered cells smaller :=
  fun position two_le position_le => ordered position two_le (position_le.trans le)

theorem HeapOrdered.root_le (ordered : HeapOrdered cells size) :
    ∀ position, 1 ≤ position → position ≤ size → cells 1 ≤ cells position := by
  intro position
  induction position using Nat.strong_induction_on with
  | h position ih =>
      intro positive inside
      rcases Nat.lt_or_ge position 2 with root | two_le
      · have one : position = 1 := by omega
        simp [one]
      · have parent : cells 1 ≤ cells (position / 2) :=
          ih (position / 2) (by omega) (by omega) (by omega)
        exact parent.trans (ordered position two_le inside)

theorem HeapOrdered.root_minimum (ordered : HeapOrdered cells size) (positive : 1 ≤ size) :
    IsMinimum (cells 1) (contents cells size) := by
  constructor
  · exact mem_contents.mpr ⟨1, le_rfl, positive, rfl⟩
  · intro other held
    rcases mem_contents.mp held with ⟨position, position_ge, inside, rfl⟩
    exact ordered.root_le position position_ge inside

/-- The pairs of parent and child that the hole is no part of are in order. -/
def OrderedAround (cells : ℕ → α) (size hole : ℕ) : Prop :=
  ∀ position, 2 ≤ position → position ≤ size → position ≠ hole → position / 2 ≠ hole →
    cells (position / 2) ≤ cells position

/-- The elements below the hole are no smaller than the one above it. -/
def OrderedAcross (cells : ℕ → α) (size hole : ℕ) : Prop :=
  2 ≤ hole → ∀ child, child / 2 = hole → child ≤ size → cells (hole / 2) ≤ cells child

theorem HeapOrdered.around (ordered : HeapOrdered cells size) (hole : ℕ) :
    OrderedAround cells size hole :=
  fun position two_le inside _ _ => ordered position two_le inside

/-- What holds while `value` climbs from the hole: it fits above the hole's children. -/
structure SiftUp (cells : ℕ → α) (size hole : ℕ) (value : α) : Prop where
  positive : 1 ≤ hole
  inside : hole ≤ size
  around : OrderedAround cells size hole
  across : OrderedAcross cells size hole
  children : ∀ child, child / 2 = hole → child ≤ size → value ≤ cells child

/-- What holds while `value` sinks from the hole: it fits below the hole's parent. -/
structure SiftDown (cells : ℕ → α) (size hole : ℕ) (value : α) : Prop where
  positive : 1 ≤ hole
  around : OrderedAround cells size hole
  across : OrderedAcross cells size hole
  parent : 2 ≤ hole → cells (hole / 2) ≤ value

theorem heapOrdered_fill (around : OrderedAround cells size hole) (positive : 1 ≤ hole)
    (parent : 2 ≤ hole → cells (hole / 2) ≤ value)
    (children : ∀ child, child / 2 = hole → child ≤ size → value ≤ cells child) :
    HeapOrdered (Function.update cells hole value) size := by
  intro position two_le inside
  rcases eq_or_ne position hole with rfl | position_ne
  · rw [Function.update_self, Function.update_of_ne (by omega)]
    exact parent two_le
  · rw [Function.update_of_ne position_ne]
    rcases eq_or_ne (position / 2) hole with half | half_ne
    · rw [half, Function.update_self]
      exact children position half inside
    · rw [Function.update_of_ne half_ne]
      exact around position two_le inside position_ne half_ne

/-- One pass upwards: the parent, above the value, drops into the hole. -/
theorem SiftUp.move (sift : SiftUp cells size hole value) (two_le : 2 ≤ hole)
    (less : value < cells (hole / 2)) :
    SiftUp (Function.update cells hole (cells (hole / 2))) size (hole / 2) value := by
  have ⟨positive, inside, around, across, children⟩ := sift
  have siblings : ∀ child, child / 2 = hole / 2 → child ≤ size →
      cells (hole / 2) ≤ Function.update cells hole (cells (hole / 2)) child := by
    intro child half child_le
    rcases eq_or_ne child hole with rfl | other
    · rw [Function.update_self]
    · rw [Function.update_of_ne other, ← half]
      exact around child (by omega) child_le other (by omega)
  constructor
  case positive => omega
  case inside => omega
  case around =>
    intro position position_ge position_le position_ne half_ne
    rcases eq_or_ne (position / 2) hole with half | half_hole
    · rw [half, Function.update_self, Function.update_of_ne (by omega)]
      exact across two_le position half position_le
    · rw [Function.update_of_ne half_hole, Function.update_of_ne (by omega)]
      exact around position position_ge position_le (by omega) half_hole
  case across =>
    intro parent_ge child half child_le
    rw [Function.update_of_ne (show hole / 2 / 2 ≠ hole by omega)]
    have parent : cells (hole / 2 / 2) ≤ cells (hole / 2) :=
      around (hole / 2) parent_ge (by omega) (by omega) (by omega)
    exact parent.trans (siblings child half child_le)
  case children =>
    intro child half child_le
    exact less.le.trans (siblings child half child_le)

theorem SiftUp.finish (sift : SiftUp cells size hole value)
    (stops : 2 ≤ hole → cells (hole / 2) ≤ value) :
    HeapOrdered (Function.update cells hole value) size :=
  heapOrdered_fill sift.around sift.positive stops sift.children

theorem HeapOrdered.siftUp (ordered : HeapOrdered cells size) (value filler : α) :
    SiftUp (Function.update cells (size + 1) filler) (size + 1) (size + 1) value := by
  constructor
  case positive => omega
  case inside => exact le_rfl
  case around =>
    intro position two_le inside position_ne _
    rw [Function.update_of_ne (by omega), Function.update_of_ne position_ne]
    exact ordered position two_le (by omega)
  case across =>
    intro _ child half child_le
    omega
  case children =>
    intro child half child_le
    omega

/-- One pass downwards: the smaller child, below the value, rises into the hole. -/
theorem SiftDown.move (sift : SiftDown cells size hole value) {child : ℕ}
    (half : child / 2 = hole) (inside : child ≤ size) (less : cells child < value)
    (smaller : ∀ sibling, sibling / 2 = hole → sibling ≤ size → cells child ≤ cells sibling) :
    SiftDown (Function.update cells hole (cells child)) size child value := by
  have ⟨positive, around, across, parent⟩ := sift
  constructor
  case positive => omega
  case around =>
    intro position two_le position_le position_ne half_ne
    rcases eq_or_ne position hole with rfl | position_hole
    · rw [Function.update_self, Function.update_of_ne (by omega)]
      exact across two_le child half inside
    · rw [Function.update_of_ne position_hole]
      rcases eq_or_ne (position / 2) hole with sibling | half_hole
      · rw [sibling, Function.update_self]
        exact smaller position sibling position_le
      · rw [Function.update_of_ne half_hole]
        exact around position two_le position_le position_hole half_hole
  case across =>
    intro child_ge grandchild grandchild_half grandchild_le
    rw [half, Function.update_self, Function.update_of_ne (by omega), ← grandchild_half]
    exact around grandchild (by omega) grandchild_le (by omega) (by omega)
  case parent =>
    intro _
    rw [half, Function.update_self]
    exact less.le

theorem SiftDown.finish (sift : SiftDown cells size hole value)
    (stops : ∀ child, child / 2 = hole → child ≤ size → value ≤ cells child) :
    HeapOrdered (Function.update cells hole value) size :=
  heapOrdered_fill sift.around sift.positive sift.parent stops

theorem HeapOrdered.siftDown (ordered : HeapOrdered cells size) (value : α) :
    SiftDown cells size 1 value := by
  constructor
  case positive => exact le_rfl
  case around => exact ordered.around 1
  case across => intro impossible; omega
  case parent => intro impossible; omega

end Order

end NetLab.Structures

import NetLab.Heap.Basic
import NetLab.Structures.BinaryHeap

/-!
# The heap is a priority queue

`Insert` and `DeleteMin` keep the array a heap below its sentinel, and the
multiset held in the cells `1` to `heapSize` moves as the abstract queue does.
Each sift loop is run by `loop_total`; its invariant counts the elements with
the hole filled, so that the two copies a pass leaves in the array never count
twice.
-/

namespace NetLab.Heap

open NetLab.Imperative NetLab.Structures

/-- On the indices of the tree, `now/2` is the parent. -/
theorem tdiv_two (position : ℕ) : (position : ℤ).tdiv 2 = (position / 2 : ℕ) :=
  (Int.ofNat_tdiv position 2).symm

/-- The multiset `heap[1..heapSize]`. -/
def held (globals : Globals) : Multiset ℤ :=
  contents (tree globals.heap) globals.heapSize.toNat

/-- A heap of `size` elements, guarded by the sentinel. -/
structure Valid (globals : Globals) (size : ℕ) : Prop where
  heapSize : globals.heapSize = size
  guarded : globals.heap 0 = sentinel
  ordered : HeapOrdered (tree globals.heap) size

theorem Valid.held_eq {globals : Globals} {size : ℕ} (valid : Valid globals size) :
    held globals = contents (tree globals.heap) size := by
  simp [held, valid.heapSize]

theorem Valid.card_held {globals : Globals} {size : ℕ} (valid : Valid globals size) :
    (held globals).card = size := by
  simp [valid.held_eq]

theorem init_valid (globals : Globals) : Valid (init globals) 0 := by
  constructor
  case heapSize => rfl
  case guarded => simp [init]
  case ordered =>
    intro position two_le inside
    omega

/-- What both sift loops keep while `value` is on its way to the hole at `now`: the sentinel, and
the elements counted with the hole filled. -/
structure Sifting (size : ℕ) (value : ℤ) (bag : Multiset ℤ) (hole : ℕ) (sift : Sift) : Prop where
  now : sift.now = hole
  positive : 1 ≤ hole
  guarded : sift.heap 0 = sentinel
  counted : contents (Function.update (tree sift.heap) hole value) size = bag

namespace Sifting

variable {size hole : ℕ} {value : ℤ} {bag : Multiset ℤ} {sift : Sift}

theorem tree_fill (sifting : Sifting size value bag hole sift) (filler : ℤ) :
    tree (sift.fill filler) = Function.update (tree sift.heap) hole filler := by
  simp only [Sift.fill, sifting.now, tree_update]

theorem tree_move (sifting : Sifting size value bag hole sift) (target : ℕ) :
    tree (sift.move target).heap =
      Function.update (tree sift.heap) hole (tree sift.heap target) :=
  sifting.tree_fill _

theorem fill_zero (sifting : Sifting size value bag hole sift) (filler : ℤ) :
    sift.fill filler 0 = sentinel := by
  have below : (0 : ℤ) ≠ sift.now := by
    have now := sifting.now
    have positive := sifting.positive
    omega
  simpa [Sift.fill, Function.update_of_ne below] using sifting.guarded

theorem move (sifting : Sifting size value bag hole sift) (inside : hole ≤ size) {target : ℕ}
    (positive : 1 ≤ target) (target_inside : target ≤ size) (distinct : hole ≠ target) :
    Sifting size value bag target (sift.move target) := by
  constructor
  case now => rfl
  case positive => exact positive
  case guarded => exact sifting.fill_zero _
  case counted =>
    rw [sifting.tree_move, ← sifting.counted]
    exact contents_move (tree sift.heap) sifting.positive inside positive target_inside distinct
      value

theorem finish (sifting : Sifting size value bag hole sift)
    (ordered : HeapOrdered (Function.update (tree sift.heap) hole value) size) :
    Valid { heap := sift.fill value, heapSize := size } size ∧
      held { heap := sift.fill value, heapSize := size } = bag := by
  have valid : Valid { heap := sift.fill value, heapSize := size } size := by
    constructor
    case heapSize => rfl
    case guarded => exact sifting.fill_zero value
    case ordered => simpa only [sifting.tree_fill] using ordered
  refine ⟨valid, ?_⟩
  simpa only [valid.held_eq, sifting.tree_fill] using sifting.counted

end Sifting

section Insert

variable {size hole : ℕ} {element : ℤ} {bag : Multiset ℤ} {sift : Sift}

theorem insertPass_eq (now : sift.now = hole) :
    insertPass element sift =
      if element < tree sift.heap (hole / 2) then .again (sift.move (hole / 2 : ℕ))
      else .leave sift := by
  simp only [insertPass, now, tdiv_two, gt_iff_lt]
  rfl

theorem Sifting.two_le_of_less (sifting : Sifting size element bag hole sift)
    (legal : sentinel ≤ element) (less : element < tree sift.heap (hole / 2)) : 2 ≤ hole := by
  by_contra root
  have positive := sifting.positive
  have guard : tree sift.heap (hole / 2) = sentinel := by
    rw [show hole / 2 = 0 by omega]
    exact sifting.guarded
  rw [guard] at less
  exact absurd legal (not_le.mpr less)

/-- The loop of `Insert` ends with the hole where the element belongs. -/
theorem insertPass_ends (legal : sentinel ≤ element) {fuel : ℕ}
    (sifting : Sifting size element bag hole sift)
    (climbing : SiftUp (tree sift.heap) size hole element) (enough : hole < fuel) :
    ∃ last, loop (insertPass element) fuel sift = some last ∧
      ∃ place, Sifting size element bag place last ∧
        SiftUp (tree last.heap) size place element ∧ tree last.heap (place / 2) ≤ element := by
  apply loop_total
    (fun sift => ∃ hole, Sifting size element bag hole sift ∧
      SiftUp (tree sift.heap) size hole element)
    (fun sift => sift.now.toNat) _ ?_ ?_ ⟨hole, sifting, climbing⟩
  · simpa [sifting.now] using enough
  · rintro sift last ⟨hole, sifting, climbing⟩ leaves
    rw [insertPass_eq sifting.now] at leaves
    split at leaves
    case isTrue => cases leaves
    case isFalse stops =>
      cases leaves
      exact ⟨hole, sifting, climbing, not_lt.mp stops⟩
  · rintro sift next ⟨hole, sifting, climbing⟩ repeats
    rw [insertPass_eq sifting.now] at repeats
    split at repeats
    case isFalse => cases repeats
    case isTrue less =>
      cases repeats
      have two_le := sifting.two_le_of_less legal less
      have inside := climbing.inside
      refine ⟨⟨hole / 2, sifting.move inside ?_ ?_ ?_, ?_⟩, ?_⟩
      · omega
      · omega
      · omega
      · rw [sifting.tree_move]
        exact climbing.move two_le less
      · simp only [Sift.move, sifting.now, Int.toNat_natCast]
        omega

theorem insertPass_total (legal : sentinel ≤ element) {fuel : ℕ}
    (sifting : Sifting size element bag hole sift)
    (climbing : SiftUp (tree sift.heap) size hole element) (enough : hole < fuel) :
    ∃ last, loop (insertPass element) fuel sift = some last ∧
      Valid { heap := last.fill element, heapSize := size } size ∧
      held { heap := last.fill element, heapSize := size } = bag := by
  rcases insertPass_ends legal sifting climbing enough with ⟨last, runs, place, sits, climbed, fits⟩
  exact ⟨last, runs, sits.finish (climbed.finish fun _ => fits)⟩

/-- The loop of `Insert` starts with the hole in the last place. -/
theorem Valid.insert_sifting {globals : Globals} (valid : Valid globals size) (element : ℤ) :
    Sifting (size + 1) element (element ::ₘ held globals) (size + 1)
        { heap := Function.update globals.heap (size + 1 : ℕ) element, now := (size + 1 : ℕ) } ∧
      SiftUp (tree (Function.update globals.heap (size + 1 : ℕ) element)) (size + 1) (size + 1)
        element := by
  constructor
  · constructor
    case now => rfl
    case positive => omega
    case guarded =>
      have below : (0 : ℤ) ≠ (size + 1 : ℕ) := by omega
      simpa only [Function.update_of_ne below] using valid.guarded
    case counted =>
      simp only [tree_update, Function.update_idem, contents_succ, Function.update_self,
        valid.held_eq]
      congr 1
      apply contents_congr
      intro position _ inside
      exact Function.update_of_ne (by omega) _ _
  · rw [tree_update]
    exact valid.ordered.siftUp element element

theorem insert_valid {globals : Globals} (valid : Valid globals size)
    (legal : sentinel ≤ element) {fuel : ℕ} (enough : size + 1 < fuel) :
    ∃ after, insert fuel element globals = some after ∧ Valid after (size + 1) ∧
      held after = element ::ₘ held globals := by
  have last : globals.heapSize + 1 = (size + 1 : ℕ) := by
    rw [valid.heapSize]
    rfl
  have ⟨sifting, climbing⟩ := valid.insert_sifting element
  rcases insertPass_total legal sifting climbing enough with ⟨sift, runs, result⟩
  refine ⟨_, ?_, result⟩
  simp only [insert, last, runs]
  rfl

end Insert

section DeleteMin

variable {size hole : ℕ} {lastElement : ℤ} {bag : Multiset ℤ} {sift : Sift}

theorem smallerChild_spec (now : sift.now = hole) (inside : hole * 2 ≤ size) :
    ∃ child : ℕ, smallerChild size sift = child ∧ child / 2 = hole ∧ child ≤ size ∧
      ∀ sibling, sibling / 2 = hole → sibling ≤ size →
        tree sift.heap child ≤ tree sift.heap sibling := by
  have left : sift.now * 2 = (hole * 2 : ℕ) := by
    rw [now]
    rfl
  have right : ((hole * 2 : ℕ) : ℤ) + 1 = (hole * 2 + 1 : ℕ) := rfl
  simp only [smallerChild, left, right]
  split
  case isTrue both =>
    refine ⟨hole * 2 + 1, rfl, by omega, by omega, ?_⟩
    intro sibling half sibling_le
    have children : sibling = hole * 2 ∨ sibling = hole * 2 + 1 := by omega
    rcases children with rfl | rfl
    · exact both.2.le
    · exact le_rfl
  case isFalse single =>
    refine ⟨hole * 2, rfl, by omega, inside, ?_⟩
    intro sibling half sibling_le
    have children : sibling = hole * 2 ∨ sibling = hole * 2 + 1 := by omega
    rcases children with rfl | rfl
    · exact le_rfl
    · apply not_lt.mp
      intro less
      exact single ⟨by omega, less⟩

/-- A pass either lifts the smaller child into the hole or finds that the last element fits. -/
theorem deleteMinPass_cases (now : sift.now = hole) :
    (∃ child : ℕ, deleteMinPass size lastElement sift = .again (sift.move child) ∧
      child / 2 = hole ∧ child ≤ size ∧ tree sift.heap child < lastElement ∧
      ∀ sibling, sibling / 2 = hole → sibling ≤ size →
        tree sift.heap child ≤ tree sift.heap sibling) ∨
    (deleteMinPass size lastElement sift = .leave sift ∧
      ∀ child, child / 2 = hole → child ≤ size → lastElement ≤ tree sift.heap child) := by
  rcases Nat.lt_or_ge size (hole * 2) with leaf | inside
  · right
    refine ⟨if_neg (by rw [now]; omega), ?_⟩
    intro child half child_le
    omega
  · rcases smallerChild_spec now inside with ⟨child, chosen, half, child_le, smaller⟩
    have descends : sift.now * 2 ≤ size := by
      rw [now]
      omega
    simp only [deleteMinPass, descends, chosen, if_true]
    rcases lt_or_ge (tree sift.heap child) lastElement with less | fits
    · left
      exact ⟨child, if_pos less, half, child_le, less, smaller⟩
    · right
      refine ⟨if_neg (not_lt.mpr fits), ?_⟩
      intro sibling sibling_half sibling_le
      exact fits.trans (smaller sibling sibling_half sibling_le)

theorem deleteMinPass_total {fuel : ℕ} (sifting : Sifting size lastElement bag hole sift)
    (sinking : SiftDown (tree sift.heap) size hole lastElement) (enough : size + 1 - hole < fuel) :
    ∃ last, loop (deleteMinPass size lastElement) fuel sift = some last ∧
      Valid { heap := last.fill lastElement, heapSize := size } size ∧
      held { heap := last.fill lastElement, heapSize := size } = bag := by
  apply loop_total
    (fun sift => ∃ hole, Sifting size lastElement bag hole sift ∧
      SiftDown (tree sift.heap) size hole lastElement)
    (fun sift => size + 1 - sift.now.toNat) _ ?_ ?_ ⟨hole, sifting, sinking⟩
  · simpa [sifting.now] using enough
  · rintro sift last ⟨hole, sifting, sinking⟩ leaves
    rcases deleteMinPass_cases sifting.now with ⟨_, again, _⟩ | ⟨leave, fits⟩
    · cases again.symm.trans leaves
    · cases leave.symm.trans leaves
      exact sifting.finish (sinking.finish fits)
  · rintro sift next ⟨hole, sifting, sinking⟩ repeats
    rcases deleteMinPass_cases sifting.now with
      ⟨child, again, half, child_le, less, smaller⟩ | ⟨leave, _⟩
    · cases again.symm.trans repeats
      have positive := sifting.positive
      refine ⟨⟨child, sifting.move ?_ ?_ child_le ?_, ?_⟩, ?_⟩
      · omega
      · omega
      · omega
      · rw [sifting.tree_move]
        exact sinking.move half child_le less smaller
      · simp only [Sift.move, sifting.now, Int.toNat_natCast]
        omega
    · cases leave.symm.trans repeats

theorem deleteMin_valid {globals : Globals} (valid : Valid globals (size + 1)) {fuel : ℕ}
    (enough : size < fuel) :
    ∃ least after, deleteMin fuel globals = some (least, after) ∧ Valid after size ∧
      IsMinimum least (held globals) ∧ least ::ₘ held after = held globals := by
  have shrunk : ((size + 1 : ℕ) : ℤ) - 1 = size := by omega
  have sifting : Sifting size (globals.heap (size + 1 : ℕ))
      (contents (Function.update (tree globals.heap) 1 (tree globals.heap (size + 1))) size) 1
      { heap := globals.heap, now := 1 } := by
    constructor
    case now => rfl
    case positive => exact le_rfl
    case guarded => exact valid.guarded
    case counted => rfl
  have sinking : SiftDown (tree globals.heap) size 1 (globals.heap (size + 1 : ℕ)) :=
    (valid.ordered.mono (Nat.le_succ size)).siftDown _
  rcases deleteMinPass_total sifting sinking (by simpa using enough) with
    ⟨sift, runs, after_valid, after_held⟩
  refine ⟨globals.heap 1, _, ?_, after_valid, ?_, ?_⟩
  · simp only [deleteMin, valid.heapSize, shrunk, runs]
    rfl
  · rw [valid.held_eq]
    exact valid.ordered.root_minimum (by omega)
  · rw [after_held, valid.held_eq]
    exact contents_root (tree globals.heap) size

end DeleteMin

end NetLab.Heap

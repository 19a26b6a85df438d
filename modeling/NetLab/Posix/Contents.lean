import NetLab.Posix.Files

/-!
# The contents of a file after a write

What `overwrite` means byte by byte, that reading where a write went gives back
what it wrote, and that the same write may be done twice.
-/

namespace NetLab.Posix

/-- The bytes `new` are the bytes `old` with `data` put at `offset`: a gap behind the old end holds
zeros, and what lies outside is unchanged. -/
structure Replaced (old : List Byte) (offset : ℕ) (data new : List Byte) : Prop where
  inside : ∀ index < data.length, new[offset + index]? = data[index]?
  outside : ∀ index < old.length, index < offset ∨ offset + data.length ≤ index →
    new[index]? = old[index]?
  gap : data ≠ [] → ∀ index < offset, old.length ≤ index → new[index]? = some 0#8
  length : new.length =
    if data = [] then old.length else max old.length (offset + data.length)

variable (old : List Byte) (offset : ℕ) (data : List Byte)

/-- The bytes in front of the data: the old ones, filled up with zeros. -/
def padded : List Byte :=
  (old ++ List.replicate (offset - old.length) 0#8).take offset

@[simp]
theorem length_padded : (padded old offset).length = offset := by
  simp only [padded, List.length_take, List.length_append, List.length_replicate]
  omega

theorem getElem?_padded_of_lt {index : ℕ} (before : index < offset) (known : index < old.length) :
    (padded old offset)[index]? = old[index]? := by
  rw [padded, List.getElem?_take_of_lt before, List.getElem?_append_left known]

theorem getElem?_padded_of_le {index : ℕ} (before : index < offset)
    (unknown : old.length ≤ index) : (padded old offset)[index]? = some 0#8 := by
  rw [padded, List.getElem?_take_of_lt before, List.getElem?_append_right unknown,
    List.getElem?_replicate_of_lt (by omega)]

theorem overwrite_of_ne_nil (nonempty : data ≠ []) :
    overwrite old offset data =
      padded old offset ++ (data ++ old.drop (offset + data.length)) := by
  rw [overwrite, if_neg nonempty, List.append_assoc]
  rfl

theorem slice_overwrite : slice (overwrite old offset data) offset data.length = data := by
  rcases eq_or_ne data [] with rfl | nonempty
  · simp [slice]
  · rw [slice, overwrite_of_ne_nil old offset data nonempty,
      List.drop_left' (length_padded old offset), List.take_left]

/-- Writing the same bytes at the same place again changes nothing. -/
theorem overwrite_overwrite :
    overwrite (overwrite old offset data) offset data = overwrite old offset data := by
  rcases eq_or_ne data [] with rfl | nonempty
  · rfl
  · have padding := length_padded old offset
    have front : padded (overwrite old offset data) offset = padded old offset := by
      rw [overwrite_of_ne_nil old offset data nonempty, padded]
      simp only [List.append_assoc]
      exact List.take_left' padding
    have back : (overwrite old offset data).drop (offset + data.length) =
        old.drop (offset + data.length) := by
      rw [overwrite_of_ne_nil old offset data nonempty, ← List.append_assoc]
      apply List.drop_left'
      rw [List.length_append, padding]
    rw [overwrite_of_ne_nil _ offset data nonempty, front, back,
      ← overwrite_of_ne_nil old offset data nonempty]

theorem overwrite_replaced : Replaced old offset data (overwrite old offset data) := by
  rcases eq_or_ne data [] with rfl | nonempty
  · constructor
    case inside => exact fun index impossible => absurd impossible (Nat.not_lt_zero index)
    case outside => exact fun _ _ _ => rfl
    case gap => exact fun impossible => absurd rfl impossible
    case length => rfl
  · rw [overwrite_of_ne_nil old offset data nonempty]
    have padding := length_padded old offset
    constructor
    case inside =>
      intro index inside
      rw [List.getElem?_append_right (by omega), padding, Nat.add_sub_cancel_left,
        List.getElem?_append_left inside]
    case outside =>
      intro index known place
      rcases place with before | after
      · rw [List.getElem?_append_left (by omega), getElem?_padded_of_lt old offset before known]
      · rw [List.getElem?_append_right (by omega), padding,
          List.getElem?_append_right (by omega), List.getElem?_drop]
        congr 1
        omega
    case gap =>
      intro _ index before unknown
      rw [List.getElem?_append_left (by omega), getElem?_padded_of_le old offset before unknown]
    case length =>
      rw [if_neg nonempty]
      simp only [List.length_append, List.length_drop, padding]
      omega

end NetLab.Posix

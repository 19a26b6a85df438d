import NetLab.Posix.Bytes

/-!
# Records in a pipe

Writers that always write the same number of bytes fill a pipe with records, and a reader that asks
for that many bytes gets one record at a time.
-/

namespace NetLab.Posix

variable {size : ℕ}

/-- The bytes of records, one behind the other. -/
def recordBytes (records : List (Vector Byte size)) : List Byte :=
  records.flatMap Vector.toList

@[simp]
theorem recordBytes_nil : recordBytes ([] : List (Vector Byte size)) = [] :=
  rfl

theorem recordBytes_cons (first : Vector Byte size) (records : List (Vector Byte size)) :
    recordBytes (first :: records) = first.toList ++ recordBytes records :=
  rfl

theorem recordBytes_append_singleton (records : List (Vector Byte size)) (last : Vector Byte size) :
    recordBytes (records ++ [last]) = recordBytes records ++ last.toList := by
  simp [recordBytes]

theorem take_recordBytes (first : Vector Byte size) (records : List (Vector Byte size)) :
    (recordBytes (first :: records)).take size = first.toList := by
  rw [recordBytes_cons, List.take_left' (by simp)]

theorem drop_recordBytes (first : Vector Byte size) (records : List (Vector Byte size)) :
    (recordBytes (first :: records)).drop size = recordBytes records := by
  rw [recordBytes_cons, List.drop_left' (by simp)]

theorem recordBytes_eq_nil_iff (positive : 0 < size) {records : List (Vector Byte size)} :
    recordBytes records = [] ↔ records = [] := by
  cases records with
  | nil => simp
  | cons first records =>
      have bytes : first.toList ≠ [] := by
        intro none
        have length := congrArg List.length none
        simp at length
        omega
      simp [recordBytes_cons, bytes]

/-- A record that is read into a buffer of its size fills it. -/
theorem storePrefix_record (record buffer : Vector Byte size) :
    storePrefix record.toList buffer = record := by
  ext index inside
  rw [getElem_storePrefix, List.getElem?_eq_getElem (by simpa using inside), Option.getD_some,
    Vector.getElem_toList]

end NetLab.Posix

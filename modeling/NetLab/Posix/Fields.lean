import NetLab.Posix.Text
import NetLab.Structures.Words

/-!
# The fields of a text

What `strtok` finds, call after call, are the words between the delimiters.
-/

namespace NetLab.Posix

open NetLab.Structures

/-- What a number of calls of `strtok` find, up to the first that finds nothing. -/
def fields (delimiters : List Byte) : ℕ → List Byte → List (List Byte)
  | 0, _ => []
  | count + 1, text =>
      match strtok delimiters text with
      | none => []
      | some (tok, rest) => tok :: fields delimiters count rest

def separates (delimiters : List Byte) (byte : Byte) : Bool :=
  delimiters.contains byte

section Fields

variable {delimiters text field rest : List Byte}

theorem strtok_eq_nextWord (delimiters text : List Byte) :
    strtok delimiters text =
      (nextWord (separates delimiters) text).map fun next => (next.1, next.2.tail) := by
  have tested : separates delimiters = fun byte => decide (byte ∈ delimiters) :=
    funext fun byte => List.contains_eq_mem byte delimiters
  rw [strtok, nextWord, tested]
  cases text.dropWhile (· ∈ delimiters) with
  | nil => rfl
  | cons first behind => simp only [Option.map_some, decide_not]

theorem strtok_none (missing : strtok delimiters text = none) :
    words (separates delimiters) text = [] := by
  rw [strtok_eq_nextWord, Option.map_eq_none_iff] at missing
  exact (nextWord_none missing).1

theorem strtok_some (found : strtok delimiters text = some (field, rest)) :
    words (separates delimiters) text = field :: words (separates delimiters) rest := by
  rw [strtok_eq_nextWord, Option.map_eq_some_iff] at found
  rcases found with ⟨⟨word, behind⟩, scanned, split⟩
  cases split
  have next := nextWord_some scanned
  rw [next.words_eq]
  cases behind with
  | nil => rfl
  | cons delimiter behind =>
      have separator := next.stops delimiter rfl
      exact congrArg (word :: ·) (words_cons_of_space separator)

theorem fields_eq_take (count : ℕ) (text : List Byte) :
    fields delimiters count text = (words (separates delimiters) text).take count := by
  induction count generalizing text with
  | zero => rw [fields, List.take_zero]
  | succ count ih =>
      rw [fields]
      cases found : strtok delimiters text with
      | none => rw [strtok_none found, List.take_nil]
      | some next =>
          rw [strtok_some found, List.take_succ_cons]
          exact congrArg (next.1 :: ·) (ih next.2)

end Fields

end NetLab.Posix

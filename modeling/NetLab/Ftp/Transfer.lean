import NetLab.Posix.Text
import NetLab.Structures.Words

/-!
# The transfer loop of the FTP server

The active and the passive server send a file word by word, in records of 255 bytes.
The loop asks for the end of the file before it reads and does not ask whether
anything was read. When the file does not end in a word, the end is seen only by a
read that finds nothing, and the buffer is sent again as it is.
-/

namespace NetLab.Ftp

open NetLab.Posix NetLab.Structures

/-- A `FILE` that is read: what is left, and whether its end was seen. -/
structure Stream where
  rest : List Byte
  eof : Bool
deriving DecidableEq, Repr

namespace Stream

def ofFile (file : List Byte) : Stream where
  rest := file
  eof := false

/-- `fscanf` with the format `%s`. The character behind the word is not taken. -/
def scanString {length : ℕ} (fp : Stream) (buf : Vector Byte length) :
    Stream × Vector Byte length :=
  match nextWord isSpace fp.rest with
  | none => ({ rest := [], eof := true }, buf)
  | some (word, rest) =>
      ({ rest, eof := fp.eof || rest.isEmpty }, storePrefix (word ++ [0#8]) buf)

/-- How many passes the loop can take at most. -/
def passes (fp : Stream) : ℕ :=
  if fp.eof then 0 else fp.rest.length + 1

variable {length : ℕ} {fp : Stream} {buf : Vector Byte length} {word rest : List Byte}

theorem scanString_of_none (missing : nextWord isSpace fp.rest = none) :
    fp.scanString buf = ({ rest := [], eof := true }, buf) := by
  rw [scanString, missing]

theorem scanString_of_some (found : nextWord isSpace fp.rest = some (word, rest)) :
    fp.scanString buf =
      ({ rest, eof := fp.eof || rest.isEmpty }, storePrefix (word ++ [0#8]) buf) := by
  rw [scanString, found]

theorem passes_scanString (more : fp.eof = false) (buf : Vector Byte length) :
    (fp.scanString buf).1.passes < fp.passes := by
  have here : fp.passes = fp.rest.length + 1 := by
    rw [passes, if_neg (by simp [more])]
  rw [here]
  cases found : nextWord isSpace fp.rest with
  | none =>
      rw [scanString_of_none found, passes, if_pos rfl]
      exact Nat.succ_pos _
  | some next =>
      have shorter := (nextWord_some found).length_lt
      rw [scanString_of_some found, passes]
      split
      case isTrue => exact Nat.succ_pos _
      case isFalse => exact Nat.succ_lt_succ shorter

end Stream

/-- The loop from a state of the file and of `buf` on: the records that are sent. -/
def transfer (fp : Stream) (buf : Vector Byte 255) : List (Vector Byte 255) :=
  if _more : fp.eof = false then
    (fp.scanString buf).2 :: transfer (fp.scanString buf).1 (fp.scanString buf).2
  else []
termination_by fp.passes
decreasing_by exact Stream.passes_scanString _more buf

/-- The strings that the client finds in the records, for a file and what `buf` holds before. -/
def sentStrings (file : List Byte) (buf : Vector Byte 255) : List (List Byte) :=
  (transfer (Stream.ofFile file) buf).map fun record => cString record.toList

section Transfer

variable {fp : Stream} {buf : Vector Byte 255} {file : List Byte}

/-- The words are sent. If the file does not end in one, what `buf` holds by then is sent once
more. -/
theorem map_transfer (fp : Stream) (buf : Vector Byte 255) (more : fp.eof = false)
    (text : 0#8 ∉ fp.rest) (short : ∀ word ∈ words isSpace fp.rest, word.length ≤ 254) :
    (transfer fp buf).map (fun record => cString record.toList) = words isSpace fp.rest ++
      if endsInWord isSpace fp.rest then []
      else [((words isSpace fp.rest).getLast?).getD (cString buf.toList)] := by
  induction fp, buf using transfer.induct with
  | case2 fp buf eof => exact absurd more eof
  | case1 fp buf more ih =>
      rw [transfer, dif_pos more, List.map_cons]
      cases found : nextWord isSpace fp.rest with
      | none =>
          have blank := nextWord_none found
          have ended : transfer { rest := [], eof := true } buf = [] := by
            rw [transfer, dif_neg (by simp)]
          rw [Stream.scanString_of_none found, ended, blank.1, blank.2]
          rfl
      | some pair =>
          rcases pair with ⟨word, rest⟩
          have next := nextWord_some found
          have within : 0#8 ∉ word ++ rest := fun zero => text (next.mem_text zero)
          rw [List.mem_append, not_or] at within
          rw [next.words_eq, List.forall_mem_cons] at short
          have sent := cString_storePrefix_text (Nat.lt_succ_of_le short.1) within.1 buf
          rw [Stream.scanString_of_some found, more, Bool.false_or] at ih ⊢
          dsimp only at ih ⊢
          rw [sent, next.words_eq]
          cases empty : rest.isEmpty with
          | true =>
              have nothing : rest = [] := List.isEmpty_iff.mp empty
              have ended :
                  transfer { rest, eof := true } (storePrefix (word ++ [0#8]) buf) = [] := by
                rw [transfer, dif_neg (by simp)]
              rw [ended, next.endsInWord_of_nil nothing, nothing]
              rfl
          | false =>
              have something : rest ≠ [] := by
                rintro rfl
                cases empty
              rw [empty] at ih
              rw [ih rfl within.2 short.2, next.endsInWord_eq something, sent, List.cons_append,
                List.getLast?_cons, Option.getD_some]

theorem sentStrings_eq (text : 0#8 ∉ file)
    (short : ∀ word ∈ words isSpace file, word.length ≤ 254) :
    sentStrings file buf = words isSpace file ++
      if endsInWord isSpace file then []
      else [((words isSpace file).getLast?).getD (cString buf.toList)] :=
  map_transfer (Stream.ofFile file) buf rfl text short

end Transfer

/-- What is sent is the words of the file exactly when the file ends in a word. -/
theorem sentStrings_eq_words_iff (file : List Byte) (buf : Vector Byte 255) (text : 0#8 ∉ file)
    (short : ∀ word ∈ words isSpace file, word.length ≤ 254) :
    sentStrings file buf = words isSpace file ↔ endsInWord isSpace file = true := by
  rw [sentStrings_eq text short]
  cases endsInWord isSpace file with
  | true => simp
  | false => simp

theorem sentStrings_words_one :
    sentStrings (literal "one") (Vector.replicate 255 0#8) = words isSpace (literal "one") :=
  (sentStrings_eq_words_iff (literal "one") (Vector.replicate 255 0#8) (by decide)
    (by decide)).mpr (by decide)

/-- The word of a file with a line end is sent twice. -/
theorem sentStrings_line_twice :
    sentStrings (literal "one\n") (Vector.replicate 255 0#8) ≠
      words isSpace (literal "one\n") := by
  rw [sentStrings_eq (by decide) (by decide)]
  decide

end NetLab.Ftp

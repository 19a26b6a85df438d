import Mathlib.Data.List.Basic
import Mathlib.Data.List.TakeWhile
import Mathlib.Tactic.Common

/-!
# Words of a text

The words are the maximal runs of a text without separators. A scanner finds them
one by one: it skips separators and stops behind a word.
-/

namespace NetLab.Structures

variable {α : Type*} {isSpace : α → Bool} {text word rest : List α}

def words (isSpace : α → Bool) (text : List α) : List (List α) :=
  (text.splitOnP isSpace).filter fun word => !word.isEmpty

/-- The next word and what is behind it. -/
def nextWord (isSpace : α → Bool) (text : List α) : Option (List α × List α) :=
  match text.dropWhile isSpace with
  | [] => none
  | first :: rest =>
      some ((first :: rest).takeWhile (!isSpace ·), (first :: rest).dropWhile (!isSpace ·))

/-- The text does not end with a separator. -/
def endsInWord (isSpace : α → Bool) (text : List α) : Bool :=
  text.getLast?.any (!isSpace ·)

@[simp]
theorem words_nil : words isSpace [] = [] :=
  rfl

theorem words_cons_of_space {first : α} (space : isSpace first = true) :
    words isSpace (first :: text) = words isSpace text := by
  rw [words, ← List.nil_append (first :: text),
    List.splitOnP_append_cons_of_forall_mem (List.forall_mem_nil _) _ space,
    List.filter_cons_of_neg (by simp), words]

theorem words_append_of_spaces {spaces : List α} (blank : ∀ letter ∈ spaces, isSpace letter = true)
    (text : List α) : words isSpace (spaces ++ text) = words isSpace text := by
  induction spaces with
  | nil => rfl
  | cons letter spaces ih =>
      rw [List.forall_mem_cons] at blank
      rw [List.cons_append, words_cons_of_space blank.1, ih blank.2]

theorem words_dropWhile (text : List α) :
    words isSpace (text.dropWhile isSpace) = words isSpace text := by
  induction text with
  | nil => rfl
  | cons first text ih =>
      cases kind : isSpace first with
      | true => rw [List.dropWhile_cons_of_pos kind, ih, words_cons_of_space kind]
      | false => rw [List.dropWhile_cons_of_neg (by simp [kind])]

/-- A word stands before the words of what is behind it. -/
theorem words_append (nonempty : word ≠ []) (plain : ∀ letter ∈ word, isSpace letter = false)
    (stops : ∀ first ∈ rest.head?, isSpace first = true) :
    words isSpace (word ++ rest) = word :: words isSpace rest := by
  cases rest with
  | nil =>
      rw [List.append_nil, words, List.splitOnP_eq_singleton plain,
        List.filter_cons_of_pos (by simpa using nonempty), List.filter_nil, words_nil]
  | cons first rest =>
      have space : isSpace first = true := stops first rfl
      rw [words, List.splitOnP_append_cons_of_forall_mem plain _ space,
        List.filter_cons_of_pos (by simpa using nonempty), words_cons_of_space space, words]

theorem endsInWord_append (nonempty : rest ≠ []) (front : List α) :
    endsInWord isSpace (front ++ rest) = endsInWord isSpace rest := by
  rw [endsInWord, List.getLast?_append_of_ne_nil _ nonempty, endsInWord]

/-- What the scanner has found and what it has left. -/
structure IsNextWord (isSpace : α → Bool) (text word rest : List α) : Prop where
  nonempty : word ≠ []
  plain : ∀ letter ∈ word, isSpace letter = false
  stops : ∀ first ∈ rest.head?, isSpace first = true
  whole : ∃ spaces, text = spaces ++ (word ++ rest)
  words_eq : words isSpace text = word :: words isSpace rest

theorem nextWord_some (found : nextWord isSpace text = some (word, rest)) :
    IsNextWord isSpace text word rest := by
  rw [nextWord] at found
  split at found
  case h_1 => cases found
  case h_2 first tail skipped =>
    cases found
    have letter : isSpace first = false := by
      have head := List.head?_dropWhile_not isSpace text
      simpa [skipped] using head
    have joined : (first :: tail).takeWhile (!isSpace ·) ++ (first :: tail).dropWhile (!isSpace ·) =
        first :: tail :=
      List.takeWhile_append_dropWhile
    have nonempty : (first :: tail).takeWhile (!isSpace ·) ≠ [] := by
      rw [List.takeWhile_cons_of_pos (by simp [letter])]
      exact List.cons_ne_nil _ _
    have plain : ∀ other ∈ (first :: tail).takeWhile (!isSpace ·), isSpace other = false := by
      intro other inside
      simpa using List.mem_takeWhile_imp inside
    have stops : ∀ other ∈ ((first :: tail).dropWhile (!isSpace ·)).head?,
        isSpace other = true := by
      intro other head
      have dropped := List.head?_dropWhile_not (!isSpace ·) (first :: tail)
      rw [Option.mem_def.mp head] at dropped
      simpa using dropped
    refine ⟨nonempty, plain, stops, ⟨text.takeWhile isSpace, ?_⟩, ?_⟩
    · rw [joined, ← skipped, List.takeWhile_append_dropWhile]
    · rw [← words_append nonempty plain stops, joined, ← skipped, words_dropWhile]

theorem nextWord_none (missing : nextWord isSpace text = none) :
    words isSpace text = [] ∧ endsInWord isSpace text = false := by
  rw [nextWord] at missing
  split at missing
  case h_1 blank =>
    constructor
    · rw [← words_dropWhile, blank, words_nil]
    · have spaces := List.dropWhile_eq_nil_iff.mp blank
      rw [endsInWord, Option.any_eq_false]
      intro last listed
      simpa using spaces last (List.mem_of_getLast? listed)
  case h_2 => cases missing

theorem words_of_nextWord (text : List α) : words isSpace text =
    (nextWord isSpace text).elim [] fun next => next.1 :: words isSpace next.2 := by
  cases found : nextWord isSpace text with
  | none => exact (nextWord_none found).1
  | some next => exact (nextWord_some found).words_eq

/-- The scanner looks at the letters of its text only. -/
theorem nextWord_congr {other : α → Bool} (agree : ∀ letter ∈ text, isSpace letter = other letter) :
    nextWord isSpace text = nextWord other text := by
  have taken : ∀ part : List α, (∀ letter ∈ part, isSpace letter = other letter) →
      part.takeWhile (!isSpace ·) = part.takeWhile (!other ·) ∧
        part.dropWhile (!isSpace ·) = part.dropWhile (!other ·) := by
    intro part
    induction part with
    | nil => intro _; exact ⟨rfl, rfl⟩
    | cons first part ih =>
        intro same
        rw [List.forall_mem_cons] at same
        simp only [List.takeWhile_cons, List.dropWhile_cons, same.1, ih same.2, and_self]
  induction text with
  | nil => rfl
  | cons first text ih =>
      have same := List.forall_mem_cons.mp agree
      rw [nextWord, nextWord, List.dropWhile_cons, List.dropWhile_cons, same.1]
      cases kind : other first with
      | true => exact ih same.2
      | false =>
          have parts := taken _ agree
          simp only [Bool.false_eq_true, if_false, parts]

theorem nextWord_append_of_none (missing : nextWord isSpace text = none) (tail : List α) :
    nextWord isSpace (text ++ tail) = nextWord isSpace tail := by
  have blank : text.dropWhile isSpace = [] := by
    rw [nextWord] at missing
    split at missing
    case h_1 blank => exact blank
    case h_2 => cases missing
  rw [nextWord, List.dropWhile_append, blank, List.isEmpty_nil, if_pos rfl, nextWord]

theorem nextWord_append_of_some (found : nextWord isSpace text = some (word, rest))
    (tail : List α) : nextWord isSpace (text ++ tail) =
      if rest = [] then some (word ++ tail.takeWhile (!isSpace ·), tail.dropWhile (!isSpace ·))
      else some (word, rest ++ tail) := by
  rw [nextWord] at found
  split at found
  case h_1 => cases found
  case h_2 first behind skipped =>
    cases found
    have kept : (text ++ tail).dropWhile isSpace = (first :: behind) ++ tail := by
      rw [List.dropWhile_append, skipped, List.isEmpty_cons, if_neg Bool.false_ne_true]
    have joined : (first :: behind).takeWhile (!isSpace ·) ++
        (first :: behind).dropWhile (!isSpace ·) = first :: behind :=
      List.takeWhile_append_dropWhile
    rw [nextWord, kept]
    simp only [List.cons_append]
    rw [← List.cons_append, List.takeWhile_append, List.dropWhile_append]
    by_cases last : (first :: behind).dropWhile (!isSpace ·) = []
    · rw [last, List.append_nil] at joined
      rw [if_pos last, last, joined, if_pos rfl, if_pos List.isEmpty_nil]
    · have more : ((first :: behind).takeWhile (!isSpace ·)).length ≠ (first :: behind).length := by
        intro whole
        have lengths := congrArg List.length joined
        rw [List.length_append, whole] at lengths
        exact last (List.length_eq_zero_iff.mp (by omega))
      rw [if_neg last, if_neg more, if_neg (by simpa using last)]

namespace IsNextWord

variable (next : IsNextWord isSpace text word rest)
include next

theorem length_lt : rest.length < text.length := by
  rcases next.whole with ⟨spaces, rfl⟩
  have positive := List.length_pos_iff.mpr next.nonempty
  simp only [List.length_append]
  omega

theorem endsInWord_of_nil (last : rest = []) : endsInWord isSpace text = true := by
  rcases next.whole with ⟨spaces, rfl⟩
  have nonempty := next.nonempty
  rw [last, List.append_nil, endsInWord_append nonempty, endsInWord,
    List.getLast?_eq_getLast_of_ne_nil nonempty]
  simpa using next.plain _ (List.getLast_mem nonempty)

theorem endsInWord_eq (more : rest ≠ []) :
    endsInWord isSpace text = endsInWord isSpace rest := by
  rcases next.whole with ⟨spaces, rfl⟩
  rw [← List.append_assoc, endsInWord_append more]

theorem mem_text {letter : α} (inside : letter ∈ word ++ rest) : letter ∈ text := by
  rcases next.whole with ⟨spaces, rfl⟩
  exact List.mem_append_right spaces inside

end IsNextWord

/-- A letter behind a text belongs to its last word, or is a word of its own. -/
theorem words_append_letter {letter : α} (plain : isSpace letter = false) (text : List α) :
    (endsInWord isSpace text = true ∧ ∃ front last, words isSpace text = front ++ [last] ∧
        words isSpace (text ++ [letter]) = front ++ [last ++ [letter]]) ∨
      (endsInWord isSpace text = false ∧
        words isSpace (text ++ [letter]) = words isSpace text ++ [[letter]]) := by
  have alone : words isSpace [letter] = [[letter]] := by
    rw [words, List.splitOnP_eq_singleton (by simpa using plain), List.filter_singleton]
    rfl
  induction size : text.length using Nat.strong_induction_on generalizing text with
  | _ size ih =>
      subst size
      cases found : nextWord isSpace text with
      | none =>
          rcases nextWord_none found with ⟨blank, spaces⟩
          right
          rw [words_of_nextWord (text ++ [letter]), nextWord_append_of_none found,
            ← words_of_nextWord, alone, blank, List.nil_append]
          exact ⟨spaces, rfl⟩
      | some pair =>
          rcases pair with ⟨word, rest⟩
          have next := nextWord_some found
          rw [words_of_nextWord (text ++ [letter]), nextWord_append_of_some found]
          by_cases last : rest = []
          · left
            refine ⟨next.endsInWord_of_nil last, [], word, ?_, ?_⟩
            · rw [next.words_eq, last, words_nil, List.nil_append]
            · simp [last, plain]
          · rw [next.endsInWord_eq last, if_neg last, next.words_eq]
            rcases ih rest.length next.length_lt rest rfl with
              ⟨ends, front, final, before, after⟩ | ⟨open_, after⟩
            · left
              exact ⟨ends, word :: front, final, by simp [before], by simp [after]⟩
            · right
              exact ⟨open_, by simp [after]⟩

theorem endsInWord_cons_of_space {first : α} (space : isSpace first = true) (text : List α) :
    endsInWord isSpace (first :: text) = endsInWord isSpace text := by
  cases text with
  | nil => simp [endsInWord, space]
  | cons second text =>
      exact endsInWord_append (List.cons_ne_nil second text) [first]

/-- A word is a part of its text, and has no separators. -/
theorem mem_words (listed : word ∈ words isSpace text) :
    word ≠ [] ∧ word.Sublist text ∧ ∀ letter ∈ word, isSpace letter = false := by
  induction size : text.length using Nat.strong_induction_on generalizing text with
  | _ size ih =>
      subst size
      cases found : nextWord isSpace text with
      | none =>
          rw [(nextWord_none found).1] at listed
          cases listed
      | some pair =>
          have next := nextWord_some found
          rcases next.whole with ⟨spaces, whole⟩
          rw [next.words_eq, List.mem_cons] at listed
          rcases listed with rfl | later
          · refine ⟨next.nonempty, ?_, next.plain⟩
            rw [whole]
            exact (List.sublist_append_left _ _).trans (List.sublist_append_right _ _)
          · rcases ih pair.2.length next.length_lt later rfl with ⟨nonempty, part, plain⟩
            refine ⟨nonempty, ?_, plain⟩
            rw [whole]
            exact part.trans ((List.sublist_append_right _ _).trans (List.sublist_append_right _ _))

theorem length_words_le (isSpace : α → Bool) (text : List α) :
    (words isSpace text).length ≤ text.length := by
  induction size : text.length using Nat.strong_induction_on generalizing text with
  | _ size ih =>
      subst size
      rw [words_of_nextWord]
      cases found : nextWord isSpace text with
      | none => exact Nat.zero_le _
      | some next =>
          have shorter := (nextWord_some found).length_lt
          exact Nat.succ_le_of_lt ((ih next.2.length shorter next.2 rfl).trans_lt shorter)

section Lines

variable [BEq α] [LawfulBEq α] {separator : α} {line : List α}

/-- The lines of a text, in which each of them ends with the separator. -/
def lines (separator : α) (text : List α) : List (List α) :=
  (text.splitOn separator).dropLast

theorem lines_append (plain : separator ∉ line) (text : List α) :
    lines separator (line ++ separator :: text) = line :: lines separator text := by
  rw [lines, List.splitOn_append_cons_self_of_not_mem plain,
    List.dropLast_cons_of_ne_nil (List.splitOn_ne_nil _ _), lines]

/-- Lines that are written one behind the other are read back as they were. -/
theorem lines_flatMap {written : List (List α)} (plain : ∀ line ∈ written, separator ∉ line) :
    lines separator (written.flatMap fun line => line ++ [separator]) = written := by
  induction written with
  | nil => rfl
  | cons line written ih =>
      rw [List.forall_mem_cons] at plain
      rw [List.flatMap_cons, List.append_assoc, List.singleton_append, lines_append plain.1,
        ih plain.2]

end Lines

end NetLab.Structures

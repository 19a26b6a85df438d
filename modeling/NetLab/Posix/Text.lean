import NetLab.Posix.Bytes
import Mathlib.Data.Nat.Digits.Lemmas

/-!
# Text

Decimal numbers as `printf` writes and `atoi` reads them, and the fields that
`strtok` finds. A string is given without its terminator.
-/

namespace NetLab.Posix

def literal (text : String) : List Byte :=
  text.toList.map fun letter => BitVec.ofNat 8 letter.toNat

section Decimal

def digitByte (digit : ℕ) : Byte :=
  BitVec.ofNat 8 (0x30 + digit)

def digitBytes (number : ℕ) : List Byte :=
  if number = 0 then [digitByte 0] else (Nat.digits 10 number).reverse.map digitByte

/-- A number as the format `%d` writes it. -/
def decimal (number : ℤ) : List Byte :=
  if number < 0 then 0x2D#8 :: digitBytes number.natAbs else digitBytes number.natAbs

def isDigit (byte : Byte) : Bool :=
  0x30#8 ≤ byte && byte ≤ 0x39#8

/-- The characters that `isspace` accepts. -/
def isSpace (byte : Byte) : Bool :=
  byte == 0x20#8 || (0x9#8 ≤ byte && byte ≤ 0xD#8)

/-- The value of the digits that a text begins with. -/
def leadingValue (text : List Byte) : ℕ :=
  (text.takeWhile isDigit).foldl (fun value byte => 10 * value + (byte.toNat - 0x30)) 0

/-- `atoi`, for numbers that an `int` can hold. -/
def atoi (text : List Byte) : ℤ :=
  match text.dropWhile isSpace with
  | [] => 0
  | byte :: rest =>
      if byte = 0x2D#8 then -leadingValue rest
      else if byte = 0x2B#8 then leadingValue rest
      else leadingValue (byte :: rest)

/-- `atoi` of any text: `strtol` stops at the ends of 64 bits, and an `int` has the lower 32. -/
def atoiInt (text : List Byte) : ℤ :=
  (max (-2 ^ 63) (min (2 ^ 63 - 1) (atoi text))).bmod (2 ^ 32)

theorem atoiInt_eq {text : List Byte} (above : -2 ^ 31 ≤ atoi text) (below : atoi text < 2 ^ 31) :
    atoiInt text = atoi text := by
  rw [atoiInt, min_eq_right (by omega), max_eq_right (by omega)]
  exact Int.bmod_eq_of_le (by omega) (by omega)

theorem toNat_digitByte {digit : ℕ} (small : digit < 10) :
    (digitByte digit).toNat = 0x30 + digit := by
  rw [digitByte, BitVec.toNat_ofNat]
  omega

theorem isDigit_digitByte {digit : ℕ} (small : digit < 10) :
    isDigit (digitByte digit) = true := by
  simp only [isDigit, BitVec.le_def, toNat_digitByte small, Bool.and_eq_true, decide_eq_true_eq]
  constructor
  · exact Nat.le_add_right _ _
  · exact Nat.add_le_add_left (Nat.le_of_lt_succ small) _

theorem isDigit_of_mem_digitBytes {number : ℕ} {byte : Byte} (inside : byte ∈ digitBytes number) :
    isDigit byte = true := by
  rw [digitBytes] at inside
  split at inside
  case isTrue =>
    rw [List.mem_singleton.mp inside]
    rfl
  case isFalse =>
    rcases List.mem_map.mp inside with ⟨digit, listed, rfl⟩
    exact isDigit_digitByte (Nat.digits_lt_base (by decide) (List.mem_reverse.mp listed))

theorem digitBytes_ne_nil (number : ℕ) : digitBytes number ≠ [] := by
  rw [digitBytes]
  split
  case isTrue => exact List.cons_ne_nil _ _
  case isFalse positive => simpa [Nat.digits_eq_nil_iff_eq_zero] using positive

theorem leadingValue_digitBytes (number : ℕ) : leadingValue (digitBytes number) = number := by
  have whole : (digitBytes number).takeWhile isDigit = digitBytes number :=
    List.takeWhile_eq_self_iff.mpr fun byte inside => isDigit_of_mem_digitBytes inside
  rw [leadingValue, whole, digitBytes]
  split
  case isTrue zero =>
    rw [zero]
    rfl
  case isFalse =>
    rw [List.map_reverse, List.foldl_reverse, List.foldr_map]
    calc (Nat.digits 10 number).foldr
          (fun digit value => 10 * value + ((digitByte digit).toNat - 0x30)) 0
        = (Nat.digits 10 number).foldr (fun digit value => digit + 10 * value) 0 := by
          apply List.foldr_ext
          intro digit listed value
          rw [toNat_digitByte (Nat.digits_lt_base (by decide) listed)]
          omega
      _ = Nat.ofDigits 10 (Nat.digits 10 number) :=
          (Nat.ofDigits_eq_foldr 10 (Nat.digits 10 number)).symm
      _ = number := Nat.ofDigits_digits 10 number

theorem isSpace_of_isDigit {byte : Byte} (digit : isDigit byte = true) :
    isSpace byte = false := by
  simp only [isDigit, Bool.and_eq_true, decide_eq_true_eq] at digit
  have apart : byte ≠ 0x20#8 := by
    rintro rfl
    exact absurd digit (by decide)
  have above : ¬ byte ≤ 0xD#8 := by
    intro low
    exact absurd (BitVec.le_trans digit.1 low) (by decide)
  simp only [isSpace, beq_eq_false_iff_ne.mpr apart, decide_eq_false above, Bool.and_false,
    Bool.or_false]

theorem not_isDigit_of_isSpace {byte : Byte} (space : isSpace byte = true) :
    isDigit byte = false := by
  cases digit : isDigit byte with
  | false => rfl
  | true =>
      rw [isSpace_of_isDigit digit] at space
      cases space

theorem leadingValue_append_space {last : Byte} (space : isSpace last = true) (text : List Byte) :
    leadingValue (text ++ [last]) = leadingValue text := by
  have stops : [last].takeWhile isDigit = [] :=
    List.takeWhile_cons_of_neg (by simp [not_isDigit_of_isSpace space])
  rw [leadingValue, List.takeWhile_append, stops, List.append_nil, leadingValue]
  split
  case isTrue whole => rw [(List.takeWhile_prefix isDigit).eq_of_length whole]
  case isFalse => rfl

theorem atoi_append_space {last : Byte} (space : isSpace last = true) (text : List Byte) :
    atoi (text ++ [last]) = atoi text := by
  rw [atoi, List.dropWhile_append, atoi]
  cases text.dropWhile isSpace with
  | nil => simp [space]
  | cons first rest =>
      rw [List.isEmpty_cons, if_neg Bool.false_ne_true, List.cons_append]
      simp only [leadingValue_append_space space]
      rw [← List.cons_append, leadingValue_append_space space]

/-- `atoi` reads back what `%d` writes. -/
theorem atoi_decimal (number : ℤ) : atoi (decimal number) = number := by
  rcases lt_or_ge number 0 with negative | natural
  · rw [decimal, if_pos negative]
    have kept : (0x2D#8 :: digitBytes number.natAbs).dropWhile isSpace =
        0x2D#8 :: digitBytes number.natAbs := rfl
    simp only [atoi, kept, if_true, leadingValue_digitBytes]
    omega
  · rw [decimal, if_neg (not_lt.mpr natural)]
    cases written : digitBytes number.natAbs with
    | nil => exact absurd written (digitBytes_ne_nil _)
    | cons byte rest =>
        have digit : isDigit byte = true :=
          isDigit_of_mem_digitBytes (written ▸ List.mem_cons_self)
        have kept : (byte :: rest).dropWhile isSpace = byte :: rest :=
          List.dropWhile_cons_of_neg (by simp [isSpace_of_isDigit digit])
        have unsigned : byte ≠ 0x2D#8 ∧ byte ≠ 0x2B#8 := by
          constructor <;>
          · rintro rfl
            cases digit
        simp only [atoi, kept, if_neg unsigned.1, if_neg unsigned.2]
        rw [← written, leadingValue_digitBytes]
        omega

theorem isDigit_of_mem_decimal {number : ℤ} (natural : 0 ≤ number) {byte : Byte}
    (inside : byte ∈ decimal number) : isDigit byte = true := by
  rw [decimal, if_neg (not_lt.mpr natural)] at inside
  exact isDigit_of_mem_digitBytes inside

theorem zero_notMem_decimal (number : ℤ) : 0#8 ∉ decimal number := by
  have digits : 0#8 ∉ digitBytes number.natAbs := by
    intro inside
    cases isDigit_of_mem_digitBytes inside
  rw [decimal]
  split
  case isTrue => simpa using digits
  case isFalse => exact digits

theorem length_digitBytes_le {number count : ℕ} (positive : 0 < count)
    (small : number < 10 ^ count) : (digitBytes number).length ≤ count := by
  rw [digitBytes]
  split
  case isTrue => exact positive
  case isFalse =>
    rw [List.length_map, List.length_reverse]
    exact (Nat.digits_length_le_iff (by decide) number).mpr small

theorem decimal_ne_nil (number : ℤ) : decimal number ≠ [] := by
  rw [decimal]
  split
  case isTrue => exact List.cons_ne_nil _ _
  case isFalse => exact digitBytes_ne_nil _

end Decimal

section Fields

/-- `strtok` on a text or on what is left of one: the next field, and what is left then. -/
def strtok (delimiters text : List Byte) : Option (List Byte × List Byte) :=
  match text.dropWhile (· ∈ delimiters) with
  | [] => none
  | byte :: rest =>
      some ((byte :: rest).takeWhile (· ∉ delimiters),
        ((byte :: rest).dropWhile (· ∉ delimiters)).tail)

variable {delimiters field : List Byte}

theorem strtok_eq (nonempty : field ≠ []) (plain : ∀ byte ∈ field, byte ∉ delimiters)
    (rest : List Byte) :
    strtok delimiters (field ++ rest) =
      some (field ++ rest.takeWhile (· ∉ delimiters),
        (rest.dropWhile (· ∉ delimiters)).tail) := by
  cases field with
  | nil => exact absurd rfl nonempty
  | cons byte field =>
      have kept : (byte :: field ++ rest).dropWhile (· ∈ delimiters) = byte :: field ++ rest :=
        List.dropWhile_cons_of_neg (by simpa using plain byte List.mem_cons_self)
      have taken : ∀ other ∈ byte :: field, decide (other ∉ delimiters) = true :=
        fun other inside => decide_eq_true (plain other inside)
      rw [strtok, kept, List.cons_append]
      simp only [← List.cons_append, List.takeWhile_append_of_pos taken,
        List.dropWhile_append_of_pos taken]

theorem strtok_field (nonempty : field ≠ []) (plain : ∀ byte ∈ field, byte ∉ delimiters)
    {delimiter : Byte} (ends : delimiter ∈ delimiters) (rest : List Byte) :
    strtok delimiters (field ++ delimiter :: rest) = some (field, rest) := by
  rw [strtok_eq nonempty plain, List.takeWhile_cons_of_neg (by simpa using ends),
    List.dropWhile_cons_of_neg (by simpa using ends), List.append_nil, List.tail_cons]

theorem strtok_last (nonempty : field ≠ []) (plain : ∀ byte ∈ field, byte ∉ delimiters) :
    strtok delimiters field = some (field, []) := by
  simpa using strtok_eq nonempty plain []

end Fields

end NetLab.Posix

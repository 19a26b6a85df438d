import NetLab.Posix.Bytes
import Mathlib.Logic.Function.Basic
import Mathlib.Order.Lattice.Nat

/-!
# Files and descriptors

A process sees the file system through its working directory and its table of
open files. What the operating system may refuse is an argument of the call, so
that a result about every answer quantifies over it: a permission is a `Bool`,
and a transfer is `none` when it fails or else the most bytes it moves.

A failed call returns -1 and changes nothing. `OpenAt` says that a machine is
an earlier one with a file open at a descriptor; each call has a rule for it.
-/

namespace NetLab.Posix

abbrev Path := List Byte

inductive OpenMode where
  | readOnly
  | writeOnly
deriving DecidableEq, Repr

/-- The files by their inode numbers; a directory is known by its own inode number. -/
structure FileSystem where
  resolve : ℕ → Path → Option ℕ
  mode : ℕ → BitVec 32
  bytes : ℕ → List Byte

structure OpenFile where
  inode : ℕ
  mode : OpenMode
  offset : ℕ
deriving DecidableEq, Repr

/-- The file system with the process that works on it. -/
structure Machine where
  files : FileSystem
  cwd : ℕ
  descriptors : List (Option OpenFile)

/-- The most bytes that one `read` or `write` moves on Linux. -/
def transferCap : ℕ := 0x7ffff000

/-- The number of bytes moved out of `count`, when at most `limit` can be. -/
def transferred (limit count : ℕ) : ℕ :=
  min count (min limit transferCap)

theorem transferred_le_count (limit count : ℕ) : transferred limit count ≤ count :=
  Nat.min_le_left _ _

theorem transferred_le_cap (limit count : ℕ) : transferred limit count ≤ transferCap :=
  (Nat.min_le_right _ _).trans (Nat.min_le_right _ _)

theorem transferred_le_iff {limit count bound : ℕ} (small : bound < transferCap) :
    transferred limit count ≤ bound ↔ count ≤ bound ∨ limit ≤ bound := by
  simp only [transferred, min_le_iff, not_le.mpr small, or_false]

def returned {α : Type*} : Option (List α) → ℤ
  | some moved => moved.length
  | none => -1

/-- A file after `data` was written at `offset`. A gap behind the old end reads as zeros, and
writing nothing does not extend the file. -/
def overwrite (old : List Byte) (offset : ℕ) (data : List Byte) : List Byte :=
  if data = [] then old
  else (old ++ List.replicate (offset - old.length) 0#8).take offset ++ data ++
    old.drop (offset + data.length)

/-- The bytes of a file from `offset` on, at most `count` of them. -/
def slice (bytes : List Byte) (offset count : ℕ) : List Byte :=
  (bytes.drop offset).take count

theorem length_slice (bytes : List Byte) (offset count : ℕ) :
    (slice bytes offset count).length = min count (bytes.length - offset) := by
  simp [slice]

theorem length_slice_le (bytes : List Byte) (offset count : ℕ) :
    (slice bytes offset count).length ≤ count :=
  List.length_take_le _ _

theorem range_inside_iff {length bound : ℕ} :
    (∀ index ∈ List.range length, index < bound) ↔ length ≤ bound := by
  constructor
  · intro inside
    by_contra longer
    have last := inside bound (List.mem_range.mpr (not_le.mp longer))
    exact lt_irrefl bound last
  · intro short index listed
    exact (List.mem_range.mp listed).trans_le short

def isRegular (mode : BitVec 32) : Bool :=
  mode &&& 0xF000#32 == 0x8000#32

theorem ne_zero_of_isRegular {mode : BitVec 32} (regular : isRegular mode = true) :
    mode ≠ 0#32 := by
  rintro rfl
  cases regular

def FileSystem.write (files : FileSystem) (inode offset : ℕ) (data : List Byte) : FileSystem :=
  { files with
    bytes := Function.update files.bytes inode (overwrite (files.bytes inode) offset data) }

/-- Put a file into the lowest free slot of a table. -/
def allocate (file : OpenFile) : List (Option OpenFile) → ℕ × List (Option OpenFile)
  | [] => (0, [some file])
  | none :: slots => (0, some file :: slots)
  | some other :: slots => ((allocate file slots).1 + 1, some other :: (allocate file slots).2)

theorem getElem?_allocate (file : OpenFile) (slots : List (Option OpenFile)) :
    (allocate file slots).2[(allocate file slots).1]? = some (some file) := by
  induction slots with
  | nil => rfl
  | cons slot slots ih =>
      cases slot with
      | none => rfl
      | some other => simpa [allocate] using ih

namespace Machine

def inodeAt (machine : Machine) (path : Path) : Option ℕ :=
  machine.files.resolve machine.cwd path

def access (machine : Machine) (permitted : Bool) (path : Path) : ℤ :=
  if permitted && (machine.inodeAt path).isSome then 0 else -1

/-- The mode that `stat` reports. It is asked only about paths that `access` has found. -/
def stMode (machine : Machine) (path : Path) : BitVec 32 :=
  match machine.inodeAt path with
  | some inode => machine.files.mode inode
  | none => 0#32

def opened (machine : Machine) (fd : ℤ) : Option OpenFile :=
  match fd with
  | .ofNat slot => machine.descriptors[slot]?.join
  | .negSucc _ => none

def setSlot (machine : Machine) (fd : ℤ) (slot : Option OpenFile) : Machine :=
  { machine with descriptors := machine.descriptors.set fd.toNat slot }

def openFile (machine : Machine) (permitted : Bool) (path : Path) (mode : OpenMode) :
    ℤ × Machine :=
  match machine.inodeAt path, permitted with
  | some inode, true =>
      let (fd, descriptors) := allocate { inode, mode, offset := 0 } machine.descriptors
      (fd, { machine with descriptors })
  | _, _ => (-1, machine)

/-- `lseek` with `SEEK_SET`. -/
def lseek (machine : Machine) (permitted : Bool) (fd : ℤ) (offset : ℕ) : ℤ × Machine :=
  match machine.opened fd, permitted with
  | some file, true => (offset, machine.setSlot fd (some { file with offset }))
  | _, _ => (-1, machine)

/-- `read`: the bytes it stores, or `none` when it returns -1. -/
def read (machine : Machine) (limit : Option ℕ) (fd : ℤ) (count : ℕ) :
    Option (List Byte) × Machine :=
  match machine.opened fd, limit with
  | some { inode, mode := .readOnly, offset }, some limit =>
      let data := slice (machine.files.bytes inode) offset (transferred limit count)
      let file := { inode, mode := .readOnly, offset := offset + data.length }
      (some data, machine.setSlot fd (some file))
  | _, _ => (none, machine)

/-- `write`: the indices of the bytes it takes from `memory`, or `none` when it returns -1. -/
def write (machine : Machine) (limit : Option ℕ) (fd : ℤ) (memory : ℕ → Byte) (count : ℕ) :
    Option (List ℕ) × Machine :=
  match machine.opened fd, limit with
  | some { inode, mode := .writeOnly, offset }, some limit =>
      let taken := List.range (transferred limit count)
      let file := { inode, mode := .writeOnly, offset := offset + taken.length }
      (some taken,
        { machine.setSlot fd (some file) with
          files := machine.files.write inode offset (taken.map memory) })
  | _, _ => (none, machine)

def close (machine : Machine) (fd : ℤ) : Machine :=
  match machine.opened fd with
  | some _ => machine.setSlot fd none
  | none => machine

section Frame

variable (machine : Machine)

@[simp]
theorem setSlot_files (fd : ℤ) (slot : Option OpenFile) :
    (machine.setSlot fd slot).files = machine.files :=
  rfl

@[simp]
theorem setSlot_cwd (fd : ℤ) (slot : Option OpenFile) :
    (machine.setSlot fd slot).cwd = machine.cwd :=
  rfl

@[simp]
theorem close_files (fd : ℤ) : (machine.close fd).files = machine.files := by
  cases found : machine.opened fd <;> simp [close, found]

@[simp]
theorem close_cwd (fd : ℤ) : (machine.close fd).cwd = machine.cwd := by
  cases found : machine.opened fd <;> simp [close, found]

@[simp]
theorem openFile_files (permitted : Bool) (path : Path) (mode : OpenMode) :
    (machine.openFile permitted path mode).2.files = machine.files := by
  cases found : machine.inodeAt path <;> cases permitted <;> simp [openFile, found]

@[simp]
theorem openFile_cwd (permitted : Bool) (path : Path) (mode : OpenMode) :
    (machine.openFile permitted path mode).2.cwd = machine.cwd := by
  cases found : machine.inodeAt path <;> cases permitted <;> simp [openFile, found]

@[simp]
theorem lseek_files (permitted : Bool) (fd : ℤ) (offset : ℕ) :
    (machine.lseek permitted fd offset).2.files = machine.files := by
  cases found : machine.opened fd <;> cases permitted <;> simp [lseek, found]

@[simp]
theorem lseek_cwd (permitted : Bool) (fd : ℤ) (offset : ℕ) :
    (machine.lseek permitted fd offset).2.cwd = machine.cwd := by
  cases found : machine.opened fd <;> cases permitted <;> simp [lseek, found]

@[simp]
theorem write_cwd (limit : Option ℕ) (fd : ℤ) (memory : ℕ → Byte) (count : ℕ) :
    (machine.write limit fd memory count).2.cwd = machine.cwd := by
  unfold Machine.write
  split
  case h_1 => rfl
  case h_2 => rfl

@[simp]
theorem write_resolve (limit : Option ℕ) (fd : ℤ) (memory : ℕ → Byte) (count : ℕ) :
    (machine.write limit fd memory count).2.files.resolve = machine.files.resolve := by
  unfold Machine.write
  split
  case h_1 => rfl
  case h_2 => rfl

@[simp]
theorem openFile_denied (path : Path) (mode : OpenMode) :
    machine.openFile false path mode = (-1, machine) := by
  cases found : machine.inodeAt path <;> simp [openFile, found]

@[simp]
theorem lseek_denied (fd : ℤ) (offset : ℕ) : machine.lseek false fd offset = (-1, machine) := by
  cases found : machine.opened fd <;> simp [lseek, found]

@[simp]
theorem read_denied (fd : ℤ) (count : ℕ) : machine.read none fd count = (none, machine) := by
  cases found : machine.opened fd <;> simp [read, found]

@[simp]
theorem write_denied (fd : ℤ) (memory : ℕ → Byte) (count : ℕ) :
    machine.write none fd memory count = (none, machine) := by
  cases found : machine.opened fd <;> simp [write, found]

@[simp]
theorem opened_negative : machine.opened (-1) = none :=
  rfl

@[simp]
theorem read_negative (limit : Option ℕ) (count : ℕ) :
    machine.read limit (-1) count = (none, machine) := by
  simp [read]

@[simp]
theorem write_negative (limit : Option ℕ) (memory : ℕ → Byte) (count : ℕ) :
    machine.write limit (-1) memory count = (none, machine) := by
  simp [write]

@[simp]
theorem close_negative : machine.close (-1) = machine := by
  simp [close]

end Frame

theorem opened_setSlot {machine : Machine} {fd : ℤ} {file : OpenFile}
    (found : machine.opened fd = some file) (other : OpenFile) :
    (machine.setSlot fd (some other)).opened fd = some other := by
  cases fd with
  | ofNat slot =>
      have inside : slot < machine.descriptors.length := by
        by_contra outside
        simp [opened, List.getElem?_eq_none (not_lt.mp outside)] at found
      simp [opened, setSlot, inside]
  | negSucc below => cases found

end Machine

/-- The machine is `base` with `file` open at `fd`. -/
structure OpenAt (base : Machine) (fd : ℤ) (file : OpenFile) (machine : Machine) : Prop where
  opened : machine.opened fd = some file
  files : machine.files = base.files
  cwd : machine.cwd = base.cwd

section OpenAt

variable {base machine : Machine} {fd : ℤ} {inode offset : ℕ} {mode : OpenMode}

theorem openFile_openAt {path : Path} (found : base.inodeAt path = some inode) (mode : OpenMode) :
    ∃ fd next, base.openFile true path mode = (fd, next) ∧
      OpenAt base fd { inode, mode, offset := 0 } next := by
  refine ⟨_, _, by simp only [Machine.openFile, found]; rfl, ?_⟩
  constructor
  case opened =>
    simp only [Machine.opened, getElem?_allocate]
    rfl
  case files => rfl
  case cwd => rfl

theorem OpenAt.lseek (openAt : OpenAt base fd { inode, mode, offset } machine) (position : ℕ) :
    ∃ next, machine.lseek true fd position = ((position : ℤ), next) ∧
      OpenAt base fd { inode, mode, offset := position } next := by
  refine ⟨_, by simp only [Machine.lseek, openAt.opened]; rfl, ?_⟩
  constructor
  case opened => exact Machine.opened_setSlot openAt.opened _
  case files => exact openAt.files
  case cwd => exact openAt.cwd

theorem OpenAt.read (openAt : OpenAt base fd { inode, mode := .readOnly, offset } machine)
    (limit count : ℕ) :
    ∃ next, machine.read (some limit) fd count =
        (some (slice (base.files.bytes inode) offset (transferred limit count)), next) ∧
      next.files = base.files ∧ next.cwd = base.cwd := by
  refine ⟨_, by simp only [Machine.read, openAt.opened, openAt.files]; rfl, ?_, ?_⟩
  · exact openAt.files
  · exact openAt.cwd

theorem OpenAt.write (openAt : OpenAt base fd { inode, mode := .writeOnly, offset } machine)
    (limit : ℕ) (memory : ℕ → Byte) (count : ℕ) :
    ∃ next, machine.write (some limit) fd memory count =
        (some (List.range (transferred limit count)), next) ∧
      next.files = base.files.write inode offset
        ((List.range (transferred limit count)).map memory) ∧ next.cwd = base.cwd := by
  refine ⟨_, by simp only [Machine.write, openAt.opened, openAt.files]; rfl, ?_, ?_⟩
  · rfl
  · exact openAt.cwd

end OpenAt

section OpenCount

namespace Machine

/-- The number of descriptors the process holds open. -/
def openCount (machine : Machine) : ℕ :=
  machine.descriptors.countP Option.isSome

def isOpen (machine : Machine) (fd : ℤ) : Bool :=
  (machine.opened fd).isSome

variable (machine : Machine)

theorem isOpen_setSlot {fd : ℤ} {file : OpenFile} (found : machine.opened fd = some file)
    (other : OpenFile) : (machine.setSlot fd (some other)).isOpen fd = machine.isOpen fd := by
  simp only [isOpen, opened_setSlot found, found, Option.isSome_some]

theorem openCount_setSlot {fd : ℤ} {file : OpenFile} (found : machine.opened fd = some file)
    (slot : Option OpenFile) :
    (machine.setSlot fd slot).openCount = machine.openCount - 1 + slot.isSome.toNat := by
  cases fd with
  | ofNat index =>
      rcases Option.join_eq_some_iff.mp found with found
      rcases List.getElem?_eq_some_iff.mp found with ⟨inside, occupied⟩
      simp only [openCount, setSlot, Int.toNat_natCast, Int.ofNat_eq_natCast]
      rw [List.countP_set inside, occupied]
      cases slot <;> rfl
  | negSucc below => cases found

theorem openCount_pos {fd : ℤ} (opened : machine.isOpen fd = true) : 0 < machine.openCount := by
  cases fd with
  | ofNat index =>
      rcases Option.isSome_iff_exists.mp opened with ⟨file, found⟩
      have listed := List.mem_of_getElem? (Option.join_eq_some_iff.mp found)
      exact List.countP_pos_iff.mpr ⟨_, listed, rfl⟩
  | negSucc below => cases opened

theorem openCount_setSlot_some {fd : ℤ} {file : OpenFile} (found : machine.opened fd = some file)
    (other : OpenFile) : (machine.setSlot fd (some other)).openCount = machine.openCount := by
  have held : 0 < machine.openCount :=
    openCount_pos machine (by simp only [isOpen, found]; rfl : machine.isOpen fd = true)
  simp only [openCount_setSlot machine found, Option.isSome_some, Bool.toNat_true]
  omega

@[simp]
theorem lseek_isOpen (permitted : Bool) (fd : ℤ) (offset : ℕ) :
    (machine.lseek permitted fd offset).2.isOpen fd = machine.isOpen fd := by
  cases found : machine.opened fd with
  | none => simp only [lseek, found]
  | some file =>
      cases permitted with
      | false => simp only [lseek_denied]
      | true => simpa only [lseek, found] using isOpen_setSlot machine found _

@[simp]
theorem lseek_openCount (permitted : Bool) (fd : ℤ) (offset : ℕ) :
    (machine.lseek permitted fd offset).2.openCount = machine.openCount := by
  cases found : machine.opened fd with
  | none => simp only [lseek, found]
  | some file =>
      cases permitted with
      | false => simp only [lseek_denied]
      | true => simpa only [lseek, found] using openCount_setSlot_some machine found _

@[simp]
theorem read_openCount (limit : Option ℕ) (fd : ℤ) (count : ℕ) :
    (machine.read limit fd count).2.openCount = machine.openCount ∧
      (machine.read limit fd count).2.isOpen fd = machine.isOpen fd := by
  unfold Machine.read
  split
  case h_1 found =>
    exact ⟨openCount_setSlot_some machine found _, isOpen_setSlot machine found _⟩
  case h_2 => exact ⟨rfl, rfl⟩

@[simp]
theorem write_openCount (limit : Option ℕ) (fd : ℤ) (memory : ℕ → Byte) (count : ℕ) :
    (machine.write limit fd memory count).2.openCount = machine.openCount ∧
      (machine.write limit fd memory count).2.isOpen fd = machine.isOpen fd := by
  unfold Machine.write
  split
  case h_1 found =>
    exact ⟨openCount_setSlot_some machine found _, isOpen_setSlot machine found _⟩
  case h_2 => exact ⟨rfl, rfl⟩

@[simp]
theorem close_openCount (fd : ℤ) :
    (machine.close fd).openCount = machine.openCount - (machine.isOpen fd).toNat := by
  cases found : machine.opened fd with
  | none => simp only [close, isOpen, found, Option.isSome_none, Bool.toNat_false, Nat.sub_zero]
  | some file =>
      simp only [close, isOpen, found, openCount_setSlot machine found, Option.isSome_some,
        Option.isSome_none, Bool.toNat_true, Bool.toNat_false, Nat.add_zero]

theorem countP_allocate (file : OpenFile) (slots : List (Option OpenFile)) :
    (allocate file slots).2.countP Option.isSome = slots.countP Option.isSome + 1 := by
  induction slots with
  | nil => rfl
  | cons slot slots ih =>
      cases slot with
      | none => simp [allocate]
      | some other => simp only [allocate, List.countP_cons_of_pos, Option.isSome_some, ih]

@[simp]
theorem openFile_isOpen (permitted : Bool) (path : Path) (mode : OpenMode) :
    (machine.openFile permitted path mode).2.isOpen
        (machine.openFile permitted path mode).1 =
      (permitted && (machine.inodeAt path).isSome) := by
  cases found : machine.inodeAt path with
  | none => simp [openFile, found, isOpen]
  | some inode =>
      cases permitted with
      | false => simp [isOpen]
      | true =>
          simp only [openFile, found, isOpen, opened, getElem?_allocate]
          rfl

@[simp]
theorem openFile_openCount (permitted : Bool) (path : Path) (mode : OpenMode) :
    (machine.openFile permitted path mode).2.openCount =
      machine.openCount + (permitted && (machine.inodeAt path).isSome).toNat := by
  cases found : machine.inodeAt path with
  | none => simp [openFile, found]
  | some inode =>
      cases permitted with
      | false => simp
      | true =>
          simp only [openFile, found, openCount, countP_allocate]
          rfl

theorem lseek_neg_iff (permitted : Bool) (fd : ℤ) (offset : ℕ) :
    (machine.lseek permitted fd offset).1 < 0 ↔
      (permitted && machine.isOpen fd) = false := by
  cases found : machine.opened fd with
  | none => simp [lseek, isOpen, found]
  | some file =>
      cases permitted with
      | false => simp
      | true =>
          simp only [lseek, isOpen, found]
          simp

theorem openFile_neg_iff (permitted : Bool) (path : Path) (mode : OpenMode) :
    (machine.openFile permitted path mode).1 < 0 ↔
      (permitted && (machine.inodeAt path).isSome) = false := by
  cases found : machine.inodeAt path with
  | none => simp [openFile, found]
  | some inode =>
      cases permitted with
      | false => simp
      | true =>
          simp only [openFile, found]
          simp

end Machine

end OpenCount

end NetLab.Posix

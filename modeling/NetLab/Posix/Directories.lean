import NetLab.Posix.Files

/-!
# Directories and names

The calls that go through directories. A call whose name is absolute acts on that
name alone; a relative name is taken from the working directory. What `remove`,
`mkdir` and `creat` make of the files is an argument of the call, as a function of
the place it acts on and of the files, so a result about every such function is
one about every file system and every outcome.
-/

namespace NetLab.Posix

def isDirectory (mode : BitVec 32) : Bool :=
  mode &&& 0xF000#32 == 0x4000#32

def isAbsolute (path : Path) : Bool :=
  path.head? == some 0x2F#8

/-- What a name refers to: the directory it is taken from, if it is relative, and the name. -/
structure Place where
  directory : Option ℕ
  name : Path
deriving DecidableEq

/-- The files after a call that creates or deletes a name, or `none` when it fails. -/
abbrev NameChange := Place → FileSystem → Option FileSystem

/-- An absolute name means the same in every working directory. -/
def FileSystem.RootedNames (files : FileSystem) : Prop :=
  ∀ (path : Path) (directory other : ℕ), isAbsolute path = true →
    files.resolve directory path = files.resolve other path

namespace Machine

def place (machine : Machine) (path : Path) : Place where
  directory := if isAbsolute path then none else some machine.cwd
  name := path

def directoryAt (machine : Machine) (path : Path) : Option ℕ :=
  (machine.inodeAt path).filter fun inode => isDirectory (machine.files.mode inode)

def chdir (machine : Machine) (permitted : Bool) (path : Path) : ℤ × Machine :=
  match machine.directoryAt path, permitted with
  | some inode, true => (0, { machine with cwd := inode })
  | _, _ => (-1, machine)

/-- `opendir`, with -1 for the null pointer. -/
def opendir (machine : Machine) (permitted : Bool) (path : Path) : ℤ × Machine :=
  machine.openFile (permitted && (machine.directoryAt path).isSome) path .readOnly

/-- The type of the file, in the upper bits, is kept. -/
def chmod (machine : Machine) (permitted : Bool) (path : Path) (mode : BitVec 32) :
    ℤ × Machine :=
  match machine.inodeAt path, permitted with
  | some inode, true =>
      let stored := (machine.files.mode inode &&& ~~~0xFFF#32) ||| (mode &&& 0xFFF#32)
      let files := { machine.files with mode := Function.update machine.files.mode inode stored }
      (0, { machine with files })
  | _, _ => (-1, machine)

/-- `remove` and `mkdir`. -/
def changeName (machine : Machine) (change : NameChange) (path : Path) : ℤ × Machine :=
  match change (machine.place path) machine.files with
  | some files => (0, { machine with files })
  | none => (-1, machine)

/-- `creat`: the file is made or emptied and then opened. -/
def creat (machine : Machine) (change : NameChange) (path : Path) : ℤ × Machine :=
  match change (machine.place path) machine.files with
  | some files => { machine with files }.openFile true path .writeOnly
  | none => (-1, machine)

section Frame

variable (machine : Machine)

@[simp]
theorem opendir_files (permitted : Bool) (path : Path) :
    (machine.opendir permitted path).2.files = machine.files :=
  openFile_files _ _ _ _

@[simp]
theorem opendir_cwd (permitted : Bool) (path : Path) :
    (machine.opendir permitted path).2.cwd = machine.cwd :=
  openFile_cwd _ _ _ _

@[simp]
theorem chdir_files (permitted : Bool) (path : Path) :
    (machine.chdir permitted path).2.files = machine.files := by
  cases found : machine.directoryAt path <;> cases permitted <;> simp [chdir, found]

@[simp]
theorem chmod_cwd (permitted : Bool) (path : Path) (mode : BitVec 32) :
    (machine.chmod permitted path mode).2.cwd = machine.cwd := by
  cases found : machine.inodeAt path <;> cases permitted <;> simp [chmod, found]

@[simp]
theorem chmod_resolve (permitted : Bool) (path : Path) (mode : BitVec 32) :
    (machine.chmod permitted path mode).2.files.resolve = machine.files.resolve := by
  cases found : machine.inodeAt path <;> cases permitted <;> simp [chmod, found]

@[simp]
theorem changeName_cwd (change : NameChange) (path : Path) :
    (machine.changeName change path).2.cwd = machine.cwd := by
  cases made : change (machine.place path) machine.files <;> simp [changeName, made]

@[simp]
theorem creat_cwd (change : NameChange) (path : Path) :
    (machine.creat change path).2.cwd = machine.cwd := by
  cases made : change (machine.place path) machine.files <;> simp [creat, made]

@[simp]
theorem chdir_descriptors (permitted : Bool) (path : Path) :
    (machine.chdir permitted path).2.descriptors = machine.descriptors := by
  cases found : machine.directoryAt path <;> cases permitted <;> simp [chdir, found]

@[simp]
theorem chmod_descriptors (permitted : Bool) (path : Path) (mode : BitVec 32) :
    (machine.chmod permitted path mode).2.descriptors = machine.descriptors := by
  cases found : machine.inodeAt path <;> cases permitted <;> simp [chmod, found]

@[simp]
theorem changeName_descriptors (change : NameChange) (path : Path) :
    (machine.changeName change path).2.descriptors = machine.descriptors := by
  cases made : change (machine.place path) machine.files <;> simp [changeName, made]

theorem directoryAt_isSome_inodeAt {path : Path}
    (found : (machine.directoryAt path).isSome = true) :
    (machine.inodeAt path).isSome = true := by
  cases known : machine.inodeAt path with
  | none => simp [directoryAt, known] at found
  | some inode => rfl

theorem opendir_permitted (permitted : Bool) (path : Path) :
    (permitted && (machine.directoryAt path).isSome && (machine.inodeAt path).isSome) =
      (permitted && (machine.directoryAt path).isSome) := by
  cases found : (machine.directoryAt path).isSome with
  | false => simp
  | true => simp [directoryAt_isSome_inodeAt machine found]

@[simp]
theorem opendir_openCount (permitted : Bool) (path : Path) :
    (machine.opendir permitted path).2.openCount =
      machine.openCount + (permitted && (machine.directoryAt path).isSome).toNat := by
  simp only [opendir, openFile_openCount, opendir_permitted]

theorem opendir_neg_iff (permitted : Bool) (path : Path) :
    (machine.opendir permitted path).1 < 0 ↔
      (permitted && (machine.directoryAt path).isSome) = false := by
  simp only [opendir, openFile_neg_iff, opendir_permitted]

end Frame

section Chmod

variable {machine : Machine} {path : Path} {permitted : Bool} {mode : BitVec 32}

theorem chmod_eq_zero_iff : (machine.chmod permitted path mode).1 = 0 ↔
    permitted = true ∧ (machine.inodeAt path).isSome = true := by
  cases found : machine.inodeAt path <;> cases permitted <;> simp [chmod, found]

/-- A change of the mode leaves the upper bits and takes the lower twelve. -/
theorem stMode_chmod (found : (machine.inodeAt path).isSome = true) (mode : BitVec 32) :
    (machine.chmod true path mode).2.stMode path =
      (machine.stMode path &&& ~~~0xFFF#32) ||| (mode &&& 0xFFF#32) := by
  rcases Option.isSome_iff_exists.mp found with ⟨inode, inode_eq⟩
  have again : (machine.chmod true path mode).2.inodeAt path = some inode := by
    simpa only [inodeAt, chmod_resolve, chmod_cwd] using inode_eq
  rw [stMode, again, stMode, inode_eq]
  simp only [chmod, inode_eq, Function.update_self]

end Chmod

/-- The same process in another working directory. -/
def inDirectory (machine : Machine) (directory : ℕ) : Machine :=
  { machine with cwd := directory }

/-- A change of directory that fails leaves the process where it is. -/
theorem chdir_eq (machine : Machine) (permitted : Bool) (path : Path) :
    (machine.chdir permitted path).2 = machine.inDirectory
      (if permitted then (machine.directoryAt path).getD machine.cwd else machine.cwd) := by
  cases found : machine.directoryAt path <;> cases permitted <;>
    simp [chdir, found, inDirectory]

section InDirectory

variable {machine : Machine} {directory : ℕ} {path : Path}

@[simp]
theorem inDirectory_files : (machine.inDirectory directory).files = machine.files :=
  rfl

@[simp]
theorem inDirectory_cwd : (machine.inDirectory directory).cwd = directory :=
  rfl

theorem place_inDirectory_eq_iff :
    (machine.inDirectory directory).place path = machine.place path ↔
      (isAbsolute path = false → directory = machine.cwd) := by
  cases absolute : isAbsolute path <;> simp [place, absolute]

theorem inodeAt_inDirectory (rooted : machine.files.RootedNames)
    (absolute : isAbsolute path = true) :
    (machine.inDirectory directory).inodeAt path = machine.inodeAt path :=
  rooted path directory machine.cwd absolute

section Calls

variable (same : (machine.inDirectory directory).inodeAt path = machine.inodeAt path)
include same

theorem access_inDirectory (permitted : Bool) :
    (machine.inDirectory directory).access permitted path = machine.access permitted path := by
  simp only [access, same]

theorem stMode_inDirectory :
    (machine.inDirectory directory).stMode path = machine.stMode path := by
  simp only [stMode, same, inDirectory_files]

theorem directoryAt_inDirectory :
    (machine.inDirectory directory).directoryAt path = machine.directoryAt path := by
  simp only [directoryAt, same, inDirectory_files]

theorem openFile_inDirectory (permitted : Bool) (mode : OpenMode) :
    (machine.inDirectory directory).openFile permitted path mode =
      ((machine.openFile permitted path mode).1,
        (machine.openFile permitted path mode).2.inDirectory directory) := by
  simp only [openFile, same]
  cases machine.inodeAt path <;> cases permitted <;> rfl

theorem opendir_inDirectory (permitted : Bool) :
    (machine.inDirectory directory).opendir permitted path =
      ((machine.opendir permitted path).1,
        (machine.opendir permitted path).2.inDirectory directory) := by
  simp only [opendir, directoryAt_inDirectory same, openFile_inDirectory same]

theorem chmod_inDirectory (permitted : Bool) (mode : BitVec 32) :
    (machine.inDirectory directory).chmod permitted path mode =
      ((machine.chmod permitted path mode).1,
        (machine.chmod permitted path mode).2.inDirectory directory) := by
  simp only [chmod, same]
  cases machine.inodeAt path <;> cases permitted <;> rfl

end Calls

theorem lseek_inDirectory (permitted : Bool) (fd : ℤ) (offset : ℕ) :
    (machine.inDirectory directory).lseek permitted fd offset =
      ((machine.lseek permitted fd offset).1,
        (machine.lseek permitted fd offset).2.inDirectory directory) := by
  have same : (machine.inDirectory directory).opened fd = machine.opened fd := rfl
  simp only [lseek, same]
  cases machine.opened fd <;> cases permitted <;> rfl

theorem read_inDirectory (limit : Option ℕ) (fd : ℤ) (count : ℕ) :
    (machine.inDirectory directory).read limit fd count =
      ((machine.read limit fd count).1,
        (machine.read limit fd count).2.inDirectory directory) := by
  have same : (machine.inDirectory directory).opened fd = machine.opened fd := rfl
  simp only [read, same]
  split <;> rfl

theorem write_inDirectory (limit : Option ℕ) (fd : ℤ) (memory : ℕ → Byte) (count : ℕ) :
    (machine.inDirectory directory).write limit fd memory count =
      ((machine.write limit fd memory count).1,
        (machine.write limit fd memory count).2.inDirectory directory) := by
  have same : (machine.inDirectory directory).opened fd = machine.opened fd := rfl
  simp only [write, same]
  split <;> rfl

theorem close_inDirectory (fd : ℤ) :
    (machine.inDirectory directory).close fd = (machine.close fd).inDirectory directory := by
  have same : (machine.inDirectory directory).opened fd = machine.opened fd := rfl
  simp only [close, same]
  cases machine.opened fd <;> rfl

theorem changeName_inDirectory (absolute : isAbsolute path = true) (change : NameChange) :
    (machine.inDirectory directory).changeName change path =
      ((machine.changeName change path).1,
        (machine.changeName change path).2.inDirectory directory) := by
  have same : (machine.inDirectory directory).place path = machine.place path := by
    simp only [place, absolute, if_true]
  simp only [changeName, same, inDirectory_files]
  cases change (machine.place path) machine.files <;> rfl

theorem creat_inDirectory (absolute : isAbsolute path = true) (change : NameChange)
    (rooted : ∀ files, change (machine.place path) machine.files = some files →
      files.RootedNames) :
    (machine.inDirectory directory).creat change path =
      ((machine.creat change path).1, (machine.creat change path).2.inDirectory directory) := by
  have same : (machine.inDirectory directory).place path = machine.place path := by
    simp only [place, absolute, if_true]
  simp only [creat, same, inDirectory_files]
  cases made : change (machine.place path) machine.files with
  | none => rfl
  | some files =>
      have found : ({ machine with files }.inDirectory directory).inodeAt path =
          { machine with files }.inodeAt path := inodeAt_inDirectory (rooted files made) absolute
      exact openFile_inDirectory found true .writeOnly

end InDirectory

end Machine

end NetLab.Posix

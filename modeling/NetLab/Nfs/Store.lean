import NetLab.Nfs.Listing
import NetLab.Nfs.Terminal
import NetLab.Nfs.TypedTransfers

/-!
# What the shell is for

The commands as operations on one store of files: what each of them prints and how the store changes,
without calls, records, messages or descriptors. What the reads have left behind belongs to the
store, since every later read shows it. The server represents a store, and each of its handlers does
what the command says.
-/

namespace NetLab.Nfs

open NetLab.Posix

/-- The files, the directory that relative names are taken from, and what earlier reads have left in
the reply of the next one. -/
structure Store where
  files : FileSystem
  cwd : ℕ
  shown : List Byte

/-- A documented command with its words; numbers are given as numbers. -/
inductive Deed where
  | ls (name : List Byte)
  | write (name message : List Byte) (offset size : ℕ)
  | read (name : List Byte) (offset size : ℕ)
  | cd (name : List Byte)
  | getattr (name : List Byte)
  | setattr (name mode : List Byte)
  | remove (name : List Byte)
  | mkdir (name mode : List Byte)
  | touch (name mode : List Byte)

def Deed.command : Deed → Command
  | .ls _ => .ls
  | .write .. => .write
  | .read .. => .read
  | .cd _ => .cd
  | .getattr _ => .getattr
  | .setattr .. => .setattr
  | .remove _ => .remove
  | .mkdir .. => .mkdir
  | .touch .. => .touch

/-- The words that are typed behind the command. -/
def Deed.words : Deed → List (List Byte)
  | .ls name | .cd name | .getattr name | .remove name => [name]
  | .setattr name mode | .mkdir name mode | .touch name mode => [name, mode]
  | .read name offset size => [name, decimal offset, decimal size]
  | .write name message offset size => [name, message, decimal offset, decimal size]

/-- The words are inside the bounds of the records, and a mode is an octal number. -/
def Deed.Allowed : Deed → Prop
  | .write name message offset size =>
      name.length < 128 ∧ offset < 2 ^ 31 ∧ size ≤ message.length
  | .read name offset size => name.length < 128 ∧ offset < 2 ^ 31 ∧ size < 1024
  | .setattr _ mode => ∀ byte ∈ mode, isOctalDigit byte = true
  | _ => True

/-- The system permits everything, and its texts have room in the replies. -/
structure Obliging (around : Surroundings) : Prop where
  listable : around.listing.accessible = true ∧ around.listing.opens = true
  plainNames : ∀ name ∈ around.listing.names, 0#8 ∉ name
  namesFit : ListingFits around.listing.names
  transfers : Grants around 1023
  accessible : around.accessible = true
  permitted : around.permitted = true
  plainDetails : 0#8 ∉ around.details
  detailsFit : 10 + around.details.length < 1024

/-- The letter of the type and the permissions of the owner, the group and the others. -/
def permissionText (mode : BitVec 32) : List Byte :=
  typeLetter mode :: [6, 3, 0].flatMap fun place => rwx (mode.toNat >>> place)

namespace Store

variable (store : Store)

def found (name : List Byte) : Option ℕ :=
  store.files.resolve store.cwd name

def regular (name : List Byte) : Option ℕ :=
  (store.found name).filter fun inode => isRegular (store.files.mode inode)

def directory (name : List Byte) : Option ℕ :=
  (store.found name).filter fun inode => isDirectory (store.files.mode inode)

def place (name : List Byte) : Place where
  directory := if isAbsolute name then none else some store.cwd
  name := name

/-- The type of the file stays, and the lower bits are those of the number. -/
def setMode (inode mode : ℕ) : Store :=
  let kept := store.files.mode inode &&& ~~~0xFFF#32
  let set := BitVec.ofNat 32 mode &&& 0xFFF#32
  { store with files :=
      { store.files with mode := Function.update store.files.mode inode (kept ||| set) } }

/-- A command that creates or deletes a name. -/
def rename (change : NameChange) (name : List Byte) (failed succeeded : String) :
    List Byte × Store :=
  match change (store.place name) store.files with
  | none => (literal failed, store)
  | some files => (literal succeeded, { store with files })

/-- What a command prints, and the store it leaves. -/
def does (around : Surroundings) : Deed → List Byte × Store
  | .ls name =>
      match store.found name with
      | none => (printsListing (-1) (literal "File not exist or access denied !"), store)
      | some inode =>
          if isDirectory (store.files.mode inode) then
            (printsListing (visible around.listing.names).length (listing around.listing.names),
              store)
          else (printsListing (-1) (literal "Path is not a directory !"), store)
  | .write name message offset size =>
      match store.regular name with
      | none => (literal "Wrting Error occured, File not exist or access denied.\n", store)
      | some inode =>
          (decimal size ++ literal " byte written !\n",
            { store with files := store.files.write inode offset (message.take size) })
  | .read name offset size =>
      match store.regular name with
      | none => ((ReadReport.bytesRead (-1) (cString store.shown)).printed, store)
      | some inode =>
          let data := slice (store.files.bytes inode) offset size
          let shown := data ++ store.shown.drop data.length
          ((ReadReport.bytesRead data.length (cString shown)).printed, { store with shown })
  | .cd name =>
      match store.directory name with
      | none => (literal "Wrong path !\n", store)
      | some inode => (literal "Curr directory changed\n", { store with cwd := inode })
  | .getattr name =>
      match store.found name with
      | none => (literal "file or dir not exist !\n", store)
      | some inode =>
          (permissionText (store.files.mode inode) ++ around.details ++ literal "\n", store)
  | .setattr name mode =>
      match store.found name with
      | none => (literal "Error in setting attr\n", store)
      | some inode => (literal "Attr set.\n", store.setMode inode (octalValue mode))
  | .remove name => store.rename around.change name "Error in remove\n" "Removed !\n"
  | .mkdir name _ => store.rename around.change name "Error in creating dirs\n" "Created !\n"
  | .touch name _ =>
      match around.change (store.place name) store.files with
      | none => (literal "Error in creating dirs\n", store)
      | some files =>
          -- A descriptor is returned for a name that is there afterwards.
          if (files.resolve store.cwd name).isSome then
            (literal "Created !\n", { store with files })
          else (literal "Error in creating dirs\n", { store with files })

end Store

/-- The store that a server keeps. Its descriptors and its other results are of no account. -/
structure Represents (server : Server) (store : Store) : Prop where
  files : server.machine.files = store.files
  cwd : server.machine.cwd = store.cwd
  shown : ∃ free, server.readResult.buffer.toList =
    store.shown ++ List.replicate (free + 1) 0#8

end NetLab.Nfs

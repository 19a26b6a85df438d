import NetLab.Nfs.Server
import NetLab.Posix.Text

/-!
# The read command of `nfs_client.c`

What the client does with the reply to `nfs_read_1`. The reply is printed as a
string of C, so a buffer without terminator runs on into `size` and into the
memory behind it.
-/

namespace NetLab.Nfs

open NetLab.Posix

/-- The branch of the read command that is taken, with what it prints. -/
inductive ReadReport where
  | callFailed
  | fileReadingError
  | bytesRead (size : ℤ) (text : List Byte)
deriving DecidableEq

/-- The part of `nfs_remote_1` that follows the call of `nfs_read_1`; `behind` is the memory of the
client behind the reply. -/
def nfsRemote1Read (behind : List Byte) (result3 : Option Bufnode) : ReadReport :=
  match result3 with
  | none => .callFailed
  | some result =>
      -- `size` is unsigned, so the comparison is unsigned.
      if result.size < 0#32 then .fileReadingError
      else
        .bytesRead result.size.toInt
          (cString (result.buffer.toList ++ littleEndian result.size ++ behind))

/-- What appears on the standard output; `clnt_perror` writes elsewhere. -/
def ReadReport.printed : ReadReport → List Byte
  | .callFailed => []
  | .fileReadingError => literal "File Reading error Occured !\n"
  | .bytesRead size text =>
      literal "Read " ++ literal (toString size) ++ literal " bytes\n" ++ text ++ literal "\n"

/-- An unsigned number is never below zero, so a reply is always taken for a success. -/
theorem nfsRemote1Read_some (behind : List Byte) (result : Bufnode) :
    nfsRemote1Read behind (some result) =
      .bytesRead result.size.toInt
        (cString (result.buffer.toList ++ littleEndian result.size ++ behind)) := by
  have unsigned : ¬ result.size < 0#32 := BitVec.not_lt_zero
  simp only [nfsRemote1Read, unsigned, if_false]

theorem printed_bytesRead_inj {size : ℤ} {text other : List Byte} :
    (ReadReport.bytesRead size text).printed = (ReadReport.bytesRead size other).printed ↔
      text = other := by
  simp [ReadReport.printed]

end NetLab.Nfs

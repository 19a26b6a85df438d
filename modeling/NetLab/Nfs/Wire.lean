import NetLab.Nfs.Server
import NetLab.Xdr.Routine

/-!
# The records of `nfs.x` on the wire

The routines of `nfs_xdr.c`. Each character of a name or of a buffer takes up four bytes there, and
a record has one length, whatever it holds.
-/

namespace NetLab.Nfs

open NetLab.Posix NetLab.Xdr

def xdrBufnode : Routine Bufnode :=
  (Routine.member Bufnode.buffer (fun buffer objp => { objp with buffer })
    (xdrVector xdrChar)).andThen
  (Routine.member Bufnode.size (fun size objp => { objp with size }) xdrInt)

def xdrFileArgsR : Routine FileArgsR :=
  (Routine.member FileArgsR.filename (fun filename objp => { objp with filename })
    (xdrVector xdrChar)).andThen
  ((Routine.member FileArgsR.offset (fun offset objp => { objp with offset }) xdrInt).andThen
  (Routine.member FileArgsR.size (fun size objp => { objp with size }) xdrInt))

def xdrFileArgsW : Routine FileArgsW :=
  (Routine.member FileArgsW.filename (fun filename objp => { objp with filename })
    (xdrVector xdrChar)).andThen
  ((Routine.member FileArgsW.offset (fun offset objp => { objp with offset }) xdrInt).andThen
  ((Routine.member FileArgsW.buffer (fun buffer objp => { objp with buffer })
    (xdrVector xdrChar)).andThen
  (Routine.member FileArgsW.size (fun size objp => { objp with size }) xdrInt)))

/-- The characters of a name or of a buffer. -/
abbrev chars (count : ℕ) : Format (Vector Byte count) :=
  Format.vector count Format.char

theorem fixed_xdrBufnode : Fixed xdrBufnode 4100
    (fun objp => (chars 1024).image objp.buffer ++ bigEndian objp.size)
    fun bytes objp =>
      { buffer := (chars 1024).read (bytes.take 4096) objp.buffer,
        size := fromBigEndian (bytes.drop 4096) } :=
  ((chars 1024).fixed.member fun _ => rfl).andThen (fixed_xdrInt.member fun _ => rfl)

def bufnodeFormat : Format Bufnode where
  routine := xdrBufnode
  width := 4100
  image := _
  read := _
  fixed := fixed_xdrBufnode
  read_image := by
    intro objp before
    have length : ((chars 1024).image objp.buffer).length = 4096 :=
      (chars 1024).fixed.length_image objp.buffer
    rw [List.take_left' length, List.drop_left' length]
    congr 1
    · exact (chars 1024).read_image objp.buffer before.buffer
    · exact Format.int.read_image objp.size before.size

theorem fixed_xdrFileArgsR : Fixed xdrFileArgsR 520
    (fun objp => (chars 128).image objp.filename ++ (bigEndian objp.offset ++ bigEndian objp.size))
    fun bytes objp =>
      { filename := (chars 128).read (bytes.take 512) objp.filename,
        offset := fromBigEndian ((bytes.drop 512).take 4),
        size := fromBigEndian ((bytes.drop 512).drop 4) } :=
  ((chars 128).fixed.member fun _ => rfl).andThen
    ((fixed_xdrInt.member fun _ => rfl).andThen (fixed_xdrInt.member fun _ => rfl))

def fileArgsRFormat : Format FileArgsR where
  routine := xdrFileArgsR
  width := 520
  image := _
  read := _
  fixed := fixed_xdrFileArgsR
  read_image := by
    intro objp before
    have filename : ((chars 128).image objp.filename).length = 512 :=
      (chars 128).fixed.length_image objp.filename
    rw [List.take_left' filename, List.drop_left' filename,
      List.take_left' (length_bigEndian objp.offset),
      List.drop_left' (length_bigEndian objp.offset)]
    congr 1
    · exact (chars 128).read_image objp.filename before.filename
    · exact Format.int.read_image objp.offset before.offset
    · exact Format.int.read_image objp.size before.size

theorem fixed_xdrFileArgsW : Fixed xdrFileArgsW 4616
    (fun objp => (chars 128).image objp.filename ++ (bigEndian objp.offset ++
      ((chars 1024).image objp.buffer ++ bigEndian objp.size)))
    fun bytes objp =>
      { filename := (chars 128).read (bytes.take 512) objp.filename,
        offset := fromBigEndian ((bytes.drop 512).take 4),
        buffer := (chars 1024).read (((bytes.drop 512).drop 4).take 4096) objp.buffer,
        size := fromBigEndian (((bytes.drop 512).drop 4).drop 4096) } :=
  ((chars 128).fixed.member fun _ => rfl).andThen ((fixed_xdrInt.member fun _ => rfl).andThen
    (((chars 1024).fixed.member fun _ => rfl).andThen (fixed_xdrInt.member fun _ => rfl)))

def fileArgsWFormat : Format FileArgsW where
  routine := xdrFileArgsW
  width := 4616
  image := _
  read := _
  fixed := fixed_xdrFileArgsW
  read_image := by
    intro objp before
    have filename : ((chars 128).image objp.filename).length = 512 :=
      (chars 128).fixed.length_image objp.filename
    have buffer : ((chars 1024).image objp.buffer).length = 4096 :=
      (chars 1024).fixed.length_image objp.buffer
    rw [List.take_left' filename, List.drop_left' filename,
      List.take_left' (length_bigEndian objp.offset),
      List.drop_left' (length_bigEndian objp.offset),
      List.take_left' buffer, List.drop_left' buffer]
    congr 1
    · exact (chars 128).read_image objp.filename before.filename
    · exact Format.int.read_image objp.offset before.offset
    · exact (chars 1024).read_image objp.buffer before.buffer
    · exact Format.int.read_image objp.size before.size

/-- Every record comes back from the wire as it was sent, characters beyond 127 included. A record
is written if there is room for its length and accepted if the message has that many bytes,
whatever these bytes are. -/
theorem records_survive : Survives xdrBufnode 4100 ∧ Survives xdrFileArgsR 520 ∧
    Survives xdrFileArgsW 4616 :=
  ⟨bufnodeFormat.survives, fileArgsRFormat.survives, fileArgsWFormat.survives⟩

end NetLab.Nfs

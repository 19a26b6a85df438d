import NetLab.Imperative.Loop
import NetLab.Packets.Datagram
import NetLab.Posix.Text

/-!
# The dump of a datagram

The end of a log entry of `rawsockets/basic/newclient.c`: the bytes of the packet in three
parts, with sixteen of them on a line and the same ones as characters behind. The length of
the last part is a difference of unsigned numbers that becomes an `int` again.
-/

namespace NetLab.Packets

open NetLab.Imperative NetLab.Posix

/-- What a call of `fprintf` writes: a text, or a byte of the packet in hexadecimal or as a
character. -/
inductive Item where
  | fixed (text : String)
  | hex (index : ℕ)
  | letter (index : ℕ)
deriving DecidableEq

def hexDigit (digit : ℕ) : Byte :=
  BitVec.ofNat 8 (if digit < 10 then 0x30 + digit else 0x37 + digit)

def Item.print (buffer : Memory) : Item → List Byte
  | .fixed text => literal text
  | .hex index =>
      literal " " ++ [hexDigit ((buffer index).toNat / 16), hexDigit ((buffer index).toNat % 16)]
  | .letter index =>
      if 32#8 ≤ buffer index ∧ buffer index ≤ 128#8 then [buffer index] else literal "."

def Item.hexIndex : Item → Option ℕ
  | .hex index => some index
  | _ => none

def Item.letterIndex : Item → Option ℕ
  | .letter index => some index
  | _ => none

/-- The end of a line, with some of the bytes as characters. -/
def column (base first count : ℕ) : List Item :=
  Item.fixed "         " ::
    ((List.range' (base + first) count).map Item.letter ++ [Item.fixed "\n"])

/-- One pass of the loop of `PrintData`, for the data from `base` on. -/
def dumpByte (base size i : ℕ) (log : List Item) : List Item :=
  let full : List Item := if i ≠ 0 ∧ i % 16 = 0 then column base (i - 16) 16 else []
  let margin : List Item := if i % 16 = 0 then [Item.fixed "   "] else []
  let last : List Item :=
    if i + 1 = size then
      List.replicate (15 - i % 16) (Item.fixed "   ") ++ column base (i - i % 16) (i % 16 + 1)
    else []
  log ++ (full ++ (margin ++ Item.hex (base + i) :: last))

def printData (base : ℕ) (size : ℤ) : List Item :=
  forUp 0 size.toNat (dumpByte base size.toNat) []

/-- `sizeof udph`, of a pointer. -/
def sizeofUdph : ℕ := 8

/-- `Size - sizeof udph - iph->ihl * 4`, computed as `size_t` and passed as an `int`. -/
def payloadSize (size : ℤ) (ihl : ℕ) : ℤ :=
  ((BitVec.ofInt 64 size - BitVec.ofNat 64 sizeofUdph - BitVec.ofNat 64 (ihl * 4)).setWidth
    32).toInt

/-- The three calls of `PrintData` in `print_udp_packet`, with their headings. -/
def printUdpDump (buffer : Memory) (size : ℤ) : List Item :=
  let ihl := iphdr.load buffer 0 .ihl
  let iphdrlen := ihl * 4
  [.fixed "IP Header\n"] ++ printData 0 iphdrlen ++
    [.fixed "UDP Header\n"] ++ printData iphdrlen sizeofUdph ++
    [.fixed "Data Payload\n"] ++ printData (iphdrlen + sizeofUdph) (payloadSize size ihl)

def processPacketDump (buffer : Memory) (size : ℤ) : List Item :=
  if iphdr.load buffer 0 .protocol = 17 then printUdpDump buffer size else []

def dumpText (buffer : Memory) (size : ℤ) : List Byte :=
  (processPacketDump buffer size).flatMap (Item.print buffer)

/-- The bytes below `size` are shown in order, each once in hexadecimal and once as a character, and
no other ones. -/
structure DumpsAll (size : ℕ) (items : List Item) : Prop where
  bytes : items.filterMap Item.hexIndex = List.range size
  letters : items.filterMap Item.letterIndex = List.range size

section Parts

variable {base size i : ℕ} {log : List Item}

theorem hexIndex_column (base first count : ℕ) :
    (column base first count).filterMap Item.hexIndex = [] := by
  rw [List.filterMap_eq_nil_iff]
  intro item listed
  rcases List.mem_cons.mp listed with rfl | later
  · rfl
  · rcases List.mem_append.mp later with character | ends
    · rcases List.mem_map.mp character with ⟨_, _, rfl⟩
      rfl
    · rw [List.mem_singleton.mp ends]
      rfl

theorem letterIndex_column (base first count : ℕ) :
    (column base first count).filterMap Item.letterIndex = List.range' (base + first) count := by
  have characters : ((List.range' (base + first) count).map Item.letter).filterMap
      Item.letterIndex = List.range' (base + first) count := by
    rw [List.filterMap_map]
    exact List.filterMap_some
  have ends : [Item.fixed "\n"].filterMap Item.letterIndex = [] := rfl
  rw [column, List.filterMap_cons_none rfl, List.filterMap_append, characters, ends,
    List.append_nil]

theorem filterMap_spaces {index : Item → Option ℕ} (none : index (.fixed "   ") = none)
    (count : ℕ) : (List.replicate count (Item.fixed "   ")).filterMap index = [] := by
  rw [List.filterMap_eq_nil_iff]
  intro item listed
  rw [List.eq_of_mem_replicate listed, none]

theorem hexIndex_dumpByte (base size i : ℕ) (log : List Item) :
    (dumpByte base size i log).filterMap Item.hexIndex =
      log.filterMap Item.hexIndex ++ [base + i] := by
  have byte (others : List Item) : (Item.hex (base + i) :: others).filterMap Item.hexIndex =
      (base + i) :: others.filterMap Item.hexIndex := rfl
  have margin : [Item.fixed "   "].filterMap Item.hexIndex = [] := rfl
  have spaces := @filterMap_spaces Item.hexIndex rfl
  simp only [dumpByte, List.filterMap_append, byte]
  split_ifs <;> simp only [List.filterMap_append, hexIndex_column, spaces, margin,
    List.filterMap_nil, List.nil_append]

/-- The characters follow a full line, and the last byte. -/
theorem letterIndex_dumpByte (before : log.filterMap Item.letterIndex =
    List.range' base (16 * ((i - 1) / 16))) :
    (dumpByte base size i log).filterMap Item.letterIndex =
      List.range' base (if i + 1 = size then size else 16 * (i / 16)) := by
  have byte (others : List Item) : (Item.hex (base + i) :: others).filterMap Item.letterIndex =
      others.filterMap Item.letterIndex := rfl
  have margin :
      (if i % 16 = 0 then [Item.fixed "   "] else []).filterMap Item.letterIndex = [] := by
    split <;> rfl
  have full : log.filterMap Item.letterIndex ++
      (if i ≠ 0 ∧ i % 16 = 0 then column base (i - 16) 16 else []).filterMap Item.letterIndex =
        List.range' base (16 * (i / 16)) := by
    rw [before]
    split
    case isTrue line =>
      have lines : 16 * ((i - 1) / 16) = i - 16 ∧ 16 * (i / 16) = i - 16 + 16 := by omega
      rw [letterIndex_column, lines.1, lines.2, List.range'_append_1]
    case isFalse inside =>
      have same : 16 * ((i - 1) / 16) = 16 * (i / 16) := by omega
      rw [List.filterMap_nil, List.append_nil, same]
  simp only [dumpByte, List.filterMap_append, byte, margin, List.nil_append]
  rw [← List.append_assoc, full]
  split
  case isTrue ends =>
    have start : i - i % 16 = 16 * (i / 16) := by omega
    have count : 16 * (i / 16) + (i % 16 + 1) = size := by omega
    rw [List.filterMap_append, filterMap_spaces rfl, List.nil_append, letterIndex_column, start,
      List.range'_append_1, count]
  case isFalse => rw [List.filterMap_nil, List.append_nil]

theorem printData_shows (base : ℕ) (size : ℤ) :
    (printData base size).filterMap Item.hexIndex = List.range' base size.toNat ∧
      (printData base size).filterMap Item.letterIndex = List.range' base size.toNat := by
  have shown : (printData base size).filterMap Item.hexIndex = List.range' base size.toNat ∧
      (printData base size).filterMap Item.letterIndex = List.range' base
        (if size.toNat = size.toNat then size.toNat else 16 * ((size.toNat - 1) / 16)) := by
    apply forUp_induction (fun bound (log : List Item) =>
      log.filterMap Item.hexIndex = List.range' base bound ∧
        log.filterMap Item.letterIndex = List.range' base
          (if bound = size.toNat then size.toNat else 16 * ((bound - 1) / 16)))
      (Nat.zero_le size.toNat)
    · refine ⟨rfl, ?_⟩
      split
      case isTrue empty => rw [← empty, List.range'_zero, List.filterMap_nil]
      case isFalse => rfl
    · rintro i log _ below ⟨bytes, characters⟩
      rw [if_neg below.ne] at characters
      refine ⟨?_, letterIndex_dumpByte characters⟩
      rw [hexIndex_dumpByte, bytes, List.range'_concat, Nat.one_mul]
  rwa [if_pos rfl] at shown

theorem payloadSize_eq {size ihl : ℕ} (fits : size < 2 ^ 31) (short : ihl < 16) :
    payloadSize size ihl = size - 8 - ihl * 4 := by
  rw [payloadSize, sizeofUdph, BitVec.ofInt_natCast, BitVec.toInt_setWidth]
  simp only [BitVec.toNat_sub, BitVec.toNat_ofNat, Int.bmod]
  omega

end Parts

/-- What the three calls show of a packet with a valid header. -/
theorem shows_printUdpDump (buffer : Memory) {size : ℕ} (fits : size < 2 ^ 31) :
    let shown := List.range (max size (iphdr.load buffer 0 .ihl * 4 + sizeofUdph))
    (printUdpDump buffer size).filterMap Item.hexIndex = shown ∧
      (printUdpDump buffer size).filterMap Item.letterIndex = shown := by
  intro shown
  have short : iphdr.load buffer 0 .ihl < 16 := Memory.load_lt
  have joined : List.range' 0 (iphdr.load buffer 0 .ihl * 4) ++
      List.range' (iphdr.load buffer 0 .ihl * 4) sizeofUdph ++
      List.range' (iphdr.load buffer 0 .ihl * 4 + sizeofUdph)
        (payloadSize size (iphdr.load buffer 0 .ihl)).toNat = shown := by
    have first := @List.range'_append_1 0 (iphdr.load buffer 0 .ihl * 4) sizeofUdph
    rw [Nat.zero_add] at first
    have second := @List.range'_append_1 0 (iphdr.load buffer 0 .ihl * 4 + sizeofUdph)
      (payloadSize size (iphdr.load buffer 0 .ihl)).toNat
    rw [Nat.zero_add] at second
    rw [first, second, payloadSize_eq fits short, ← List.range_eq_range']
    simp only [shown, sizeofUdph]
    congr 1
    omega
  have fixed (text : String) : Item.hexIndex (.fixed text) = none ∧
      Item.letterIndex (.fixed text) = none := ⟨rfl, rfl⟩
  simp only [printUdpDump, List.filterMap_append, List.filterMap_cons, fixed, List.filterMap_nil,
    List.nil_append, List.append_nil, printData_shows, Int.toNat_natCast, joined, and_self]

theorem dumpsAll_printUdpDump {buffer : Memory} {size : ℕ} (fits : size < 2 ^ 31)
    (long : iphdr.load buffer 0 .ihl * 4 + 8 ≤ size) :
    DumpsAll size (printUdpDump buffer size) := by
  rcases shows_printUdpDump buffer fits with ⟨bytes, characters⟩
  have whole : max size (iphdr.load buffer 0 .ihl * 4 + sizeofUdph) = size := max_eq_left long
  rw [whole] at bytes characters
  exact ⟨bytes, characters⟩

/-- The dump of a datagram, whatever the length of its header, has each of its bytes once and none
behind it exactly when it is long enough for both headers. -/
theorem dumpsAll_iff_headers (buffer : Memory) (size : ℕ) (fits : size < 2 ^ 31)
    (udp : iphdr.load buffer 0 .protocol = 17) :
    DumpsAll size (processPacketDump buffer size) ↔ iphdr.load buffer 0 .ihl * 4 + 8 ≤ size := by
  rw [processPacketDump, if_pos udp]
  constructor
  · intro dumps
    have bytes := (shows_printUdpDump buffer fits).1
    have lengths := congrArg List.length (bytes.symm.trans dumps.bytes)
    simp only [List.length_range, sizeofUdph] at lengths
    omega
  · exact dumpsAll_printUdpDump fits

theorem print_congr {buffer other : Memory} {items : List Item} {size : ℕ} {item : Item}
    (dumps : DumpsAll size items) (same : ∀ address < size, buffer address = other address)
    (listed : item ∈ items) : item.print buffer = item.print other := by
  cases item with
  | fixed text => rfl
  | hex index =>
      have shown : index ∈ List.range size := by
        rw [← dumps.bytes]
        exact List.mem_filterMap.mpr ⟨_, listed, rfl⟩
      simp only [Item.print, same index (List.mem_range.mp shown)]
  | letter index =>
      have shown : index ∈ List.range size := by
        rw [← dumps.letters]
        exact List.mem_filterMap.mpr ⟨_, listed, rfl⟩
      simp only [Item.print, same index (List.mem_range.mp shown)]

theorem processPacketDump_congr {buffer other : Memory} {size : ℕ} (header : 20 ≤ size)
    (same : ∀ address < size, buffer address = other address) :
    processPacketDump buffer size = processPacketDump other size := by
  have protocol : iphdr.load buffer 0 .protocol = iphdr.load other 0 .protocol := by
    have span : iphdr.span .protocol = (72, 8) := by decide +kernel
    rw [Struct.load, Struct.load, span]
    exact Memory.load_congr fun index inside => same _ (by omega)
  have ihl : iphdr.load buffer 0 .ihl = iphdr.load other 0 .ihl := by
    have span : iphdr.span .ihl = (0, 4) := by decide +kernel
    rw [Struct.load, Struct.load, span]
    exact Memory.load_congr fun index inside => same _ (by omega)
  rw [processPacketDump, printUdpDump, protocol, ihl, processPacketDump, printUdpDump]

/-- The log has nothing of what an earlier packet left in the buffer behind one that is long
enough. -/
theorem dumpText_congr (buffer other : Memory) {size : ℕ} (fits : size < 2 ^ 31)
    (header : 20 ≤ size) (long : iphdr.load buffer 0 .ihl * 4 + 8 ≤ size)
    (same : ∀ address < size, buffer address = other address) :
    dumpText buffer size = dumpText other size := by
  rw [dumpText, dumpText, ← processPacketDump_congr header same]
  apply List.flatMap_congr
  intro item listed
  by_cases udp : iphdr.load buffer 0 .protocol = 17
  · rw [processPacketDump, if_pos udp] at listed
    exact print_congr (dumpsAll_printUdpDump fits long) same listed
  · rw [processPacketDump, if_neg udp] at listed
    cases listed

/-- A header without options of a datagram, with nothing behind it. -/
def bareHeader : Memory := fun address =>
  if address = 0 then 0x45#8 else if address = 9 then 17#8 else 0#8

theorem protocol_bareHeader : iphdr.load bareHeader 0 .protocol = 17 := by
  have span : iphdr.span .protocol = (72, 8) := by decide +kernel
  rw [Struct.load, span]
  decide +kernel

theorem ihl_bareHeader : iphdr.load bareHeader 0 .ihl = 5 := by
  have span : iphdr.span .ihl = (0, 4) := by decide +kernel
  rw [Struct.load, span]
  decide +kernel

theorem dumpsAll_thirty : DumpsAll 30 (processPacketDump bareHeader 30) := by
  apply (dumpsAll_iff_headers bareHeader 30 (by decide) protocol_bareHeader).mpr
  rw [ihl_bareHeader]
  decide

/-- Of a packet of 20 bytes, eight that are behind its end are dumped. -/
theorem bare_header_overrun : 5 ≤ iphdr.load bareHeader 0 .ihl ∧
    iphdr.load bareHeader 0 .ihl * 4 ≤ 20 ∧
    (processPacketDump bareHeader 20).filterMap Item.hexIndex = List.range 28 ∧
    ¬DumpsAll 20 (processPacketDump bareHeader 20) := by
  have shown : (processPacketDump bareHeader 20).filterMap Item.hexIndex = List.range 28 := by
    have bytes := (shows_printUdpDump bareHeader (by decide : 20 < 2 ^ 31)).1
    rw [ihl_bareHeader] at bytes
    rw [processPacketDump, if_pos protocol_bareHeader]
    exact bytes
  rw [ihl_bareHeader]
  refine ⟨by decide, by decide, shown, ?_⟩
  intro dumps
  have lengths := congrArg List.length (shown.symm.trans dumps.bytes)
  simp at lengths

end NetLab.Packets

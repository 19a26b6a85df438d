import NetLab.Packets.Checksums
import NetLab.Packets.Headers

/-!
# The checksum of a segment of `tcp_injection`

The sum is taken over a structure that holds more than the pseudo header of TCP: an
`unsigned long` has eight bytes, and four bytes at the end pad the size to a multiple of
that. The additional bytes of the addresses are zero. Those of the padding are what
`malloc` returned.
-/

namespace NetLab.Packets

open NetLab.Coding NetLab.Posix

inductive PseudoHeader where
  | sourceIp | destIp | reserved | protocol | tcpLength
deriving DecidableEq, Repr

def pseudoHeader : Struct PseudoHeader :=
  [(.sourceIp, .integer 8), (.destIp, .integer 8), (.reserved, .integer 1),
    (.protocol, .integer 1), (.tcpLength, .integer 2)]

inductive Tcphdr where
  | source | dest | seq | ackSeq | res1 | doff | fin | syn | rst | psh | ack | urg | ece | cwr
  | window | check | urgPtr
deriving DecidableEq, Repr

/-- `struct tcphdr` of `linux/tcp.h`. -/
def tcphdr : Struct Tcphdr :=
  [(.source, .integer 2), (.dest, .integer 2), (.seq, .integer 4), (.ackSeq, .integer 4),
    (.res1, .bitField 2 4), (.doff, .bitField 2 4), (.fin, .bitField 2 1), (.syn, .bitField 2 1),
    (.rst, .bitField 2 1), (.psh, .bitField 2 1), (.ack, .bitField 2 1), (.urg, .bitField 2 1),
    (.ece, .bitField 2 1), (.cwr, .bitField 2 1), (.window, .integer 2), (.check, .integer 2),
    (.urgPtr, .integer 2)]

def dataSize : ℕ :=
  100

/-- The memory at `hdr` that the checksum is computed of. -/
def headerForChecksum (tcpHeader ipHeader data malloc : Memory) (segmentLen : ℤ) : Memory :=
  let hdr := pseudoHeader.assign malloc 0
    [(.sourceIp, iphdr.load ipHeader 0 .saddr), (.destIp, iphdr.load ipHeader 0 .daddr),
      (.reserved, 0), (.protocol, iphdr.load ipHeader 0 .protocol), (.tcpLength, htons segmentLen)]
  let doff := tcphdr.load tcpHeader 0 .doff
  let hdr := hdr.copy pseudoHeader.sizeOf tcpHeader (doff * 4)
  hdr.copy (pseudoHeader.sizeOf + doff * 4) data dataSize

/-- The TCP header afterwards. The bytes that `malloc` returns are those of `malloc`. -/
def createPseudoHeaderAndComputeTcpChecksum (tcpHeader ipHeader data malloc : Memory) : Memory :=
  let segmentLen : ℤ :=
    ntohs (iphdr.load ipHeader 0 .totLen) - iphdr.load ipHeader 0 .ihl * 4
  let headerLen := pseudoHeader.sizeOf + segmentLen
  let hdr := headerForChecksum tcpHeader ipHeader data malloc segmentLen
  tcphdr.store tcpHeader 0 .check (computeChecksum (hdr.bytes 0 headerLen.toNat)).toNat

/-- The words that bytes hold in the order of the network, most significant byte first. -/
def bigWords : List Byte → List ℕ
  | high :: low :: rest => (2 ^ 8 * high.toNat + low.toNat) :: bigWords rest
  | [last] => [2 ^ 8 * last.toNat]
  | [] => []

/-- What TCP takes the checksum of: a pseudo header of 12 bytes, the header and the data. -/
def segment (tcpHeader ipHeader data : Memory) : List Byte :=
  ipHeader.bytes 12 8 ++
    [0#8, ipHeader 9, BitVec.ofNat 8 ((20 + dataSize) / 2 ^ 8), BitVec.ofNat 8 (20 + dataSize)] ++
    tcpHeader.bytes 0 20 ++ data.bytes 0 dataSize

def ValidOnWire (tcpHeader ipHeader data : Memory) : Prop :=
  onesComplementSum (2 ^ 16) (bigWords (segment tcpHeader ipHeader data)) = 0xFFFF

section Words

variable {left right data : List Byte}

theorem littleWords_append (even : Even left.length) (right : List Byte) :
    littleWords (left ++ right) = littleWords left ++ littleWords right := by
  induction left using littleWords.induct with
  | case1 low high rest ih =>
      have shorter : Even rest.length := by
        simpa [Nat.even_add_one] using even
      simp only [List.cons_append, littleWords, ih shorter]
  | case2 last => simp at even
  | case3 => rfl

theorem sum_littleWords_append (even : Even left.length) (right : List Byte) :
    (littleWords (left ++ right)).sum = (littleWords left).sum + (littleWords right).sum := by
  rw [littleWords_append even, List.sum_append]

theorem sum_littleWords_littleBytes {word : ℕ} (small : word < 2 ^ 16) :
    (littleWords (Memory.littleBytes 2 word)).sum = word := by
  have bytes : Memory.littleBytes 2 word = [BitVec.ofNat 8 word, BitVec.ofNat 8 (word >>> 8)] :=
    rfl
  simp only [bytes, littleWords, List.sum_cons, List.sum_nil, BitVec.toNat_ofNat,
    Nat.shiftRight_eq_div_pow]
  omega

/-- In the other byte order a sum is multiplied by 256, because 65536 is 1 modulo 65535. -/
theorem sum_bigWords_modEq (data : List Byte) :
    (bigWords data).sum ≡ 2 ^ 8 * (littleWords data).sum [MOD 65535] := by
  induction data using littleWords.induct with
  | case1 low high rest ih =>
      simp only [bigWords, littleWords, List.sum_cons, Nat.ModEq] at ih ⊢
      omega
  | case2 last => simp [bigWords, littleWords, Nat.ModEq]
  | case3 => rfl

theorem sum_bigWords_eq_zero_iff (data : List Byte) :
    (bigWords data).sum = 0 ↔ (littleWords data).sum = 0 := by
  induction data using littleWords.induct with
  | case1 low high rest ih =>
      simp only [bigWords, littleWords, List.sum_cons]
      omega
  | case2 last => simp [bigWords, littleWords]
  | case3 => rfl

theorem bigWords_lt (data : List Byte) : ∀ word ∈ bigWords data, word < 2 ^ 16 := by
  induction data using bigWords.induct with
  | case1 high low rest ih =>
      have high_lt := high.isLt
      have low_lt := low.isLt
      exact List.forall_mem_cons.mpr ⟨by omega, ih⟩
  | case2 last =>
      have last_lt := last.isLt
      exact List.forall_mem_cons.mpr ⟨by omega, List.forall_mem_nil _⟩
  | case3 => exact List.forall_mem_nil _

theorem onesComplementSum_bigWords_iff (data : List Byte) :
    onesComplementSum (2 ^ 16) (bigWords data) = 0xFFFF ↔
      0 < (littleWords data).sum ∧ 65535 ∣ (littleWords data).sum := by
  have swapped := sum_bigWords_modEq data
  have zero := sum_bigWords_eq_zero_iff data
  rw [Nat.ModEq] at swapped
  rw [onesComplementSum_eq (by decide) (bigWords_lt data)]
  apply (endAround_eq_max_iff (by decide)).trans
  omega

end Words

section Segment

variable {tcpHeader ipHeader data malloc : Memory}

theorem sizeOf_pseudoHeader : pseudoHeader.sizeOf = 24 := by
  decide

/-- The pseudo header in memory. No member has its last four bytes. -/
theorem bytes_pseudoHeader (source dest protocol length : ℕ) :
    (pseudoHeader.assign malloc 0 [(.sourceIp, source), (.destIp, dest), (.reserved, 0),
        (.protocol, protocol), (.tcpLength, length)]).bytes 0 24 =
      Memory.littleBytes 8 source ++ (Memory.littleBytes 8 dest ++ (Memory.littleBytes 1 0 ++
        (Memory.littleBytes 1 protocol ++ (Memory.littleBytes 2 length ++
          malloc.bytes 20 4)))) := by
  change Memory.bytes (((((malloc.store 0 64 source).store 64 64 dest).store 128 8 0).store 136 8
    protocol).store 144 16 length) 0 (8 + (8 + (1 + (1 + (2 + 4))))) = _
  simp (disch := decide) only [Memory.bytes_add, Memory.bytes_store,
    Memory.bytes_store_of_disjoint]

theorem bytes_copied (hdr : Memory) :
    ((hdr.copy 24 tcpHeader 20).copy 44 data dataSize).bytes 0 144 =
      hdr.bytes 0 24 ++ (tcpHeader.bytes 0 20 ++ data.bytes 0 dataSize) := by
  change Memory.bytes _ 0 (24 + (20 + dataSize)) = _
  rw [Memory.bytes_add, Memory.bytes_add]
  simp (disch := decide) only [Memory.bytes_copy_of_disjoint, Memory.bytes_copy, Nat.zero_add,
    Nat.reduceAdd]

theorem bytes_headerForChecksum (doff : tcphdr.load tcpHeader 0 .doff = 5) :
    (headerForChecksum tcpHeader ipHeader data malloc 120).bytes 0 144 =
      ipHeader.bytes 12 4 ++ List.replicate 4 0#8 ++
        (ipHeader.bytes 16 4 ++ List.replicate 4 0#8 ++ ([0#8, ipHeader 9, 0#8, 120#8] ++
          (malloc.bytes 20 4 ++ (tcpHeader.bytes 0 20 ++ data.bytes 0 dataSize)))) := by
  have source : Memory.littleBytes 8 (iphdr.load ipHeader 0 .saddr) =
      ipHeader.bytes 12 4 ++ List.replicate 4 0#8 :=
    Memory.littleBytes_load rfl rfl (by decide)
  have dest : Memory.littleBytes 8 (iphdr.load ipHeader 0 .daddr) =
      ipHeader.bytes 16 4 ++ List.replicate 4 0#8 :=
    Memory.littleBytes_load rfl rfl (by decide)
  have protocol : Memory.littleBytes 1 (iphdr.load ipHeader 0 .protocol) =
      ipHeader.bytes 9 1 ++ List.replicate 0 0#8 :=
    Memory.littleBytes_load rfl rfl (by decide)
  simp only [headerForChecksum, doff, sizeOf_pseudoHeader, Nat.reduceMul, Nat.reduceAdd]
  rw [bytes_copied, bytes_pseudoHeader, source, dest, protocol]
  simp only [List.append_assoc]
  rfl

theorem sum_headerForChecksum (doff : tcphdr.load tcpHeader 0 .doff = 5) :
    (littleWords ((headerForChecksum tcpHeader ipHeader data malloc 120).bytes 0 144)).sum =
      (littleWords (segment tcpHeader ipHeader data)).sum +
        (littleWords (malloc.bytes 20 4)).sum := by
  have addresses : ipHeader.bytes 12 8 = ipHeader.bytes 12 4 ++ ipHeader.bytes 16 4 :=
    Memory.bytes_add ipHeader 12 4 4
  have zeros : (littleWords (List.replicate 4 0#8)).sum = 0 := by
    decide
  have length : [0#8, ipHeader 9, BitVec.ofNat 8 ((20 + dataSize) / 2 ^ 8),
      BitVec.ofNat 8 (20 + dataSize)] = [0#8, ipHeader 9, 0#8, 120#8] :=
    rfl
  rw [bytes_headerForChecksum doff, segment, addresses]
  simp (disch := simp [parity_simps]) only [sum_littleWords_append, zeros,
    length]
  omega

/-- The sum is greater by the checksum when it is stored where zero was. -/
theorem sum_segment_store {value : ℕ} (check : tcphdr.load tcpHeader 0 .check = 0)
    (small : value < 2 ^ 16) :
    (littleWords (segment (tcphdr.store tcpHeader 0 .check value) ipHeader data)).sum =
      (littleWords (segment tcpHeader ipHeader data)).sum + value := by
  have parts (header : Memory) : header.bytes 0 20 =
      header.bytes 0 16 ++ (header.bytes 16 2 ++ header.bytes 18 2) := by
    rw [← Memory.bytes_add header 16 2 2, ← Memory.bytes_add header 0 16 4]
  have old : Memory.littleBytes 2 (tcphdr.load tcpHeader 0 .check) =
      tcpHeader.bytes 16 2 ++ List.replicate 0 0#8 :=
    Memory.littleBytes_load rfl rfl le_rfl
  rw [List.replicate_zero, List.append_nil, check] at old
  have stored : tcphdr.store tcpHeader 0 .check value = tcpHeader.store 128 16 value :=
    rfl
  simp only [segment, parts, stored]
  simp (disch := decide) only [Memory.bytes_store, Memory.bytes_store_of_disjoint, ← old]
  simp (disch := simp [parity_simps]) only [sum_littleWords_append,
    sum_littleWords_littleBytes small, sum_littleWords_littleBytes (Nat.two_pow_pos 16)]
  omega

theorem createPseudoHeader_eq (ihl : iphdr.load ipHeader 0 .ihl = 5)
    (totLen : ntohs (iphdr.load ipHeader 0 .totLen) = 140) :
    createPseudoHeaderAndComputeTcpChecksum tcpHeader ipHeader data malloc =
      tcphdr.store tcpHeader 0 .check
        (computeChecksum
          ((headerForChecksum tcpHeader ipHeader data malloc 120).bytes 0 144)).toNat := by
  simp only [createPseudoHeaderAndComputeTcpChecksum, ihl, totLen, sizeOf_pseudoHeader]
  rfl

/-- The pseudo header makes every sum positive: it has the length. -/
theorem sum_segment_pos (tcpHeader ipHeader data : Memory) :
    0 < (littleWords (segment tcpHeader ipHeader data)).sum := by
  have length : (littleWords [0#8, ipHeader 9, BitVec.ofNat 8 ((20 + dataSize) / 2 ^ 8),
      BitVec.ofNat 8 (20 + dataSize)]).sum = 2 ^ 8 * (ipHeader 9).toNat + 30720 := by
    simp [littleWords, dataSize]
  simp (disch := simp [parity_simps]) only [segment, sum_littleWords_append, length]
  omega

/-- A checksum that takes in more than the segment is right when what it adds is zero in ones'
complement. -/
theorem validOnWire_store_iff {excess : ℕ} (check : tcphdr.load tcpHeader 0 .check = 0) :
    ValidOnWire (tcphdr.store tcpHeader 0 .check (~~~ BitVec.ofNat 16 (endAround (2 ^ 16)
        ((littleWords (segment tcpHeader ipHeader data)).sum + excess))).toNat) ipHeader data ↔
      65535 ∣ excess := by
  rw [ValidOnWire, onesComplementSum_bigWords_iff, sum_segment_store check (BitVec.isLt _)]
  have positive := sum_segment_pos tcpHeader ipHeader data
  generalize (littleWords (segment tcpHeader ipHeader data)).sum = sent at *
  have folded_lt : endAround (2 ^ 16) (sent + excess) < 2 ^ 16 := endAround_lt (by decide)
  have congruent := endAround_modEq (2 ^ 16) (sent + excess)
  generalize endAround (2 ^ 16) (sent + excess) = folded at *
  have complement : (~~~ BitVec.ofNat 16 folded).toNat = 65535 - folded := by
    rw [BitVec.toNat_not, BitVec.toNat_ofNat, Nat.mod_eq_of_lt folded_lt]
  rw [complement]
  simp only [Nat.ModEq, Nat.reducePow, Nat.reduceSub] at congruent
  omega

end Segment

section Created

def htonl (value : ℕ) : ℕ :=
  value % 2 ^ 8 * 2 ^ 24 + value / 2 ^ 8 % 2 ^ 8 * 2 ^ 16 + value / 2 ^ 16 % 2 ^ 8 * 2 ^ 8 +
    value / 2 ^ 24 % 2 ^ 8

/-- `192.168.0.10` and `192.168.0.11` as `inet_addr` returns them. -/
def srcIp : ℕ :=
  0x0A00A8C0

def dstIp : ℕ :=
  0x0B00A8C0

def ipAssigned : List (Iphdr × ℕ) :=
  [(.version, 4), (.ihl, iphdr.sizeOf / 4), (.tos, 0),
    (.totLen, htons (iphdr.sizeOf + tcphdr.sizeOf + dataSize)), (.id, htons 111), (.fragOff, 0),
    (.ttl, 111), (.protocol, 6), (.check, 0), (.saddr, srcIp), (.daddr, dstIp)]

/-- `CreateIPHeader`, in memory that `malloc` returned. -/
def createIPHeader (malloc : Memory) : Memory :=
  let ipHeader := iphdr.assign malloc 0 ipAssigned
  iphdr.store ipHeader 0 .check
    (computeChecksum (ipHeader.bytes 0 (iphdr.load ipHeader 0 .ihl * 4))).toNat

def tcpAssigned : List (Tcphdr × ℕ) :=
  [(.source, htons 80), (.dest, htons 100), (.seq, htonl 111), (.ackSeq, htonl 111), (.res1, 0),
    (.doff, tcphdr.sizeOf / 4), (.syn, 1), (.window, htons 100), (.check, 0), (.urgPtr, 0)]

def createTcpHeader (malloc : Memory) : Memory :=
  tcphdr.assign malloc 0 tcpAssigned

theorem load_createTcpHeader {field : Tcphdr} {value : ℕ} (malloc : Memory)
    (assigned : (field, value) ∈ tcpAssigned) :
    tcphdr.load (createTcpHeader malloc) 0 field = value % 2 ^ (tcphdr.span field).2 :=
  Struct.load_assign (by decide) assigned

theorem load_createIPHeader {field : Iphdr} {value : ℕ} (malloc : Memory) (other : field ≠ .check)
    (assigned : (field, value) ∈ ipAssigned) :
    iphdr.load (createIPHeader malloc) 0 field = value % 2 ^ (iphdr.span field).2 := by
  rw [createIPHeader, Struct.load_store_of_ne other, Struct.load_assign (by decide) assigned]

theorem doff_createTcpHeader (malloc : Memory) :
    tcphdr.load (createTcpHeader malloc) 0 .doff = 5 :=
  (@load_createTcpHeader .doff (tcphdr.sizeOf / 4) malloc (by decide)).trans (by decide)

theorem check_createTcpHeader (malloc : Memory) :
    tcphdr.load (createTcpHeader malloc) 0 .check = 0 :=
  @load_createTcpHeader .check 0 malloc (by decide)

theorem ihl_createIPHeader (malloc : Memory) : iphdr.load (createIPHeader malloc) 0 .ihl = 5 :=
  (@load_createIPHeader .ihl (iphdr.sizeOf / 4) malloc (by decide) (by decide)).trans (by decide)

theorem totLen_createIPHeader (malloc : Memory) :
    ntohs (iphdr.load (createIPHeader malloc) 0 .totLen) = 140 := by
  have length := @load_createIPHeader .totLen
    (htons (iphdr.sizeOf + tcphdr.sizeOf + dataSize)) malloc (by decide) (by decide)
  exact (congrArg ntohs length).trans (by decide)

end Created

/-- The checksum is right exactly when the two words of the padding that `malloc` returned are zero
in ones' complement. -/
theorem createPseudoHeader_validOnWire_iff (tcpHeader ipHeader data malloc : Memory)
    (doff : tcphdr.load tcpHeader 0 .doff = 5) (check : tcphdr.load tcpHeader 0 .check = 0)
    (ihl : iphdr.load ipHeader 0 .ihl = 5)
    (totLen : ntohs (iphdr.load ipHeader 0 .totLen) = 140) :
    ValidOnWire (createPseudoHeaderAndComputeTcpChecksum tcpHeader ipHeader data malloc) ipHeader
        data ↔
      65535 ∣ (littleWords (malloc.bytes 20 4)).sum := by
  rw [createPseudoHeader_eq ihl totLen, computeChecksum_eq, sum_headerForChecksum doff,
    validOnWire_store_iff check]

theorem createPseudoHeader_validOnWire_zeros :
    ValidOnWire (createPseudoHeaderAndComputeTcpChecksum (createTcpHeader Memory.zeros)
      (createIPHeader Memory.zeros) Memory.zeros Memory.zeros) (createIPHeader Memory.zeros)
      Memory.zeros :=
  (createPseudoHeader_validOnWire_iff _ _ _ _ (doff_createTcpHeader _) (check_createTcpHeader _)
    (ihl_createIPHeader _) (totLen_createIPHeader _)).mpr (by decide)

/-- Memory that had ones in it before gives the packet of the program a wrong checksum. -/
theorem createPseudoHeader_padding_summed :
    ¬ ValidOnWire (createPseudoHeaderAndComputeTcpChecksum (createTcpHeader Memory.zeros)
      (createIPHeader Memory.zeros) Memory.zeros fun _ => 1#8) (createIPHeader Memory.zeros)
      Memory.zeros := by
  rw [createPseudoHeader_eq (ihl_createIPHeader _) (totLen_createIPHeader _), computeChecksum_eq,
    sum_headerForChecksum (doff_createTcpHeader _),
    validOnWire_store_iff (check_createTcpHeader _)]
  decide

end NetLab.Packets

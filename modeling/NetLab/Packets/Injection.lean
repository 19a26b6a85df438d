import NetLab.Packets.InternetChecksum
import NetLab.Packets.TcpChecksum

/-!
# The frame that is injected

`TCP-Packet-Injection.c` makes the three headers and the data in pieces of memory of their own and
copies them one behind the other. A receiver finds them at fixed places.
-/

namespace NetLab.Packets

open NetLab.Coding NetLab.Posix

/-- What the calls of `malloc` return, each with the bytes that are there. -/
structure Mallocs where
  ethernetHeader : Memory
  ipHeader : Memory
  tcpHeader : Memory
  hdr : Memory
  packet : Memory

/-- `sizeof(struct ethhdr)`: two addresses of 6 bytes and a protocol. -/
def ethhdrSize : ℕ :=
  14

/-- The two addresses as `ether_aton` returns them. -/
def srcEther : Memory :=
  fun _ => 0xAA#8

def dstEther : Memory :=
  fun _ => 0xBB#8

/-- `ETHERTYPE_IP`. -/
def ethertypeIp : ℤ :=
  0x0800

/-- `CreateEthernetHeader`. -/
def createEthernetHeader (malloc : Memory) : Memory :=
  ((malloc.copy 6 srcEther 6).copy 0 dstEther 6).store 96 16 (htons ethertypeIp)

variable (mallocs : Mallocs) (data : Memory)

namespace Mallocs

def ipCreated : Memory :=
  createIPHeader mallocs.ipHeader

/-- The TCP header after `CreatePseudoHeaderAndComputeTcpChecksum`. -/
def tcpCreated : Memory :=
  createPseudoHeaderAndComputeTcpChecksum (createTcpHeader mallocs.tcpHeader) mallocs.ipCreated data
    mallocs.hdr

def pktLen : ℕ :=
  ethhdrSize + ntohs (iphdr.load mallocs.ipCreated 0 .totLen)

/-- The packet that `main` sends. -/
def injected : Memory :=
  let ipEnd := ethhdrSize + iphdr.load mallocs.ipCreated 0 .ihl * 4
  let tcpEnd := ipEnd + tcphdr.load (mallocs.tcpCreated data) 0 .doff * 4
  (((mallocs.packet.copy 0 (createEthernetHeader mallocs.ethernetHeader) ethhdrSize).copy ethhdrSize
    mallocs.ipCreated (iphdr.load mallocs.ipCreated 0 .ihl * 4)).copy ipEnd
      (mallocs.tcpCreated data) (tcphdr.load (mallocs.tcpCreated data) 0 .doff * 4)).copy tcpEnd
        data dataSize

end Mallocs

/-- What a receiver sees from an address on. -/
def received (frame : Memory) (base : ℕ) : Memory :=
  fun address => frame (base + address)

section Received

variable {frame source memory : Memory} {base count : ℕ}

/-- A member of a struct is where the bytes of the struct are. -/
theorem load_received {Field : Type} [DecidableEq Field] {layout : Struct Field} {field : Field}
    (same : (received frame base).bytes 0 layout.sizeOf = source.bytes 0 layout.sizeOf) :
    layout.load (received frame base) 0 field = layout.load source 0 field := by
  apply Memory.load_congr
  intro index inside
  have within := Struct.span_le layout field
  have below : (8 * 0 + (layout.span field).1 + index) / 8 < layout.sizeOf := by omega
  generalize (8 * 0 + (layout.span field).1 + index) / 8 = address at below ⊢
  have equal := congrArg (fun listed => listed[address]?) same
  simpa [Memory.bytes, List.getElem?_range' below] using equal

theorem bytes_received (first : ℕ) :
    (received frame base).bytes first count = frame.bytes (base + first) count := by
  apply Memory.bytes_congr
  intro index _
  rw [received, Nat.add_assoc]

end Received

section Layout

variable (mallocs : Mallocs) (data : Memory)

theorem doff_tcpCreated : tcphdr.load (mallocs.tcpCreated data) 0 .doff = 5 := by
  rw [Mallocs.tcpCreated, Mallocs.ipCreated,
    createPseudoHeader_eq (ihl_createIPHeader _) (totLen_createIPHeader _),
    Struct.load_store_of_ne (by decide)]
  exact doff_createTcpHeader mallocs.tcpHeader

/-- The headers and the data stand one behind the other. -/
theorem injected_eq : mallocs.injected data =
    (((mallocs.packet.copy 0 (createEthernetHeader mallocs.ethernetHeader) 14).copy 14
      mallocs.ipCreated 20).copy 34 (mallocs.tcpCreated data) 20).copy 54 data 100 := by
  simp only [Mallocs.injected, doff_tcpCreated]
  rw [show iphdr.load mallocs.ipCreated 0 .ihl = 5 from ihl_createIPHeader _]
  rfl

theorem bytes_ethernet :
    (mallocs.injected data).bytes 0 14 =
      dstEther.bytes 0 6 ++ (srcEther.bytes 0 6 ++ [0x08#8, 0#8]) := by
  rw [injected_eq]
  simp (disch := decide) only [Memory.bytes_copy_of_disjoint, Memory.bytes_copy]
  rw [createEthernetHeader, show 14 = 6 + (6 + 2) from rfl, Memory.bytes_add, Memory.bytes_add]
  simp (disch := decide) only [Memory.bytes_copy_of_disjoint, Memory.bytes_copy,
    Memory.bytes_store_of_disjoint, Memory.bytes_store]
  rfl

theorem bytes_ip : (received (mallocs.injected data) 14).bytes 0 20 =
    mallocs.ipCreated.bytes 0 20 := by
  rw [bytes_received, injected_eq]
  simp (disch := decide) only [Memory.bytes_copy_of_disjoint, Memory.bytes_copy]

theorem bytes_tcp : (received (mallocs.injected data) 34).bytes 0 20 =
    (mallocs.tcpCreated data).bytes 0 20 := by
  rw [bytes_received, injected_eq]
  simp (disch := decide) only [Memory.bytes_copy_of_disjoint, Memory.bytes_copy]

theorem bytes_data : (received (mallocs.injected data) 54).bytes 0 100 = data.bytes 0 100 := by
  rw [bytes_received, injected_eq, Nat.add_zero, Memory.bytes_copy]

/-- A receiver takes the checksum of the bytes that were copied. -/
theorem segment_received :
    segment (received (mallocs.injected data) 34) (received (mallocs.injected data) 14)
        (received (mallocs.injected data) 54) =
      segment (mallocs.tcpCreated data) mallocs.ipCreated data := by
  have whole := bytes_ip mallocs data
  have parts (header : Memory) : header.bytes 0 20 =
      header.bytes 0 9 ++ (header.bytes 9 1 ++ (header.bytes 10 2 ++ header.bytes 12 8)) := by
    rw [← Memory.bytes_add header 10 2 8, ← Memory.bytes_add header 9 1 10,
      ← Memory.bytes_add header 0 9 11]
  rw [parts, parts mallocs.ipCreated] at whole
  have rest := (List.append_inj whole (by simp)).2
  have protocol := (List.append_inj rest (by simp)).1
  have addresses := (List.append_inj (List.append_inj rest (by simp)).2 (by simp)).2
  have same : received (mallocs.injected data) 14 9 = mallocs.ipCreated 9 := by
    simpa [Memory.bytes] using protocol
  rw [segment, segment, addresses, same, bytes_tcp, dataSize, bytes_data]

theorem load_tcpCreated {field : Tcphdr} (other : field ≠ .check) :
    tcphdr.load (received (mallocs.injected data) 34) 0 field =
      tcphdr.load (createTcpHeader mallocs.tcpHeader) 0 field := by
  rw [load_received (bytes_tcp mallocs data), Mallocs.tcpCreated, Mallocs.ipCreated,
    createPseudoHeader_eq (ihl_createIPHeader _) (totLen_createIPHeader _),
    Struct.load_store_of_ne other]

/-- The checksum of TCP takes in the padding of the pseudo header. -/
theorem validOnWire_received_iff :
    ValidOnWire (received (mallocs.injected data) 34) (received (mallocs.injected data) 14)
        (received (mallocs.injected data) 54) ↔
      65535 ∣ (littleWords (mallocs.hdr.bytes 20 4)).sum := by
  rw [ValidOnWire, segment_received, ← ValidOnWire, Mallocs.tcpCreated, Mallocs.ipCreated,
    createPseudoHeader_eq (ihl_createIPHeader _) (totLen_createIPHeader _), computeChecksum_eq,
    sum_headerForChecksum (doff_createTcpHeader _), validOnWire_store_iff (check_createTcpHeader _)]

end Layout

end NetLab.Packets

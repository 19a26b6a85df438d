import NetLab.Packets.Checksums
import NetLab.Packets.Headers

/-!
# A datagram built and printed

`rawsockets/basic/server.c` lays a datagram out by its own headers, which
`newclient.c` reads by those of the standard. Each side agrees with itself. The
two layouts have the protocol at different bytes, and the printing program does
not get as far as the ports.
-/

namespace NetLab.Packets

open NetLab.Posix

/-- The command line: what `inet_addr` and `atoi` make of its arguments. -/
structure Arguments where
  sourceIp : BitVec 32
  sourcePort : ℤ
  targetIp : BitVec 32
  targetPort : ℤ
deriving Repr

namespace Arguments

variable (arguments : Arguments)

/-- The assignments to members of `*ip`, but for the one to `iph_chksum`. -/
def ipAssignments : List (Ipheader × ℕ) :=
  [(.iphIhl, 5), (.iphVer, 4), (.iphTos, 16), (.iphLen, ipheader.sizeOf + udpheader.sizeOf),
    (.iphIdent, htons 54321), (.iphTtl, 64), (.iphProtocol, 17),
    (.iphSourceip, arguments.sourceIp.toNat), (.iphDestip, arguments.targetIp.toNat)]

def udpAssignments : List (Udpheader × ℕ) :=
  [(.udphSrcport, htons arguments.sourcePort), (.udphDestport, htons arguments.targetPort),
    (.udphLen, htons udpheader.sizeOf)]

/-- The buffer of zeros before the checksum is computed. -/
def headers : Memory :=
  udpheader.assign (ipheader.assign Memory.zeros 0 arguments.ipAssignments) ipheader.sizeOf
    arguments.udpAssignments

/-- The value of `iph_chksum`. The number of bytes is given for the number of words. -/
def chksum : BitVec 16 :=
  csum ((List.range (ipheader.sizeOf + udpheader.sizeOf)).map fun index =>
    BitVec.ofNat 16 (arguments.headers.load (16 * index) 16))

def packet : Memory :=
  ipheader.store arguments.headers 0 .iphChksum arguments.chksum.toNat

end Arguments

/-- What `print_ip_header` prints. -/
structure IpReport where
  version : ℕ
  headerLength : ℕ
  typeOfService : ℕ
  totalLength : ℕ
  identification : ℕ
  ttl : ℕ
  protocol : ℕ
  checksum : ℕ
  sourceIp : ℕ
  destinationIp : ℕ
deriving DecidableEq, Repr

structure UdpReport where
  sourcePort : ℕ
  destinationPort : ℕ
  udpLength : ℕ
  udpChecksum : ℕ
deriving DecidableEq, Repr

/-- The log entry of one packet, less the bytes that are dumped at its end. -/
structure Report where
  ip : IpReport
  udp : Option UdpReport
deriving DecidableEq, Repr

def printIpHeader (buffer : Memory) : IpReport where
  version := iphdr.load buffer 0 .version
  headerLength := iphdr.load buffer 0 .ihl
  typeOfService := iphdr.load buffer 0 .tos
  totalLength := ntohs (iphdr.load buffer 0 .totLen)
  identification := ntohs (iphdr.load buffer 0 .id)
  ttl := iphdr.load buffer 0 .ttl
  protocol := iphdr.load buffer 0 .protocol
  checksum := ntohs (iphdr.load buffer 0 .check)
  sourceIp := iphdr.load buffer 0 .saddr
  destinationIp := iphdr.load buffer 0 .daddr

def printUdpPacket (buffer : Memory) : Report :=
  let iphdrlen := iphdr.load buffer 0 .ihl * 4
  { ip := printIpHeader buffer
    udp := some
      { sourcePort := ntohs (udphdr.load buffer iphdrlen .source)
        destinationPort := ntohs (udphdr.load buffer iphdrlen .dest)
        udpLength := ntohs (udphdr.load buffer iphdrlen .len)
        udpChecksum := ntohs (udphdr.load buffer iphdrlen .check) } }

def processPacket (buffer : Memory) : Report :=
  if iphdr.load buffer 0 .protocol = 17 then printUdpPacket buffer
  else { ip := printIpHeader buffer, udp := none }

/-- The report shows what the packet was built from. -/
structure Report.Shows (report : Report) (arguments : Arguments) : Prop where
  version : report.ip.version = 4
  headerLength : report.ip.headerLength = 5
  ttl : report.ip.ttl = 64
  protocol : report.ip.protocol = 17
  sourceIp : report.ip.sourceIp = arguments.sourceIp.toNat
  destinationIp : report.ip.destinationIp = arguments.targetIp.toNat
  ports : ∃ udp ∈ report.udp, (udp.sourcePort : ℤ) = arguments.sourcePort ∧
    (udp.destinationPort : ℤ) = arguments.targetPort

namespace Arguments

variable (arguments : Arguments)

/-- Read by the declarations it was built with, the packet has the values of all assignments. -/
theorem load_packet {field : Ipheader} {value : ℕ}
    (assigned : (field, value) ∈ arguments.ipAssignments) :
    ipheader.load arguments.packet 0 field = value % 2 ^ (ipheader.span field).2 := by
  have once : (arguments.ipAssignments.map Prod.fst).Nodup := by
    simp only [ipAssignments, List.map_cons, List.map_nil]
    decide
  have other : field ≠ .iphChksum := by
    rintro rfl
    simp [ipAssignments] at assigned
  rw [packet, Struct.load_store_of_ne other, headers,
    Struct.load_assign_behind (by decide), Struct.load_assign once assigned]

theorem packet_eq : arguments.packet =
    ((((((((((((Memory.zeros.store 0 5 5).store 8 4 4).store 16 8 16).store 32 16 32).store
      48 16 12756).store 96 8 64).store 104 8 17).store 128 32 arguments.sourceIp.toNat).store
      160 32 arguments.targetIp.toNat).store 192 16 (htons arguments.sourcePort)).store
      208 16 (htons arguments.targetPort)).store 224 16 2048).store 112 16
      arguments.chksum.toNat :=
  rfl

/-- By the standard declarations the time to live is the flag, the protocol is a byte that no member
has, and the source is the time to live, the protocol and the checksum. -/
theorem printIpHeader_packet : printIpHeader arguments.packet =
    { version := 0
      headerLength := 5
      typeOfService := 4
      totalLength := 4096
      identification := 8192
      ttl := 0
      protocol := 0
      checksum := 0
      sourceIp := 64 + 2 ^ 8 * (17 + 2 ^ 8 * arguments.chksum.toNat)
      destinationIp := arguments.sourceIp.toNat } := by
  rw [printIpHeader, packet_eq]
  congr 1
  case e_version =>
    change Memory.load _ 4 (1 + 3) = 0
    rw [Memory.load_add]
    simp (disch := decide)
  case e_headerLength =>
    change Memory.load _ 0 4 = 5
    simp (disch := decide)
  case e_typeOfService =>
    change Memory.load _ 8 (4 + 4) = 4
    rw [Memory.load_add]
    simp (disch := decide)
  case e_totalLength =>
    change ntohs (Memory.load _ 16 (8 + 8)) = 4096
    rw [Memory.load_add]
    simp (disch := decide) [ntohs]
  case e_identification =>
    change ntohs (Memory.load _ 32 16) = 8192
    simp (disch := decide) [ntohs]
  case e_ttl =>
    change Memory.load _ 64 8 = 0
    simp (disch := decide)
  case e_protocol =>
    change Memory.load _ 72 8 = 0
    simp (disch := decide)
  case e_checksum =>
    change ntohs (Memory.load _ 80 16) = 0
    simp (disch := decide) [ntohs]
  case e_sourceIp =>
    change Memory.load _ 96 (8 + (8 + 16)) = _
    rw [Memory.load_add, Memory.load_add]
    simp (disch := decide) [Nat.mod_eq_of_lt arguments.chksum.isLt]
  case e_destinationIp =>
    change Memory.load _ 128 32 = _
    simp (disch := decide) [Nat.mod_eq_of_lt arguments.sourceIp.isLt]

/-- The protocol that is read is not that of a datagram, so no ports are printed. -/
theorem processPacket_packet : processPacket arguments.packet =
    { ip := printIpHeader arguments.packet, udp := none } := by
  have protocol : iphdr.load arguments.packet 0 .protocol = 0 :=
    congrArg IpReport.protocol arguments.printIpHeader_packet
  rw [processPacket, if_neg (by rw [protocol]; decide)]

end Arguments

/-- No packet is reported as what it was built from. -/
theorem processPacket_not_shows (arguments : Arguments) :
    ¬ (processPacket arguments.packet).Shows arguments := by
  rw [arguments.processPacket_packet, arguments.printIpHeader_packet]
  intro shown
  cases shown.version

theorem localPacket_misread :
    let arguments : Arguments :=
      { sourceIp := 0x0100007F#32
        sourcePort := 5000
        targetIp := 0x0200007F#32
        targetPort := 6000 }
    ¬ (processPacket arguments.packet).Shows arguments := by
  intro arguments shown
  rcases shown.ports with ⟨udp, printed, _⟩
  rw [arguments.processPacket_packet] at printed
  cases printed

end NetLab.Packets

import NetLab.Posix.Layout

/-!
# The headers of a datagram

`rawsockets` declares headers of its own to build a packet, and takes those of
`netinet` to print one. The members stand in the order of their declarations.
-/

namespace NetLab.Packets

open NetLab.Posix

inductive Ipheader where
  | iphIhl | iphVer | iphTos | iphLen | iphIdent | iphFlag | iphOffset | iphTtl | iphProtocol
  | iphChksum | iphSourceip | iphDestip
deriving DecidableEq, Repr

/-- `struct ipheader` of `rawsockets/basic`. -/
def ipheader : Struct Ipheader :=
  [(.iphIhl, .bitField 1 5), (.iphVer, .bitField 1 4), (.iphTos, .integer 1),
    (.iphLen, .integer 2), (.iphIdent, .integer 2), (.iphFlag, .integer 1),
    (.iphOffset, .integer 2), (.iphTtl, .integer 1), (.iphProtocol, .integer 1),
    (.iphChksum, .integer 2), (.iphSourceip, .integer 4), (.iphDestip, .integer 4)]

inductive Udpheader where
  | udphSrcport | udphDestport | udphLen | udphChksum
deriving DecidableEq, Repr

/-- `struct udpheader` of `rawsockets/basic`. -/
def udpheader : Struct Udpheader :=
  [(.udphSrcport, .integer 2), (.udphDestport, .integer 2), (.udphLen, .integer 2),
    (.udphChksum, .integer 2)]

inductive Iphdr where
  | ihl | version | tos | totLen | id | fragOff | ttl | protocol | check | saddr | daddr
deriving DecidableEq, Repr

/-- `struct iphdr` of `netinet/ip.h`. -/
def iphdr : Struct Iphdr :=
  [(.ihl, .bitField 4 4), (.version, .bitField 4 4), (.tos, .integer 1), (.totLen, .integer 2),
    (.id, .integer 2), (.fragOff, .integer 2), (.ttl, .integer 1), (.protocol, .integer 1),
    (.check, .integer 2), (.saddr, .integer 4), (.daddr, .integer 4)]

inductive Udphdr where
  | source | dest | len | check
deriving DecidableEq, Repr

/-- `struct udphdr` of `netinet/udp.h`. -/
def udphdr : Struct Udphdr :=
  [(.source, .integer 2), (.dest, .integer 2), (.len, .integer 2), (.check, .integer 2)]

/-- `htons` of an `int`, which is converted to 16 bits first. -/
def htons (value : ℤ) : ℕ :=
  let short := (value % 2 ^ 16).toNat
  short % 2 ^ 8 * 2 ^ 8 + short / 2 ^ 8

def ntohs (short : ℕ) : ℕ :=
  short % 2 ^ 8 * 2 ^ 8 + short / 2 ^ 8

example : (ipheader.sizeOf, iphdr.sizeOf) = (24, 20) := by decide

example : (ipheader.span .iphTtl, iphdr.span .ttl) = ((96, 8), (64, 8)) := by decide

end NetLab.Packets

import NetSum.Lib.OnesComplement

/-!
# UDP over IPv4 over Ethernet

What a host's protocol stack makes of a frame: a frame marked as IPv4 holds a packet
(`HoldsIp`), which may hold a datagram to a port (`HoldsUdp`), whose data the stack delivers if
the packet is for the host (`UdpStack`). Which packets are for the host is its own business
(addresses, source routes, filters), and so is what it makes of frames of other types (tagged or
tunnelled ones).
-/

namespace NetSum.Lib

/-- The `n` words from `off` on. -/
def wordsAt (b : Bytes) (off n : ℕ) : List (BitVec 16) :=
  (List.range n).map fun i => be16 b (off + 2 * i)

/-! ## The packet in a frame -/

def etherType (frame : Bytes) : BitVec 16 := be16 frame 12

/-- The length of the IP header, options included. -/
def ipHeaderLen (frame : Bytes) : ℕ := 4 * (byteAt frame 14 &&& 0x0f#8).toNat

def ipTotalLen (frame : Bytes) : ℕ := (be16 frame 16).toNat

/-- An IPv4 packet, whole, with a header that verifies. -/
structure HoldsIp (frame : Bytes) : Prop where
  etherType_eq : etherType frame = 0x0800#16
  version_eq : byteAt frame 14 >>> 4 = 4#8
  headerLen_ge : 20 ≤ ipHeaderLen frame
  headerLen_le : ipHeaderLen frame ≤ ipTotalLen frame
  totalLen_le : 14 + ipTotalLen frame ≤ frame.length
  verifies : onesSum (wordsAt frame 14 (ipHeaderLen frame / 2)) = 0xffff#16

/-! ## The datagram in a packet -/

/-- Where the UDP header starts. -/
def udpStart (frame : Bytes) : ℕ := 14 + ipHeaderLen frame

def udpLength (frame : Bytes) : ℕ := (be16 frame (udpStart frame + 4)).toNat

/-- The datagram, as its header delimits it. -/
def udpDatagram (frame : Bytes) : Bytes := (frame.drop (udpStart frame)).take (udpLength frame)

/-- What the datagram carries. -/
def udpData (frame : Bytes) : Bytes := (udpDatagram frame).drop 8

/-- What the UDP checksum covers: the addresses, the protocol and the length, and the datagram,
padded to whole words. -/
def udpWords (frame : Bytes) : List (BitVec 16) :=
  wordsAt frame 26 4 ++ [17#16, be16 frame (udpStart frame + 4)]
    ++ wordsAt (udpDatagram frame) 0 ((udpLength frame + 1) / 2)

/-- A datagram to the port, in a packet that is no fragment. A checksum of zero is none. -/
structure HoldsUdp (port : ℕ) (frame : Bytes) : Prop extends HoldsIp frame where
  unfragmented : be16 frame 20 &&& 0x3fff#16 = 0#16
  protocol_eq : byteAt frame 23 = 17#8
  port_eq : (be16 frame (udpStart frame + 2)).toNat = port
  length_ge : 8 ≤ udpLength frame
  length_le : ipHeaderLen frame + udpLength frame ≤ ipTotalLen frame
  sums : be16 frame (udpStart frame + 6) = 0#16 ∨ onesSum (udpWords frame) = 0xffff#16

theorem holdsIp_iff (frame : Bytes) :
    HoldsIp frame ↔ etherType frame = 0x0800#16 ∧ byteAt frame 14 >>> 4 = 4#8
      ∧ 20 ≤ ipHeaderLen frame ∧ ipHeaderLen frame ≤ ipTotalLen frame
      ∧ 14 + ipTotalLen frame ≤ frame.length
      ∧ onesSum (wordsAt frame 14 (ipHeaderLen frame / 2)) = 0xffff#16 :=
  ⟨fun h => ⟨h.1, h.2, h.3, h.4, h.5, h.6⟩, fun ⟨h1, h2, h3, h4, h5, h6⟩ => ⟨h1, h2, h3, h4, h5, h6⟩⟩

theorem holdsUdp_iff (port : ℕ) (frame : Bytes) :
    HoldsUdp port frame ↔ HoldsIp frame ∧ be16 frame 20 &&& 0x3fff#16 = 0#16
      ∧ byteAt frame 23 = 17#8 ∧ (be16 frame (udpStart frame + 2)).toNat = port ∧ 8 ≤ udpLength frame
      ∧ ipHeaderLen frame + udpLength frame ≤ ipTotalLen frame
      ∧ (be16 frame (udpStart frame + 6) = 0#16 ∨ onesSum (udpWords frame) = 0xffff#16) :=
  ⟨fun h => ⟨h.toHoldsIp, h.2, h.3, h.4, h.5, h.6, h.7⟩,
    fun ⟨h1, h2, h3, h4, h5, h6, h7⟩ => ⟨h1, h2, h3, h4, h5, h6, h7⟩⟩

instance (frame : Bytes) : Decidable (HoldsIp frame) := decidable_of_iff' _ (holdsIp_iff frame)

instance (port : ℕ) (frame : Bytes) : Decidable (HoldsUdp port frame) :=
  decidable_of_iff' _ (holdsUdp_iff port frame)

/-- The data is what follows the UDP header, cut off at the end of the datagram. -/
theorem udpData_eq_take (frame : Bytes) :
    udpData frame = (frame.drop (udpStart frame + 8)).take (udpLength frame - 8) := by
  rw [udpData, udpDatagram, List.drop_take, List.drop_drop]

/-! ## Stacks -/

/-- The stack of a host, as a socket bound to the port sees it. -/
structure UdpStack (port : ℕ) where
  /-- The host takes what is in the frame for its own. -/
  ForHost : Bytes → Prop
  /-- The datagram that the socket receives from a frame, if any. -/
  deliver : Bytes → Option Bytes
  deliver_iff : ∀ {frame : Bytes}, etherType frame = 0x0800#16 → ∀ d,
    deliver frame = some d ↔ (ForHost frame ∧ HoldsUdp port frame) ∧ udpData frame = d

/-- The stack of a host with one address, which takes no frames but those marked as IPv4. -/
def UdpStack.host (mac : Bytes) (ip : BitVec 32) (port : ℕ) : UdpStack port where
  ForHost frame := frame.take 6 = mac ∧ be32 frame 30 = ip
  deliver frame :=
    if (frame.take 6 = mac ∧ be32 frame 30 = ip) ∧ HoldsUdp port frame then some (udpData frame)
    else none
  deliver_iff := by
    intro frame _ d
    split
    · next h => rw [Option.some.injEq, and_iff_right h]
    · next h => exact iff_of_false nofun fun h' => h h'.1

end NetSum.Lib

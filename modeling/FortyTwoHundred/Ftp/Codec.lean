import FortyTwoHundred.Ftp.Common
import FortyTwoHundred.Srtp.Header

/-!
# Codec — packets in the memory of a machine (`srtp_common.h`)

`Common` has packets in network byte order throughout.  Here are the functions of the source as a
machine runs them: the two numbers are stored and loaded as words in the byte order `bo` of the
machine, through `htons` and `ntohs`, at the offsets `1` and `3` of a block of memory that `malloc`
returns with some contents.  They are the functions of `Common` in either byte order
(`createPacket_eq`, `getSeqNum_eq`, `getLen_eq`), and encoding and decoding are inverse to each
other (`codec_round_trip`).
-/

namespace FortyTwoHundred.Ftp

open Srtp (ByteOrder)

namespace Host

/-- A word of a buffer, in host byte order. -/
def getWord (bo : ByteOrder) (off : ℕ) (buffer : Bytes) : UInt16 :=
  bo.ntohs (bo.word (buffer.getD off 0) (buffer.getD (off + 1) 0))

def setWord (bo : ByteOrder) (off : ℕ) (v : UInt16) (buffer : Bytes) :
    Bytes := poke off (bo.bytes (bo.ntohs v)) buffer

def getSeqNum (bo : ByteOrder) (buffer : Bytes) : UInt16 := getWord bo 1 buffer

def setSeqNum (bo : ByteOrder) (seqNum : UInt16) (buffer : Bytes) :
    Bytes := setWord bo 1 seqNum buffer

def getLen (bo : ByteOrder) (buffer : Bytes) : UInt16 := getWord bo 3 buffer

def setLen (bo : ByteOrder) (len : UInt16) (buffer : Bytes) : Bytes := setWord bo 3 len buffer

/-- `create_packet` in the block `mem`. -/
def createPacket (bo : ByteOrder) (mem : Bytes) (command : Byte) (sequence payloadSize : UInt16)
    (payload : Option Bytes) : Bytes :=
  let buffer := poke 0 [command] mem
  let buffer := setSeqNum bo sequence buffer
  let buffer := setLen bo payloadSize buffer
  match payload with
  | some payload => poke headerSize (payload.take payloadSize.toNat) buffer
  | none => buffer

/-- The datagram `send_packet` hands to `sendto`. -/
def sendPacket (bo : ByteOrder) (packet : Bytes) :
    Bytes := packet.take (headerSize + (getLen bo packet).toNat)

section Eq

variable (bo : ByteOrder)

theorem netBytes_eq (v : UInt16) : bo.bytes (bo.ntohs v) = netBytes v := bo.bytes_ntohs v

theorem getSeqNum_eq (buffer : Bytes) : getSeqNum bo buffer = Ftp.getSeqNum buffer :=
    bo.ntohs_word _ _

theorem getLen_eq (buffer : Bytes) : getLen bo buffer = Ftp.getLen buffer := bo.ntohs_word _ _

theorem sendPacket_eq (packet : Bytes) : sendPacket bo packet = Ftp.sendPacket packet := by
  rw [sendPacket, Ftp.sendPacket, getLen_eq]

/-- The three stores into the header do not overlap, and fill it. -/
theorem header_eq (command : Byte) (s n : UInt16) {mem : Bytes} (h : headerSize ≤ mem.length) :
    setLen bo n (setSeqNum bo s (poke 0 [command] mem)) =
      command :: (netBytes s ++ netBytes n) ++ mem.drop headerSize := by
  match mem, h with
  | a :: b :: c :: d :: e :: rest, _ =>
    simp only [setLen, setSeqNum, setWord, netBytes_eq]
    rfl

/-- `create_packet` is the function of `Common`, in either byte order and whatever the block
held. -/
theorem createPacket_eq (command : Byte) (s n : UInt16) {mem payload : Bytes}
    (hn : n.toNat ≤ payload.length) (hmem : mem.length = n.toNat + headerSize) :
    createPacket bo mem command s n (some payload) = Ftp.createPacket command s n payload := by
  have hsize : headerSize ≤ mem.length := by omega
  unfold createPacket
  dsimp only
  rw [header_eq bo command s n hsize]
  have hrest : (payload.take n.toNat).length = (mem.drop headerSize).length := by
    rw [List.length_take, List.length_drop]
    omega
  exact poke_append (a := command :: (netBytes s ++ netBytes n)) hrest

/-- With a null pointer for an empty payload. -/
theorem createPacket_null (command : Byte) (s : UInt16) {mem : Bytes}
    (hmem : mem.length = headerSize) :
    createPacket bo mem command s 0 none = Ftp.createPacket command s 0 [] := by
  unfold createPacket
  dsimp only
  rw [header_eq bo command s 0 hmem.ge, List.drop_of_length_le hmem.le]
  rfl

end Eq

end Host

theorem netBytes_ofNet (hi lo : Byte) : netBytes (ofNet hi lo) = [hi, lo] :=
    ByteOrder.big.bytes_word hi lo

/-- A byte string of the length it says is the packet of its four values. -/
theorem createPacket_decode {d : Bytes} (h : d.length = headerSize + (getLen d).toNat) :
    createPacket (command d) (getSeqNum d) (getLen d) ((d.drop headerSize).take (getLen d).toNat) =
      d := by
  have hlen : (d.drop headerSize).length ≤ (getLen d).toNat := by
    rw [List.length_drop]
    omega
  have hheader : d = command d :: (netBytes (getSeqNum d) ++ netBytes (getLen d)) ++
      d.drop headerSize := by
    have hfive : headerSize ≤ d.length := by omega
    clear h hlen
    match d, hfive with
    | a :: b :: c :: e :: f :: rest, _ =>
      show _ = a :: (netBytes (ofNet b c) ++ netBytes (ofNet e f)) ++ rest
      rw [netBytes_ofNet, netBytes_ofNet]
      rfl
  rw [createPacket, List.take_take, Nat.min_self, List.take_of_length_le hlen]
  exact hheader.symm

/-- **The packet format**: a packet (of an empty payload also with a null pointer for it) has the
length of its header and payload and is sent whole, and in whatever buffer it is received on a
machine of either byte order the four values are found; and the four values of a byte string that
has the length it says give the byte string. -/
theorem codec_round_trip (bo bo' : ByteOrder) (cmd : Byte) (s : UInt16) (payload : Bytes)
    (hpayload : payload.length ≤ payloadSize) :
    (∀ (mem : Bytes) (arg : Option Bytes), mem.length = payload.length + headerSize →
      (arg = some payload ∨ arg = none ∧ payload = []) →
      ∀ p, p = Host.createPacket bo mem cmd s (UInt16.ofNat payload.length) arg →
        p.length = headerSize + payload.length ∧ Host.sendPacket bo p = p ∧
          ∀ (src : Addr) (buffer : Bytes), buffer.length = packetSize →
            ∀ r, r = overlay (Recv.got src (Host.sendPacket bo p)).stored buffer →
              command r = cmd ∧ Host.getSeqNum bo' r = s ∧
              (Host.getLen bo' r).toNat = payload.length ∧
                (r.drop headerSize).take (Host.getLen bo' r).toNat = payload) ∧
      ∀ d : Bytes, d.length = headerSize + (Host.getLen bo' d).toNat →
      ∀ mem : Bytes, mem.length = d.length →
        Host.createPacket bo mem (command d) (Host.getSeqNum bo' d) (Host.getLen bo' d)
          (some ((d.drop headerSize).take (Host.getLen bo' d).toNat)) = d := by
  have hmax : payloadSize = 2043 := rfl
  have hhead : headerSize = 5 := rfl
  have hn : (UInt16.ofNat payload.length).toNat = payload.length := by
    rw [UInt16.toNat_ofNat']
    apply Nat.mod_eq_of_lt
    omega
  constructor
  · intro mem arg hmem harg p hp
    replace hp : p = createPacket cmd s (UInt16.ofNat payload.length) payload := by
      rcases harg with rfl | ⟨rfl, rfl⟩
      · rw [hp, Host.createPacket_eq bo cmd s _ hn.le (by rw [hn]; exact hmem)]
      · rw [hp]
        exact Host.createPacket_null bo cmd s (by simpa using hmem)
    have hpacket : IsPacket p := hp ▸ IsPacket.createPacket hn.le (by omega)
    have hsend : Host.sendPacket bo p = p := by
      rw [Host.sendPacket_eq, hp]
      exact sendPacket_createPacket hn.le
    have hlen : p.length = headerSize + payload.length := by
      rw [hp, length_createPacket _ _ _ _ hn.le, hn]
    refine ⟨hlen, hsend, ?_⟩
    rintro src buffer - r rfl
    rw [hsend, Host.getSeqNum_eq, Host.getLen_eq]
    show command (overlay (p.take packetSize) buffer) = cmd ∧
      getSeqNum (overlay (p.take packetSize) buffer) = s ∧
      (getLen (overlay (p.take packetSize) buffer)).toNat = payload.length ∧
      ((overlay (p.take packetSize) buffer).drop headerSize).take
        (getLen (overlay (p.take packetSize) buffer)).toNat = payload
    rw [hpacket.take_packetSize, hpacket.command_overlay, hpacket.getSeqNum_overlay,
      hpacket.getLen_overlay]
    have hlenp : (getLen p).toNat = payload.length := by rw [hp, getLen_createPacket, hn]
    refine ⟨by rw [hp]; rfl, by rw [hp, getSeqNum_createPacket], hlenp, ?_⟩
    have hdrop : p.drop headerSize = payload := by
      rw [hp, drop_createPacket, hn, List.take_length]
    rw [overlay, List.drop_append_of_le_length (by omega), hdrop, hlenp, List.take_left]
  · intro d hd mem hmem
    rw [Host.getSeqNum_eq, Host.getLen_eq] at *
    have hle : (getLen d).toNat ≤ ((d.drop headerSize).take (getLen d).toNat).length := by
      rw [List.length_take, List.length_drop]
      omega
    rw [Host.createPacket_eq bo _ _ _ hle (by omega)]
    exact createPacket_decode hd

/-- A packet with the payload `[104, 105]` between machines of different byte orders. -/
theorem codec_round_trip_hi : ([104, 105] : Bytes).length ≤ payloadSize ∧
    ∀ p, p = Host.createPacket .little [9, 9, 9, 9, 9, 9, 9] cmdData 258 2 (some [104, 105]) →
      p.length = 7 ∧ Host.sendPacket .little p = p ∧ Host.getSeqNum .big p = 258 := by
  refine ⟨by decide, fun p hp => ?_⟩
  obtain ⟨h1, h2, -⟩ := (codec_round_trip .little .big cmdData 258 [104, 105] (by decide)).1 _ _ rfl
    (Or.inl rfl) p hp
  exact ⟨h1, h2, by rw [hp]; rfl⟩

end FortyTwoHundred.Ftp

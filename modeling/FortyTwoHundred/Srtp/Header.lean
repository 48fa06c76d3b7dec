import FortyTwoHundred.Memory

/-!
# Header — the packet header (`srtp_header.h`, the `PKT_` macros of `srtp_impl.h`)

A buffer is read as a header through a cast, so the fields are in the byte order of the machine,
which is a parameter `bo` here.
-/

namespace FortyTwoHundred.Srtp

inductive ByteOrder
  | little
  | big
  deriving DecidableEq

namespace ByteOrder

/-- The `uint16_t` that two bytes of memory hold. -/
def word (bo : ByteOrder) (a b : Byte) : UInt16 :=
  match bo with
  | little => UInt16.ofNat (b.toNat * 256 + a.toNat)
  | big => UInt16.ofNat (a.toNat * 256 + b.toNat)

/-- The two bytes of a `uint16_t` in memory. -/
def bytes (bo : ByteOrder) (v : UInt16) : Bytes :=
  match bo with
  | little => [UInt8.ofNat (v.toNat % 256), UInt8.ofNat (v.toNat / 256)]
  | big => [UInt8.ofNat (v.toNat / 256), UInt8.ofNat (v.toNat % 256)]

/-- `ntohs`, and `htons`, which is the same function. -/
def ntohs (bo : ByteOrder) (v : UInt16) : UInt16 :=
  match bo with
  | little => UInt16.ofNat (v.toNat % 256 * 256 + v.toNat / 256)
  | big => v

theorem length_bytes (bo : ByteOrder) (v : UInt16) : (bo.bytes v).length = 2 := by cases bo <;> rfl

theorem word_bytes (bo : ByteOrder) (v : UInt16) :
    bo.word ((bo.bytes v).getD 0 0) ((bo.bytes v).getD 1 0) = v := by
  have hv := v.toNat_lt
  rw [← UInt16.toNat_inj]
  cases bo <;>
  · simp only [word, bytes, List.getD_cons_zero, List.getD_cons_succ, UInt16.toNat_ofNat',
      UInt8.toNat_ofNat']
    omega

theorem bytes_word (bo : ByteOrder) (a b : Byte) : bo.bytes (bo.word a b) = [a, b] := by
  have ha := a.toNat_lt
  have hb := b.toNat_lt
  cases bo <;>
  · simp only [bytes, word, UInt16.toNat_ofNat', List.cons.injEq, and_true, ← UInt8.toNat_inj,
      UInt8.toNat_ofNat']
    omega

theorem toNat_ntohs_little (v : UInt16) :
    (little.ntohs v).toNat = v.toNat % 256 * 256 + v.toNat / 256 := by
  have hv := v.toNat_lt
  rw [ntohs, UInt16.toNat_ofNat']
  apply Nat.mod_eq_of_lt
  omega

/-- A number that `htons` has converted is in memory in network byte order. -/
theorem bytes_ntohs (bo : ByteOrder) (v : UInt16) : bo.bytes (bo.ntohs v) = big.bytes v := by
  have hv := v.toNat_lt
  cases bo
  · simp only [bytes, toNat_ntohs_little, List.cons.injEq, and_true]
    constructor <;> congr 1 <;> omega
  · rfl

/-- Two bytes in network byte order, read and converted by `ntohs`. -/
theorem ntohs_word (bo : ByteOrder) (a b : Byte) : bo.ntohs (bo.word a b) = big.word a b := by
  have ha := a.toNat_lt
  have hb := b.toNat_lt
  cases bo
  · have hw : (little.word a b).toNat = b.toNat * 256 + a.toNat := by
      rw [word, UInt16.toNat_ofNat']
      apply Nat.mod_eq_of_lt
      omega
    have hlo : (b.toNat * 256 + a.toNat) % 256 = a.toNat := by omega
    have hhi : (b.toNat * 256 + a.toNat) / 256 = b.toNat := by omega
    rw [ntohs, hw, hlo, hhi]
    rfl
  · rfl

end ByteOrder

/-- `srtp_header_t`. -/
structure Header where
  len : UInt16
  seq : UInt16
  ack : UInt16
  cmdinfo : Byte
  cmd : Byte
  deriving DecidableEq

/-- `PKT_HEADERSIZE`: the structure has no padding. -/
def headerSize : ℕ := 8

def cmdSyn : Byte := 0x01
def cmdAck : Byte := 0x02
def cmdFin : Byte := 0x04
def cmdRst : Byte := 0x08
def cmdRdy : Byte := 0x10

/-- The header at the start of a buffer. -/
def header (bo : ByteOrder) (buf : Bytes) : Header where
  len := bo.word (buf.getD 0 0) (buf.getD 1 0)
  seq := bo.word (buf.getD 2 0) (buf.getD 3 0)
  ack := bo.word (buf.getD 4 0) (buf.getD 5 0)
  cmdinfo := buf.getD 6 0
  cmd := buf.getD 7 0

/-- The header in memory. -/
def Header.bytes (bo : ByteOrder) (h : Header) : Bytes :=
  bo.bytes h.len ++ bo.bytes h.seq ++ bo.bytes h.ack ++ [h.cmdinfo, h.cmd]

/-- `PKT_HASCMD`: the two operands of `&&` are tested for being non-zero. -/
def pktHasCmd (h : Header) (command : Byte) : Bool := decide (h.cmd ≠ 0) && decide (command ≠ 0)

theorem Header.length_bytes (bo : ByteOrder) (h : Header) : (h.bytes bo).length = headerSize := by
  simp [Header.bytes, ByteOrder.length_bytes, headerSize]

/-- A header written to memory is read back. -/
theorem header_bytes (bo : ByteOrder) (h : Header) (rest : Bytes) :
    header bo (h.bytes bo ++ rest) = h := by
  have hlen := bo.word_bytes h.len
  have hseq := bo.word_bytes h.seq
  have hack := bo.word_bytes h.ack
  cases bo <;>
  · rw [header, Header.mk.injEq]
    exact ⟨hlen, hseq, hack, rfl, rfl⟩

theorem header_congr {bo : ByteOrder} {b c : Bytes} (h : ∀ i < 8, b.getD i 0 = c.getD i 0) :
    header bo b = header bo c := by
  simp only [header, h 0 (by omega), h 1 (by omega), h 2 (by omega), h 3 (by omega), h 4 (by omega),
    h 5 (by omega),
    h 6 (by omega), h 7 (by omega)]

theorem header_take {bo : ByteOrder} {k : ℕ} (h : headerSize ≤ k) (d : Bytes) :
    header bo (d.take k) = header bo d := by
  refine header_congr fun i hi => ?_
  rw [List.getD_eq_getElem?_getD, List.getD_eq_getElem?_getD,
    List.getElem?_take_of_lt (Nat.lt_of_lt_of_le hi h)]

/-- A datagram that holds a header gives the header of the buffer it is received into. -/
theorem header_overlay {bo : ByteOrder} {d : Bytes} (h : headerSize ≤ d.length) (mem : Bytes) :
    header bo (overlay d mem) = header bo d := by
  refine header_congr fun i hi => ?_
  exact getD_overlay (Nat.lt_of_lt_of_le hi h)

end FortyTwoHundred.Srtp

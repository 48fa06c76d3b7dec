import Mathlib.Algebra.Group.Int.Defs
import Mathlib.Tactic.Common
import FortyTwoHundred.Srtp.Header

/-!
# Pack — packets in a buffer (`pkt_pack`, `pkt_set_payload` and `pkt_invalid` of `srtp_impl.cpp`)

The macros `PKT_SET…` store one field of the header through a cast, in the byte order `bo` of the
machine.  `pkt_pack` looks at the command, stores four fields, and leaves the length and the
payload to `pkt_set_payload`, which looks at the length first.  So a packet that is packed is read
back (`pack_round_trip`), but one that is refused for its length has already replaced the four
fields (`pack_failure_iff`).
-/

namespace FortyTwoHundred.Srtp

/-- `PAYLOAD_MAXSIZE`. -/
def payloadMaxSize : ℕ := 1024

/-- `PKT_MAXSIZE`. -/
def pktMaxSize : ℕ := headerSize + payloadMaxSize

/-- `SYN|ACK|FIN|RST|RDY`. -/
def cmdAll : Byte := cmdSyn ||| cmdAck ||| cmdFin ||| cmdRst ||| cmdRdy

def pktInvalidLen (len : UInt16) : Bool := decide (payloadMaxSize < len.toNat)

def pktInvalidCmd (cmd : Byte) : Bool := decide (cmdAll < cmd)

section Macros

variable (bo : ByteOrder) (buf : Bytes)

def pktGetLen : UInt16 := (header bo buf).len
def pktGetSeq : UInt16 := (header bo buf).seq
def pktGetAck : UInt16 := (header bo buf).ack
def pktGetCmdinfo : Byte := (header bo buf).cmdinfo
def pktGetCmd : Byte := (header bo buf).cmd

/-- The bytes from `PKT_PAYLOADPTR` on. -/
def pktPayloadPtr : Bytes := buf.drop headerSize

def pktSetLen (len : UInt16) : Bytes := poke 0 (bo.bytes len) buf
def pktSetSeq (seq : UInt16) : Bytes := poke 2 (bo.bytes seq) buf
def pktSetAck (ack : UInt16) : Bytes := poke 4 (bo.bytes ack) buf
def pktSetCmdinfo (cmdinfo : Byte) : Bytes := poke 6 [cmdinfo] buf
def pktSetCmd (cmd : Byte) : Bytes := poke 7 [cmd] buf

end Macros

/-- `pkt_invalid`. -/
def pktInvalid (bo : ByteOrder) (buf : Bytes) : ℤ :=
  if pktInvalidLen (pktGetLen bo buf) then 1
  else if pktInvalidCmd (pktGetCmd bo buf) then 1
  else 0

/-- `pkt_set_payload`: its value, and the buffer afterwards. -/
def pktSetPayload (bo : ByteOrder) (buf payload : Bytes) (len : UInt16) : ℤ × Bytes :=
  if pktInvalidLen len then (-1, buf)
  else (len.toNat, pktSetLen bo (poke headerSize (payload.take len.toNat) buf) len)

/-- `pkt_pack`: its value, and the buffer afterwards. -/
def pktPack (bo : ByteOrder) (buf : Bytes) (cmd : Byte) (len seq ack : UInt16) (cmdinfo : Byte)
    (payload : Bytes) : ℤ × Bytes :=
  if pktInvalidCmd cmd then (-1, buf)
  else
    let buf := pktSetCmd buf cmd
    let buf := pktSetSeq bo buf seq
    let buf := pktSetAck bo buf ack
    let buf := pktSetCmdinfo buf cmdinfo
    pktSetPayload bo buf payload len

/-! ## Fields in memory -/

section Fields

variable (bo : ByteOrder) (h : Header) (rest : Bytes)

theorem pktSetLen_bytes (len : UInt16) :
    pktSetLen bo (h.bytes bo ++ rest) len = { h with len := len }.bytes bo ++ rest := by
  cases bo <;> rfl

theorem pktSetSeq_bytes (seq : UInt16) :
    pktSetSeq bo (h.bytes bo ++ rest) seq = { h with seq := seq }.bytes bo ++ rest := by
  cases bo <;> rfl

theorem pktSetAck_bytes (ack : UInt16) :
    pktSetAck bo (h.bytes bo ++ rest) ack = { h with ack := ack }.bytes bo ++ rest := by
  cases bo <;> rfl

theorem pktSetCmdinfo_bytes (cmdinfo : Byte) :
    pktSetCmdinfo (h.bytes bo ++ rest) cmdinfo = { h with cmdinfo := cmdinfo }.bytes
      bo ++ rest := by
  cases bo <;> rfl

theorem pktSetCmd_bytes (cmd : Byte) :
    pktSetCmd (h.bytes bo ++ rest) cmd = { h with cmd := cmd }.bytes bo ++ rest := by
  cases bo <;> rfl

/-- The payload is copied behind the header. -/
theorem poke_payload (bs : Bytes) :
    poke headerSize bs (h.bytes bo ++ rest) = h.bytes bo ++ overlay bs rest := by
  rw [poke, overlay, ← h.length_bytes bo, List.take_left, ← List.drop_drop, List.drop_left,
    List.append_assoc]

end Fields

/-- A buffer is its header and what is behind it. -/
theorem bytes_header (bo : ByteOrder) {buf : Bytes} (h : headerSize ≤ buf.length) :
    (header bo buf).bytes bo ++ buf.drop headerSize = buf := by
  match buf, h with
  | b0 :: b1 :: b2 :: b3 :: b4 :: b5 :: b6 :: b7 :: rest, _ =>
    have hlen := bo.bytes_word b0 b1
    have hseq := bo.bytes_word b2 b3
    have hack := bo.bytes_word b4 b5
    show bo.bytes (bo.word b0 b1) ++ bo.bytes (bo.word b2 b3) ++ bo.bytes (bo.word b4 b5) ++
      [b6, b7] ++ rest = _
    rw [hlen, hseq, hack]
    rfl

theorem Header.bytes_inj {bo : ByteOrder} {g h : Header} {rest : Bytes} :
    g.bytes bo ++ rest = h.bytes bo ++ rest ↔ g = h := by
  constructor
  · intro heq
    have := congrArg (header bo) heq
    rwa [header_bytes, header_bytes] at this
  · rintro rfl
    rfl

section Packed

variable (bo : ByteOrder) (h : Header) (buf : Bytes) {bs : Bytes} {n : ℕ} (hbs : bs.length = n)

theorem drop_bytes (rest : Bytes) : (h.bytes bo ++ rest).drop headerSize = rest := by
  rw [← h.length_bytes bo, List.drop_left]

include hbs

theorem payload_packed :
    (pktPayloadPtr (h.bytes bo ++ overlay bs (buf.drop headerSize))).take n = bs := by
  rw [pktPayloadPtr, drop_bytes, overlay, List.take_left' hbs]

theorem drop_packed :
    (h.bytes bo ++ overlay bs (buf.drop headerSize)).drop (headerSize + n) =
      buf.drop (headerSize + n) := by
  rw [← List.drop_drop, drop_bytes, overlay, List.drop_left' hbs, hbs, List.drop_drop]

theorem length_packed (hfit : headerSize + n ≤ buf.length) :
    (h.bytes bo ++ overlay bs (buf.drop headerSize)).length = buf.length := by
  rw [List.length_append, h.length_bytes, overlay, List.length_append, List.length_drop,
    List.length_drop, hbs]
  omega

end Packed

/-- A length is not the value of a failure. -/
theorem natCast_ne_neg_one (n : ℕ) : (n : ℤ) ≠ -1 := by omega

section Pack

variable {bo : ByteOrder} {buf : Bytes} (hbuf : headerSize ≤ buf.length) (cmd : Byte)
  (len seq ack : UInt16) (cmdinfo : Byte) (payload : Bytes)
include hbuf

/-- What a valid command leads to: the four fields are stored, and the rest is left to
`pkt_set_payload`. -/
theorem pktPack_of_valid (hcmd : ¬ pktInvalidCmd cmd = true) :
    pktPack bo buf cmd len seq ack cmdinfo payload =
      pktSetPayload bo ((Header.mk (header bo buf).len seq ack cmdinfo cmd).bytes bo ++
        buf.drop headerSize) payload len := by
  conv_lhs => rw [← bytes_header bo hbuf]
  rw [pktPack, if_neg hcmd]
  dsimp only
  rw [pktSetCmd_bytes, pktSetSeq_bytes, pktSetAck_bytes, pktSetCmdinfo_bytes]

/-- **A packet that is packed**: header, payload, and the rest of the buffer as it was. -/
theorem pktPack_eq (hcmd : ¬ pktInvalidCmd cmd = true) (hlen : ¬ pktInvalidLen len = true) :
    pktPack bo buf cmd len seq ack cmdinfo payload =
      ((len.toNat : ℤ),
        (Header.mk len seq ack cmdinfo cmd).bytes bo ++ overlay (payload.take len.toNat)
        (buf.drop headerSize)) := by
  rw [pktPack_of_valid hbuf cmd len seq ack cmdinfo payload hcmd, pktSetPayload, if_neg hlen,
    poke_payload, pktSetLen_bytes]

end Pack

/-- **Round trip**: `pkt_pack` returns `len` exactly for a valid command and a valid length, and
`-1` otherwise; when it returns `len`, the fields and the payload are read back, `pkt_invalid`
accepts the packet, and nothing behind it has changed. -/
theorem pack_round_trip (bo : ByteOrder) (buf : Bytes) (cmd : Byte) (len seq ack : UInt16)
    (cmdinfo : Byte) (payload : Bytes) (hbuf : pktMaxSize ≤ buf.length)
    (hpayload : len.toNat ≤ payload.length) : (pktPack bo buf cmd len seq ack cmdinfo payload).1 =
        (if cmd ≤ cmdAll ∧ len.toNat ≤ payloadMaxSize then (len.toNat : ℤ) else -1) ∧
      ∀ buf', pktPack bo buf cmd len seq ack cmdinfo payload = ((len.toNat : ℤ), buf') →
        pktGetCmd bo buf' = cmd ∧ pktGetLen bo buf' = len ∧ pktGetSeq bo buf' = seq ∧
        pktGetAck bo buf' = ack ∧
          pktGetCmdinfo bo buf' = cmdinfo ∧ (pktPayloadPtr buf').take len.toNat =
            payload.take len.toNat ∧
          pktInvalid bo buf' = 0 ∧ buf'.length = buf.length ∧
          buf'.drop (headerSize + len.toNat) = buf.drop (headerSize + len.toNat) := by
  have hhead : headerSize ≤ buf.length := Nat.le_trans (Nat.le_add_right _ _) hbuf
  by_cases hcmd : pktInvalidCmd cmd = true
  · have hgreat : ¬ cmd ≤ cmdAll := UInt8.not_le.mpr (of_decide_eq_true hcmd)
    have hfail : pktPack bo buf cmd len seq ack cmdinfo payload = (-1, buf) := by
        rw [pktPack, if_pos hcmd]
    rw [hfail, if_neg fun h => hgreat h.1]
    exact ⟨rfl, fun buf' h => absurd (Prod.mk.inj h).1.symm (natCast_ne_neg_one _)⟩
  · have hsmall : cmd ≤ cmdAll := UInt8.not_lt.mp fun h => hcmd (decide_eq_true h)
    by_cases hlen : pktInvalidLen len = true
    · have hlong : ¬ len.toNat ≤ payloadMaxSize := Nat.not_le.mpr (of_decide_eq_true hlen)
      rw [pktPack_of_valid hhead cmd len seq ack cmdinfo payload hcmd, pktSetPayload, if_pos hlen,
        if_neg fun h => hlong h.2]
      exact ⟨rfl, fun buf' h => absurd (Prod.mk.inj h).1.symm (natCast_ne_neg_one _)⟩
    · have hshort : len.toNat ≤ payloadMaxSize := Nat.not_lt.mp fun h => hlen (decide_eq_true h)
      have htaken : (payload.take len.toNat).length = len.toNat := by
        rw [List.length_take]
        omega
      rw [pktPack_eq hhead cmd len seq ack cmdinfo payload hcmd hlen, if_pos ⟨hsmall, hshort⟩]
      refine ⟨rfl, fun buf' h => ?_⟩
      obtain ⟨-, rfl⟩ := Prod.mk.inj h
      have hfields := header_bytes bo ⟨len, seq, ack, cmdinfo, cmd⟩
        (overlay (payload.take len.toNat) (buf.drop headerSize))
      refine ⟨congrArg Header.cmd hfields, congrArg Header.len hfields, congrArg Header.seq hfields,
        congrArg Header.ack hfields, congrArg Header.cmdinfo hfields,
        payload_packed bo _ buf htaken, ?_, ?_,
        drop_packed bo _ buf htaken⟩
      · rw [pktInvalid, pktGetLen, pktGetCmd, hfields, if_neg hlen, if_neg hcmd]
      · have hmax : pktMaxSize = headerSize + payloadMaxSize := rfl
        exact length_packed bo _ buf htaken (by omega)

/-- A packet of the tests' kind, with a payload of two bytes. -/
theorem pack_round_trip_two : pktMaxSize ≤ (List.replicate 2048 (0 : Byte)).length ∧
    (pktPack .little (List.replicate 2048 0) cmdSyn 2 1 7 0 [42, 43]).1 = 2 := by
  have hbuf : pktMaxSize ≤ (List.replicate 2048 (0 : Byte)).length := by
    rw [List.length_replicate]
    decide
  exact ⟨hbuf, (pack_round_trip .little (List.replicate 2048 0) cmdSyn 2 1 7 0 [42, 43] hbuf
    (by decide)).1⟩

/-- **A packing that fails** leaves the buffer as it was, if and only if the command is invalid or
the length is valid, or the four fields that are stored first have their values already. -/
theorem pack_failure_iff (bo : ByteOrder) (buf : Bytes) (cmd : Byte) (len seq ack : UInt16)
    (cmdinfo : Byte) (payload : Bytes) (hbuf : headerSize ≤ buf.length) :
    (((pktPack bo buf cmd len seq ack cmdinfo payload).1 = -1 →
      (pktPack bo buf cmd len seq ack cmdinfo payload).2 = buf) ∧
        ((pktSetPayload bo buf payload len).1 = -1 → (pktSetPayload bo buf payload len).2 = buf)) ↔
      cmdAll < cmd ∨ len.toNat ≤ payloadMaxSize ∨
        (pktGetCmd bo buf = cmd ∧ pktGetSeq bo buf = seq ∧ pktGetAck bo buf = ack ∧
          pktGetCmdinfo bo buf = cmdinfo) := by
  have hset : (pktSetPayload bo buf payload len).1 = -1 →
      (pktSetPayload bo buf payload len).2 = buf := by
    by_cases hlen : pktInvalidLen len = true
    · rw [pktSetPayload, if_pos hlen]
      exact fun _ => rfl
    · rw [pktSetPayload, if_neg hlen]
      exact fun h => absurd h (natCast_ne_neg_one _)
  rw [and_iff_left hset]
  by_cases hcmd : pktInvalidCmd cmd = true
  · rw [pktPack, if_pos hcmd]
    exact iff_of_true (fun _ => rfl) (Or.inl (of_decide_eq_true hcmd))
  · rw [or_iff_right fun h => hcmd (decide_eq_true h)]
    by_cases hlen : pktInvalidLen len = true
    · have hlong : ¬ len.toNat ≤ payloadMaxSize := Nat.not_le.mpr (of_decide_eq_true hlen)
      rw [pktPack_of_valid hbuf cmd len seq ack cmdinfo payload hcmd, pktSetPayload, if_pos hlen,
        or_iff_right hlong]
      dsimp only
      -- the buffer with the new fields is the old one exactly if the fields are the old ones
      have hsame : (Header.mk (header bo buf).len seq ack cmdinfo cmd).bytes bo ++
          buf.drop headerSize = buf ↔
          Header.mk (header bo buf).len seq ack cmdinfo cmd = header bo buf := by
        rw [← Header.bytes_inj, bytes_header bo hbuf]
      rw [hsame, eq_self_iff_true, true_imp_iff]
      constructor
      · intro h
        exact ⟨(congrArg Header.cmd h).symm, (congrArg Header.seq h).symm,
          (congrArg Header.ack h).symm,
          (congrArg Header.cmdinfo h).symm⟩
      · rintro ⟨rfl, rfl, rfl, rfl⟩
        rfl
    · have hshort : len.toNat ≤ payloadMaxSize := Nat.not_lt.mp fun h => hlen (decide_eq_true h)
      rw [pktPack_eq hbuf cmd len seq ack cmdinfo payload hcmd hlen]
      exact iff_of_true (fun h => absurd h (natCast_ne_neg_one _)) (Or.inl hshort)

/-- A command that is refused. -/
theorem pack_failure_bad_cmd : (pktPack .little (List.replicate 8 0) 0x20 2000 1 7 0 []).1 = -1 ∧
    (pktPack .little (List.replicate 8 0) 0x20 2000 1 7 0 []).2 = List.replicate 8 0 :=
  ⟨rfl, ((pack_failure_iff .little (List.replicate 8 0) 0x20 2000 1 7 0 [] (by decide)).mpr
    (Or.inl (by decide))).1 rfl⟩

/-- A payload of `1025` bytes is refused, and the buffer has the new command and the new number all
the same. -/
theorem fields_of_refused_packet :
    (pktPack .little (List.replicate 2048 0) cmdSyn 1025 1 7 0 (List.replicate 1025 1)).1 = -1 ∧
      pktGetSeq .little (List.replicate 2048 0) = 0 ∧
      pktGetSeq .little (pktPack .little (List.replicate 2048 0) cmdSyn 1025 1 7 0
        (List.replicate 1025 1)).2 = 1 ∧
      (pktPack .little (List.replicate 2048 0) cmdSyn 1025 1 7 0 (List.replicate 1025 1)).2 ≠
        List.replicate 2048 0 := by
  have hold : pktGetSeq .little (List.replicate 2048 0) = 0 := by decide
  have hnew : pktGetSeq .little (pktPack .little (List.replicate 2048 0) cmdSyn 1025 1 7 0
      (List.replicate 1025 1)).2 = 1 := by
    decide
  refine ⟨rfl, hold, hnew, fun h => ?_⟩
  rw [h, hold] at hnew
  exact absurd hnew (by decide)

end FortyTwoHundred.Srtp

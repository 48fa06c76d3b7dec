import FortyTwoHundred.Lib.Machine
import FortyTwoHundred.Lib.Chunk
import FortyTwoHundred.Ftp.Client

/-!
# Window — the client's packet list

A file that does not change is cut into chunks of `payloadSize` bytes; `dataPacket content i` is the
packet of chunk `i` (empty past the end of the file), numbered `i + 1` modulo `2 ^ 16`.

`WindowInv content c` holds in every state of the client, whatever it receives: the packets taken
off the list and those still in it are the packets of chunks `0, 1, 2, …` in order.  The chunk size
is computed with `read`, which the receive loop overwrites; what keeps the chunks right is `read ≤`
the position in the file at the start of every pass, so that `size - read` is at least what is left
of the file.
-/

namespace FortyTwoHundred.Ftp

open Chunk

/-- The packet of chunk `i` of the file. -/
def dataPacket (content : Bytes) (i : ℕ) : Bytes :=
  createPacket cmdData (UInt16.ofNat (i + 1)) (UInt16.ofNat (chunk payloadSize content i).length)
    (chunk payloadSize content i)

/-- `ceil (size / PAYLOAD_SIZE)`. -/
def chunkCount (content : Bytes) : ℕ := (content.length + (payloadSize - 1)) / payloadSize

section DataPacket

variable (content : Bytes) (i : ℕ)

theorem toNat_length_chunk :
    (UInt16.ofNat (chunk payloadSize content i).length).toNat =
      (chunk payloadSize content i).length := by
  have h := length_chunk_le payloadSize content i
  have hp : payloadSize = 2043 := rfl
  rw [UInt16.toNat_ofNat']
  omega

@[simp] theorem command_dataPacket : command (dataPacket content i) = cmdData := rfl

@[simp] theorem getSeqNum_dataPacket : getSeqNum (dataPacket content i) = UInt16.ofNat (i + 1) := by
  simp [dataPacket]

theorem getLen_dataPacket :
    (getLen (dataPacket content i)).toNat = (chunk payloadSize content i).length := by
  rw [dataPacket, getLen_createPacket, toNat_length_chunk]

theorem payload_dataPacket :
    (dataPacket content i).drop headerSize = chunk payloadSize content i := by
  rw [dataPacket, drop_createPacket, toNat_length_chunk, List.take_length]

theorem isPacket_dataPacket : IsPacket (dataPacket content i) :=
  .createPacket (toNat_length_chunk content i).le
    (by rw [toNat_length_chunk]; exact length_chunk_le _ _ _)

theorem sendPacket_dataPacket : sendPacket (dataPacket content i) = dataPacket content i :=
  sendPacket_createPacket (toNat_length_chunk content i).le

/-- Bytes sent with the first `i + 1` packets. -/
theorem min_add_getLen :
    min (payloadSize * i) content.length + (getLen (dataPacket content i)).toNat =
      min (payloadSize * (i + 1)) content.length := by
  rw [getLen_dataPacket, length_chunk, Nat.mul_succ]
  omega

end DataPacket

theorem lt_chunkCount_iff {content : Bytes} {i : ℕ} :
    i < chunkCount content ↔ payloadSize * i < content.length := by
  have hp : payloadSize = 2043 := rfl
  rw [chunkCount, hp]
  omega

namespace Client

/-- The client's variables in terms of the chunks of its file. -/
structure WindowInv (content : Bytes) (c : Client Bytes) : Prop where
  packets : c.removed ++ c.packets = (List.range c.created).map (dataPacket content)
  file : c.file = content.drop (payloadSize * c.created)
  size : c.size = content.length
  written : c.written = (min (payloadSize * c.removed.length) content.length : ℕ)
  sequence : c.sequence = UInt16.ofNat (c.created + 1)
  window : c.packets.length ≤ windowSize
  padding : c.created ≤ chunkCount content + (windowSize - 1)
  -- the chunk size of the next pass: `read` is not past the position in the file
  read : c.pc = .pass ∨ c.pc = .reqSend ∨ c.pc = .reqRecv →
    c.read ≤ (min (payloadSize * c.created) content.length : ℕ)
  left : c.left → c.written = c.size

section Steps

variable {content : Bytes} {c : Client Bytes}

theorem WindowInv.written_le (h : WindowInv content c) : c.written ≤ c.size := by
  rw [h.written, h.size]
  omega

/-- What the chunk computation asks for gives the next chunk. -/
theorem WindowInv.take_remaining (h : WindowInv content c)
    (hr : c.read ≤ (min (payloadSize * c.created) content.length : ℕ)) :
    readFile c.file c.remaining =
      (chunk payloadSize content c.created, content.drop (payloadSize * (c.created + 1))) := by
  have hp : payloadSize = 2043 := rfl
  rw [readFile, h.file, remaining, h.size, chunk, List.drop_drop, Nat.mul_succ]
  split_ifs with hlt
  · -- the last chunk: everything left is asked for, and no more than a chunk is left
    have hn : toSizeT (content.length - c.read) = (content.length - c.read).toNat := by
      rw [toSizeT, Int.emod_eq_of_lt (by omega) (by omega)]
    rw [hn]
    have h1 : content.length ≤ payloadSize * c.created + (content.length - c.read).toNat := by omega
    have h2 : content.length ≤ payloadSize * c.created + payloadSize := by omega
    rw [List.take_of_length_le (by rw [List.length_drop]; omega),
      List.take_of_length_le (by rw [List.length_drop]; omega), List.drop_eq_nil_of_le h1,
      List.drop_eq_nil_of_le h2]
  · rfl

/-- One turn of the fill loop. -/
theorem WindowInv.addPacket (h : WindowInv content c)
    (hr : c.read ≤ (min (payloadSize * c.created) content.length : ℕ)) (hpc : ¬ c.left)
    (hw : c.packets.length < windowSize) (hs : c.written < c.size) :
    WindowInv content (addPacket readFile c) ∧
      (Client.addPacket readFile c).read ≤
        (min (payloadSize * (Client.addPacket readFile c).created) content.length : ℕ) := by
  have hread := h.take_remaining hr
  have hcr : (Client.addPacket readFile c).created = c.created + 1 := by
    simp [created, Client.addPacket]; omega
  have hchunk : (Client.addPacket readFile c).read =
      c.read + (chunk payloadSize content c.created).length := by
    simp only [Client.addPacket, hread]
  have hpos : c.read + (chunk payloadSize content c.created).length ≤
      (min (payloadSize * (c.created + 1)) content.length : ℕ) := by
    have := min_add_getLen content c.created
    rw [getLen_dataPacket] at this
    omega
  refine ⟨⟨?_, ?_, h.size, h.written, ?_, ?_, ?_, ?_, fun hl => absurd hl hpc⟩, ?_⟩
  · rw [hcr, List.range_succ, List.map_append, ← h.packets]
    simp only [Client.addPacket, hread, ← List.append_assoc]
    rw [h.sequence]
    rfl
  · rw [hcr]
    simp only [Client.addPacket, hread]
  · rw [hcr, SeqNum.ofNat_succ (c.created + 1), ← h.sequence]
    rfl
  · simp only [Client.addPacket, List.length_append, List.length_singleton]
    omega
  · -- padding is only added while a packet with data is in the list
    have hf : c.removed.length < chunkCount content := by
      rw [lt_chunkCount_iff]
      rw [h.written, h.size] at hs
      omega
    rw [hcr]
    simp only [created]
    omega
  · intro _
    rw [hcr, hchunk]
    exact hpos
  · rw [hcr, hchunk]
    exact hpos

theorem WindowInv.fill (h : WindowInv content c) (hpc : c.pc = .pass) :
    WindowInv content (fill readFile c) ∧ (Client.fill readFile c).pc = .pass := by
  have key : WindowInv content (Client.fill readFile c) ∧ (Client.fill readFile c).pc = .pass ∧
      (Client.fill readFile c).read ≤
        (min (payloadSize * (Client.fill readFile c).created) content.length : ℕ) := by
    refine fill_induct (I := fun d => WindowInv content d ∧ d.pc = .pass ∧
      d.read ≤ (min (payloadSize * d.created) content.length : ℕ)) ?_ ⟨h, hpc, h.read (Or.inl hpc)⟩
    rintro d ⟨hd, hdpc, hdr⟩ hw hs
    have hnl : ¬ d.left := by simp [Client.left, hdpc]
    obtain ⟨h1, h2⟩ := hd.addPacket hdr hnl hw hs
    exact ⟨h1, hdpc, h2⟩
  exact ⟨key.1, key.2.1⟩

/-- One turn of the release loop. -/
theorem WindowInv.removeFront (h : WindowInv content c) (hpc : c.pc = .drain) {p : Bytes}
    {ps : List Bytes} (hps : c.packets = p :: ps) (now : ℤ) :
    WindowInv content (c.removeFront now p ps) := by
  have hcr : (c.removeFront now p ps).created = c.created := by
    simp [created, Client.removeFront, hps]; omega
  have hp : p = dataPacket content c.removed.length := by
    have hlen : c.removed.length < c.created := by simp [created, hps]
    have h1 := congrArg (fun l => l[c.removed.length]?) h.packets
    simp only [hps, List.getElem?_append_right (Nat.le_refl _), Nat.sub_self,
      List.getElem?_cons_zero,
      List.getElem?_map, List.getElem?_range hlen, Option.map_some, Option.some.injEq] at h1
    exact h1
  refine ⟨?_, ?_, h.size, ?_, ?_, ?_, ?_, ?_, ?_⟩
  · rw [hcr, ← h.packets, hps]
    simp [Client.removeFront]
  · rw [hcr]; exact h.file
  · simp only [Client.removeFront, List.length_append, List.length_singleton]
    rw [h.written, hp, ← min_add_getLen]
    push_cast
    rfl
  · rw [hcr]; exact h.sequence
  · have := h.window
    rw [hps] at this
    simp only [Client.removeFront, List.length_cons] at this ⊢
    omega
  · rw [hcr]; exact h.padding
  · intro hh; simp [Client.removeFront, hpc] at hh
  · intro hh; simp [Client.left, Client.removeFront, hpc] at hh

theorem WindowInv.release (h : WindowInv content c) (hpc : c.pc = .drain)
    (acked : UInt16) (now : ℤ) : WindowInv content (release acked now c) := by
  have key : WindowInv content (Client.release acked now c) ∧
      (Client.release acked now c).pc = .drain := by
    refine release_induct (I := fun d => WindowInv content d ∧ d.pc = .drain) ?_ ⟨h, hpc⟩
    rintro d p ps ⟨hd, hdpc⟩ hps _
    exact ⟨hd.removeFront hdpc hps now, hdpc⟩
  exact key.1

/-- The invariant does not look at the buffer and the clocks, and at `read` and `pc` only where a
pass may follow. -/
theorem WindowInv.move {d : Client Bytes} (h : WindowInv content c) (hf : d.file = c.file)
    (hs : d.size = c.size) (hw : d.written = c.written) (hq : d.sequence = c.sequence)
    (hp : d.packets = c.packets) (hr : d.removed = c.removed)
    (hread : d.pc = .pass ∨ d.pc = .reqSend ∨ d.pc = .reqRecv →
      d.read ≤ (min (payloadSize * c.created) content.length : ℕ))
    (hleft : d.left → c.written = c.size) : WindowInv content d := by
  have hcr : d.created = c.created := by rw [created, created, hp, hr]
  refine ⟨?_, ?_, ?_, ?_, ?_, ?_, ?_, ?_, ?_⟩
  · rw [hcr, hp, hr]; exact h.packets
  · rw [hcr, hf]; exact h.file
  · rw [hs]; exact h.size
  · rw [hw, hr]; exact h.written
  · rw [hcr, hq]; exact h.sequence
  · rw [hp]; exact h.window
  · rw [hcr]; exact h.padding
  · rw [hcr]; exact hread
  · intro hl; rw [hw, hs]; exact hleft hl

/-- The test of the data loop, where `read` is in range or the file is done. -/
theorem WindowInv.loopTop (h : WindowInv content c) (now : ℤ)
    (hr : c.written ≠ c.size → c.read ≤ (min (payloadSize * c.created) content.length : ℕ)) :
    WindowInv content (loopTop now c) := by
  rw [Client.loopTop]
  split_ifs with hne
  · exact h.move rfl rfl rfl rfl rfl rfl (fun _ => hr hne) (fun hl => by simp [Client.left] at hl)
  · refine h.move rfl rfl rfl rfl rfl rfl (fun hp => ?_) (fun _ => not_not.mp hne)
    simp at hp

theorem WindowInv.finish (h : WindowInv content c) {e : Ending} (he : e ≠ .returned .ok) :
    WindowInv content (c.finish e) := by
  refine h.move rfl rfl rfl rfl rfl rfl (fun hp => ?_) (fun hl => ?_)
  · simp [Client.finish] at hp
  · simp [Client.left, Client.finish, he] at hl

theorem WindowInv.passStep (h : WindowInv content c) (hpc : c.pc = .pass) (sendto : Bytes → Bool)
    (now : ℤ) : WindowInv content (passStep readFile sendto now c).1 := by
  obtain ⟨hf, hfpc⟩ := h.fill hpc
  rw [Client.passStep]
  split_ifs
  · exact hf.finish (by simp)
  · exact hf.finish (by simp)
  · exact hf.move rfl rfl rfl rfl rfl rfl (fun hp => by simp at hp)
      (fun hl => by simp [Client.left] at hl)

theorem WindowInv.handle (h : WindowInv content c) (hpc : c.pc = .drain)
    (rr : ReadResult) (now : ℤ) : WindowInv content (handle rr now c) := by
  have hc : WindowInv content { c with read := rr.ret, buffer := rr.buffer } :=
    h.move rfl rfl rfl rfl rfl rfl (fun hp => by simp [hpc] at hp) (fun hl => h.left hl)
  rw [Client.handle]
  dsimp only
  split_ifs with hagain _ _ hlt
  · -- `read` is `-1` here
    exact hc.loopTop now fun _ => by dsimp only; omega
  · exact hc.release hpc _ now
  · exact hc.finish (by simp)
  · exact hc.loopTop now fun hne => absurd (le_antisymm hc.written_le (not_lt.mp hlt)) hne
  · exact hc

theorem WindowInv.handleFin (h : WindowInv content c) (hpc : c.pc = .finRecv) (rr : ReadResult) :
    WindowInv content (handleFin rr c) := by
  have hl : c.written = c.size := h.left (Or.inr (Or.inl hpc))
  rw [Client.handleFin]
  dsimp only
  split_ifs
  · exact h.move rfl rfl rfl rfl rfl rfl (fun hp => by simp [hpc] at hp) (fun _ => hl)
  · exact h.move rfl rfl rfl rfl rfl rfl (fun hp => by simp [Client.finish] at hp) (fun _ => hl)
  · exact h.move rfl rfl rfl rfl rfl rfl (fun hp => by simp at hp) (fun _ => hl)

theorem WindowInv.reply (h : WindowInv content c) (hpc : c.pc = .reqRecv) (cmd : Byte) (now : ℤ) :
    WindowInv content (reply cmd now c) := by
  have hr := h.read (Or.inr (Or.inr hpc))
  have hc : WindowInv content { c with lastACK := now } :=
    h.move rfl rfl rfl rfl rfl rfl (fun _ => hr) (fun hl => by simp [Client.left, hpc] at hl)
  rw [Client.reply]
  split_ifs
  · exact hc.loopTop now fun _ => hr
  · exact h.finish (by simp)
  · exact h.finish (by simp)
  · exact hc.loopTop now fun _ => hr

theorem WindowInv.recvReply (h : WindowInv content c) (hpc : c.pc = .reqRecv) (r : Recv) (now : ℤ) :
    WindowInv content (recvReply r now c) := by
  have hr := h.read (Or.inr (Or.inr hpc))
  have hc : WindowInv content { c with buffer := overlay r.stored c.buffer } :=
    h.move rfl rfl rfl rfl rfl rfl (fun _ => hr) (fun hl => by simp [Client.left, hpc] at hl)
  rw [Client.recvReply]
  dsimp only
  split_ifs
  · exact h.move rfl rfl rfl rfl rfl rfl (fun _ => hr) (fun hl => by simp [Client.left] at hl)
  · exact hc.finish (by simp)
  · exact hc.reply hpc _ now

/-- **Every step keeps the window**, whatever the environment answers. -/
theorem WindowInv.step (h : WindowInv content c) {wanted : Addr} {i : ClientIn} {d : Client Bytes}
    {out : List Bytes} (hs : step readFile wanted c i = some (d, out)) : WindowInv content d := by
  cases trans_of_step hs with
  | request hpc hsend =>
    exact h.move rfl rfl rfl rfl rfl rfl (fun _ => h.read (Or.inr (Or.inl hpc)))
      (fun hl => by simp [Client.left] at hl)
  | noRequest hpc => exact h.finish (by simp)
  | reply hpc => exact h.recvReply hpc _ _
  | pass hpc => exact h.passStep hpc _ _
  | drain hpc => exact h.handle hpc _ _
  | fin hpc ht =>
    exact h.move rfl rfl rfl rfl rfl rfl (fun hp => by simp at hp) (fun _ => h.left (Or.inl hpc))
  | finTimeout hpc ht =>
    exact h.move rfl rfl rfl rfl rfl rfl (fun hp => by simp [Client.finish] at hp)
      (fun _ => h.left (Or.inl hpc))
  | finRecv hpc => exact h.handleFin hpc _

theorem WindowInv.init (content name : Bytes) (now : ℤ) :
    WindowInv content (Client.init content content.length name now) := by
  refine ⟨rfl, ?_, rfl, ?_, rfl, Nat.zero_le _, Nat.zero_le _, ?_, ?_⟩
  · simp [Client.init, created]
  · simp [Client.init]
  · intro _; simp [Client.init, created]
  · intro hl; simp [Client.left, Client.init] at hl

/-! ## Reading the invariant -/

theorem WindowInv.removed_eq (h : WindowInv content c) :
    c.removed = (List.range c.removed.length).map (dataPacket content) := by
  have h1 := congrArg (List.take c.removed.length) h.packets
  rw [List.take_left, ← List.map_take, List.take_range, created, min_eq_left (Nat.le_add_right _ _)]
    at h1
  exact h1

theorem WindowInv.getElem?_packets (h : WindowInv content c) {j : ℕ} {p : Bytes}
    (hj : c.packets[j]? = some p) : p = dataPacket content (c.removed.length + j) := by
  have hlt : j < c.packets.length := (List.getElem?_eq_some_iff.mp hj).1
  have h1 := congrArg (fun l => l[c.removed.length + j]?) h.packets
  have hr : c.removed.length + j < c.created := by rw [created]; omega
  rw [List.getElem?_append_right (by omega), Nat.add_sub_cancel_left, hj, List.getElem?_map,
    List.getElem?_range hr] at h1
  exact Option.some.inj h1

theorem WindowInv.packets_eq (h : WindowInv content c) :
    c.packets = (List.range' c.removed.length c.packets.length).map (dataPacket content) := by
  have h1 := congrArg (List.drop c.removed.length) h.packets
  rw [List.drop_left, ← List.map_drop, List.range_eq_range', List.drop_range', created] at h1
  rw [h1]
  simp

/-- The list is sent as it is. -/
theorem WindowInv.sendAll_packets (h : WindowInv content c) :
    sendAll (fun _ => true) c.packets = (c.packets, false) := by
  have hmap : c.packets.map sendPacket = c.packets := by
    rw [h.packets_eq, List.map_map]
    exact List.map_congr_left fun i _ => sendPacket_dataPacket content i
  rw [sendAll_ok (fun _ _ => rfl), hmap]

/-- The payloads of the first packets are a beginning of the file. -/
theorem flatMap_payload (n : ℕ) :
    ((List.range n).map (dataPacket content)).flatMap (·.drop headerSize) =
      content.take (payloadSize * n) := by
  rw [List.flatMap_map, ← flatMap_chunk]
  exact congrArg (fun f => (List.range n).flatMap f) (funext fun i => payload_dataPacket content i)

/-- What the client sends: its request, packets it has created, and `FIN` once the data loop is
left. -/
theorem WindowInv.out (h : WindowInv content c) {wanted : Addr} {i : ClientIn} {d : Client Bytes}
    {out : List Bytes} (hs : Client.step readFile wanted c i = some (d, out)) {m : Bytes}
    (hm : m ∈ out) : (c.pc = .reqSend ∧ m = sendPacket c.request) ∨
    (c.pc = .pass ∧ ∃ i < d.created, m = dataPacket content i) ∨
      (c.pc = .finTop ∧ m = finPacket ∧ d.left) := by
  cases trans_of_step hs with
  | request hpc hsend => exact Or.inl ⟨hpc, by simpa using hm⟩
  | pass hpc =>
    refine Or.inr (Or.inl ⟨hpc, ?_⟩)
    rename_i sendto now
    obtain ⟨hf, -⟩ := h.fill hpc
    have hm' : m ∈ (sendAll sendto (Client.fill readFile c).packets).1 := by
      rw [Client.passStep] at hm
      split_ifs at hm <;> exact hm
    obtain ⟨p, hp, rfl⟩ := sendAll_mem hm'
    have hp' := List.mem_append_right (Client.fill readFile c).removed hp
    rw [hf.packets] at hp'
    obtain ⟨k, hk, rfl⟩ := List.mem_map.mp hp'
    refine ⟨k, ?_, sendPacket_dataPacket content k⟩
    rw [passStep_created]
    exact List.mem_range.mp hk
  | fin hpc ht =>
    split_ifs at hm
    · exact Or.inr (Or.inr ⟨hpc, by simpa using hm, Or.inr (Or.inl rfl)⟩)
    · simp at hm
  | _ => simp at hm

end Steps

/-- One step of the client, without what it sends. -/
def next {φ : Type} (fread : φ → ℕ → Bytes × φ) (wanted : Addr) (c : Client φ) (i : ClientIn) :
    Option (Client φ) :=
  (step fread wanted c i).map Prod.fst

theorem WindowInv.exec {content name : Bytes} {wanted : Addr} {now : ℤ} {is : List ClientIn}
    {c : Client Bytes} (h : Machine.exec (next readFile wanted)
      (Client.init content content.length name now) is = some c) :
    WindowInv content c := by
  refine Machine.exec_invariant (I := WindowInv content) ?_ (WindowInv.init content name now) h
  intro d i e hd hs
  obtain ⟨⟨d', out⟩, h1, rfl⟩ := Option.map_eq_some_iff.mp hs
  exact hd.step h1

/-- **The client's window.**  In every state the client reaches, whatever it receives: the list
holds at most `windowSize` packets, numbered consecutively up to `sequence - 1`; the payloads of
the removed packets and of the list are the first `written + (lengths in the list)` bytes of the
file, in order; and the data loop is left with `written = size` only. -/
theorem client_window (content name : Bytes) (wanted : Addr) (now : ℤ) (is : List ClientIn)
    (c : Client Bytes) (h : Machine.exec (next readFile wanted)
      (init content content.length name now) is = some c) :
    c.packets.length ≤ windowSize ∧
    (∀ j p, c.packets[j]? = some p →
      getSeqNum p = c.sequence - UInt16.ofNat (c.packets.length - j)) ∧
    (∀ p ∈ c.removed ++ c.packets,
      (p.drop headerSize).length = (getLen p).toNat ∧ (getLen p).toNat ≤ payloadSize) ∧
    (c.removed ++ c.packets).flatMap (·.drop headerSize) =
      content.take (c.written.toNat + (c.packets.map fun p => (getLen p).toNat).sum) ∧
    0 ≤ c.written ∧ c.written ≤ content.length ∧
    (c.left → c.written = content.length) := by
  have hw := WindowInv.exec h
  have hmem : ∀ p ∈ c.removed ++ c.packets,
      (p.drop headerSize).length = (getLen p).toNat ∧ (getLen p).toNat ≤ payloadSize := by
    intro p hp
    rw [hw.packets] at hp
    obtain ⟨i, -, rfl⟩ := List.mem_map.mp hp
    rw [payload_dataPacket, getLen_dataPacket]
    exact ⟨rfl, length_chunk_le _ _ _⟩
  refine ⟨hw.window, ?_, hmem, ?_, ?_, ?_, ?_⟩
  · intro j p hj
    have hlt : j < c.packets.length := (List.getElem?_eq_some_iff.mp hj).1
    rw [hw.getElem?_packets hj, getSeqNum_dataPacket, hw.sequence]
    have e : c.created + 1 = (c.removed.length + j + 1) + (c.packets.length - j) := by
        rw [created]; omega
    rw [e, SeqNum.ofNat_add_sub]
  · -- the bytes are `written` for the removed packets and the sum of the lengths for the list
    have h1 : (c.removed.flatMap (·.drop headerSize)).length = c.written.toNat := by
      rw [hw.removed_eq, flatMap_payload, List.length_take, hw.written, Int.toNat_natCast]
    have h2 : (c.packets.flatMap (·.drop headerSize)).length =
        (c.packets.map fun p => (getLen p).toNat).sum := by
      rw [List.length_flatMap]
      exact congrArg List.sum (List.map_congr_left fun p hp =>
        (hmem p (List.mem_append_right _ hp)).1)
    have h3 : ((c.removed ++ c.packets).flatMap (·.drop headerSize)).length =
        c.written.toNat + (c.packets.map fun p => (getLen p).toNat).sum := by
      rw [List.flatMap_append, List.length_append, h1, h2]
    have h4 : (c.removed ++ c.packets).flatMap (·.drop headerSize) =
        content.take (payloadSize * c.created) := by
      rw [hw.packets, flatMap_payload]
    rw [← h3, h4, List.length_take, ← List.take_eq_take_min]
  · rw [hw.written]; exact Int.natCast_nonneg _
  · rw [← hw.size]; exact hw.written_le
  · intro hl
    rw [← hw.size]
    exact hw.left hl

/-- A file of one byte: the request is accepted, a window sent and two packets acknowledged. -/
def sampleRun : List ClientIn :=
  [.send (fun _ => true) 0, .recv [] (.got ⟨[]⟩ (createPacket cmdAck 1 0 [])) 0,
    .send (fun _ => true) 0, .recv [] (.got ⟨[]⟩ (createPacket cmdAck 3 0 [])) 0]

theorem client_window_sampleRun : ∃ c,
    Machine.exec (next readFile ⟨[]⟩) (init [42] 1 [97] 0) sampleRun = some c ∧
    c.written = 1 ∧ c.packets.length = 48 ∧ c.packets.length ≤ windowSize :=
  ⟨_, rfl, rfl, rfl, (client_window [42] [97] ⟨[]⟩ 0 sampleRun _ rfl).1⟩

end Client

end FortyTwoHundred.Ftp

import Mathlib.Data.List.InsertIdx
import FortyTwoHundred.Lib.GoBackN
import FortyTwoHundred.Ftp.Stream

/-!
# Lossy — the data transfer over queues that lose datagrams

The client and an accepted child after the handshake, with one queue each way.  A queue may lose any
datagram it holds, but keeps the order and makes no copies.  Local calls succeed, and the child
handles a datagram as one step.  The file may be of any size, so that the 16-bit numbers may come
round any number of times.

`Agree` relates such a state to the indices of `GoBackN.Inv`: the datagrams on their way are items
and answers of a go-back-N transfer with window `windowSize`.  Every step of the client and of the
child is a step of that transfer.
-/

namespace FortyTwoHundred.Ftp

structure Lossy where
  client : Client Bytes
  child : Child
  disk : Option Bytes
  /-- history of the bytes the child has written -/
  output : Bytes
  /-- datagrams on their way, oldest first -/
  toServer : List Bytes
  toClient : List Bytes

inductive LossyEv
  | clientSend (now : ℤ)
  | clientRecv (temp : Bytes) (r : Recv) (now : ℤ)
  | child (i : ChildIn)
  /-- the datagram at this place of a queue is lost -/
  | loseToServer (k : ℕ)
  | loseToClient (k : ℕ)

/-- What a receive leaves in the queue: a datagram is taken from the front, or nothing has
arrived. -/
def Recv.take (q : List Bytes) : Recv → Option (List Bytes)
  | .got _ d => if q.head? = some d then some q.tail else none
  | .fail .again => some q
  | .fail .other => none

namespace Lossy

/-- What a call of the child leaves in the queue to it; its sends succeed. -/
def served (s : Lossy) : ChildIn → Option (List Bytes)
  | .poll _ _ _ r => r.take s.toServer
  | .send ok _ _ => if ok then some s.toServer else none
  | _ => some s.toServer

def step (wanted origin : Addr) (s : Lossy) : LossyEv → Option Lossy
  | .clientSend now =>
    (s.client.step readFile wanted (.send (fun _ => true) now)).map fun p =>
      { s with client := p.1, toServer := s.toServer ++ p.2 }
  | .clientRecv temp r now =>
    (r.take s.toClient).bind fun q =>
      (s.client.step readFile wanted (.recv temp r now)).map fun p =>
        { s with client := p.1, toClient := q }
  | .child i =>
    (s.served i).bind fun q =>
      (s.child.atomic origin i).map fun p =>
        { s with
          child := p.1
          disk := p.2.foldl Effect.onDisk s.disk
          output := s.output ++ p.2.flatMap Effect.appended
          toServer := q
          toClient := s.toClient ++ p.2.filterMap Effect.sent }
  | .loseToServer k => some { s with toServer := s.toServer.eraseIdx k }
  | .loseToClient k => some { s with toClient := s.toClient.eraseIdx k }

/-- The end of the handshake: the client has received an acknowledgement of its request and begins
its data loop; the child still sends acknowledgements or is in its receive loop. -/
structure Start (U : Upload) (s : Lossy) : Prop where
  client : ∃ started now buffer, s.client =
    Client.reply cmdAck now { Client.init U.content U.content.length U.name started with
      pc := .reqRecv
      buffer := buffer }
  pc : (∃ t, s.child.pc = .ackRequest t) ∨ ∃ t, s.child.pc = .poll t
  filesize : s.child.filesize = U.content.length
  read : s.child.read = 0
  expected : s.child.expectedSequence = 1
  accepted : s.child.accepted = []
  disk : s.disk = some []
  output : s.output = []
  toServer : s.toServer = []
  toClient : ∀ d ∈ s.toClient, d = ackPacket 1

/-! ## Datagrams on their way -/

/-- A datagram to the child: the packet of a chunk, or `FIN`. -/
def item (content : Bytes) : Option ℕ → Bytes
  | some i => dataPacket content i
  | none => Client.finPacket

/-- A datagram to the client: the acknowledgement that names the next packet, or `FINACK`. -/
def answer : Option ℕ → Bytes
  | some a => ackPacket (UInt16.ofNat (a + 1))
  | none => finAckPacket

theorem isPacket_item (content : Bytes) (x : Option ℕ) : IsPacket (item content x) := by
  cases x with
  | some i => exact isPacket_dataPacket content i
  | none => exact .createPacket (Nat.zero_le _) (Nat.zero_le _)

theorem command_item_none (content : Bytes) : command (item content none) ≠ cmdData := by
  rw [item, Client.finPacket, command_createPacket]
  decide

theorem isPacket_answer (y : Option ℕ) : IsPacket (answer y) := by
  cases y with
  | some a => exact .createPacket (Nat.zero_le _) (Nat.zero_le _)
  | none => exact .createPacket (Nat.zero_le _) (Nat.zero_le _)

/-- Where an accepted child can be; it closes only once the client has left its data loop. -/
def Serving (left : Prop) (c : Child) : Prop :=
  match c.pc with
  | .ackRequest _ => c.accepted = []
  | .poll _ => True
  | .finackTop _ | .finackRecv _ | .done (.returned .ok) => left
  | .done e => e ≠ .exited .badRequest
  | _ => False

/-- The state as a go-back-N transfer, with `xs` and `ys` on their way. -/
structure Agree (U : Upload) (xs ys : List (Option ℕ)) (s : Lossy) : Prop where
  window : Client.WindowInv U.content s.client
  started : s.client.InData
  stream : Session.ChildInv U s.disk s.output s.child
  filesize : s.child.filesize = U.content.length
  serving : Serving s.client.left s.child
  toServer : s.toServer = xs.map (item U.content)
  toClient : s.toClient = ys.map answer
  indices : GoBackN.Inv windowSize s.client.removed.length s.child.accepted.length s.client.created
    (xs.filterMap id) (ys.filterMap id)
  fin : none ∈ xs → s.client.left
  finAck : none ∈ ys → s.client.left

section Steps

variable {U : Upload} {xs ys : List (Option ℕ)} {s t : Lossy} {wanted origin : Addr}

theorem Serving.mono {p q : Prop} (hpq : p → q) {c : Child} (h : Serving p c) : Serving q c := by
  unfold Serving at h ⊢
  split at h
  · exact h
  · trivial
  · exact hpq h
  · exact hpq h
  · exact hpq h
  · exact h
  · exact h

/-- Where the client has left its data loop, the child has the whole file. -/
theorem Agree.complete (h : Agree U xs ys s) (hl : s.client.left) :
    s.child.read = s.child.filesize := by
  have h1 := h.window.left hl
  have h2 := h.indices.released
  have hp : payloadSize = 2043 := rfl
  rw [h.window.written, h.window.size] at h1
  rw [h.stream.read, h.filesize]
  rw [hp] at h1 ⊢
  omega

/-! ## The client's steps -/

/-- The parts of a client that its place in the transfer depends on. -/
theorem Agree.client (h : Agree U xs ys s) {c : Client Bytes} {q : List Bytes}
    {xs' ys' : List (Option ℕ)} {net : List Bytes} (hw : Client.WindowInv U.content c)
    (hpc : c.InData) (hl : s.client.left → c.left) (hx : net = xs'.map (item U.content))
    (hy : q = ys'.map answer)
    (hi : GoBackN.Inv windowSize c.removed.length s.child.accepted.length c.created
      (xs'.filterMap id) (ys'.filterMap id))
    (hfin : none ∈ xs' → c.left) (hack : none ∈ ys' → c.left) :
    Agree U xs' ys' { s with client := c, toServer := net, toClient := q } :=
  ⟨hw, hpc, h.stream, h.filesize, h.serving.mono hl, hx, hy, hi, hfin, hack⟩

theorem filterMap_map_some (l : List ℕ) : (l.map some).filterMap id = l := by
  rw [List.filterMap_map]
  exact List.filterMap_some

/-- A pass: the window is filled and sent whole. -/
theorem passStep_sent {content : Bytes} {c : Client Bytes} (h : Client.WindowInv content c)
    (hpc : c.pc = .pass) (now : ℤ) : (Client.passStep readFile (fun _ => true) now c).2 =
      (List.range' c.removed.length
        ((Client.passStep readFile (fun _ => true) now c).1.created - c.removed.length)).map
        (dataPacket content) ∧
    (Client.passStep readFile (fun _ => true) now c).1.removed = c.removed := by
  obtain ⟨hfill, -⟩ := h.fill hpc
  have hrem := (Client.fill_frame readFile c).1
  have hpk := hfill.packets_eq
  have hlen : (Client.fill readFile c).packets.length =
      (Client.fill readFile c).created - c.removed.length := by
    rw [Client.created, hrem]
    omega
  rw [hrem, hlen] at hpk
  rw [Client.passStep_created, Client.passStep, hfill.sendAll_packets]
  dsimp only
  rw [if_neg (by simp)]
  split_ifs
  · exact ⟨hpk, hrem⟩
  · exact ⟨hpk, hrem⟩

theorem Agree.clientSend (h : Agree U xs ys s) {now : ℤ}
    (hs : s.step wanted origin (.clientSend now) = some t) : ∃ xs', Agree U xs' ys t := by
  obtain ⟨⟨c, out⟩, hstep, rfl⟩ := Option.map_eq_some_iff.mp hs
  have hw := h.window.step hstep
  have hleft : s.client.left → c.left := fun hl => Client.left_of_step hl hstep
  cases Client.trans_of_step hstep with
  | request hpc hsend => exact absurd hpc h.started.1
  | noRequest hpc => exact absurd hpc h.started.1
  | pass hpc =>
    obtain ⟨hout, hrem⟩ := passStep_sent h.window hpc now
    have hcr := Client.created_le_of_step hstep
    have hwin : (Client.passStep readFile (fun _ => true) now s.client).1.created ≤
        s.client.removed.length + windowSize := by
      have := hw.window
      rw [Client.created, hrem]
      omega
    have hnl : ¬ s.client.left := by simp [Client.left, hpc]
    refine ⟨xs ++ (List.range' s.client.removed.length
      ((Client.passStep readFile (fun _ => true) now
      s.client).1.created - s.client.removed.length)).map some, ?_⟩
    refine h.client hw (h.started.step hstep) hleft ?_ h.toClient ?_ ?_
      (fun hm => hleft (h.finAck hm))
    · rw [hout, h.toServer, List.map_append, List.map_map]
      rfl
    · rw [List.filterMap_append, filterMap_map_some, hrem]
      exact h.indices.send hcr hwin
    · intro hm
      rcases List.mem_append.mp hm with hm | hm
      · exact absurd (h.fin hm) hnl
      · simp at hm
  | fin hpc ht =>
    refine ⟨xs ++ [none], h.client hw ⟨by simp, by simp⟩ hleft ?_ h.toClient ?_
      (fun _ => Or.inr (Or.inl rfl))
      (fun _ => Or.inr (Or.inl rfl))⟩
    · rw [h.toServer]
      simp [item]
    · rw [List.filterMap_append]
      simp only [List.filterMap_cons, id, List.filterMap_nil, List.append_nil]
      exact h.indices
  | finTimeout hpc ht =>
    refine ⟨xs, h.client hw ⟨by simp [Client.finish], by simp [Client.finish]⟩ hleft ?_
      h.toClient h.indices
      (fun _ => Or.inr (Or.inr rfl)) (fun _ => Or.inr (Or.inr rfl))⟩
    rw [List.append_nil]
    exact h.toServer

/-- An acknowledgement releases the packets before the one it names. -/
theorem length_released {content : Bytes} {c : Client Bytes} (hw : Client.WindowInv content c)
    {e a : ℕ} {ds as : List ℕ} (hi : GoBackN.Inv windowSize c.removed.length e c.created ds as)
    (ha : a ∈ as) (now : ℤ) : (Client.release (UInt16.ofNat (a + 1)) now c).removed.length = a := by
  have hlen : c.packets.length = c.created - c.removed.length := by
    rw [Client.created]
    omega
  have hnum : (fun p => getSeqNum p != UInt16.ofNat (a + 1)) ∘ dataPacket content =
      fun i => UInt16.ofNat (i + 1) != UInt16.ofNat (a + 1) := by
    funext i
    simp only [Function.comp, getSeqNum_dataPacket]
  have hbound := hi.answers a ha
  rw [(Client.release_packets _ now c).2, List.length_append, hw.packets_eq, List.takeWhile_map,
    List.length_map, hnum,
    hlen, hi.takeWhile_window (by decide) ha, List.length_range']
  omega

/-- The datagram a receive takes is the oldest on its way. -/
theorem take_got {f : Option ℕ → Bytes} {zs : List (Option ℕ)} {src : Addr} {d : Bytes}
    {q : List Bytes} (h : (Recv.got src d).take (zs.map f) = some q) :
    ∃ z zs', zs = z :: zs' ∧ d = f z ∧ q = zs'.map f := by
  rw [Recv.take] at h
  split_ifs at h with hd
  cases zs with
  | nil => simp at hd
  | cons z zs' => exact ⟨z, zs', rfl, by simpa using hd.symm, by simpa using h.symm⟩

theorem loopTop_removed (now : ℤ) (c : Client Bytes) :
    (Client.loopTop now c).removed = c.removed := by
  rw [Client.loopTop]
  split_ifs <;> rfl

theorem handleFin_removed (rr : ReadResult) (c : Client Bytes) :
    (Client.handleFin rr c).removed = c.removed := by
  rw [Client.handleFin]
  dsimp only
  split_ifs <;> rfl

/-- In its receive loop the client releases what the oldest answer says, or starts another pass. -/
theorem Agree.drain (h : Agree U xs ys s) {temp : Bytes} {r : Recv} {now : ℤ} {q : List Bytes}
    (hq : r.take s.toClient = some q) (hpc : s.client.pc = .drain)
    (hw : Client.WindowInv U.content
      (Client.handle ⟨r.ret, r.again, overlay r.stored temp⟩ now s.client)) :
    ∃ ys', Agree U xs ys'
      { s with
        client := Client.handle ⟨r.ret, r.again, overlay r.stored temp⟩ now s.client
        toClient := q } := by
  have hnl : ¬ s.client.left := by simp [Client.left, hpc]
  cases r with
  | fail errno =>
    cases errno with
    | other => simp [Recv.take] at hq
    | again =>
      obtain rfl : s.toClient = q := by simpa [Recv.take] using hq
      obtain ⟨c, hc⟩ : ∃ c : Client Bytes,
          c = { s.client with read := -1, buffer := overlay [] temp } := ⟨_, rfl⟩
      have he : Client.handle ⟨(Recv.fail .again).ret, (Recv.fail .again).again,
          overlay (Recv.fail .again).stored temp⟩
          now s.client = Client.loopTop now c := by
        rw [Client.handle, hc]
        exact if_pos ⟨by simp [Recv.ret], rfl⟩
      rw [he] at hw ⊢
      refine ⟨ys, h.client hw (.loopTop now c) (fun hl => absurd hl hnl) h.toServer h.toClient ?_
        (fun hm => absurd (h.fin hm) hnl)
        (fun hm => absurd (h.finAck hm) hnl)⟩
      rw [loopTop_removed, Client.loopTop_created, hc]
      exact h.indices
  | got src d =>
    rw [h.toClient] at hq
    obtain ⟨y, ys', rfl, rfl, rfl⟩ := take_got hq
    have hpk := isPacket_answer y
    cases y with
    | none => exact absurd (h.finAck (by simp)) hnl
    | some a =>
      obtain ⟨c, hc⟩ : ∃ c : Client Bytes, c = { s.client with
        read := (Recv.got src (answer (some a))).ret
        buffer := overlay (answer (some a)) temp } := ⟨_, rfl⟩
      have hret : ¬ (Recv.got src (answer (some a))).ret < 0 := by simp [Recv.ret]
      have hcmd : command (overlay (answer (some a)) temp) = cmdAck := hpk.command_overlay temp
      have he : Client.handle ⟨(Recv.got src (answer (some a))).ret,
          (Recv.got src (answer (some a))).again,
          overlay (Recv.got src (answer (some a))).stored temp⟩ now s.client =
          Client.release (UInt16.ofNat (a + 1)) now c := by
        rw [Client.handle, Recv.stored, hpk.take_packetSize]
        dsimp only
        rw [if_neg (fun hh => hret hh.1), if_pos hcmd, hpk.getSeqNum_overlay, hc]
        simp [answer, ackPacket]
      rw [he] at hw ⊢
      have hwc : Client.WindowInv U.content c := by
        rw [hc]
        exact h.window.move rfl rfl rfl rfl rfl rfl (fun hp => by simp [hpc] at hp)
          (fun hl => absurd hl hnl)
      have hic : GoBackN.Inv windowSize c.removed.length s.child.accepted.length c.created
          (xs.filterMap id)
          (a :: ys'.filterMap id) := by
        rw [hc]
        exact h.indices
      have hlen := length_released hwc hic List.mem_cons_self now
      have hpc' : (Client.release (UInt16.ofNat (a + 1)) now c).pc = .drain := by
        rw [(Client.release_frame _ now c).1, hc]
        exact hpc
      refine ⟨ys', h.client hw ⟨by rw [hpc']; simp, by rw [hpc']; simp⟩
        (fun hl => absurd hl hnl) h.toServer rfl ?_
        (fun hm => absurd (h.fin hm) hnl) (fun hm => absurd (h.finAck (by simp [hm])) hnl)⟩
      rw [hlen, Client.release_created]
      exact hic.release

theorem Agree.clientRecv (h : Agree U xs ys s) {temp : Bytes} {r : Recv} {now : ℤ}
    (hs : s.step wanted origin (.clientRecv temp r now) = some t) : ∃ ys', Agree U xs ys' t := by
  obtain ⟨q, hq, hs⟩ := Option.bind_eq_some_iff.mp hs
  obtain ⟨⟨c, out⟩, hstep, rfl⟩ := Option.map_eq_some_iff.mp hs
  have hw := h.window.step hstep
  have hleft : s.client.left → c.left := fun hl => Client.left_of_step hl hstep
  cases Client.trans_of_step hstep with
  | reply hpc => exact absurd hpc h.started.2
  | drain hpc => exact h.drain hq hpc hw
  | finRecv hpc =>
    have hl : s.client.left := Or.inr (Or.inl hpc)
    obtain ⟨ys', hys, hsub⟩ : ∃ ys' : List (Option ℕ), q = ys'.map answer ∧ ys'.Sublist ys := by
      cases r with
      | fail errno =>
        cases errno with
        | other => simp [Recv.take] at hq
        | again =>
          obtain rfl : s.toClient = q := by simpa [Recv.take] using hq
          exact ⟨ys, h.toClient, List.Sublist.refl _⟩
      | got src d =>
        rw [h.toClient] at hq
        obtain ⟨y, ys', rfl, rfl, rfl⟩ := take_got hq
        exact ⟨ys', rfl, List.sublist_cons_self y ys'⟩
    refine ⟨ys', h.client hw (hleft hl).inData hleft h.toServer hys ?_ (fun _ => hleft hl)
      (fun _ => hleft hl)⟩
    rw [handleFin_removed, (Client.handleFin_frame _ _).1]
    exact h.indices.lose (List.Sublist.refl _) (hsub.filterMap id)

/-! ## The child's steps -/

/-- The parts of the child that its place in the transfer depends on. -/
theorem Agree.child (h : Agree U xs ys s) {c : Child} {disk : Option Bytes} {output : Bytes}
    {q net : List Bytes} {xs' ys' : List (Option ℕ)} (hc : Session.ChildInv U disk output c)
    (hf : c.filesize = U.content.length) (hs : Serving s.client.left c)
    (hx : net = xs'.map (item U.content)) (hy : q = ys'.map answer)
    (hi : GoBackN.Inv windowSize s.client.removed.length c.accepted.length s.client.created
      (xs'.filterMap id) (ys'.filterMap id))
    (hsub : xs'.Sublist xs) (hack : none ∈ ys' → s.client.left) :
    Agree U xs' ys' { s with
      child := c
      disk := disk
      output := output
      toServer := net
      toClient := q } :=
  ⟨h.window, h.started, hc, hf, hs, hx, hy, hi, fun hm => h.fin (hsub.subset hm), hack⟩

/-- A `DATA` datagram of the queue with the expected number is the expected packet. -/
theorem Agree.due (h : Agree U xs ys s) {i : ChildIn} {q : List Bytes} (hq : s.served i = some q) :
    Session.Due U s.child i ∧ ∀ now temp beyond r, i = .poll now temp beyond r →
    r.inNet s.toServer = true := by
  cases i with
  | poll now temp beyond r =>
    cases r with
    | fail errno => exact ⟨trivial, fun _ _ _ r hr => by cases hr; rfl⟩
    | got src d =>
      rw [served, h.toServer] at hq
      obtain ⟨x, xs', rfl, rfl, rfl⟩ := take_got hq
      refine ⟨?_, ?_⟩
      · intro startTime hpc htime hcmd hseq
        cases x with
        | none => exact absurd hcmd (command_item_none _)
        | some i =>
          rw [item, getSeqNum_dataPacket, h.stream.expected] at hseq
          rw [item, h.indices.item_eq (by decide) (by simp) hseq]
      · rintro _ _ _ r hr
        cases hr
        simp [Recv.inNet, h.toServer]
  | _ => exact ⟨trivial, fun _ _ _ _ hr => by cases hr⟩

/-- What a receive leaves on the way to the child. -/
theorem Agree.taken (h : Agree U xs ys s) {i : ChildIn} {q : List Bytes}
    (hq : s.served i = some q) : ∃ xs' : List (Option ℕ), q = xs'.map (item U.content) ∧
    xs'.Sublist xs := by
  have hkeep : s.toServer = q → ∃ xs' : List (Option ℕ), q = xs'.map (item U.content) ∧
      xs'.Sublist xs := by
    rintro rfl
    exact ⟨xs, h.toServer, List.Sublist.refl _⟩
  cases i with
  | poll now temp beyond r =>
    cases r with
    | fail errno =>
      cases errno with
      | other => simp [served, Recv.take] at hq
      | again => exact hkeep (by simpa [served, Recv.take] using hq)
    | got src d =>
      rw [served, h.toServer] at hq
      obtain ⟨x, xs', rfl, rfl, rfl⟩ := take_got hq
      exact ⟨xs', rfl, List.sublist_cons_self x xs'⟩
  | send ok again now =>
    rw [served] at hq
    split_ifs at hq
    exact hkeep (Option.some.inj hq)
  | _ => exact hkeep (Option.some.inj hq)

/-- The datagram a poll of the child handles. -/
theorem Agree.head (h : Agree U xs ys s) {now : ℤ} {temp : Bytes} {beyond : ℕ → Byte} {r : Recv}
    {q : List Bytes} (hq : s.served (.poll now temp beyond r) = some q) (hr : 0 < r.ret) :
    ∃ (x : Option ℕ) (xs' : List (Option ℕ)), xs = x :: xs' ∧ q = xs'.map (item U.content) ∧
      overlay r.stored temp = overlay (item U.content x) temp := by
  cases r with
  | fail errno => simp [Recv.ret] at hr
  | got src d =>
    rw [served, h.toServer] at hq
    obtain ⟨x, xs', hxs, rfl, hrest⟩ := take_got hq
    exact ⟨x, xs', hxs, hrest, by rw [Recv.stored, (isPacket_item _ _).take_packetSize]⟩

/-- A `FIN` reaches the child only after the client has left its data loop. -/
theorem Agree.finished (h : Agree U xs ys s) {now : ℤ} {temp : Bytes} {beyond : ℕ → Byte} {r : Recv}
    {q : List Bytes} (hq : s.served (.poll now temp beyond r) = some q) (hr : 0 < r.ret)
    (hcmd : command (overlay r.stored temp) = cmdFin) : s.client.left := by
  obtain ⟨x, xs', rfl, -, hbuf⟩ := h.head hq hr
  rw [hbuf, (isPacket_item _ _).command_overlay] at hcmd
  cases x with
  | none => exact h.fin (by simp)
  | some i => exact absurd hcmd (by rw [item, command_dataPacket]; decide)

/-- The answer that names the next packet. -/
theorem filterMap_answered (ys : List (Option ℕ)) (a : ℕ) :
    (ys ++ [some a]).filterMap id = ys.filterMap id ++ [a] := by
  rw [List.filterMap_append]
  rfl

theorem none_of_answered {ys : List (Option ℕ)} {a : ℕ} (h : none ∈ ys ++ [some a]) :
    none ∈ ys := by
  simpa using h

/-- The child answers with the next packet it expects. -/
theorem answer_expected {disk : Option Bytes} {output : Bytes} {c : Child}
    (h : Session.ChildInv U disk output c) :
    answer (some c.accepted.length) = ackPacket c.expectedSequence := by
  rw [answer, h.expected]

theorem Agree.trans (h : Agree U xs ys s) {i : ChildIn} {c : Child} {effs : List Effect}
    {q : List Bytes} {disk : Option Bytes} {output : Bytes} (hq : s.served i = some q)
    (ht : Child.Trans origin s.child i c effs) (hd : c.Settled)
    (hci : Session.ChildInv U disk output c) : ∃ xs' ys', Agree U xs' ys' { s with
      child := c
      disk := disk
      output := output
      toServer := q
      toClient := s.toClient ++ effs.filterMap Effect.sent } := by
  obtain ⟨xs', hx, hsub⟩ := h.taken hq
  have hix := h.indices.lose (hsub.filterMap id) (List.Sublist.refl (ys.filterMap id))
  have hserv := h.serving
  have hquiet : ∀ {d : Child}, Session.ChildInv U disk output d → d.filesize = s.child.filesize →
      d.accepted = s.child.accepted → Serving s.client.left d → ∃ xs' ys', Agree U xs' ys' { s with
        child := d
        disk := disk
        output := output
        toServer := q
        toClient := s.toClient ++ [] } := by
    intro d hdi hdf hda hds
    refine ⟨xs', ys, h.child hdi (hdf.trans h.filesize) hds hx
      (by rw [List.append_nil]; exact h.toClient) ?_ hsub
      h.finAck⟩
    rw [hda]
    exact hix
  have hanswer : ∀ {d : Child} {m : UInt16}, m = s.child.expectedSequence →
      Session.ChildInv U disk output d →
      d.filesize = s.child.filesize → d.accepted = s.child.accepted → Serving s.client.left d →
      ∃ xs' ys', Agree U xs' ys' { s with
        child := d
        disk := disk
        output := output
        toServer := q
        toClient := s.toClient ++ [ackPacket m] } := by
    rintro d m rfl hdi hdf hda hds
    refine ⟨xs', ys ++ [some s.child.accepted.length], h.child hdi (hdf.trans h.filesize) hds
      hx ?_ ?_ hsub
      (fun hm => h.finAck (none_of_answered hm))⟩
    · rw [List.map_append, ← h.toClient, List.map_singleton, answer_expected h.stream]
    · rw [hda, filterMap_answered]
      exact hix.answer
  have hone : ∀ {t}, s.child.pc = .ackRequest t → 1 = s.child.expectedSequence := by
    intro t hpc
    have hacc : s.child.accepted = [] := by simpa only [Serving, hpc] using hserv
    rw [h.stream.expected, hacc]
    rfl
  cases ht with
  | noAck hpc => exact absurd rfl (hd.2 _)
  | ackAgain hpc htime => exact hanswer (hone hpc) hci rfl rfl hserv
  | ack hpc => exact hanswer (hone hpc) hci rfl rfl (by simp [Serving])
  | idle hpc htime hr => exact hquiet hci rfl rfl (by simp only [Serving, hpc])
  | timeout hpc htime => exact absurd rfl (hd.2 _)
  | datagram hpc htime hr =>
    simp only [Child.handle] at hd hci ⊢
    split_ifs at hd hci ⊢ with hcmd hseq hfin hread
    · exact hanswer rfl hci rfl rfl (by simp [Serving])
    · exact absurd rfl (hd.1 _)
    · exact absurd rfl (hd.2 _)
    · exact hquiet hci rfl rfl (h.finished hq hr hfin)
    · exact hquiet hci rfl rfl (by simp [Serving])
  | @finack t ok again now hpc htime =>
    have hl : s.client.left := by simpa only [Serving, hpc] using hserv
    obtain rfl : ok = true := by
      by_contra hok
      simp [served, hok] at hq
    refine ⟨xs', ys ++ [none], h.child hci h.filesize hl hx ?_ ?_ hsub (fun _ => hl)⟩
    · rw [List.map_append, ← h.toClient]
      rfl
    · rw [List.filterMap_append]
      simp only [List.filterMap_cons, id, List.filterMap_nil, List.append_nil]
      exact hix
  | finackTimeout hpc htime =>
    have hl : s.client.left := by simpa only [Serving, hpc] using hserv
    exact hquiet hci rfl rfl hl
  | @finackRecv t now temp beyond r hpc =>
    have hl : s.client.left := by simpa only [Serving, hpc] using hserv
    obtain ⟨hp, -, -, ha, hf⟩ := s.child.finackStep_frame origin t temp r
    refine hquiet hci hf ha ?_
    rcases hp with hp | hp
    · simpa only [Serving, hp] using hl
    · simpa only [Serving, hp] using hl
  | _ => simp [Serving, *] at hserv

theorem Agree.childStep (h : Agree U xs ys s) {i : ChildIn}
    (hs : s.step wanted origin (.child i) = some t) : ∃ xs' ys', Agree U xs' ys' t := by
  obtain ⟨q, hq, hs⟩ := Option.bind_eq_some_iff.mp hs
  obtain ⟨⟨c, effs⟩, hatomic, rfl⟩ := Option.map_eq_some_iff.mp hs
  have ha := Child.atomic_inv h.stream.settled hatomic
  have hnet : ∀ d ∈ s.toServer, IsPacket d := by
    intro d hd
    rw [h.toServer] at hd
    obtain ⟨x, -, rfl⟩ := List.mem_map.mp hd
    exact isPacket_item _ x
  obtain ⟨hdue, hin⟩ := h.due hq
  have hci := h.stream.atomic hdue hnet hin ha
  obtain ⟨xs', hx, hsub⟩ := h.taken hq
  have hix := h.indices.lose (hsub.filterMap id) (List.Sublist.refl (ys.filterMap id))
  cases ha with
  | settled ht hd => exact h.trans hq ht hd hci
  | noAck hpc => simp [served] at hq
  | timeout hpc htime =>
    refine ⟨xs', ys, h.child hci h.filesize ?_ hx (List.append_nil _ ▸ h.toClient) hix
      hsub h.finAck⟩
    simp [Serving, Child.finish]
  | incomplete hpc htime hr hd hcmd hn =>
    -- the child has everything when the client sends `FIN`
    subst hd
    exact absurd (h.complete (h.finished hq hr hcmd)) hn
  | @accept startTime now temp beyond r d hpc htime hr hd hcmd hseq hfit =>
    obtain ⟨x, xs'', rfl, rfl, hbuf⟩ := h.head hq hr
    subst hd
    dsimp only at hcmd hseq
    rw [hbuf, (isPacket_item _ _).command_overlay] at hcmd
    rw [hbuf, (isPacket_item _ _).getSeqNum_overlay] at hseq
    cases x with
    | none => exact absurd hcmd (command_item_none _)
    | some j =>
      rw [item, getSeqNum_dataPacket, h.stream.expected] at hseq
      have hi := h.indices
      simp only [List.filterMap_cons, id] at hi
      obtain rfl : j = s.child.accepted.length := hi.item_eq (by decide) (by simp) hseq
      refine ⟨xs'', ys ++ [some (s.child.accepted.length + 1)],
        h.child hci h.filesize (by simp [Serving]) rfl ?_ ?_
        (List.sublist_cons_self _ _) (fun hm => h.finAck (none_of_answered hm))⟩
      · rw [List.map_append, ← h.toClient, List.map_singleton, answer, SeqNum.ofNat_succ,
          ← h.stream.expected]
        rfl
      · rw [filterMap_answered]
        simp only [Child.accept, List.length_append, List.length_singleton]
        exact hi.accept
  | excess hpc htime hr hd hcmd hseq hover =>
    subst hd
    exact absurd ⟨rfl, hover⟩ hci.not_excess

/-- **Every step of the two parties and of the queues is a step of a go-back-N transfer.** -/
theorem Agree.step (h : Agree U xs ys s) {e : LossyEv} (hs : s.step wanted origin e = some t) :
    ∃ xs' ys', Agree U xs' ys' t := by
  cases e with
  | clientSend now =>
    obtain ⟨xs', h'⟩ := h.clientSend hs
    exact ⟨xs', ys, h'⟩
  | clientRecv temp r now =>
    obtain ⟨ys', h'⟩ := h.clientRecv hs
    exact ⟨xs, ys', h'⟩
  | child i => exact h.childStep hs
  | loseToServer k =>
    obtain rfl := Option.some.inj hs
    have hsub := List.eraseIdx_sublist xs k
    refine ⟨xs.eraseIdx k, ys, h.window, h.started, h.stream, h.filesize, h.serving, ?_, h.toClient,
      h.indices.lose (hsub.filterMap id) (List.Sublist.refl _), fun hm =>
      h.fin (hsub.subset hm), h.finAck⟩
    rw [h.toServer, List.eraseIdx_map]
  | loseToClient k =>
    obtain rfl := Option.some.inj hs
    have hsub := List.eraseIdx_sublist ys k
    refine ⟨xs, ys.eraseIdx k, h.window, h.started, h.stream, h.filesize, h.serving, h.toServer, ?_,
      h.indices.lose (List.Sublist.refl _) (hsub.filterMap id), h.fin, fun hm =>
      h.finAck (hsub.subset hm)⟩
    rw [h.toClient, List.eraseIdx_map]

theorem Agree.start (h : Start U s) : ∃ ys, Agree U [] ys s := by
  obtain ⟨started, now, buffer, hc⟩ := h.client
  have hinit : Client.WindowInv U.content
      { Client.init U.content U.content.length U.name started with
        pc := .reqRecv
        buffer := buffer } :=
    (Client.WindowInv.init U.content U.name started).move rfl rfl rfl rfl rfl rfl
      (fun _ => by simp [Client.init, Client.created]) (fun hl => by simp [Client.left] at hl)
  have hw : Client.WindowInv U.content s.client := by
    rw [hc]
    exact hinit.reply rfl cmdAck now
  have hrep : s.client = Client.loopTop now
      { Client.init U.content U.content.length U.name started with
        pc := .reqRecv
        buffer := buffer
        lastACK := now } := by
    rw [hc, Client.reply, if_pos rfl]
  have hcr : s.client.created = 0 := by
    rw [hrep, Client.loopTop_created]
    rfl
  have hrem0 : s.client.removed.length = 0 := by
    rw [hrep, loopTop_removed]
    rfl
  refine ⟨List.replicate s.toClient.length (some 0), hw, by rw [hrep]; exact .loopTop _ _, ?_,
    h.filesize, ?_, h.toServer, ?_, ?_,
    by simp, by simp⟩
  · refine ⟨?_, by rw [h.accepted]; rfl, by rw [h.accepted, h.expected]; rfl,
      by rw [h.accepted, h.read]; simp, by rw [h.accepted, h.output]; simp, ?_⟩
    · rcases h.pc with ⟨t, hpc⟩ | ⟨t, hpc⟩
      · exact ⟨fun bs => by simp [hpc], fun st => by simp [hpc]⟩
      · exact ⟨fun bs => by simp [hpc], fun st => by simp [hpc]⟩
    · rcases h.pc with ⟨t, hpc⟩ | ⟨t, hpc⟩
      · simp only [Session.Phase, hpc]
        exact ⟨h.filesize, by rw [h.disk, h.output]⟩
      · simp only [Session.Phase, hpc]
        exact ⟨h.filesize, by rw [h.disk, h.output]⟩
  · rcases h.pc with ⟨t, hpc⟩ | ⟨t, hpc⟩
    · simp only [Serving, hpc]
      exact h.accepted
    · simp only [Serving, hpc]
  · rw [List.map_replicate]
    exact List.eq_replicate_iff.mpr ⟨rfl, h.toClient⟩
  · rw [hrem0, hcr, h.accepted]
    refine GoBackN.Inv.init windowSize ?_
    intro a ha
    obtain ⟨y, hy, hya⟩ := List.mem_filterMap.mp ha
    rw [(List.mem_replicate.mp hy).2] at hya
    exact (Option.some.inj hya).symm

end Steps

/-- **Agreement of the two parties over lossy queues.**  In every state reached after the handshake:
the bytes written by the child are the first `read` bytes of the file; `written` is at most the
child's `read`; the packets the client has removed are a beginning of those the child has accepted;
once the client has left its data loop, `read` is `filesize`; and the child never ends with
`BAD_REQUEST`, by too much data or by a `FIN` that comes too early. -/
theorem go_back_n (U : Upload) (wanted origin : Addr) (s₀ s : Lossy) (es : List LossyEv)
    (h₀ : Start U s₀) (h : Machine.exec (step wanted origin) s₀ es = some s) :
    s.output <+: U.content ∧ (s.output.length : ℤ) = s.child.read ∧
    s.client.written ≤ s.child.read ∧
    s.client.removed <+: s.child.accepted ∧ s.child.filesize = U.content.length ∧
    (s.client.left → s.child.read = s.child.filesize) ∧
    s.child.pc ≠ .done (.exited .badRequest) := by
  obtain ⟨xs, ys, hinv⟩ : ∃ xs ys, Agree U xs ys s := by
    refine Machine.exec_invariant (I := fun s => ∃ xs ys, Agree U xs ys s) ?_ ?_ h
    · rintro u e v ⟨xs, ys, hu⟩ hs
      exact hu.step hs
    · obtain ⟨ys, hs⟩ := Agree.start h₀
      exact ⟨[], ys, hs⟩
  have hle := hinv.indices.released
  refine ⟨?_, hinv.stream.output_length, ?_, ?_, hinv.filesize, hinv.complete, ?_⟩
  · rw [hinv.stream.written]
    exact List.take_prefix _ _
  · have hp : payloadSize = 2043 := rfl
    rw [hinv.window.written, hinv.stream.read, hp]
    omega
  · rw [hinv.window.removed_eq, hinv.stream.accepted]
    refine List.IsPrefix.map _ ?_
    rw [List.range_eq_range', List.range_eq_range']
    refine ⟨List.range' (0 + s.client.removed.length)
      (s.child.accepted.length - s.client.removed.length), ?_⟩
    rw [List.range'_append_1, Nat.add_sub_cancel' hle]
  · intro hpc
    have := hinv.serving
    simp [Serving, hpc] at this

/-- A file of one byte after the handshake. -/
def sampleStart : Lossy where
  client := Client.reply cmdAck 0 { Client.init [42] 1 [97] 0 with pc := .reqRecv, buffer := [] }
  child := { Child.init (requestPacket [97] 1) with
    pc := .poll 0
    filename := [97]
    sizeText := [49]
    filesize := 1 }
  disk := some []
  output := []
  toServer := []
  toClient := []

/-- The window is sent, a padding packet is lost, the byte is accepted and acknowledged. -/
def sampleRun : List LossyEv :=
  [.clientSend 0, .loseToServer 3, .child (.poll 0 [] (fun _ => 0) (.got ⟨[]⟩ (dataPacket [42] 0))),
    .clientRecv [] (.got ⟨[]⟩ (ackPacket 2)) 0, .clientRecv [] (.fail .again) 0]

theorem go_back_n_sampleRun : ∃ s, Start Session.oneByte sampleStart ∧
    Machine.exec (step ⟨[]⟩ ⟨[]⟩) sampleStart sampleRun = some s ∧ s.client.left ∧
    s.child.read = s.child.filesize := by
  have h₀ : Start Session.oneByte sampleStart :=
    ⟨⟨0, 0, [], rfl⟩, Or.inr ⟨0, rfl⟩, rfl, rfl, rfl, rfl, rfl, rfl, rfl, by simp [sampleStart]⟩
  obtain ⟨s, hs, hl⟩ : ∃ s, Machine.exec (step ⟨[]⟩ ⟨[]⟩) sampleStart sampleRun = some s ∧
      s.client.pc = .finTop :=
    ⟨_, rfl, rfl⟩
  obtain ⟨-, -, -, -, -, hread, -⟩ := go_back_n Session.oneByte ⟨[]⟩
    ⟨[]⟩ sampleStart s sampleRun h₀ hs
  exact ⟨s, h₀, hs, Or.inl hl, hread (Or.inl hl)⟩

end Lossy

end FortyTwoHundred.Ftp

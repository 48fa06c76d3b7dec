import FortyTwoHundred.Ftp.Isolation
import FortyTwoHundred.Ftp.Grammar
import FortyTwoHundred.Ftp.Transfer

/-!
# Serves — a child of a client's request, call by call

`Stream` follows the child from datagram to datagram.  Here every call of it is a step, writes may
be short and sends may fail.  `Serves U created x` says that the child was forked for a request of
`U` and has accepted the first packets of the file, of the `created` ones; what it has on disk is
then a beginning of the file (`Serves.file`).  A step keeps this if it delivers the packet that is
due, or one with another number (`Serves.step`).
-/

namespace FortyTwoHundred.Ftp

open Chunk

theorem Child.Closing.live {c : Child} (hc : c.Closing) : Shared.Live c.pc := by
  rcases hc with ⟨t, hpc⟩ | ⟨t, hpc⟩ | hpc
  · rw [hpc]; trivial
  · rw [hpc]; trivial
  · rw [hpc]; rfl

/-- Call by call, too, the closing loop is left for the end only. -/
theorem Child.Closing.trans {origin : Addr} {c d : Child} {i : ChildIn} {effs : List Effect}
    (hc : c.Closing) (ht : Child.Trans origin c i d effs) : d.Closing := by
  cases ht with
  | finack hpc htime => exact Or.inr (Or.inl ⟨_, rfl⟩)
  | finackTimeout hpc htime => exact Or.inr (Or.inr rfl)
  | @finackRecv t now temp beyond r hpc =>
    rcases (c.finackStep_frame origin t temp r).1 with hp | hp
    · exact Or.inr (Or.inr hp)
    · exact Or.inl ⟨t, hp⟩
  | _ => simp [Child.Closing, *] at hc

namespace Solo

/-- The file is there, and is the payloads accepted so far. -/
def Part (U : Upload) (x : Solo) : Prop :=
  x.opened = true ∧ x.disk = some (U.content.take (payloadSize * x.child.accepted.length))

/-- The file is there, and is the client's. -/
def Whole (U : Upload) (x : Solo) : Prop := x.opened = true ∧ x.disk = some U.content

/-- What is on disk at each point. -/
def Stage (U : Upload) (x : Solo) : Prop :=
  match x.child.pc with
  | .start | .access | .fopen => x.child.accepted = []
  | .deny cmd status => status ≠ .ok ∧ cmd ≠ cmdFinAck
  | .ackRequest _ | .poll _ | .unlink _ => x.Part U
  | .write pending => x.opened = true ∧ ∃ n, x.child.accepted.length = n + 1 ∧
      pending = chunk payloadSize U.content n ∧
      x.disk = some (U.content.take (payloadSize * n))
  | .finackTop _ | .finackRecv _ | .done (.returned .ok) => x.Whole U
  | .done _ => True

/-- The child was forked for a request of `U`, and has accepted the first of the `created` packets
of the file. -/
structure Serves (U : Upload) (created : ℕ) (x : Solo) : Prop where
  request : RequestInv (requestPacket U.name U.content.length) x
  expected : x.child.expectedSequence = UInt16.ofNat (x.child.accepted.length + 1)
  read : x.child.read = (min (payloadSize * x.child.accepted.length) U.content.length : ℕ)
  bound : x.child.accepted.length ≤ created
  stage : Stage U x

/-- A datagram for the child is a packet, and is the next one if it is a `DATA` packet with the
expected number. -/
def Next (U : Upload) (created : ℕ) (c : Child) : ChildIn → Prop
  | .poll _ _ _ (.got _ d) => IsPacket d ∧ (command d = cmdData → getSeqNum d = c.expectedSequence →
      d = dataPacket U.content c.accepted.length ∧ c.accepted.length < created)
  | _ => True

section Serves

variable {U : Upload} {created : ℕ} {x y : Solo} {origin : Addr} {i : ChildIn}

theorem Serves.init (U : Upload) (created : ℕ) :
    Serves U created (init (requestPacket U.name U.content.length) none) := by
  refine ⟨requestInv_init _ _, rfl, ?_, Nat.zero_le _, rfl⟩
  simp [Solo.init, Child.init]

theorem Serves.mono (h : x.Serves U created) {created' : ℕ} (hle : created ≤ created') :
    x.Serves U created' :=
  ⟨h.request, h.expected, h.read, h.bound.trans hle, h.stage⟩

/-- Once the file is created, the child has the client's name and size. -/
theorem Serves.known (h : x.Serves U created) (ho : x.opened = true) :
    x.child.filename = basename U.name ∧ x.child.filesize = U.content.length := by
  obtain ⟨-, -, hasked, hsized⟩ := h.request.opened ho
  have htext := Child.cstr_requestPacket U.nul U.fits
  obtain ⟨hbar, hsize⟩ := scanSize_requestText htext U.small.le hasked.2 hsized.1
  have hname := hasked.2
  rw [parseRequest_requestText htext hbar, Option.some.injEq, Request.mk.injEq] at hname
  exact ⟨hname.1.symm, hsize⟩

/-- A step that accepts nothing. -/
theorem Serves.move (h : x.Serves U created)
    (hreq : RequestInv (requestPacket U.name U.content.length) y)
    (ha : y.child.accepted = x.child.accepted)
    (he : y.child.expectedSequence = x.child.expectedSequence)
    (hr : y.child.read = x.child.read) (hst : Stage U y) : y.Serves U created := by
  refine ⟨hreq, ?_, ?_, ?_, hst⟩
  · rw [ha, he]; exact h.expected
  · rw [ha, hr]; exact h.read
  · rw [ha]; exact h.bound

/-- Where the child has read as much as was announced, it has the file. -/
theorem Serves.complete (h : x.Serves U created) (ho : x.opened = true)
    (hr : x.child.read = x.child.filesize) :
    U.content.take (payloadSize * x.child.accepted.length) = U.content := by
  have h1 := h.read
  rw [hr, (h.known ho).2, Nat.cast_inj] at h1
  exact List.take_of_length_le (by omega)

/-- The packet that is due is accepted. -/
theorem Serves.handle {b : Child} (h : x.Serves U created) {startTime : ℤ}
    (hpc : x.child.pc = .poll startTime) (now : ℤ)
    (beyond : ℕ → Byte) (temp : Bytes) {m : Bytes}
    (hb : b = { x.child with buffer := overlay m temp }) (hm : IsPacket m)
    (hnext : command m = cmdData → getSeqNum m = x.child.expectedSequence →
      m = dataPacket U.content x.child.accepted.length ∧ x.child.accepted.length < created)
    (hy : y = ⟨(b.handle now beyond).1, (b.handle now beyond).2.foldl Effect.onDisk x.disk,
      x.opened || false⟩)
    (hreq : RequestInv (requestPacket U.name U.content.length) y) : y.Serves U created := by
  obtain ⟨ho, hdisk⟩ : x.Part U := by simpa only [Stage, hpc] using h.stage
  have hcmd : command b.buffer = command m := by rw [hb]; exact hm.command_overlay temp
  have hseq : getSeqNum b.buffer = getSeqNum m := by rw [hb]; exact hm.getSeqNum_overlay temp
  have hexp : b.expectedSequence = x.child.expectedSequence := by rw [hb]
  rw [Child.handle, hcmd, hseq, hexp] at hy
  split_ifs at hy with hdata hne hfin hr
  · subst hy hb
    exact h.move hreq rfl rfl rfl ⟨by simp [ho], hdisk⟩
  · obtain ⟨rfl, hlt⟩ := hnext hdata (not_not.mp hne)
    subst hy hb
    refine ⟨hreq, ?_, ?_, ?_, ?_⟩
    · simp only [List.length_append, List.length_singleton]
      rw [h.expected, SeqNum.ofNat_succ (x.child.accepted.length + 1)]
    · simp only [List.length_append, List.length_singleton]
      rw [← min_add_getLen, h.read, (isPacket_dataPacket _ _).getLen_overlay]
      push_cast
      rfl
    · simp only [List.length_append, List.length_singleton]
      exact hlt
    · refine ⟨by simp [ho], x.child.accepted.length, by simp, ?_, hdisk⟩
      rw [(isPacket_dataPacket _ _).peek_overlay, payload_dataPacket]
  · subst hy hb
    exact h.move hreq rfl rfl rfl ⟨by simp [ho], hdisk⟩
  · subst hy hb
    refine h.move hreq rfl rfl rfl ⟨by simp [ho], ?_⟩
    rw [← h.complete ho (not_not.mp hr)]
    exact hdisk
  · subst hy hb
    exact h.move hreq rfl rfl rfl ⟨by simp [ho], hdisk⟩

/-- **Every call of the child** keeps its file a beginning of the client's. -/
theorem Serves.step (h : x.Serves U created) (hnext : Next U created x.child i)
    (hs : x.next origin i = some y) : y.Serves U created := by
  have hreq := requestInv_step h.request hs
  obtain ⟨⟨c, effs⟩, hstep, rfl⟩ := Option.map_eq_some_iff.mp hs
  have hst := h.stage
  cases Child.trans_of_step hstep with
  | @start ok hpc =>
    obtain ⟨hr, he, ha⟩ := x.child.parse_frame ok
    have hacc : x.child.accepted = [] := by simpa only [Stage, hpc] using hst
    refine h.move hreq ha he hr ?_
    unfold Child.parse
    split_ifs
    · trivial
    · exact ⟨by simp, by decide⟩
    · cases parseRequest (x.child.buffer.drop headerSize) with
      | none => exact ⟨by simp, by decide⟩
      | some req => exact hacc
  | @access found hpc =>
    obtain ⟨hr, he, ha⟩ := x.child.check_frame found
    have hacc : x.child.accepted = [] := by simpa only [Stage, hpc] using hst
    refine h.move hreq ha he hr ?_
    unfold Child.check
    split_ifs
    · exact ⟨by simp, by decide⟩
    · cases scanSize x.child.sizeText with
      | none => trivial
      | some v =>
        dsimp only
        split_ifs
        · trivial
        · exact hacc
  | create hpc =>
    have hacc : x.child.accepted = [] := by simpa only [Stage, hpc] using hst
    refine h.move hreq rfl rfl rfl ⟨by simp, ?_⟩
    simp [hacc, Effect.onDisk]
  | noCreate hpc => exact h.move hreq rfl rfl rfl ⟨by simp, by decide⟩
  | @denied cmd status again now hpc =>
    have hne : status ≠ .ok ∧ cmd ≠ cmdFinAck := by simpa only [Stage, hpc] using hst
    refine h.move hreq rfl rfl rfl ?_
    cases status with
    | ok => exact absurd rfl hne.1
    | _ => trivial
  | notDenied hpc => exact h.move hreq rfl rfl rfl trivial
  | noAck hpc =>
    obtain ⟨ho, hdisk⟩ : x.Part U := by simpa only [Stage, hpc] using hst
    exact h.move hreq rfl rfl rfl ⟨by simp [ho], hdisk⟩
  | ackAgain hpc ht =>
    obtain ⟨ho, hdisk⟩ : x.Part U := by simpa only [Stage, hpc] using hst
    refine h.move hreq rfl rfl rfl ?_
    simp only [Stage, hpc]
    exact ⟨by simp [ho], hdisk⟩
  | ack hpc ht =>
    obtain ⟨ho, hdisk⟩ : x.Part U := by simpa only [Stage, hpc] using hst
    exact h.move hreq rfl rfl rfl ⟨by simp [ho], hdisk⟩
  | idle hpc ht hr =>
    obtain ⟨ho, hdisk⟩ : x.Part U := by simpa only [Stage, hpc] using hst
    refine h.move hreq rfl rfl rfl ?_
    simp only [Stage, hpc]
    exact ⟨by simp [ho], hdisk⟩
  | timeout hpc ht =>
    obtain ⟨ho, hdisk⟩ : x.Part U := by simpa only [Stage, hpc] using hst
    exact h.move hreq rfl rfl rfl ⟨by simp [ho], hdisk⟩
  | @datagram startTime now temp beyond r hpc ht hr =>
    cases r with
    | fail errno => simp [Recv.ret] at hr
    | got src m =>
      obtain ⟨hm, hdue⟩ := hnext
      have hno : Effect.create ∉
          ({ x.child with buffer := overlay (Recv.got src m).stored temp }.handle now
          beyond).2 := by
        rw [Child.handle]
        split_ifs <;> simp
      refine h.handle hpc now beyond temp rfl hm hdue ?_ hreq
      rw [decide_eq_false hno, Recv.stored, hm.take_packetSize]
  | @fwrite pending n now hpc hn =>
    obtain ⟨ho, m, hacc, rfl, hdisk⟩ : x.opened = true ∧ ∃ m, x.child.accepted.length = m + 1 ∧
        pending = chunk payloadSize U.content m ∧
        x.disk = some (U.content.take (payloadSize * m)) := by
      simpa only [Stage, hpc] using hst
    have hfit : ¬ x.child.filesize < x.child.read := by
      rw [(h.known ho).2, h.read]
      omega
    unfold Child.afterWrite at hreq ⊢
    split_ifs at hreq ⊢ with hshort
    · exact h.move hreq rfl rfl rfl trivial
    · refine h.move hreq rfl rfl rfl ⟨by simp [ho], ?_⟩
      simp only [List.foldl_cons, List.foldl_nil, Effect.onDisk, hdisk, Option.map_some, hacc,
        not_not.mp hshort,
        List.take_length, take_append_chunk]
  | unlink hpc => exact h.move hreq rfl rfl rfl trivial
  | @finack t ok again now hpc ht =>
    obtain ⟨ho, hdisk⟩ : x.Whole U := by simpa only [Stage, hpc] using hst
    refine h.move hreq rfl rfl rfl ⟨by simp [ho], ?_⟩
    cases ok
    · exact hdisk
    · exact hdisk
  | finackTimeout hpc ht =>
    obtain ⟨ho, hdisk⟩ : x.Whole U := by simpa only [Stage, hpc] using hst
    exact h.move hreq rfl rfl rfl ⟨by simp [ho], hdisk⟩
  | @finackRecv t now temp beyond r hpc =>
    obtain ⟨ho, hdisk⟩ : x.Whole U := by simpa only [Stage, hpc] using hst
    obtain ⟨hp, hr, he, ha, -⟩ := x.child.finackStep_frame origin t temp r
    refine h.move hreq ha he hr ?_
    rcases hp with hp | hp
    · simp only [Stage, hp]
      exact ⟨by simp [ho], hdisk⟩
    · simp only [Stage, hp]
      exact ⟨by simp [ho], hdisk⟩

/-- From the creation of the file on, it is a beginning of the client's; in the closing loop it is
all of it. -/
theorem Serves.file (h : x.Serves U created) (hl : Shared.Live x.child.pc) :
    x.opened = true ∧ ∃ bs, x.disk = some bs ∧ bs <+: U.content ∧
    (x.child.Closing → bs = U.content) := by
  have hst := h.stage
  cases hpc : x.child.pc with
  | ackRequest _ | poll _ | unlink _ =>
    obtain ⟨ho, hdisk⟩ : x.Part U := by simpa only [Stage, hpc] using hst
    exact ⟨ho, _, hdisk, List.take_prefix _ _, fun hc => by simp [Child.Closing, hpc] at hc⟩
  | write pending =>
    obtain ⟨ho, n, -, -, hdisk⟩ : x.opened = true ∧ ∃ n, x.child.accepted.length = n + 1 ∧
        pending = chunk payloadSize U.content n ∧
        x.disk = some (U.content.take (payloadSize * n)) := by
      simpa only [Stage, hpc] using hst
    exact ⟨ho, _, hdisk, List.take_prefix _ _, fun hc => by simp [Child.Closing, hpc] at hc⟩
  | finackTop _ | finackRecv _ =>
    obtain ⟨ho, hdisk⟩ : x.Whole U := by simpa only [Stage, hpc] using hst
    exact ⟨ho, _, hdisk, List.prefix_rfl, fun _ => rfl⟩
  | done e =>
    rw [hpc] at hl
    obtain rfl : e = .returned .ok := hl
    obtain ⟨ho, hdisk⟩ : x.Whole U := by simpa only [Stage, hpc] using hst
    exact ⟨ho, _, hdisk, List.prefix_rfl, fun _ => rfl⟩
  | _ =>
    rw [hpc] at hl
    cases hl

end Serves

end Solo

end FortyTwoHundred.Ftp

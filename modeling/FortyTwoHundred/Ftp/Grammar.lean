import FortyTwoHundred.Ftp.Cleanup

/-!
# Grammar — the requests a server child accepts

A child is forked for any datagram that arrives at the listening port.  It creates a file and
acknowledges the request if the header passes its test and the payload is `path|N`; the name is the
last component of `path`.

* `accepts_iff`: what the child accepts.  Its header test refuses a datagram whose command is not
  `CMD_WRQ` *and* whose number is not 0, where a request needs both; `accepts_request_iff` says for
  which datagrams that makes no difference.
* `request_round_trip`: the client's request is understood exactly if its name has no `|`.
* `path_confinement`: every name a child gives to `access`, `fopen` or `unlink` is a name in its own
  directory.
-/

namespace FortyTwoHundred.Ftp

/-! ## What a run knows of its request -/

/-- How far the request has been taken: 1 once it is parsed, 2 once its size is known too.  A
refused request counts as not taken. -/
def ChildPc.stage : ChildPc → ℕ
  | .start | .deny _ _ | .done _ => 0
  | .access => 1
  | _ => 2

theorem ChildPc.stage_le (pc : ChildPc) : pc.stage ≤ 2 := by
  unfold stage
  split <;> simp

namespace Child

/-- The header test let the datagram pass, and the payload names this file and size text. -/
def Asked (d : Bytes) (c : Child) : Prop :=
  (command (Child.init d).buffer = cmdWrq ∨ getSeqNum (Child.init d).buffer = 0) ∧
    parseRequest ((Child.init d).buffer.drop headerSize) = some ⟨c.filename, c.sizeText⟩

/-- The size text is a size. -/
def Sized (c : Child) : Prop := scanSize c.sizeText = some c.filesize ∧ 0 ≤ c.filesize

/-- The request is refused, or taken as far as its name. -/
theorem parse_cases (d : Bytes) (ok : Bool) :
    (((Child.init d).parse ok).pc.stage = 0 ∧ ((Child.init d).parse ok).pc ≠ .start) ∨
      (((Child.init d).parse ok).pc = .access ∧ ((Child.init d).parse ok).Asked d) := by
  unfold parse
  split_ifs with h1 h2
  · exact Or.inl ⟨rfl, by simp [finish]⟩
  · exact Or.inl ⟨rfl, by simp⟩
  · cases hreq : parseRequest ((Child.init d).buffer.drop headerSize) with
    | none => exact Or.inl ⟨rfl, by simp⟩
    | some req =>
      refine Or.inr ⟨rfl, ?_, hreq⟩
      by_cases hcmd : command (Child.init d).buffer = cmdWrq
      · exact Or.inl hcmd
      · exact Or.inr (not_not.mp fun hs => h2 ⟨hcmd, hs⟩)

theorem parse_of_asked {d : Bytes} {req : Request}
    (hh : command (Child.init d).buffer = cmdWrq ∨ getSeqNum (Child.init d).buffer = 0)
    (hreq : parseRequest ((Child.init d).buffer.drop headerSize) = some req) :
    (Child.init d).parse true =
      { Child.init d with pc := .access, filename := req.filename, sizeText := req.sizeText } := by
  have hnot : ¬ (command (Child.init d).buffer ≠ cmdWrq ∧ getSeqNum (Child.init d).buffer ≠ 0) := by
    rintro ⟨h1, h2⟩
    exact hh.elim h1 h2
  unfold parse
  rw [if_neg (by simp), if_neg hnot, hreq]

/-- The request is refused, or its size is known. -/
theorem check_cases (found : Bool) (c : Child) :
    ((c.check found).pc.stage = 0 ∧ (c.check found).pc ≠ .start) ∨
      ((c.check found).pc = .fopen ∧ (c.check found).Sized ∧ (c.check found).filename = c.filename ∧
        (c.check found).sizeText = c.sizeText) := by
  unfold check
  split_ifs with h1
  · exact Or.inl ⟨rfl, by simp⟩
  · cases hv : scanSize c.sizeText with
    | none => exact Or.inl ⟨rfl, by simp [finish]⟩
    | some v =>
      dsimp only
      by_cases hneg : v < 0
      · rw [if_pos hneg]
        exact Or.inl ⟨rfl, by simp [finish]⟩
      · rw [if_neg hneg]
        exact Or.inr ⟨rfl, ⟨hv, not_lt.mp hneg⟩, rfl, rfl⟩

theorem check_of_sized {c : Child} {v : ℤ} (hv : scanSize c.sizeText = some v) (h0 : 0 ≤ v) :
    c.check false = { c with pc := .fopen, filesize := v } := by
  unfold check
  rw [if_neg (by simp), hv]
  simp [not_lt.mpr h0]

/-- A step that is not the parsing or the check of the request keeps what is known of it. -/
structure Keeps (c d : Child) : Prop where
  filename : d.filename = c.filename
  sizeText : d.sizeText = c.sizeText
  filesize : d.filesize = c.filesize
  stage : d.pc.stage ≤ c.pc.stage
  start : d.pc ≠ .start
  access : d.pc ≠ .access

theorem keeps_handle {c : Child} {t : ℤ} (hpc : c.pc = .poll t) (now : ℤ) (temp : Bytes)
    (beyond : ℕ → Byte) (r : Recv) :
    Keeps c ({ c with buffer := overlay r.stored temp }.handle now beyond).1 := by
  have h2 : c.pc.stage = 2 := by rw [hpc]; rfl
  unfold handle
  split_ifs
  all_goals exact ⟨rfl, rfl, rfl, h2 ▸ ChildPc.stage_le _, by simp, by simp⟩

theorem Trans.keeps {origin : Addr} {c d : Child} {i : ChildIn} {effs : List Effect}
    (ht : Trans origin c i d effs) (h1 : c.pc ≠ .start) (h2 : c.pc ≠ .access) : Keeps c d := by
  cases ht with
  | start hpc => exact absurd hpc h1
  | access hpc => exact absurd hpc h2
  | datagram hpc _ _ => exact keeps_handle hpc _ _ _ _
  | ackAgain hpc _ => exact ⟨rfl, rfl, rfl, le_rfl, h1, h2⟩
  | idle hpc _ _ => exact ⟨rfl, rfl, rfl, le_rfl, h1, h2⟩
  | fwrite hpc hn =>
    have h2 : c.pc.stage = 2 := by rw [hpc]; rfl
    unfold afterWrite
    split_ifs
    all_goals exact ⟨rfl, rfl, rfl, h2 ▸ ChildPc.stage_le _, by simp [finish], by simp [finish]⟩
  | finackRecv hpc =>
    have h2 : c.pc.stage = 2 := by rw [hpc]; rfl
    rw [finackStep_eq]
    split_ifs
    all_goals exact ⟨rfl, rfl, rfl, h2 ▸ ChildPc.stage_le _, by simp, by simp⟩
  | _ =>
    exact ⟨rfl, rfl, rfl, by simp [ChildPc.stage, finish, *], by simp [finish], by simp [finish]⟩

theorem Trans.pc_of_create {origin : Addr} {c d : Child} {i : ChildIn} {effs : List Effect}
    (ht : Trans origin c i d effs) (hc : Effect.create ∈ effs) : c.pc = .fopen := by
  cases ht with
  | create hpc => exact hpc
  | datagram hpc _ _ =>
    simp only [handle] at hc
    split_ifs at hc <;> simp at hc
  | @finack t ok again now hpc ht => cases ok <;> simp at hc
  | _ => simp at hc

end Child

namespace Solo

/-- What the run of a child forked for `d` knows at each point. -/
structure RequestInv (d : Bytes) (s : Solo) : Prop where
  start : s.child.pc = .start → s.child = Child.init d
  asked : 1 ≤ s.child.pc.stage → s.child.Asked d
  sized : 2 ≤ s.child.pc.stage → s.child.Sized
  opened : s.opened = true → s.child.pc ≠ .start ∧ s.child.pc ≠ .access ∧ s.child.Asked d ∧
    s.child.Sized

theorem next_of_step {origin : Addr} {c e : Child} {i : ChildIn} {effs : List Effect}
    (h : c.step origin i = some (e, effs)) (disk : Option Bytes) (opened : Bool) :
    next origin ⟨c, disk, opened⟩ i =
      some ⟨e, effs.foldl Effect.onDisk disk, opened || decide (Effect.create ∈ effs)⟩ := by
  simp only [next, h, Option.map_some]

theorem requestInv_init (d : Bytes) (disk : Option Bytes) : RequestInv d (init d disk) := by
  have h0 : (init d disk).child.pc.stage = 0 := rfl
  exact ⟨fun _ => rfl, fun h => by omega, fun h => by omega, fun h => by cases h⟩

/-- **Every step keeps what is known of the request.** -/
theorem requestInv_step {origin : Addr} {d : Bytes} {s t : Solo} {i : ChildIn} (h : RequestInv d s)
    (hs : s.next origin i = some t) : RequestInv d t := by
  obtain ⟨⟨c, effs⟩, hstep, rfl⟩ := Option.map_eq_some_iff.mp hs
  have ht := Child.trans_of_step hstep
  by_cases h1 : s.child.pc = .start
  · have hno : s.opened ≠ true := fun ho => (h.opened ho).1 h1
    cases ht with
    | @start ok hpc =>
      rw [h.start h1]
      rcases Child.parse_cases d ok with ⟨h0, hne⟩ | ⟨hacc, hA⟩
      · exact ⟨fun hc => absurd hc hne, fun hc => by simp [h0] at hc, fun hc => by simp [h0] at hc,
          fun ho => absurd (by simpa using ho) hno⟩
      · exact ⟨fun hc => by simp [hacc] at hc, fun _ => hA,
          fun hc => by simp [hacc, ChildPc.stage] at hc,
          fun ho => absurd (by simpa using ho) hno⟩
    | _ => simp_all
  · by_cases h2 : s.child.pc = .access
    · have hno : s.opened ≠ true := fun ho => (h.opened ho).2.1 h2
      have hA := h.asked (by rw [h2]; decide)
      cases ht with
      | @access found hpc =>
        rcases Child.check_cases found s.child with ⟨h0, hne⟩ | ⟨hf, hS, hn, hz⟩
        · exact ⟨fun hc => absurd hc hne, fun hc => by simp [h0] at hc,
            fun hc => by simp [h0] at hc,
            fun ho => absurd (by simpa using ho) hno⟩
        · refine ⟨fun hc => by simp [hf] at hc, fun _ => ?_, fun _ => hS,
            fun ho => absurd (by simpa using ho) hno⟩
          unfold Child.Asked
          rw [hn, hz]
          exact hA
      | _ => simp_all
    · have hk := ht.keeps h1 h2
      have hasked : s.child.Asked d → c.Asked d := by
        intro hA
        unfold Child.Asked
        rw [hk.filename, hk.sizeText]
        exact hA
      have hsized : s.child.Sized → c.Sized := by
        intro hS
        unfold Child.Sized
        rw [hk.filesize, hk.sizeText]
        exact hS
      refine ⟨fun hc => absurd hc hk.start, fun hc => hasked (h.asked (hc.trans hk.stage)),
        fun hc => hsized (h.sized (hc.trans hk.stage)), fun ho => ⟨hk.start, hk.access, ?_⟩⟩
      rcases Bool.or_eq_true _ _ ▸ ho with ho | ho
      · obtain ⟨-, -, hA, hS⟩ := h.opened ho
        exact ⟨hasked hA, hsized hS⟩
      · have hf := ht.pc_of_create (by simpa using ho)
        exact ⟨hasked (h.asked (by rw [hf]; decide)), hsized (h.sized (by rw [hf]; decide))⟩

theorem requestInv_run {origin : Addr} {d : Bytes} {disk : Option Bytes}
    {is : List ChildIn} {s : Solo} (h : Machine.exec (next origin) (init d disk) is = some s) :
    RequestInv d s :=
  Machine.exec_invariant (fun _ _ _ => requestInv_step) (requestInv_init d disk) h

end Solo

/-! ## The grammar -/

/-- `path|N`: no `|` in the path, and a size that is not negative. -/
def WellFormed (text : Bytes) : Prop :=
  ∃ path size v, text = path ++ bar :: size ∧ bar ∉ path ∧ SizeText size v ∧ 0 ≤ v

/-- A write request: its command, its number and its payload. -/
def IsRequest (d : Bytes) : Prop :=
  command d = cmdWrq ∧ getSeqNum d = 0 ∧ WellFormed (cstr (d.drop headerSize))

theorem wellFormed_iff {mem : Bytes} : WellFormed (cstr mem) ↔
    ∃ req v, parseRequest mem = some req ∧ scanSize req.sizeText = some v ∧ 0 ≤ v := by
  constructor
  · rintro ⟨path, size, v, ht, hbar, hv, h0⟩
    exact ⟨_, v, parseRequest_of_cstr ht hbar, scanSize_eq_some_iff.mpr hv, h0⟩
  · rintro ⟨req, v, hreq, hv, h0⟩
    by_cases hbar : bar ∈ cstr mem
    · obtain ⟨path, size, ht, hpath⟩ := List.eq_append_cons_of_mem hbar
      rw [parseRequest_of_cstr ht hpath, Option.some.injEq] at hreq
      rw [← hreq] at hv
      exact ⟨path, size, v, ht, hpath, scanSize_eq_some_iff.mp hv, h0⟩
    · rw [parseRequest_of_notMem hbar] at hreq
      cases hreq

/-- A request that is taken names the last component of its path: a `/` in the size text makes
`sscanf` fail. -/
theorem filename_eq_basename {mem : Bytes} {req : Request} {v : ℤ}
    (hreq : parseRequest mem = some req) (hv : scanSize req.sizeText = some v) :
    ∃ path size, cstr mem = path ++ bar :: size ∧ bar ∉ path ∧ req.filename = basename path := by
  by_cases hbar : bar ∈ cstr mem
  · obtain ⟨path, size, ht, hpath⟩ := List.eq_append_cons_of_mem hbar
    refine ⟨path, size, ht, hpath, ?_⟩
    rw [parseRequest_of_cstr ht hpath, Option.some.injEq] at hreq
    have hslash : slash ∉ size := by
      intro hs
      rw [← hreq, scanSize_of_slash hs] at hv
      cases hv
    rw [← hreq, if_neg hslash]
  · rw [parseRequest_of_notMem hbar] at hreq
    cases hreq

theorem slash_notMem_filename {mem : Bytes} {req : Request} (hreq : parseRequest mem = some req) :
    slash ∉ req.filename := by
  by_cases hbar : bar ∈ cstr mem
  · obtain ⟨path, size, ht, hpath⟩ := List.eq_append_cons_of_mem hbar
    rw [parseRequest_of_cstr ht hpath, Option.some.injEq] at hreq
    rw [← hreq]
    dsimp only
    split_ifs
    · exact slash_notMem_basename size
    · exact slash_notMem_basename path
  · rw [parseRequest_of_notMem hbar] at hreq
    cases hreq

/-! ## Acceptance -/

namespace Child

/-- The effects of a run of the child. -/
def trace (origin : Addr) : Child → List ChildIn → Option (Child × List Effect)
  | c, [] => some (c, [])
  | c, i :: is => (c.step origin i).bind fun p => (trace origin p.1 is).map fun q =>
    (q.1, p.2 ++ q.2)

/-- The calls of a child that gets its socket, finds no file of that name, can create it and can
send. -/
def welcome (t₀ : ℤ) (again : Bool) (t₁ : ℤ) : List ChildIn :=
  [.setup true, .access false, .fopen true t₀, .send true again t₁]

/-- The child creates the file and sends the acknowledgement. -/
def Accepts (origin : Addr) (t₀ : ℤ) (again : Bool) (t₁ : ℤ) (d : Bytes) : Prop :=
  ∃ c, trace origin (Child.init d) (welcome t₀ again t₁) = some (c, [.create, .send (ackPacket 1)])

theorem exec_of_trace {origin : Addr} {c d : Child} {is : List ChildIn} {effs : List Effect}
    (h : trace origin c is = some (d, effs)) (disk : Option Bytes) (opened : Bool) :
    ∃ s, Machine.exec (Solo.next origin) ⟨c, disk, opened⟩ is = some s ∧ s.child = d ∧
      s.opened = (opened || decide (Effect.create ∈ effs)) := by
  induction is generalizing c effs disk opened with
  | nil =>
    obtain ⟨rfl, rfl⟩ := Prod.mk.inj (Option.some.inj h)
    exact ⟨_, rfl, rfl, by simp⟩
  | cons i is ih =>
    obtain ⟨⟨c₁, effs₁⟩, hstep, h1⟩ := Option.bind_eq_some_iff.mp h
    obtain ⟨⟨d', effs₂⟩, h2, h3⟩ := Option.map_eq_some_iff.mp h1
    obtain ⟨rfl, rfl⟩ := Prod.mk.inj h3
    have hnext := Solo.next_of_step hstep disk opened
    obtain ⟨s, hs, hc, ho⟩ := ih h2 (effs₁.foldl Effect.onDisk disk)
      (opened || decide (Effect.create ∈ effs₁))
    refine ⟨s, Machine.exec_cons_some.mpr ⟨_, hnext, hs⟩, hc, ?_⟩
    rw [ho, Bool.or_assoc]
    simp [List.mem_append, Bool.decide_or]

/-- A datagram that passes the header test, with a payload that is taken, reaches `fopen`. -/
theorem run_to_fopen (origin : Addr) {d : Bytes} {req : Request} {v : ℤ}
    (hh : command (Child.init d).buffer = cmdWrq ∨ getSeqNum (Child.init d).buffer = 0)
    (hreq : parseRequest ((Child.init d).buffer.drop headerSize) = some req)
    (hv : scanSize req.sizeText = some v) (h0 : 0 ≤ v) :
    ∃ c₁, (Child.init d).step origin (.setup true) = some (c₁, []) ∧
      c₁.step origin (.access false) =
        some ({ Child.init d with
          pc := .fopen
          filename := req.filename
          sizeText := req.sizeText
          filesize := v }, []) := by
  refine ⟨(Child.init d).parse true, rfl, ?_⟩
  rw [parse_of_asked hh hreq]
  show some (Child.check false _, []) = _
  rw [check_of_sized hv h0]

/-- The acknowledgement is sent, whatever `errno` and the clock say then. -/
theorem step_ack (origin : Addr) {c : Child} {t₀ : ℤ} (hpc : c.pc = .ackRequest t₀)
    (again : Bool) (t₁ : ℤ) :
    ∃ e, c.step origin (.send true again t₁) = some (e, [.send (ackPacket 1)]) := by
  unfold step
  simp only [hpc]
  by_cases h : (again && decide (t₁ - t₀ < 6)) = true
  · exact ⟨_, by simp only [Bool.not_true, Bool.false_eq_true, if_false, h, if_true]; rfl⟩
  · exact ⟨_, by simp only [Bool.not_true, Bool.false_eq_true, if_false, h]; rfl⟩

/-- **What a child accepts**: the header test is passed by a request and by anything that has the
number 0. -/
theorem accepts_iff {origin : Addr} {t₀ t₁ : ℤ} {again : Bool} {d : Bytes}
    (hd : d.length ≤ packetSize) : Accepts origin t₀ again t₁ d ↔
      (command d = cmdWrq ∨ getSeqNum d = 0) ∧ WellFormed (cstr (d.drop headerSize)) := by
  rw [← cstr_init hd, ← command_init hd, ← getSeqNum_init hd, wellFormed_iff]
  constructor
  · rintro ⟨c, hc⟩
    obtain ⟨s, hs, rfl, ho⟩ := exec_of_trace hc none false
    obtain ⟨-, -, ⟨hh, hreq⟩, hv, h0⟩ := (Solo.requestInv_run hs).opened (by rw [ho]; rfl)
    exact ⟨hh, _, _, hreq, hv, h0⟩
  · rintro ⟨hh, req, v, hreq, hv, h0⟩
    obtain ⟨c₁, hsetup, haccess⟩ := run_to_fopen origin hh hreq hv h0
    set c₂ : Child := { Child.init d with
      pc := .fopen, filename := req.filename, sizeText := req.sizeText, filesize := v }
    have hfopen : c₂.step origin (.fopen true t₀) = some ({ c₂ with pc := .ackRequest t₀ },
        [.create]) := rfl
    obtain ⟨e, hack⟩ := step_ack origin (c := { c₂ with pc := .ackRequest t₀ }) rfl again t₁
    exact ⟨e, by simp only [welcome, trace, hsetup, haccess, hfopen, hack, Option.bind_some,
      Option.map_some,
      List.nil_append, List.append_nil, List.singleton_append]⟩

/-- **The request grammar**: a child accepts exactly the write requests, as far as the payload is
not `path|N` or the datagram has the command `CMD_WRQ` and the number 0 together or not at all. -/
theorem accepts_request_iff (origin : Addr) (t₀ t₁ : ℤ) (again : Bool) (d : Bytes)
    (hd : d.length ≤ packetSize - 1) : (Accepts origin t₀ again t₁ d ↔ IsRequest d) ↔
      (WellFormed (cstr (d.drop headerSize)) → (command d = cmdWrq ↔ getSeqNum d = 0)) := by
  rw [accepts_iff (hd.trans (Nat.sub_le _ _)), IsRequest]
  tauto

/-- The request of a client for a file `a` of one byte. -/
theorem accepts_request_sample :
    Accepts ⟨[]⟩ 0 false 1 (requestPacket [97] 1) ↔ IsRequest (requestPacket [97] 1) :=
  (accepts_request_iff ⟨[]⟩ 0 1 false (requestPacket [97] 1) (by decide)).mpr fun _ => by decide

/-- An `ACK` packet with the number 0 and the payload `a|1` creates the file `a`. -/
theorem accepts_ack_packet :
    Accepts ⟨[]⟩ 0 false 1 (createPacket cmdAck 0 3 [97, 124, 49]) ∧
      ¬ IsRequest (createPacket cmdAck 0 3 [97, 124, 49]) := by
  have htext : cstr ((createPacket cmdAck 0 3 [97, 124, 49]).drop headerSize) =
      [97] ++ bar :: [49] := rfl
  refine ⟨(accepts_iff (by decide)).mpr ⟨Or.inr (by decide), ?_⟩, fun h => absurd h.1 (by decide)⟩
  rw [htext]
  have hsize : SizeText [49] 1 :=
    ⟨[], [], [49], rfl, by simp, Or.inl rfl, by simp, by simp [isDigit], by decide⟩
  exact ⟨[97], [49], 1, rfl, by decide, hsize, by decide⟩

end Child

/-! ## The client's request -/

namespace Solo

/-- **Request round trip**: the client's request reaches `fopen` with the last component of its name
and with its size exactly if the name has no `|`; with a `|` no run accepts it. -/
theorem request_round_trip (origin : Addr) (name : Bytes) (n : ℕ) (hnul : 0 ∉ name)
    (hn : n < 2 ^ 63) (hfits : (requestText name n).length < payloadSize) :
    ((∃ s, Machine.exec (next origin) (init (sendPacket (requestPacket name n)) none)
      [.setup true, .access false] =
          some s ∧ s.child.pc = .fopen ∧ s.child.filename = basename name ∧ s.child.filesize = n) ↔
            bar ∉ name) ∧
      (bar ∈ name → ∀ disk is s,
        Machine.exec (next origin) (init (sendPacket (requestPacket name n)) disk) is = some s →
          s.child.pc ≠ .fopen ∧ s.opened = false) := by
  rw [sendPacket_requestPacket hfits]
  have htext := Child.cstr_requestPacket hnul hfits
  have hmax : (n : ℤ) ≤ longMax := by
    unfold longMax
    omega
  -- a state in which the request is taken shows that the name has no `|`
  have hbar : ∀ c : Child, c.Asked (requestPacket name n) → c.Sized → bar ∉ name := fun c hA hS =>
    (scanSize_requestText htext hmax hA.2 hS.1).1
  refine ⟨⟨?_, fun hno => ?_⟩, fun hin disk is s hs => ?_⟩
  · rintro ⟨s, hs, hpc, -, -⟩
    have hI := requestInv_run hs
    exact hbar s.child (hI.asked (by rw [hpc]; decide)) (hI.sized (by rw [hpc]; decide))
  · have hcmd : command (Child.init (requestPacket name n)).buffer = cmdWrq :=
      Child.command_init (isPacket_requestPacket hfits).size
    obtain ⟨c₁, hsetup, haccess⟩ := Child.run_to_fopen origin (Or.inl hcmd)
      (parseRequest_requestText htext hno)
      (scanSize_showLong hmax) (Int.natCast_nonneg n)
    have h1 := next_of_step hsetup none false
    have h2 := next_of_step haccess none false
    exact ⟨_, Machine.exec_cons_some.mpr ⟨_, h1, Machine.exec_cons_some.mpr ⟨_, h2, rfl⟩⟩,
      rfl, rfl, rfl⟩
  · have hI := requestInv_run hs
    refine ⟨fun hpc => ?_, ?_⟩
    · exact hbar s.child (hI.asked (by rw [hpc]; decide)) (hI.sized (by rw [hpc]; decide)) hin
    · by_contra ho
      obtain ⟨-, -, hA, hS⟩ := hI.opened (by simpa using ho)
      exact hbar s.child hA hS hin

/-- A name with a directory, and one with a `|`. -/
theorem request_round_trip_samples :
    (∃ s, Machine.exec (next ⟨[]⟩) (init (sendPacket (requestPacket [100, 47, 97] 7)) none)
        [.setup true, .access false] = some s ∧
      s.child.pc = .fopen ∧ s.child.filename = [97] ∧ s.child.filesize = 7) ∧
    ∀ is s, Machine.exec (next ⟨[]⟩) (init (sendPacket (requestPacket [97, 124, 98] 7)) none) is =
      some s → s.opened = false := by
  refine ⟨(request_round_trip ⟨[]⟩ [100, 47, 97] 7 (by decide) (by decide) (by decide)).1.mpr
    (by decide), ?_⟩
  intro is s hs
  exact ((request_round_trip ⟨[]⟩ [97, 124, 98] 7 (by decide) (by decide) (by decide)).2 (by decide)
    none is s hs).2

/-! ## The names given to the file system -/

/-- The name that the next call of the child is made with, if that call is `access`, `fopen` or
`unlink`. -/
def fileArg (s : Solo) : Option Bytes :=
  match s.child.pc with
  | .access | .fopen | .unlink _ => some s.child.filename
  | _ => none

theorem stage_of_fileArg {s : Solo} {name : Bytes} (h : s.fileArg = some name) :
    1 ≤ s.child.pc.stage ∧ name = s.child.filename := by
  unfold fileArg at h
  split at h
  · next hpc => exact ⟨by rw [hpc]; decide, (Option.some.inj h).symm⟩
  · next hpc => exact ⟨by rw [hpc]; decide, (Option.some.inj h).symm⟩
  · next hpc => exact ⟨by rw [hpc]; simp [ChildPc.stage], (Option.some.inj h).symm⟩
  · cases h

/-- **Path confinement**: whatever datagram a child is forked for, the names it gives to the file
system have no `/`, and the file it creates is named by the last component of the text before the
first `|`. -/
theorem path_confinement (origin : Addr) (d : Bytes) (disk : Option Bytes)
    (is : List ChildIn) (s : Solo) (h : Machine.exec (next origin) (init d disk) is = some s) :
    (∀ name, s.fileArg = some name → slash ∉ name) ∧
      (s.child.pc = .fopen → ∃ path size, cstr ((Child.init d).buffer.drop headerSize) =
        path ++ bar :: size ∧
        bar ∉ path ∧ s.child.filename = basename path) := by
  have hI := requestInv_run h
  constructor
  · intro name hname
    obtain ⟨hstage, rfl⟩ := stage_of_fileArg hname
    exact slash_notMem_filename (hI.asked hstage).2
  · intro hpc
    have hA := hI.asked (by rw [hpc]; decide)
    have hS := hI.sized (by rw [hpc]; decide)
    exact filename_eq_basename hA.2 hS.1

/-- The datagram of a request for `/x/a` of size 1. -/
theorem path_confinement_sample : ∃ s,
    Machine.exec (next ⟨[]⟩) (init (requestPacket [47, 120, 47, 97] 1) none)
    [.setup true, .access false] = some s ∧
      s.child.pc = .fopen ∧ s.fileArg = some [97] ∧ slash ∉ s.child.filename := by
  obtain ⟨s, hs, hpc, hname⟩ : ∃ s,
      Machine.exec (next ⟨[]⟩) (init (requestPacket [47, 120, 47, 97] 1) none)
      [.setup true, .access false] = some s ∧
        s.child.pc = .fopen ∧ s.fileArg = some [97] :=
        ⟨_, rfl, by decide +kernel, by decide +kernel⟩
  refine ⟨s, hs, hpc, hname, ?_⟩
  have := (path_confinement ⟨[]⟩ (requestPacket [47, 120, 47, 97] 1) none _ s hs).1 [97] hname
  rwa [(stage_of_fileArg hname).2] at this

end Solo

end FortyTwoHundred.Ftp

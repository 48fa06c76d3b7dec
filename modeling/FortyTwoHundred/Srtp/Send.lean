import Mathlib.Algebra.Group.Int.Defs
import FortyTwoHundred.Lib.Machine
import FortyTwoHundred.Srtp.Header

/-!
# Send — `send_srtp_data` and `client_proxy` (`srtp_impl.cpp`)

`Send` is a call of `send_srtp_data` as a machine whose steps are its calls into the environment:
the `write` of the data to the UDP socket, and a poll (`srtp_read` and, where the code gets there,
the clock).  The header that the code fills in is local and is not sent.  The `break` on an
acknowledgement leaves the inner loop only, and the outer one writes the data again.

`Proxy` is `client_proxy`, which gives what it reads from the fifo to `send_srtp_data`, chunk by
chunk.  Clock readings are in microseconds.
-/

namespace FortyTwoHundred.Srtp

/-- Milliseconds. -/
def retryTimeoutBase : ℕ := 50

inductive SendPc
  | write
  | poll (t2 : ℤ)
  | done (ret : ℤ)
  deriving DecidableEq

/-- A call of `send_srtp_data`: its data, and the datagrams it has written. -/
structure Send where
  pc : SendPc
  data : Bytes
  written : List Bytes

inductive SendIn
  /-- whether `write` takes the datagram, and the clock -/
  | write (ok : Bool) (now : ℤ)
  /-- the header if `srtp_read` returns one, and the clock -/
  | poll (buff : Option Header) (now : ℤ)

/-- The acknowledgement test; `seq` is the constant `0`. -/
def isAck (buff : Header) (seq : UInt16) : Bool := pktHasCmd buff cmdAck && buff.ack == seq

/-- `dt`, an `unsigned long`: the time from `t1` back to `t2`. -/
def elapsed (t2 t1 : ℤ) : ℕ := ((t2 - t1) % 2 ^ 64).toNat

namespace Send

def init (data : Bytes) : Send := ⟨.write, data, []⟩

def step (s : Send) (i : SendIn) : Option Send :=
  match s.pc, i with
  | .write, .write ok now =>
    if ok then some { s with pc := .poll now, written := s.written ++ [s.data] }
      else some { s with pc := .done (-1) }
  | .poll t2, .poll buff now =>
    if buff.any (isAck · 0) then some { s with pc := .write }
    else if retryTimeoutBase * 1000 < elapsed t2 now then some { s with pc := .write }
    else some s
  | _, _ => none

/-- What a step can do. -/
inductive Trans (s : Send) : SendIn → Send → Prop
  | sent {now} (hpc : s.pc = .write) :
      Trans s (.write true now) { s with pc := .poll now, written := s.written ++ [s.data] }
  | failed {now} (hpc : s.pc = .write) : Trans s (.write false now) { s with pc := .done (-1) }
  | acked {t2 buff now} (hpc : s.pc = .poll t2) (ha : buff.any (isAck · 0) = true) :
      Trans s (.poll buff now) { s with pc := .write }
  | again {t2 buff now} (hpc : s.pc = .poll t2) (ha : ¬ buff.any (isAck · 0) = true)
      (ht : retryTimeoutBase * 1000 < elapsed t2 now) :
      Trans s (.poll buff now) { s with pc := .write }
  | wait {t2 buff now} (hpc : s.pc = .poll t2) (ha : ¬ buff.any (isAck · 0) = true)
      (ht : ¬ retryTimeoutBase * 1000 < elapsed t2 now) : Trans s (.poll buff now) s

/-- **Inversion**: every step is one of these. -/
theorem trans_of_step {s t : Send} {i : SendIn} (h : s.step i = some t) : Trans s i t := by
  unfold step at h
  split at h
  · next ok now hpc =>
    cases ok
    · obtain rfl := Option.some.inj h
      exact .failed hpc
    · obtain rfl := Option.some.inj h
      exact .sent hpc
  · next t2 buff now hpc =>
    split_ifs at h with ha ht
    · obtain rfl := Option.some.inj h
      exact .acked hpc ha
    · obtain rfl := Option.some.inj h
      exact .again hpc ha ht
    · obtain rfl := Option.some.inj h
      exact .wait hpc ha ht
  · cases h

end Send

/-- `client_proxy`: what `read` will return, the call in progress, and the datagrams of the calls
before it. -/
structure Proxy where
  input : List Bytes
  call : Option Send
  before : List Bytes
  ended : Bool

inductive ProxyEv
  | read
  | send (i : SendIn)

namespace Proxy

def init (chunks : List Bytes) : Proxy := ⟨chunks, none, [], false⟩

/-- All datagrams written. -/
def written (p : Proxy) : List Bytes := p.before ++ (p.call.map Send.written).getD []

/-- `read` returns a chunk; an empty one ends the loop. -/
def readStep (p : Proxy) : Proxy :=
  match p.input with
  | [] => { p with ended := true }
  | c :: cs =>
    if c = [] then { p with ended := true } else { p with input := cs, call := some (Send.init c) }

/-- After a step of the call: a negative return value ends the loop, any other one leads to the next
`read`. -/
def afterSend (p : Proxy) (s : Send) : Proxy :=
  match s.pc with
  | .done ret => { p with call := none, before := p.before ++ s.written, ended := decide (ret < 0) }
  | _ => { p with call := some s }

def step (p : Proxy) (e : ProxyEv) : Option Proxy :=
  if p.ended then none
  else match p.call, e with
    | none, .read => some p.readStep
    | some s, .send i => (s.step i).map p.afterSend
    | _, _ => none

/-- The loop has got as far as the first chunk: it has been handed over, or everything is over. -/
structure First (c : Bytes) (cs : List Bytes) (p : Proxy) : Prop where
  start : p.call = none → p.ended = false → p = init (c :: cs)
  data : ∀ s, p.call = some s → s.data = c ∧ ∀ d ∈ s.written, d = c
  before : ∀ d ∈ p.before, d = c

variable {c : Bytes} {cs : List Bytes} {p q : Proxy}

/-- A call returns only after a failed `write`, so there is no second chunk. -/
theorem First.step (h : First c cs p) {e : ProxyEv} (hs : p.step e = some q) : First c cs q := by
  unfold Proxy.step at hs
  split_ifs at hs with hended
  split at hs
  · next hcall =>
    obtain rfl := h.start hcall (by simpa using hended)
    rw [readStep, init] at hs
    dsimp only at hs
    split_ifs at hs
    · obtain rfl := Option.some.inj hs
      exact ⟨fun _ he => by simp at he, fun s hc => by simp at hc, by simp⟩
    · obtain rfl := Option.some.inj hs
      refine ⟨fun hc => by simp at hc, ?_, by simp⟩
      rintro s hs'
      obtain rfl := Option.some.inj hs'
      exact ⟨rfl, by simp [Send.init]⟩
  · next s i hcall =>
    obtain ⟨t, ht, rfl⟩ := Option.map_eq_some_iff.mp hs
    obtain ⟨hdata, hwritten⟩ := h.data s hcall
    -- a call that goes on
    have goes : ∀ t : Send, t.data = c → (∀ d ∈ t.written, d = c) →
        First c cs { p with call := some t } := by
      intro t hd hw
      refine ⟨fun hc => by simp at hc, ?_, h.before⟩
      rintro u hu
      obtain rfl := Option.some.inj hu
      exact ⟨hd, hw⟩
    cases Send.trans_of_step ht with
    | sent _ =>
      refine goes _ hdata ?_
      intro d hd
      rcases List.mem_append.mp hd with hd | hd
      · exact hwritten d hd
      · rw [List.mem_singleton.mp hd, hdata]
    | failed _ =>
      refine ⟨fun _ he => by simp [afterSend] at he, fun s hc => by simp [afterSend] at hc, ?_⟩
      intro d hd
      rcases List.mem_append.mp hd with hd | hd
      · exact h.before d hd
      · exact hwritten d hd
    | acked _ _ => exact goes _ hdata hwritten
    | again _ _ _ => exact goes _ hdata hwritten
    | wait hpc _ _ =>
      have hafter : p.afterSend s = { p with call := some s } := by simp only [afterSend, hpc]
      rw [hafter]
      exact goes s hdata hwritten
  · cases hs

theorem First.init (c : Bytes) (cs : List Bytes) : First c cs (init (c :: cs)) :=
  ⟨fun _ _ => rfl, fun s hs => by simp [Proxy.init] at hs, by simp [Proxy.init]⟩

/-- **The datagrams of `client_proxy`** are copies of the first chunk, in every run. -/
theorem written_of_exec {es : List ProxyEv}
    (h : Machine.exec step (Proxy.init (c :: cs)) es = some p) :
    ∀ d ∈ p.written, d = c := by
  have hfirst : First c cs p :=
    Machine.exec_invariant (fun _ _ _ hI hs => hI.step hs) (First.init c cs) h
  intro d hd
  rcases List.mem_append.mp hd with hd | hd
  · exact hfirst.before d hd
  · cases hcall : p.call with
    | none => simp [hcall] at hd
    | some s =>
      rw [hcall] at hd
      exact (hfirst.data s hcall).2 d hd

/-- Nothing is read, nothing is sent. -/
theorem written_of_exec_nil {es : List ProxyEv}
    (h : Machine.exec step (Proxy.init []) es = some p) : p.written = [] := by
  refine Machine.exec_invariant (I := fun p => p.input = [] ∧ p.call = none ∧ p.written = []) ?_
    ⟨rfl, rfl, rfl⟩ h |>.2.2
  rintro p e q ⟨hin, hcall, hw⟩ hs
  unfold Proxy.step at hs
  split_ifs at hs
  split at hs
  · obtain rfl := Option.some.inj hs
    unfold readStep
    split
    · exact ⟨hin, hcall, hw⟩
    · next c cs hc => simp [hin] at hc
  · next s _ hs' => simp [hcall] at hs'
  · cases hs

end Proxy

end FortyTwoHundred.Srtp

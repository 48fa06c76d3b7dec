import FortyTwoHundred.Lib.Progress
import FortyTwoHundred.Ftp.Listener

/-!
# Handlers — the signal handlers of the listener, call by call

In `Listener` each handler runs as one step.  Here it runs call by call: children terminate in
between, a signal that comes while its handler runs stays pending, signals of one kind that are
pending are one signal, and the two handlers interrupt each other.  The loop of `kill_children`
frees the cell of an id after it has signalled it.  It also runs in the loop of the listener, after
a failed `add_to_list`, and there a `SIGINT` can come in between: its handler then starts with the
first id again, and reads cells that may be freed.

`atomic_handlers` says that the listener cannot tell, as long as no `SIGINT` is delivered once that
loop has signalled a child: outside its handlers it is in a state that it also gets to with
handlers that run as one step, and so it is when it has exited, as far as the ids are concerned
that it has signalled.  It signals each id of its list once exactly in these runs.
`zombies_reaped` says that no child stays a zombie although signals get lost: as long as there is
one, a `SIGCHLD` is pending or its handler is running.
-/

namespace FortyTwoHundred.Ftp

/-- A call of the listener that has been entered. -/
inductive Frame
  /-- the handler of `SIGCHLD`, in its loop on `waitpid` -/
  | reap
  /-- `kill_children` in the handler of `SIGINT`, or in the loop after a failed `add_to_list`: the
  rest of the list, and whether its first id is signalled, so that its cell is freed next -/
  | kill (handler : Bool) (rest : List Pid) (sent : Bool)
  deriving DecidableEq

def Frame.isHandler : Frame → Bool
  | .reap => true
  | .kill handler _ _ => handler

/-- The handler of `SIGINT`. -/
def Frame.isKill : Frame → Bool
  | .reap => false
  | .kill handler _ _ => handler

structure Interrupted where
  main : Listener
  /-- positions in the list of the ids whose cells are freed -/
  freed : List ℕ
  /-- a `SIGCHLD` is pending -/
  chld : Bool
  /-- a `SIGINT` is pending -/
  int : Bool
  /-- innermost first -/
  frames : List Frame
  /-- what the handler of `SIGCHLD` that is running has reaped -/
  batch : List Pid

inductive HandlerEv
  /-- a step of the loop of the listener; after a failed `add_to_list` it enters `kill_children` -/
  | main (e : ListenerEv)
  | terminate (pid : Pid)
  /-- a `SIGINT` is sent -/
  | interrupt
  | deliverChld
  | deliverInt
  /-- value of `waitpid`, `none` if it is not the id of a child -/
  | waitpid (pid : Option Pid)
  /-- `kill` and `free` in a turn of `kill_children`, and `exit` after the last -/
  | kill
  | free
  | exit

namespace Interrupted

def init : Interrupted := ⟨.init, [], false, false, [], []⟩

/-- The handler of `SIGINT` has been entered. -/
def killing (s : Interrupted) : Bool := s.frames.any Frame.isKill

/-- A step of the loop, and not a signal or the end of a child. -/
def ofLoop : ListenerEv → Bool
  | .terminate _ => false
  | .sigchld => false
  | .sigint => false
  | _ => true

/-- A child is reaped. -/
def reapOne (pid : Pid) (s : Interrupted) : Interrupted :=
  { s with
    main := { s.main with
      live := s.main.live.filter fun p => decide (p ≠ pid)
      zombies := s.main.zombies.filter fun p => decide (p ≠ pid)
      reaped := s.main.reaped ++ [pid] }
    batch := s.batch ++ [pid] }

/-- The position in the list of the first id of the rest. -/
def cell (s : Interrupted) (rest : List Pid) : ℕ := s.main.listed.length - rest.length

/-- A cell is used that is freed.  What follows is not defined; here the process crashes. -/
def crash (s : Interrupted) : Interrupted := { s with main := { s.main with pc := .crashed } }

/-- One step; `none` if it cannot happen. -/
def step (s : Interrupted) (e : HandlerEv) : Option Interrupted :=
  if !s.main.running then none
  else match e with
    | .main e =>
      if s.frames = [] ∧ ofLoop e = true then
        match e, s.main.pending, s.main.children with
        | .add false, some _, some ids => some { s with frames := [.kill false ids false] }
        | _, _, _ => (s.main.step e).map fun l => { s with main := l }
      else none
    | .terminate pid =>
      (s.main.step (.terminate pid)).map fun l => { s with main := l, chld := true }
    | .interrupt => some { s with int := true }
    | .deliverChld =>
      if s.chld = true ∧ Frame.reap ∉ s.frames then
        some { s with chld := false, frames := .reap :: s.frames }
      else none
    | .deliverInt =>
      if s.int = true ∧ s.killing = false then
        match s.main.children with
        | none => some { s with int := false, main := s.main.killChildren }
        | some ids => some { s with int := false, frames := .kill true ids false :: s.frames }
      else none
    | .waitpid none =>
      match s.frames with
      | .reap :: rest =>
        if s.main.zombies = [] then some { s with frames := rest, batch := [] } else none
      | _ => none
    | .waitpid (some pid) =>
      match s.frames with
      | .reap :: _ => if pid ∈ s.main.zombies then some (s.reapOne pid) else none
      | _ => none
    | .kill =>
      match s.frames with
      | .kill handler (pid :: ids) false :: fs =>
        if s.cell (pid :: ids) ∈ s.freed then some s.crash
        else
          some { s with
            main := { s.main with signalled := s.main.signalled ++ [pid] }
            frames := .kill handler (pid :: ids) true :: fs }
      | _ => none
    | .free =>
      match s.frames with
      | .kill handler (pid :: ids) true :: fs =>
        if s.cell (pid :: ids) ∈ s.freed then some s.crash
        else
          some { s with
            freed := s.cell (pid :: ids) :: s.freed
            frames := .kill handler ids false :: fs }
      | _ => none
    | .exit =>
      match s.frames with
      | .kill _ [] _ :: _ => some { s with main := { s.main with pc := .exited } }
      | _ => none

/-- What a step can do. -/
inductive Trans (s : Interrupted) : HandlerEv → Interrupted → Prop
  | main {e l} (hf : s.frames = []) (he : ofLoop e = true)
      (ha : e = .add false → s.main.children = none) (h : s.main.step e = some l) :
      Trans s (.main e) { s with main := l }
  | abort {pid ids} (hf : s.frames = []) (hpc : s.main.pc = .add pid)
      (hc : s.main.children = some ids) :
      Trans s (.main (.add false)) { s with frames := [.kill false ids false] }
  | terminate {pid l} (h : s.main.step (.terminate pid) = some l) :
      Trans s (.terminate pid) { s with main := l, chld := true }
  | interrupt : Trans s .interrupt { s with int := true }
  | deliverChld (hf : Frame.reap ∉ s.frames) :
      Trans s .deliverChld { s with chld := false, frames := .reap :: s.frames }
  | crash (hk : s.killing = false) (hc : s.main.children = none) :
      Trans s .deliverInt { s with int := false, main := s.main.killChildren }
  | deliverInt {ids} (hk : s.killing = false) (hc : s.main.children = some ids) :
      Trans s .deliverInt { s with int := false, frames := .kill true ids false :: s.frames }
  | reaped {rest} (hf : s.frames = .reap :: rest) (hz : s.main.zombies = []) :
      Trans s (.waitpid none) { s with frames := rest, batch := [] }
  | reap {pid rest} (hf : s.frames = .reap :: rest) (hz : pid ∈ s.main.zombies) :
      Trans s (.waitpid (some pid)) (s.reapOne pid)
  | kill {handler pid ids fs} (hf : s.frames = .kill handler (pid :: ids) false :: fs)
      (hn : s.cell (pid :: ids) ∉ s.freed) : Trans s .kill { s with
        main := { s.main with signalled := s.main.signalled ++ [pid] }
        frames := .kill handler (pid :: ids) true :: fs }
  | free {handler pid ids fs} (hf : s.frames = .kill handler (pid :: ids) true :: fs)
      (hn : s.cell (pid :: ids) ∉ s.freed) : Trans s .free { s with
        freed := s.cell (pid :: ids) :: s.freed
        frames := .kill handler ids false :: fs }
  | useFreed {e handler pid ids sent fs} (he : e = .kill ∨ e = .free)
      (hf : s.frames = .kill handler (pid :: ids) sent :: fs)
      (hfreed : s.cell (pid :: ids) ∈ s.freed) : Trans s e s.crash
  | exit {handler sent fs} (hf : s.frames = .kill handler [] sent :: fs) :
      Trans s .exit { s with main := { s.main with pc := .exited } }

/-- **Inversion**: every step is one of these, of a process that exists. -/
theorem trans_of_step {s t : Interrupted} {e : HandlerEv} (h : s.step e = some t) :
    s.main.running = true ∧ Trans s e t := by
  unfold step at h
  have hrun : s.main.running = true := by
    by_contra hn
    rw [if_pos (by simpa using hn)] at h
    cases h
  rw [if_neg (by simp [hrun])] at h
  refine ⟨hrun, ?_⟩
  cases e with
  | main e =>
    dsimp only at h
    split_ifs at h with hf
    split at h
    · next pid ids hpend hc =>
      obtain rfl := Option.some.inj h
      have hpc : s.main.pc = .add pid := by
        unfold Listener.pending at hpend
        split at hpend
        · next q hpc => exact Option.some.inj hpend ▸ hpc
        · cases hpend
      exact .abort hf.1 hpc hc
    · next hno =>
      obtain ⟨l, hl, rfl⟩ := Option.map_eq_some_iff.mp h
      refine .main hf.1 hf.2 (fun he => ?_) hl
      subst he
      cases hc : s.main.children with
      | none => rfl
      | some ids =>
        obtain ⟨-, htrans⟩ := Listener.trans_of_step hl
        cases htrans with
        | @noAdd pid hpc => exact (hno pid ids rfl (by unfold Listener.pending; rw [hpc]) hc).elim
  | terminate pid =>
    obtain ⟨l, hl, rfl⟩ := Option.map_eq_some_iff.mp h
    exact .terminate hl
  | interrupt =>
    obtain rfl := Option.some.inj h
    exact .interrupt
  | deliverChld =>
    dsimp only at h
    split_ifs at h with hf
    obtain rfl := Option.some.inj h
    exact .deliverChld hf.2
  | deliverInt =>
    dsimp only at h
    split_ifs at h with hk
    split at h
    · next hc =>
      obtain rfl := Option.some.inj h
      exact .crash hk.2 hc
    · next ids hc =>
      obtain rfl := Option.some.inj h
      exact .deliverInt hk.2 hc
  | waitpid pid =>
    cases pid with
    | none =>
      dsimp only at h
      split at h
      · next rest hf =>
        split_ifs at h with hz
        obtain rfl := Option.some.inj h
        exact .reaped hf hz
      · cases h
    | some pid =>
      dsimp only at h
      split at h
      · next rest hf =>
        split_ifs at h with hz
        obtain rfl := Option.some.inj h
        exact .reap hf hz
      · cases h
  | kill =>
    dsimp only at h
    split at h
    · next handler pid ids fs hf =>
      split_ifs at h with hfreed
      · obtain rfl := Option.some.inj h
        exact .useFreed (Or.inl rfl) hf hfreed
      · obtain rfl := Option.some.inj h
        exact .kill hf hfreed
    · cases h
  | free =>
    dsimp only at h
    split at h
    · next handler pid ids fs hf =>
      split_ifs at h with hfreed
      · obtain rfl := Option.some.inj h
        exact .useFreed (Or.inr rfl) hf hfreed
      · obtain rfl := Option.some.inj h
        exact .free hf hfreed
    · cases h
  | exit =>
    dsimp only at h
    split at h
    · next handler sent fs hf =>
      obtain rfl := Option.some.inj h
      exact .exit hf
    · cases h

/-! ## The loop -/

/-- `c` is `s` as it was before the children in `batch` were reaped. -/
structure Before (batch : List Pid) (s c : Listener) : Prop where
  pc : c.pc = s.pc
  children : c.children = s.children
  signalled : c.signalled = s.signalled
  live : ∀ p, p ∈ c.live ↔ p ∈ s.live ∨ p ∈ batch
  zombies : ∀ p, p ∈ c.zombies ↔ p ∈ s.zombies ∨ p ∈ batch
  reaped : ∀ p, p ∈ s.reaped ↔ p ∈ c.reaped ∨ p ∈ batch
  apart : ∀ p ∈ batch, p ∉ s.live

section Loop

variable {batch : List Pid} {s c t : Listener} {e : ListenerEv}

theorem Before.refl (s : Listener) : Before [] s s :=
  ⟨rfl, rfl, rfl, fun _ => by simp, fun _ => by simp, fun _ => by simp, fun _ hp => by cases hp⟩

theorem Before.running (h : Before batch s c) : c.running = s.running := by
  unfold Listener.running
  rw [h.pc]

theorem Before.listed (h : Before batch s c) : c.listed = s.listed := by
  unfold Listener.listed
  rw [h.children]

/-- Both exit, or crash, and have signalled the same. -/
theorem Before.killChildren (h : Before batch s c) :
    Before batch s.killChildren c.killChildren := by
  unfold Listener.killChildren
  rw [h.children]
  cases s.children with
  | none => exact ⟨rfl, rfl, h.signalled, h.live, h.zombies, h.reaped, h.apart⟩
  | some ids =>
    refine ⟨rfl, rfl, ?_, h.live, h.zombies, h.reaped, h.apart⟩
    show c.signalled ++ ids = s.signalled ++ ids
    rw [h.signalled]

/-- A child terminates in both. -/
theorem Before.terminate {pid : Pid} (h : Before batch s c)
    (hs : s.step (.terminate pid) = some t) : ∃ d, c.step (.terminate pid) = some d ∧
    Before batch t d := by
  obtain ⟨hrun, htrans⟩ := Listener.trans_of_step hs
  cases htrans with
  | terminate hlive hz =>
    have hc : pid ∈ c.live ∧ pid ∉ c.zombies := by
      refine ⟨(h.live pid).mpr (Or.inl hlive), fun hmem => ?_⟩
      rcases (h.zombies pid).mp hmem with hmem | hmem
      · exact hz hmem
      · exact h.apart pid hmem hlive
    have hstep : c.step (.terminate pid) = some { c with zombies := pid :: c.zombies } := by
      unfold Listener.step
      rw [if_neg (by simp [h.running, hrun])]
      cases c.pc <;> simp [hc]
    refine ⟨_, hstep, ⟨h.pc, h.children, h.signalled, h.live, fun p => ?_, h.reaped, h.apart⟩⟩
    show p ∈ pid :: c.zombies ↔ p ∈ pid :: s.zombies ∨ p ∈ batch
    rw [List.mem_cons, List.mem_cons, h.zombies p, or_assoc]

/-- A step of the loop is the same step in both. -/
theorem Before.loop (h : Before [] s c) (he : ofLoop e = true) (hs : s.step e = some t) :
    ∃ d, c.step e = some d ∧ Before [] t d := by
  have hs' := hs
  obtain ⟨hrun, htrans⟩ := Listener.trans_of_step hs
  have hrunc : ¬ (!c.running) = true := by simp [h.running, hrun]
  have hlive : ∀ p, p ∈ c.live ↔ p ∈ s.live := fun p => (h.live p).trans (by simp)
  cases htrans with
  | malloc hpc =>
    have hstep : c.step (.malloc true) = some { c with pc := .recv, children := some [] } := by
      unfold Listener.step
      rw [if_neg hrunc, h.pc, hpc]
      rfl
    exact ⟨_, hstep, rfl, rfl, h.signalled, h.live, h.zombies, h.reaped, h.apart⟩
  | noMalloc hpc =>
    have hstep : c.step (.malloc false) = some { c with pc := .exited } := by
      unfold Listener.step
      rw [if_neg hrunc, h.pc, hpc]
      rfl
    exact ⟨_, hstep, rfl, h.children, h.signalled, h.live, h.zombies, h.reaped, h.apart⟩
  | empty hpc =>
    have hstep : c.step (.recv 0) = some c := by
      unfold Listener.step
      rw [if_neg hrunc, h.pc, hpc]
      rfl
    exact ⟨_, hstep, h⟩
  | @message n hpc hn =>
    have hstep : c.step (.recv n) = some { c with pc := .fork } := by
      unfold Listener.step
      rw [if_neg hrunc, h.pc, hpc]
      dsimp only
      rw [if_neg hn]
    exact ⟨_, hstep, rfl, h.children, h.signalled, h.live, h.zombies, h.reaped, h.apart⟩
  | noFork hpc =>
    have hstep : c.step (.fork none) = some { c with pc := .recv } := by
      unfold Listener.step
      rw [if_neg hrunc, h.pc, hpc]
    exact ⟨_, hstep, rfl, h.children, h.signalled, h.live, h.zombies, h.reaped, h.apart⟩
  | @fork pid hpc hnew =>
    have hpos : 0 < pid := by
      unfold Listener.step at hs'
      rw [if_neg (by simp [hrun]), hpc] at hs'
      dsimp only at hs'
      split_ifs at hs' with hp
      exact hp.1
    have hstep : c.step (.fork (some pid)) =
        some { c with pc := .add pid, live := pid :: c.live } := by
      unfold Listener.step
      rw [if_neg hrunc, h.pc, hpc]
      dsimp only
      rw [if_pos ⟨hpos, fun hmem => hnew ((hlive pid).mp hmem)⟩]
    refine ⟨_, hstep, rfl, h.children, h.signalled, fun p => ?_, h.zombies, h.reaped,
      fun p hp => by cases hp⟩
    show p ∈ pid :: c.live ↔ p ∈ pid :: s.live ∨ p ∈ []
    rw [List.mem_cons, List.mem_cons, hlive p]
    simp
  | @add pid hpc =>
    have hstep : c.step (.add true) =
        some { c with pc := .recv, children := some (c.listed ++ [pid]) } := by
      unfold Listener.step
      rw [if_neg hrunc, h.pc, hpc]
      rfl
    refine ⟨_, hstep, rfl, ?_, h.signalled, h.live, h.zombies, h.reaped, h.apart⟩
    show some (c.listed ++ [pid]) = some (s.listed ++ [pid])
    rw [h.listed]
  | @noAdd pid hpc =>
    have hstep : c.step (.add false) = some c.killChildren := by
      unfold Listener.step
      rw [if_neg hrunc, h.pc, hpc]
      rfl
    exact ⟨_, hstep, h.killChildren⟩
  | terminate _ _ => cases he
  | sigchld => cases he
  | sigint => cases he

end Loop

/-! ## The handlers -/

/-- What `kill_children` has still to signal. -/
def left (rest : List Pid) (sent : Bool) : List Pid := if sent then rest.tail else rest

/-- Where the innermost `kill_children` is. -/
def current : List Frame → Option (List Pid × Bool)
  | [] => none
  | .reap :: fs => current fs
  | .kill _ rest sent :: _ => some (rest, sent)

/-- No `SIGINT` is delivered once a child has been signalled. -/
def Undisturbed (s : Interrupted) (e : HandlerEv) : Prop := e = .deliverInt → s.main.signalled = []

/-- In the loop, or in its call of `kill_children` with nobody signalled. -/
def Waits (s : Interrupted) (fs : List Frame) : Prop :=
  fs = [] ∨ ∃ pid ids, s.main.pc = .add pid ∧ s.main.children = some ids ∧
    fs = [.kill false ids false]

/-- `c` has run its handlers as one step: that of `SIGCHLD` when it returns, that of `SIGINT` when
it is entered; and `kill_children` in its loop when the first id is signalled. -/
inductive Matches (s : Interrupted) (c : Listener) : Prop
  | loop (before : Before s.batch s.main c) (zombies : ∀ p ∈ s.main.zombies, p ∈ s.main.live)
      (freed : s.freed = []) (signalled : s.main.signalled = [])
      (null : s.main.pc = .start ∨ s.main.running = false → s.main.children = none)
      (frames : (s.Waits s.frames ∧ s.batch = []) ∨ ∃ fs, s.Waits fs ∧ s.frames = .reap :: fs)
  | exiting (rest : List Pid) (sent : Bool) (place : current s.frames = some (rest, sent))
      (running : s.main.running = true) (pc : c.pc = .exited)
      (signalled : c.signalled = s.main.signalled ++ left rest sent)
      (all : s.main.signalled ++ left rest sent = s.main.listed)
      (cells : ∀ i ∈ s.freed, i < s.cell rest) (length : rest.length ≤ s.main.listed.length)
      (closed : s.killing = true ∨ s.main.signalled ≠ [])
  | ended (hpc : s.main.pc = .exited) (pc : c.pc = .exited)
      (signalled : c.signalled = s.main.signalled) (all : s.main.signalled = s.main.listed)

section Handlers

variable {s t : Interrupted} {c : Listener} {e : HandlerEv}

/-- The same children are zombies in the end, and no other. -/
theorem zombies_step {s t : Listener} {e : ListenerEv} (h : ∀ p ∈ s.zombies, p ∈ s.live)
    (hs : s.step e = some t) : ∀ p ∈ t.zombies, p ∈ t.live := by
  obtain ⟨-, htrans⟩ := Listener.trans_of_step hs
  have hkill : ∀ p ∈ s.killChildren.zombies, p ∈ s.killChildren.live := by
    unfold Listener.killChildren
    split <;> exact h
  cases htrans with
  | fork _ _ => exact fun p hp => List.mem_cons_of_mem _ (h p hp)
  | noAdd _ => exact hkill
  | sigint => exact hkill
  | terminate hlive _ =>
    intro p hp
    rcases List.mem_cons.mp hp with rfl | hp
    · exact hlive
    · exact h p hp
  | sigchld => exact fun p hp => by cases hp
  | _ => exact h

/-- A child is reaped, and `c` does not know of it yet. -/
theorem Before.reapOne {pid : Pid} (h : Before s.batch s.main c) (hlive : pid ∈ s.main.live)
    (hz : pid ∈ s.main.zombies) : Before (s.reapOne pid).batch (s.reapOne pid).main c := by
  have hmem : ∀ (l : List Pid) p, p ∈ l.filter (fun p => decide (p ≠ pid)) ↔
      p ∈ l ∧ p ≠ pid := fun l p => by
    rw [List.mem_filter, decide_eq_true_iff]
  have hbatch : ∀ p, p ∈ (s.reapOne pid).batch ↔ p ∈ s.batch ∨ p = pid := fun p => by
    show p ∈ s.batch ++ [pid] ↔ _
    rw [List.mem_append, List.mem_singleton]
  refine ⟨h.pc, h.children, h.signalled, fun p => ?_, fun p => ?_, fun p => ?_, fun p hp => ?_⟩
  · show p ∈ c.live ↔ p ∈ s.main.live.filter _ ∨ _
    rw [hmem, hbatch, h.live p]
    by_cases hp : p = pid
    · subst hp
      simp [hlive]
    · simp [hp]
  · show p ∈ c.zombies ↔ p ∈ s.main.zombies.filter _ ∨ _
    rw [hmem, hbatch, h.zombies p]
    by_cases hp : p = pid
    · subst hp
      simp [hz]
    · simp [hp]
  · show p ∈ s.main.reaped ++ [pid] ↔ _
    rw [hbatch, List.mem_append, List.mem_singleton, h.reaped p, or_assoc]
  · show p ∉ s.main.live.filter _
    rw [hmem]
    rcases (hbatch p).mp hp with hp | rfl
    · exact fun hl => h.apart p hp hl.1
    · exact fun hl => hl.2 rfl

/-- The handler of `SIGCHLD` returns, and `c` reaps all at once. -/
theorem Before.reap {l : Listener} {batch : List Pid} (h : Before batch l c) (hz : l.zombies = []) :
    Before [] l c.reap := by
  have hzc : ∀ p, p ∈ c.zombies ↔ p ∈ batch := fun p => by rw [h.zombies, hz]; simp
  refine ⟨h.pc, h.children, h.signalled, fun p => ?_, fun p => ?_, fun p => ?_,
    fun p hp => by cases hp⟩
  · show p ∈ c.live.filter _ ↔ _
    rw [List.mem_filter, decide_eq_true_iff, hzc, h.live]
    have := h.apart p
    simp only [List.not_mem_nil, or_false]
    tauto
  · show p ∈ [] ↔ _
    rw [hz]
    simp
  · show p ∈ l.reaped ↔ p ∈ c.reaped ++ c.zombies ∨ p ∈ []
    rw [List.mem_append, hzc, h.reaped]
    simp

theorem killing_cons {f : Frame} {fs : List Frame} (hf : s.frames = f :: fs) :
    s.killing = (f.isKill || fs.any Frame.isKill) := by
  unfold killing
  rw [hf, List.any_cons]

/-- The innermost frame is the call of `kill_children` that runs. -/
theorem current_cons {handler sent sent' : Bool} {rest rest' : List Pid} {fs : List Frame}
    (hat : current s.frames = some (rest, sent)) (hf : s.frames = .kill handler rest' sent' :: fs) :
    rest' = rest ∧ sent' = sent := by
  rw [hf] at hat
  exact Prod.mk.inj (Option.some.inj hat)

theorem Waits.reap_notMem {fs : List Frame} (h : s.Waits fs) : Frame.reap ∉ fs := by
  obtain rfl | ⟨pid, ids, -, -, rfl⟩ := h <;> simp

/-! The frames while the loop runs, or its call of `kill_children` before the first child is
signalled, or above them the handler of `SIGCHLD`. -/

section Frames

variable (h : (s.Waits s.frames ∧ s.batch = []) ∨ ∃ fs, s.Waits fs ∧ s.frames = .reap :: fs)

include h

theorem batch_of_loop (hf : s.frames = []) : s.batch = [] := by
  rcases h with ⟨-, hb⟩ | ⟨fs, -, hf'⟩
  · exact hb
  · rw [hf] at hf'
    cases hf'

theorem waits_of_reap {fs : List Frame} (hf : s.frames = .reap :: fs) : s.Waits fs := by
  rcases h with ⟨hw, -⟩ | ⟨fs', hw, hf'⟩
  · exact absurd (hf ▸ List.mem_cons_self) hw.reap_notMem
  · rw [hf] at hf'
    exact (List.cons.inj hf').2 ▸ hw

/-- A call of `kill_children` is that of the loop, and has signalled nobody. -/
theorem add_of_kill {handler sent : Bool} {ids : List Pid} {fs : List Frame}
    (hf : s.frames = .kill handler ids sent :: fs) :
    sent = false ∧ s.main.children = some ids ∧ ∃ pid, s.main.pc = .add pid := by
  rcases h with ⟨hnil | ⟨pid, ids', hpc, hc, hw⟩, -⟩ | ⟨fs', -, hf'⟩
  · rw [hf] at hnil
    cases hnil
  · rw [hf] at hw
    obtain ⟨-, rfl, rfl⟩ := Frame.kill.inj (List.cons.inj hw).1
    exact ⟨rfl, hc, pid, hpc⟩
  · rw [hf] at hf'
    cases hf'

/-- While there is no list there is no call of `kill_children`. -/
theorem loop_of_null (hc : s.main.children = none) :
    (s.frames = [] ∧ s.batch = []) ∨ s.frames = [.reap] := by
  have hwaits : ∀ {fs}, s.Waits fs → fs = [] := by
    rintro fs (rfl | ⟨pid, ids, -, hc', -⟩)
    · rfl
    · rw [hc] at hc'
      cases hc'
  rcases h with ⟨hw, hb⟩ | ⟨fs, hw, hf⟩
  · exact Or.inl ⟨hwaits hw, hb⟩
  · exact Or.inr (hwaits hw ▸ hf)

end Frames

theorem listed_of_children {l : Listener} {ids : List Pid} (hc : l.children = some ids) :
    l.listed = ids := by
  rw [Listener.listed, hc]
  rfl

/-- The children are signalled in one step. -/
theorem Before.exit {batch : List Pid} {l : Listener} {ids : List Pid} (h : Before batch l c)
    (hc : l.children = some ids) :
    c.killChildren.pc = .exited ∧ c.killChildren.signalled = l.signalled ++ ids := by
  unfold Listener.killChildren
  rw [h.children.trans hc]
  exact ⟨rfl, h.signalled ▸ rfl⟩

theorem Before.step_sigint {batch : List Pid} {l : Listener} (h : Before batch l c)
    (hrun : l.running = true) : c.step .sigint = some c.killChildren := by
  unfold Listener.step
  rw [if_neg (by simp [h.running, hrun])]
  cases c.pc <;> rfl

theorem Before.step_sigchld {batch : List Pid} {l : Listener} (h : Before batch l c)
    (hrun : l.running = true) : c.step .sigchld = some c.reap := by
  unfold Listener.step
  rw [if_neg (by simp [h.running, hrun])]
  cases c.pc <;> rfl

/-- `add_to_list` fails. -/
theorem Before.step_add {batch : List Pid} {l : Listener} {pid : Pid} (h : Before batch l c)
    (hpc : l.pc = .add pid) : c.step (.add false) = some c.killChildren := by
  have hrun : l.running = true := by simp [Listener.running, hpc]
  unfold Listener.step
  rw [if_neg (by simp [h.running, hrun]), h.pc, hpc]
  rfl

theorem killChildren_of_null {l : Listener} (hc : l.children = none) :
    l.killChildren = { l with pc := .crashed } := by
  obtain ⟨pc, children, live, zombies, reaped, signalled⟩ := l
  obtain rfl : children = none := hc
  rfl

/-- What the loop does before it signals its children. -/
theorem loop_step {l m : Listener} {e : ListenerEv} (he : ofLoop e = true)
    (ha : e = .add false → l.children = none) (h : l.step e = some m) :
    m.signalled = l.signalled ∧
      ((l.pc = .start ∨ l.running = false → l.children = none) →
        m.pc = .start ∨ m.running = false → m.children = none) := by
  obtain ⟨hrun, htrans⟩ := Listener.trans_of_step h
  cases htrans with
  | noAdd hpc =>
    rw [killChildren_of_null (ha rfl)]
    exact ⟨rfl, fun _ _ => ha rfl⟩
  | noMalloc hpc => exact ⟨rfl, fun hn _ => hn (Or.inl hpc)⟩
  | empty _ => exact ⟨rfl, fun hn => hn⟩
  | terminate _ _ => cases he
  | sigchld => cases he
  | sigint => cases he
  | _ => exact ⟨rfl, fun _ hm => by rcases hm with hm | hm <;> cases hm⟩

/-- A listener that has taken no step. -/
theorem Matches.stay (h : Matches t c) :
    ∃ es d, Machine.exec Listener.step c es = some d ∧ Matches t d := ⟨[], c, rfl, h⟩

theorem Matches.one {d : Listener} {e : ListenerEv} (hd : c.step e = some d) (h : Matches t d) :
    ∃ es d, Machine.exec Listener.step c es = some d ∧ Matches t d :=
  ⟨[e], d, Machine.exec_cons_some.mpr ⟨d, hd, rfl⟩, h⟩

/-- In the loop, or while children are reaped. -/
theorem step_of_loop (before : Before s.batch s.main c)
    (zombies : ∀ p ∈ s.main.zombies, p ∈ s.main.live) (freed : s.freed = [])
    (signalled : s.main.signalled = [])
    (null : s.main.pc = .start ∨ s.main.running = false → s.main.children = none)
    (frames : (s.Waits s.frames ∧ s.batch = []) ∨ ∃ fs, s.Waits fs ∧ s.frames = .reap :: fs)
    (hs : s.step e = some t) :
    ∃ es d, Machine.exec Listener.step c es = some d ∧ Matches t d := by
  obtain ⟨hrun, htrans⟩ := trans_of_step hs
  cases htrans with
  | @main e l hf he ha hl =>
    have hb := batch_of_loop frames hf
    obtain ⟨d, hd, hbefore⟩ := (hb ▸ before).loop he hl
    obtain ⟨hsig, hnull⟩ := loop_step he ha hl
    refine Matches.one hd (.loop ?_ (zombies_step zombies hl) freed (hsig.trans signalled)
      (hnull null)
      (Or.inl ⟨Or.inl hf, hb⟩))
    rw [← hb] at hbefore
    exact hbefore
  | @abort pid ids hf hpc hc =>
    have hb := batch_of_loop frames hf
    exact Matches.stay (.loop before zombies freed signalled null
      (Or.inl ⟨Or.inr ⟨pid, ids, hpc, hc, rfl⟩, hb⟩))
  | @terminate pid l hl =>
    obtain ⟨d, hd, hbefore⟩ := before.terminate hl
    have hz := zombies_step zombies hl
    obtain ⟨-, htl⟩ := Listener.trans_of_step hl
    cases htl with
    | terminate _ _ => exact Matches.one hd (.loop hbefore hz freed signalled null frames)
  | interrupt => exact Matches.stay (.loop before zombies freed signalled null frames)
  | deliverChld hf =>
    rcases frames with ⟨hw, hb⟩ | ⟨fs, -, hreap⟩
    · exact Matches.stay (.loop before zombies freed signalled null (Or.inr ⟨s.frames, hw, rfl⟩))
    · exact absurd (hreap ▸ List.mem_cons_self) hf
  | crash hk hc =>
    have hkc := before.killChildren
    have hmain := killChildren_of_null hc
    refine Matches.one (before.step_sigint hrun) (.loop hkc ?_ freed ?_ (fun _ => ?_) ?_)
    · rw [hmain]
      exact zombies
    · rw [hmain]
      exact signalled
    · rw [hmain]
      exact hc
    · rcases loop_of_null frames hc with ⟨hf, hb⟩ | hf
      · exact Or.inl ⟨Or.inl hf, hb⟩
      · exact Or.inr ⟨[], Or.inl rfl, hf⟩
  | @deliverInt ids hk hc =>
    obtain ⟨hpc, hsig⟩ := before.exit hc
    refine Matches.one (before.step_sigint hrun) (.exiting ids false rfl hrun hpc hsig ?_ ?_ ?_
      (Or.inl rfl))
    · show s.main.signalled ++ ids = s.main.listed
      rw [signalled, listed_of_children hc, List.nil_append]
    · intro i hi
      rw [freed] at hi
      cases hi
    · exact Nat.le_of_eq (congrArg List.length (listed_of_children hc).symm)
  | @reaped fs hf hz =>
    exact Matches.one (before.step_sigchld hrun) (.loop (before.reap hz) zombies freed signalled
      null (Or.inl ⟨waits_of_reap frames hf, rfl⟩))
  | @reap pid fs hf hz =>
    refine Matches.stay (.loop (before.reapOne (zombies pid hz) hz) (fun p hp => ?_) freed
      signalled null (Or.inr ⟨fs, waits_of_reap frames hf, hf⟩))
    obtain ⟨hp, hne⟩ := List.mem_filter.mp hp
    exact List.mem_filter.mpr ⟨zombies p hp, hne⟩
  | @kill handler pid ids fs hf hn =>
    obtain ⟨-, hc, p, hpc⟩ := add_of_kill frames hf
    obtain ⟨hexit, hsig⟩ := before.exit hc
    have hlisted := listed_of_children hc
    refine Matches.one (before.step_add hpc) (.exiting (pid :: ids) true rfl hrun hexit ?_ ?_ ?_ ?_
      (Or.inr ?_))
    · show c.killChildren.signalled = (s.main.signalled ++ [pid]) ++ ids
      rw [hsig, List.append_assoc]
      rfl
    · show (s.main.signalled ++ [pid]) ++ ids = s.main.listed
      rw [signalled, hlisted]
      rfl
    · intro i hi
      rw [show s.freed = [] from freed] at hi
      cases hi
    · exact Nat.le_of_eq (congrArg List.length hlisted.symm)
    · show s.main.signalled ++ [pid] ≠ []
      simp
  | free hf _ =>
    obtain ⟨hsent, -⟩ := add_of_kill frames hf
    cases hsent
  | useFreed _ _ hfreed =>
    rw [freed] at hfreed
    cases hfreed
  | @exit handler sent fs hf =>
    obtain ⟨-, hc, p, hpc⟩ := add_of_kill frames hf
    obtain ⟨hexit, hsig⟩ := before.exit hc
    rw [List.append_nil] at hsig
    exact Matches.one (before.step_add hpc)
      (.ended rfl hexit hsig (signalled.trans (listed_of_children hc).symm))

/-- While the list is signalled. -/
theorem step_of_exiting {rest : List Pid} {sent : Bool} (hat : current s.frames = some (rest, sent))
    (pc : c.pc = .exited) (signalled : c.signalled = s.main.signalled ++ left rest sent)
    (all : s.main.signalled ++ left rest sent = s.main.listed)
    (cells : ∀ i ∈ s.freed, i < s.cell rest)
    (length : rest.length ≤ s.main.listed.length)
    (closed : s.killing = true ∨ s.main.signalled ≠ []) (hok : Undisturbed s e)
    (hs : s.step e = some t) : Matches t c := by
  obtain ⟨hrun, htrans⟩ := trans_of_step hs
  have hclosed : e = .deliverInt → s.killing = true := fun he =>
    closed.resolve_right fun hne => hne (hok he)
  cases htrans with
  | main hf _ _ _ =>
    rw [hf] at hat
    cases hat
  | abort hf _ _ =>
    rw [hf] at hat
    cases hat
  | @terminate pid l hl =>
    obtain ⟨-, htl⟩ := Listener.trans_of_step hl
    cases htl with
    | terminate _ _ => exact .exiting rest sent hat hrun pc signalled all cells length closed
  | interrupt => exact .exiting rest sent hat hrun pc signalled all cells length closed
  | deliverChld _ => exact .exiting rest sent hat hrun pc signalled all cells length closed
  | crash hk _ =>
    rw [hclosed rfl] at hk
    cases hk
  | deliverInt hk _ =>
    rw [hclosed rfl] at hk
    cases hk
  | @reaped fs hf hz =>
    rw [hf] at hat
    exact .exiting rest sent hat hrun pc signalled all cells length
      (closed.imp_left (killing_cons hf).symm.trans)
  | reap hf hz => exact .exiting rest sent hat hrun pc signalled all cells length closed
  | @kill handler pid ids fs hf _ =>
    obtain ⟨rfl, rfl⟩ := current_cons hat hf
    refine .exiting (pid :: ids) true rfl hrun pc (signalled.trans ?_)
      (Eq.trans ?_ all) cells length
      (Or.inr ?_)
    · show s.main.signalled ++ pid :: ids = (s.main.signalled ++ [pid]) ++ ids
      rw [List.append_assoc]
      rfl
    · show (s.main.signalled ++ [pid]) ++ ids = s.main.signalled ++ pid :: ids
      rw [List.append_assoc]
      rfl
    · show s.main.signalled ++ [pid] ≠ []
      simp
  | @free handler pid ids fs hf _ =>
    obtain ⟨rfl, rfl⟩ := current_cons hat hf
    -- the cell is the one before those of the rest
    have hcell : s.cell (pid :: ids) + 1 = s.cell ids := by
      unfold cell
      rw [List.length_cons] at length ⊢
      omega
    refine .exiting ids false rfl hrun pc signalled all (fun i hi => ?_) ?_
      (closed.imp_left (killing_cons hf).symm.trans)
    · show i < s.cell ids
      rcases List.mem_cons.mp hi with rfl | hi
      · omega
      · have := cells i hi
        omega
    · exact Nat.le_of_succ_le length
  | useFreed _ hf hfreed =>
    obtain ⟨rfl, rfl⟩ := current_cons hat hf
    exact absurd (cells _ hfreed) (Nat.lt_irrefl _)
  | @exit handler sent' fs hf =>
    obtain ⟨rfl, rfl⟩ := current_cons hat hf
    have hleft : left [] sent' = [] := by cases sent' <;> rfl
    rw [hleft, List.append_nil] at signalled all
    exact .ended rfl pc signalled all

/-- **One step** is a step of `c` or none. -/
theorem Matches.step (h : Matches s c) (hok : Undisturbed s e) (hs : s.step e = some t) :
    ∃ es d, Machine.exec Listener.step c es = some d ∧ Matches t d := by
  cases h with
  | loop before zombies freed signalled null frames =>
    exact step_of_loop before zombies freed signalled null frames hs
  | exiting rest sent hat _ pc signalled all cells length closed =>
    exact (step_of_exiting hat pc signalled all cells length closed hok hs).stay
  | ended hpc _ _ _ =>
    obtain ⟨hrun, -⟩ := trans_of_step hs
    rw [Listener.running, hpc] at hrun
    cases hrun

/-- `SIGINT` has come after the first child was signalled: more ids are signalled than are in the
list. -/
structure Disturbed (s : Interrupted) : Prop where
  running : s.main.running = true → s.killing = true ∧ ∃ rest sent, current s.frames =
    some (rest, sent) ∧
    s.main.listed.length < s.main.signalled.length + (left rest sent).length
  exited : s.main.pc = .exited → s.main.listed.length < s.main.signalled.length

/-- It cannot be undone. -/
theorem Disturbed.step (h : Disturbed s) (hs : s.step e = some t) : Disturbed t := by
  obtain ⟨hrun, htrans⟩ := trans_of_step hs
  obtain ⟨hk, rest, sent, hat, hlt⟩ := h.running hrun
  have hnot : ∀ {l : Listener}, l.pc = s.main.pc → l.pc = .exited → False := by
    intro l hpc he
    rw [Listener.running, ← hpc, he] at hrun
    cases hrun
  cases htrans with
  | main hf _ _ _ =>
    rw [hf] at hat
    cases hat
  | abort hf _ _ =>
    rw [hf] at hat
    cases hat
  | @terminate pid l hl =>
    obtain ⟨-, htl⟩ := Listener.trans_of_step hl
    cases htl with
    | terminate _ _ => exact ⟨fun _ => ⟨hk, rest, sent, hat, hlt⟩, fun he => (hnot rfl he).elim⟩
  | interrupt => exact ⟨fun _ => ⟨hk, rest, sent, hat, hlt⟩, fun he => (hnot rfl he).elim⟩
  | deliverChld _ => exact ⟨fun _ => ⟨hk, rest, sent, hat, hlt⟩, fun he => (hnot rfl he).elim⟩
  | crash hk' _ =>
    rw [hk] at hk'
    cases hk'
  | deliverInt hk' _ =>
    rw [hk] at hk'
    cases hk'
  | @reaped fs hf hz =>
    rw [hf] at hat
    exact ⟨fun _ => ⟨(killing_cons hf).symm.trans hk, rest, sent, hat, hlt⟩,
      fun he => (hnot rfl he).elim⟩
  | reap hf hz => exact ⟨fun _ => ⟨hk, rest, sent, hat, hlt⟩, fun he => (hnot rfl he).elim⟩
  | @kill handler pid ids fs hf _ =>
    obtain ⟨rfl, rfl⟩ := current_cons hat hf
    refine ⟨fun _ => ⟨(killing_cons hf).symm.trans hk, _, _, rfl, ?_⟩, fun he => (hnot rfl he).elim⟩
    show s.main.listed.length < (s.main.signalled ++ [pid]).length + ids.length
    rw [List.length_append, List.length_singleton]
    simp only [left, Bool.false_eq_true, if_false, List.length_cons] at hlt
    omega
  | @free handler pid ids fs hf _ =>
    obtain ⟨rfl, rfl⟩ := current_cons hat hf
    exact ⟨fun _ => ⟨(killing_cons hf).symm.trans hk, _, _, rfl, hlt⟩, fun he => (hnot rfl he).elim⟩
  | useFreed _ _ _ =>
    have hpc : s.crash.main.pc = .crashed := rfl
    exact ⟨fun he => by simp [Listener.running, hpc] at he, fun he => by simp [hpc] at he⟩
  | @exit handler sent' fs hf =>
    obtain ⟨rfl, rfl⟩ := current_cons hat hf
    have hleft : left [] sent' = [] := by cases sent' <;> rfl
    rw [hleft] at hlt
    exact ⟨fun he => by simp [Listener.running] at he, fun _ => hlt⟩

/-- The delivery of a `SIGINT` after a child was signalled. -/
theorem disturbed_of_step (hok : ¬ Undisturbed s e) (hs : s.step e = some t) : Disturbed t := by
  obtain ⟨rfl, hsig⟩ := Classical.not_imp.mp hok
  obtain ⟨hrun, htrans⟩ := trans_of_step hs
  cases htrans with
  | crash _ hc =>
    have hmain := killChildren_of_null hc
    refine ⟨fun he => ?_, fun he => ?_⟩
    · have he' : s.main.killChildren.running = true := he
      rw [hmain] at he'
      cases he'
    · have he' : s.main.killChildren.pc = .exited := he
      rw [hmain] at he'
      cases he'
  | @deliverInt ids _ hc =>
    refine ⟨fun _ => ⟨rfl, ids, false, rfl, ?_⟩,
      fun he => ?_⟩
    · show s.main.listed.length < s.main.signalled.length + ids.length
      have hpos := List.length_pos_iff.mpr hsig
      rw [listed_of_children hc]
      omega
    · have he' : s.main.pc = .exited := he
      rw [Listener.running, he'] at hrun
      cases hrun
  | useFreed he _ _ => rcases he with he | he <;> cases he

end Handlers

/-- In a run in which the loop is undisturbed when it signals its children. -/
theorem matches_of_meets {es : List HandlerEv} {s : Interrupted}
    (h : Machine.exec step init es = some s) (hok : Machine.Meets step Undisturbed init es) :
    ∃ cs c, Machine.exec Listener.step .init cs = some c ∧ Matches s c := by
  have h0 : Matches init .init :=
    .loop (Before.refl _) (fun p hp => by cases hp) rfl rfl (fun _ => rfl)
      (Or.inl ⟨Or.inl rfl, rfl⟩)
  exact Machine.exec_simulates_runs (fun _ _ _ _ hm hok hs => Matches.step hm hok hs) h0 hok h

/-- **The handlers are atomic**: whatever the order of the calls of the listener, its handlers and
the system, if no `SIGINT` is delivered once a child has been signalled in the loop, no freed cell
is used; when no handler is running and nobody has been signalled, the listener is in a state that
it gets to with handlers that run as one step, up to the order of the ids; and when it has exited,
it has signalled the same ids as there.  These are exactly the runs in which a listener that exits
has signalled each id of its list once. -/
theorem atomic_handlers {es : List HandlerEv} {s : Interrupted}
    (h : Machine.exec step init es = some s) : (Machine.Meets step Undisturbed init es →
      (s.main.pc = .crashed → s.main.children = none) ∧
      ∃ cs c, Machine.exec Listener.step .init cs = some c ∧
        (s.main.running = true → (∀ f ∈ s.frames, f.isHandler = false) → s.main.signalled = [] →
          Before [] s.main c) ∧
        (s.main.running = false → c.pc = s.main.pc ∧ c.signalled = s.main.signalled)) ∧
    (s.main.pc = .exited →
      (Machine.Meets step Undisturbed init es ↔ s.main.signalled = s.main.listed)) := by
  refine ⟨fun hok => ?_, fun hexit => ⟨fun hok => ?_, fun hall => ?_⟩⟩
  · obtain ⟨cs, c, hc, hmatches⟩ := matches_of_meets h hok
    have hnot : s.main.pc = .crashed → s.main.running = false := fun hpc => by
      simp [Listener.running, hpc]
    cases hmatches with
    | loop before _ _ _ null frames =>
      refine ⟨fun hpc => null (Or.inr (by simp [Listener.running, hpc])), cs, c, hc,
        fun _ hf _ => ?_,
        fun _ => ⟨before.pc, before.signalled⟩⟩
      rcases frames with ⟨-, hb⟩ | ⟨fs, -, hf'⟩
      · exact hb ▸ before
      · cases hf .reap (hf' ▸ List.mem_cons_self)
    | exiting rest sent _ running _ _ _ _ _ closed =>
      have hrun : s.main.running ≠ false := by simp [running]
      refine ⟨fun hpc => absurd (hnot hpc) hrun, cs, c, hc, fun _ hf hsig => ?_,
        fun hend => absurd hend hrun⟩
      -- nobody is signalled, so it is the handler that signals
      obtain ⟨f, hmem, hk⟩ := List.any_eq_true.mp (closed.resolve_right fun hne => hne hsig)
      have hhandler := hf f hmem
      cases f with
      | reap => cases hk
      | kill handler rest sent =>
        rw [show handler = true from hk] at hhandler
        cases hhandler
    | ended hpc pc signalled _ =>
      have hend : s.main.running ≠ true := by simp [Listener.running, hpc]
      have hexit : s.main.pc ≠ .crashed := by simp [hpc]
      exact ⟨fun hpc' => absurd hpc' hexit, cs, c, hc, fun hrun => absurd hrun hend,
        fun _ => ⟨pc.trans hpc.symm, signalled⟩⟩
  · obtain ⟨cs, c, hc, hmatches⟩ := matches_of_meets h hok
    cases hmatches with
    | loop _ _ _ signalled null _ =>
      rw [signalled, Listener.listed, null (Or.inr (by simp [Listener.running, hexit]))]
      rfl
    | exiting _ _ _ running _ _ _ _ _ _ =>
      rw [Listener.running, hexit] at running
      cases running
    | ended _ _ _ all => exact all
  · rcases Machine.meets_or_break Undisturbed init es with hok | ⟨fs, e, gs, u, rfl, hu, -, hbreak⟩
    · exact hok
    · obtain ⟨v, hv, hrest⟩ := Machine.exec_append.mp h
      rw [hu] at hv
      obtain rfl := Option.some.inj hv
      obtain ⟨t, ht, hs⟩ := Machine.exec_cons_some.mp hrest
      have hdist : Disturbed s :=
        Machine.exec_invariant (fun _ _ _ => Disturbed.step) (disturbed_of_step hbreak ht) hs
      have hlt := hdist.exited hexit
      rw [hall] at hlt
      exact absurd hlt (Nat.lt_irrefl _)

/-- Two children are forked and terminate, and one `SIGCHLD` is pending. -/
def twoTerminate : List HandlerEv :=
  [.main (.malloc true), .main (.recv 8), .main (.fork (some 10)), .main (.add true),
    .main (.recv 8),
    .main (.fork (some 11)), .main (.add true), .terminate 10, .terminate 11]

/-- A turn of `kill_children` for each of two ids, and `exit`. -/
def killTwo : List HandlerEv := [.kill, .free, .kill, .free, .exit]

/-- `SIGINT` comes between two calls of `waitpid`. -/
def nested : List HandlerEv :=
  twoTerminate ++ [.deliverChld, .waitpid (some 10), .interrupt, .deliverInt] ++ killTwo

theorem atomic_handlers_nested : ∃ s, Machine.exec step init nested = some s ∧
    Machine.Meets step Undisturbed init nested ∧
    ∃ cs c, Machine.exec Listener.step .init cs = some c ∧ c.pc = .exited ∧
    c.signalled = [10, 11] := by
  obtain ⟨s, hs, hrun, hpc, hsig, hlisted⟩ : ∃ s, Machine.exec step init nested = some s ∧
      s.main.running = false ∧ s.main.pc = .exited ∧ s.main.signalled = [10, 11] ∧
      s.main.listed = [10, 11] := ⟨_, rfl, rfl, rfl, rfl, rfl⟩
  have hok := ((atomic_handlers hs).2 hpc).mpr (hsig.trans hlisted.symm)
  obtain ⟨-, cs, c, hc, -, hexit⟩ := (atomic_handlers hs).1 hok
  obtain ⟨h1, h2⟩ := hexit hrun
  exact ⟨s, hs, hok, cs, c, hc, h1.trans hpc, h2.trans hsig⟩

/-- A third child cannot be added to the list, and `SIGINT` comes after the first of the two in it
has been signalled. -/
def disturbed : List HandlerEv :=
  twoTerminate ++ [.main (.recv 8), .main (.fork (some 12)), .main (.add false), .kill, .interrupt]

/-- The first is signalled twice; and if its cell is freed in between, it is read all the same. -/
theorem signalled_twice :
    (∃ s, Machine.exec step init (disturbed ++ [.deliverInt] ++ killTwo) = some s ∧
      s.main.pc = .exited ∧ s.main.signalled = [10, 10, 11] ∧ s.main.listed = [10, 11]) ∧
    ∃ s, Machine.exec step init (disturbed ++ [.free, .deliverInt, .kill]) = some s ∧
      s.main.pc = .crashed ∧ s.main.children = some [10, 11] :=
  ⟨⟨_, rfl, rfl, rfl, rfl⟩, ⟨_, rfl, rfl, rfl⟩⟩

/-! ## Zombies -/

section Zombies

variable {s t : Interrupted} {e : HandlerEv}

/-- A zombie has a `SIGCHLD` pending or its handler running. -/
def Reaping (s : Interrupted) : Prop := s.main.zombies ≠ [] → s.chld = true ∨ Frame.reap ∈ s.frames

theorem zombies_loop {l m : Listener} {e : ListenerEv} (he : ofLoop e = true)
    (h : l.step e = some m) : m.zombies = l.zombies := by
  obtain ⟨-, htrans⟩ := Listener.trans_of_step h
  cases htrans with
  | noAdd _ =>
    unfold Listener.killChildren
    split <;> rfl
  | terminate _ _ => cases he
  | sigchld => cases he
  | sigint => cases he
  | _ => rfl

theorem Reaping.step (h : Reaping s) (hs : s.step e = some t) : Reaping t := by
  obtain ⟨-, htrans⟩ := trans_of_step hs
  cases htrans with
  | @main e l hf he _ hl =>
    intro hz
    have hz' : l.zombies ≠ [] := hz
    rw [zombies_loop he hl] at hz'
    exact h hz'
  | abort hf _ _ =>
    refine fun hz => (h hz).imp id fun hmem => ?_
    rw [hf] at hmem
    cases hmem
  | terminate _ => exact fun _ => Or.inl rfl
  | interrupt => exact fun hz => h hz
  | deliverChld _ => exact fun _ => Or.inr List.mem_cons_self
  | crash _ hc =>
    intro hz
    have hz' : s.main.killChildren.zombies ≠ [] := hz
    unfold Listener.killChildren at hz'
    rw [hc] at hz'
    exact h hz'
  | deliverInt _ _ => exact fun hz => (h hz).imp id (List.mem_cons_of_mem _)
  | reaped _ hz => exact fun hne => absurd hz hne
  | reap hf _ =>
    refine fun _ => Or.inr ?_
    show Frame.reap ∈ s.frames
    rw [hf]
    exact List.mem_cons_self
  | kill hf _ | free hf _ =>
    refine fun hz => (h hz).imp id fun hmem => ?_
    rw [hf] at hmem
    rcases List.mem_cons.mp hmem with he | hmem
    · cases he
    · exact List.mem_cons_of_mem _ hmem
  | useFreed _ _ _ => exact fun hz => h hz
  | exit _ => exact fun hz => h hz

theorem reachable_reaping {es : List HandlerEv}
    (h : Machine.exec Interrupted.step init es = some s) : Reaping s :=
  Machine.exec_invariant (fun _ _ _ => Reaping.step) (fun hz => absurd rfl hz) h

/-- The steps of the handler of `SIGCHLD`. -/
def Reaps : HandlerEv → Prop
  | .deliverChld => True
  | .waitpid _ => True
  | _ => False

/-- The handler reaps all zombies and returns. -/
theorem reaps_all (hrun : s.main.running = true) {fs : List Frame} (hf : s.frames = .reap :: fs) :
    Machine.CanReach Interrupted.step Reaps (fun _ => true) (s.main.zombies.length + 1) s
      fun t => t.main.running = true ∧ t.frames = fs ∧ t.main.zombies = [] := by
  induction hn : s.main.zombies.length using Nat.strongRecOn generalizing s with
  | _ n ih =>
    subst hn
    cases hz : s.main.zombies with
    | nil =>
      have hs : s.step (.waitpid none) = some { s with frames := fs, batch := [] } := by
        unfold Interrupted.step
        rw [if_neg (by simp [hrun])]
        dsimp only
        rw [hf]
        exact if_pos hz
      exact .event hs trivial (n := 0) (by simp) (.here ⟨hrun, rfl, hz⟩)
    | cons pid rest =>
      have hmem : pid ∈ s.main.zombies := by
        rw [hz]
        exact List.mem_cons_self
      have hs : s.step (.waitpid (some pid)) = some (s.reapOne pid) := by
        unfold Interrupted.step
        rw [if_neg (by simp [hrun])]
        dsimp only
        rw [hf]
        exact if_pos hmem
      have hlt : (s.reapOne pid).main.zombies.length < s.main.zombies.length :=
        List.length_filter_lt_length_iff_exists.mpr ⟨pid, hmem, by simp⟩
      have hrest := ih _ hlt (s := s.reapOne pid) hrun hf rfl
      refine .event hs trivial (n := (s.reapOne pid).main.zombies.length + 1) ?_ hrest
      rw [hz] at hlt
      simp only [List.countP_singleton, if_true]
      omega

/-- **No zombie is left**: in every state that is reached, a zombie has a `SIGCHLD` pending or its
handler running; and when that handler is not running, it can run, reap all, and return to where it
came. -/
theorem zombies_reaped {es : List HandlerEv} (h : Machine.exec step init es = some s) :
    (s.main.zombies ≠ [] → s.chld = true ∨ Frame.reap ∈ s.frames) ∧
      (s.main.running = true → Frame.reap ∉ s.frames →
        Machine.CanReach step Reaps (fun _ => true) (s.main.zombies.length + 2) s
          fun t => t.frames = s.frames ∧ t.main.zombies = []) := by
  have hr := reachable_reaping h
  refine ⟨hr, fun hrun hf => ?_⟩
  by_cases hz : s.main.zombies = []
  · exact .here ⟨rfl, hz⟩
  · have hchld : s.chld = true := by
      rcases hr hz with hc | hmem
      · exact hc
      · exact absurd hmem hf
    have hs : s.step .deliverChld = some { s with chld := false, frames := .reap :: s.frames } := by
      unfold step
      rw [if_neg (by simp [hrun])]
      dsimp only
      rw [if_pos ⟨hchld, hf⟩]
    refine .event hs trivial (n := s.main.zombies.length + 1) (by simp; omega) ?_
    refine (reaps_all (s := { s with chld := false, frames := .reap :: s.frames }) hrun rfl).mono
      (Nat.le_refl _) ?_
    rintro t ⟨-, hft, hzt⟩
    exact ⟨hft, hzt⟩

/-- Both children are reaped by the handler of one signal. -/
theorem zombies_reaped_two : ∃ s, Machine.exec step init twoTerminate = some s ∧
    s.main.zombies = [11, 10] ∧
    Machine.CanReach step Reaps (fun _ => true) 4 s fun t => t.frames = [] ∧
    t.main.zombies = [] := by
  obtain ⟨s, hs, hz, hrun, hf⟩ : ∃ s, Machine.exec step init twoTerminate = some s ∧
      s.main.zombies = [11, 10] ∧
      s.main.running = true ∧ s.frames = [] := ⟨_, rfl, rfl, rfl, rfl⟩
  have hreach := (zombies_reaped hs).2 hrun (by simp [hf])
  rw [hz, hf] at hreach
  exact ⟨s, hs, hz, hreach⟩

end Zombies

end Interrupted

end FortyTwoHundred.Ftp

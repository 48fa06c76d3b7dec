import Mathlib.Data.Int.Notation
import FortyTwoHundred.Lib.Machine

/-!
# Listener — the children of the server (`process_connections`, `kill_children`, `signal_handler`)

The listening process as a machine.  A step is a call of its loop, a signal, or the end of a child.
`children` is the list of the code (`none` for the null pointer before it is allocated): an id is
added when `fork` has returned it, and nothing ever takes one off.  The handler of `SIGCHLD` reaps
all children that have terminated, and the system can then give out their ids again; that of
`SIGINT` signals every id of the list and exits.  Each handler runs as one step.  A child has
copies of the list and the handlers; what it does with them is not part of this.

`live` and `reaped` are what the system knows: the children not reaped yet, and the ids of those
reaped.  `signalled_iff` says in which runs the ids signalled are those of the live children.
-/

namespace FortyTwoHundred.Ftp

/-- Process ids. -/
abbrev Pid := ℕ

inductive ListenerPc
  /-- before the list is allocated -/
  | start
  /-- in `recvfrom` -/
  | recv
  | fork
  /-- between `fork` and `add_to_list` -/
  | add (pid : Pid)
  | exited
  | crashed
  deriving DecidableEq

structure Listener where
  pc : ListenerPc
  children : Option (List Pid)
  live : List Pid
  /-- children that have terminated and are not reaped yet -/
  zombies : List Pid
  reaped : List Pid
  /-- ids given to `kill` -/
  signalled : List Pid

inductive ListenerEv
  /-- result of `malloc` for the list -/
  | malloc (ok : Bool)
  /-- value of `recvfrom` -/
  | recv (n : ℤ)
  /-- value of `fork`, `none` if it fails -/
  | fork (pid : Option Pid)
  /-- result of `malloc` in `add_to_list` -/
  | add (ok : Bool)
  /-- a child terminates -/
  | terminate (pid : Pid)
  | sigchld
  | sigint

namespace Listener

def init : Listener := ⟨.start, none, [], [], [], []⟩

/-- The ids in the list. -/
def listed (s : Listener) : List Pid := s.children.getD []

/-- `kill_children`, and `exit`; a null pointer is dereferenced before that. -/
def killChildren (s : Listener) : Listener :=
  match s.children with
  | none => { s with pc := .crashed }
  | some ids => { s with pc := .exited, signalled := s.signalled ++ ids }

/-- The loop on `waitpid`. -/
def reap (s : Listener) : Listener :=
  { s with
    live := s.live.filter fun p => decide (p ∉ s.zombies)
    zombies := []
    reaped := s.reaped ++ s.zombies }

/-- The process exists. -/
def running (s : Listener) : Bool := decide (s.pc ≠ .exited) && decide (s.pc ≠ .crashed)

/-- One step; `none` if it cannot happen: the process exists no more or does not make that call
here, `fork` returns no id that a child has, and no child terminates twice. -/
def step (s : Listener) (e : ListenerEv) : Option Listener :=
  if !s.running then none
  else match s.pc, e with
    | .start, .malloc ok =>
      some (if ok then { s with pc := .recv, children := some [] } else { s with pc := .exited })
    -- an empty message is ignored; a failed receive is not
    | .recv, .recv n => some (if n = 0 then s else { s with pc := .fork })
    | .fork, .fork none => some { s with pc := .recv }
    | .fork, .fork (some pid) =>
      if 0 < pid ∧ pid ∉ s.live then some { s with pc := .add pid, live := pid :: s.live } else none
    | .add pid, .add ok =>
      some (if ok then { s with pc := .recv, children := some (s.listed ++ [pid]) }
        else s.killChildren)
    | _, .terminate pid =>
      if pid ∈ s.live ∧ pid ∉ s.zombies then some { s with zombies := pid :: s.zombies } else none
    | _, .sigchld => some s.reap
    | _, .sigint => some s.killChildren
    | _, _ => none

/-- What a step can do. -/
inductive Trans (s : Listener) : ListenerEv → Listener → Prop
  | malloc (hpc : s.pc = .start) :
      Trans s (.malloc true) { s with pc := .recv, children := some [] }
  | noMalloc (hpc : s.pc = .start) : Trans s (.malloc false) { s with pc := .exited }
  | empty (hpc : s.pc = .recv) : Trans s (.recv 0) s
  | message {n} (hpc : s.pc = .recv) (hn : n ≠ 0) : Trans s (.recv n) { s with pc := .fork }
  | noFork (hpc : s.pc = .fork) : Trans s (.fork none) { s with pc := .recv }
  | fork {pid} (hpc : s.pc = .fork) (hnew : pid ∉ s.live) :
      Trans s (.fork (some pid)) { s with pc := .add pid, live := pid :: s.live }
  | add {pid} (hpc : s.pc = .add pid) :
      Trans s (.add true) { s with pc := .recv, children := some (s.listed ++ [pid]) }
  | noAdd {pid} (hpc : s.pc = .add pid) : Trans s (.add false) s.killChildren
  | terminate {pid} (hlive : pid ∈ s.live) (hz : pid ∉ s.zombies) :
      Trans s (.terminate pid) { s with zombies := pid :: s.zombies }
  | sigchld : Trans s .sigchld s.reap
  | sigint : Trans s .sigint s.killChildren

/-- **Inversion**: every step is one of these, of a process that exists. -/
theorem trans_of_step {s t : Listener} {e : ListenerEv} (h : s.step e = some t) :
    s.running = true ∧ Trans s e t := by
  unfold step at h
  split_ifs at h with hrun
  refine ⟨by simpa using hrun, ?_⟩
  split at h
  · next ok hpc =>
    obtain rfl := Option.some.inj h
    cases ok
    · exact .noMalloc hpc
    · exact .malloc hpc
  · next n hpc =>
    obtain rfl := Option.some.inj h
    split_ifs with hn
    · subst hn
      exact .empty hpc
    · exact .message hpc hn
  · next hpc =>
    obtain rfl := Option.some.inj h
    exact .noFork hpc
  · next pid hpc =>
    split_ifs at h with hnew
    obtain rfl := Option.some.inj h
    exact .fork hpc hnew.2
  · next pid ok hpc =>
    obtain rfl := Option.some.inj h
    cases ok
    · exact .noAdd hpc
    · exact .add hpc
  · next pid _ =>
    split_ifs at h with hz
    obtain rfl := Option.some.inj h
    exact .terminate hz.1 hz.2
  · obtain rfl := Option.some.inj h
    exact .sigchld
  · obtain rfl := Option.some.inj h
    exact .sigint
  · cases h

/-- The event makes the process signal its children. -/
def kills : ListenerEv → Prop
  | .add false => True
  | .sigint => True
  | _ => False

/-- The child that is not in the list yet. -/
def pending (s : Listener) : Option Pid :=
  match s.pc with
  | .add pid => some pid
  | _ => none

/-- What is asked of a step: `kill_children` signals the live children and no one else, and nothing
else signals anyone. -/
structure SignalsLive (s : Listener) (e : ListenerEv) (t : Listener) : Prop where
  exact : kills e → ∀ p, p ∈ t.signalled ↔ p ∈ s.live
  quiet : ¬ kills e → t.signalled = s.signalled

/-- When the children are signalled, every reaped id but that of the child not in the list is the id
of a live child, and that child is alive exactly if its id is in the list already. -/
def Settled (s : Listener) (e : ListenerEv) : Prop :=
  kills e → s.step e ≠ none →
    (∀ p ∈ s.reaped, s.pending ≠ some p → p ∈ s.live) ∧ ∀ p, s.pending = some p →
    (p ∈ s.listed ↔ p ∈ s.live)

/-- The bookkeeping: an id is in the list, or about to be, exactly if it is or was the id of a
child. -/
structure Books (s : Listener) : Prop where
  ids : ∀ p, (p ∈ s.listed ∨ s.pending = some p) ↔ (p ∈ s.live ∨ p ∈ s.reaped)
  zombies : ∀ p ∈ s.zombies, p ∈ s.live
  signalled : s.signalled = []
  fresh : s.pc = .start → s.children = none

section Steps

variable {s t : Listener} {e : ListenerEv}

theorem not_running_killChildren (s : Listener) : s.killChildren.running = false := by
  unfold killChildren
  split <;> rfl

theorem mem_reap_iff (hz : ∀ p ∈ s.zombies, p ∈ s.live) (p : Pid) :
    (p ∈ s.reap.live ∨ p ∈ s.reap.reaped) ↔ (p ∈ s.live ∨ p ∈ s.reaped) := by
  show (p ∈ s.live.filter _ ∨ p ∈ s.reaped ++ s.zombies) ↔ _
  rw [List.mem_filter, List.mem_append, decide_eq_true_iff]
  have := hz p
  tauto

/-- **One step** keeps the books of a process that exists. -/
theorem Books.step (h : s.running = true → Books s) (hs : s.step e = some t) :
    t.running = true → Books t := by
  obtain ⟨hrun, htrans⟩ := trans_of_step hs
  have hb := h hrun
  intro hrun'
  cases htrans with
  | malloc hpc =>
    refine ⟨fun p => ?_, hb.zombies, hb.signalled, fun h => by cases h⟩
    have hids := hb.ids p
    rw [listed, hb.fresh hpc, pending, hpc] at hids
    exact hids
  | noMalloc hpc => cases hrun'
  | empty hpc => exact hb
  | message hpc hn =>
    refine ⟨fun p => ?_, hb.zombies, hb.signalled, fun h => by cases h⟩
    have hids := hb.ids p
    rw [pending, hpc] at hids
    exact hids
  | noFork hpc =>
    refine ⟨fun p => ?_, hb.zombies, hb.signalled, fun h => by cases h⟩
    have hids := hb.ids p
    rw [pending, hpc] at hids
    exact hids
  | @fork pid hpc hnew =>
    refine ⟨fun p => ?_, fun p hp => List.mem_cons_of_mem _ (hb.zombies p hp), hb.signalled,
      fun h => by cases h⟩
    have hids := hb.ids p
    rw [pending, hpc] at hids
    show (p ∈ s.listed ∨ some pid = some p) ↔ (p ∈ pid :: s.live ∨ p ∈ s.reaped)
    rw [List.mem_cons, Option.some.injEq, eq_comm]
    simp only [reduceCtorEq, or_false] at hids
    tauto
  | @add pid hpc =>
    refine ⟨fun p => ?_, hb.zombies, hb.signalled, fun h => by cases h⟩
    have hids := hb.ids p
    rw [pending, hpc] at hids
    show (p ∈ s.listed ++ [pid] ∨ none = some p) ↔ (p ∈ s.live ∨ p ∈ s.reaped)
    rw [← hids, List.mem_append, List.mem_singleton, Option.some.injEq, eq_comm]
    simp only [reduceCtorEq, or_false]
  | noAdd hpc =>
    rw [not_running_killChildren] at hrun'
    cases hrun'
  | @terminate pid hlive hz =>
    refine ⟨hb.ids, ?_, hb.signalled, hb.fresh⟩
    intro p hp
    rcases List.mem_cons.mp hp with rfl | hp
    · exact hlive
    · exact hb.zombies p hp
  | sigchld =>
    refine ⟨fun p => (hb.ids p).trans (mem_reap_iff hb.zombies p).symm, ?_, hb.signalled, hb.fresh⟩
    intro p hp
    cases hp
  | sigint =>
    rw [not_running_killChildren] at hrun'
    cases hrun'

/-- What `kill_children` signals. -/
theorem signalled_killChildren (h : Books s) : s.killChildren.signalled = s.listed := by
  unfold killChildren listed
  split
  · next hc => rw [hc, h.signalled]; rfl
  · next ids hc => rw [hc, h.signalled]; rfl

/-- A step that signals is a call of `kill_children`. -/
theorem eq_killChildren (hk : kills e) (h : Trans s e t) : t = s.killChildren := by
  cases h with
  | noAdd _ => rfl
  | sigint => rfl
  | _ => exact hk.elim

/-- The ids of the list are those of the live children. -/
theorem listed_iff (h : Books s) :
    (∀ p, p ∈ s.listed ↔ p ∈ s.live) ↔
      (∀ p ∈ s.reaped, s.pending ≠ some p → p ∈ s.live) ∧ ∀ p, s.pending = some p →
      (p ∈ s.listed ↔ p ∈ s.live) := by
  constructor
  · intro heq
    refine ⟨fun p hp hne => ?_, fun p _ => heq p⟩
    rcases (h.ids p).mpr (Or.inr hp) with hl | hpend
    · exact (heq p).mp hl
    · exact absurd hpend hne
  · rintro ⟨hreaped, hpending⟩ p
    by_cases hp : s.pending = some p
    · exact hpending p hp
    · have hids := h.ids p
      have := hreaped p
      tauto

/-- **One step**: it signals as asked exactly if it is settled. -/
theorem signalsLive_iff (h : s.running = true → Books s) (e : ListenerEv) :
    (∀ t, s.step e = some t → SignalsLive s e t) ↔ Settled s e := by
  constructor
  · intro hgood hk hne
    obtain ⟨t, ht⟩ := Option.ne_none_iff_exists'.mp hne
    obtain ⟨hrun, htrans⟩ := trans_of_step ht
    have hb := h hrun
    have hsig := (hgood t ht).exact hk
    rw [eq_killChildren hk htrans, signalled_killChildren hb] at hsig
    exact (listed_iff hb).mp hsig
  · intro hok t ht
    obtain ⟨hrun, htrans⟩ := trans_of_step ht
    have hb := h hrun
    refine ⟨fun hk => ?_, fun hk => ?_⟩
    · rw [eq_killChildren hk htrans, signalled_killChildren hb]
      exact (listed_iff hb).mpr (hok hk (by rw [ht]; exact Option.some_ne_none t))
    · cases htrans with
      | noAdd _ => exact absurd trivial hk
      | sigint => exact absurd trivial hk
      | _ => rfl

end Steps

/-- **Child bookkeeping**: in a run of the listener, `kill_children` signals exactly the children
that are not reaped, if and only if, when it does, every id that has been reaped is again the id of
a live child, and no live child is missing in the list. -/
theorem signalled_iff (es : List ListenerEv) :
    Machine.Meets step (fun s e => ∀ t, s.step e = some t → SignalsLive s e t) init es ↔
      Machine.Meets step Settled init es := by
  refine Machine.meets_congr (J := fun s => s.running = true → Books s)
    (fun _ _ _ h hs => Books.step h hs)
    (fun s e h => signalsLive_iff h e) ?_ es
  intro _
  refine ⟨fun p => ?_, fun p hp => ?_, rfl, fun _ => rfl⟩
  · simp [init, listed, pending]
  · cases hp

/-- Child `10` terminates and is reaped, and is signalled all the same.  Child `11` is forked, and
`SIGINT` comes before it is in the list: it is not signalled. -/
theorem reaped_child_signalled :
    (∃ s t, Machine.exec step init [.malloc true, .recv 8, .fork (some 10), .add true,
      .terminate 10, .sigchld] = some s ∧
      s.step .sigint = some t ∧ 10 ∈ s.reaped ∧ s.live = [] ∧ t.signalled = [10] ∧
      ¬ SignalsLive s .sigint t) ∧
    (∃ s t, Machine.exec step init [.malloc true, .recv 8, .fork (some 11)] = some s ∧
      s.step .sigint = some t ∧
      s.live = [11] ∧ t.signalled = [] ∧ ¬ SignalsLive s .sigint t) := by
  refine ⟨⟨_, _, rfl, rfl, List.mem_singleton_self 10, rfl, rfl, fun h => ?_⟩,
    ⟨_, _, rfl, rfl, rfl, rfl, fun h => ?_⟩⟩
  · have := (h.exact trivial 10).mp (List.mem_singleton_self 10)
    cases this
  · have := (h.exact trivial 11).mpr (List.mem_singleton_self 11)
    cases this

end Listener

end FortyTwoHundred.Ftp

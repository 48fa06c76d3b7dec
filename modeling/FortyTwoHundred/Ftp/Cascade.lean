import Mathlib.Logic.Function.Basic
import FortyTwoHundred.Lib.Progress
import FortyTwoHundred.Ftp.Listener

/-!
# Cascade — `SIGINT` among the processes of the server

A child of the server is a copy of the listener, with its handler for `SIGINT` and its list of
children: the handler, run by a child, signals all children that were in the list when the child
was forked, which do the same.  `Family` is the listener with its children, and the signals that
are on their way.  A child may terminate before a signal reaches it.

As long as no id is given out a second time (`NotReused`), a signal stops the child it is sent to
and the older ones, and spares the younger ones; those it is on its way to can all receive it, and
then none that is older than a child whose handler has run is left, and none of the listener's list
if its handler has (`cascade`).  While the listener is there, the children that run are those it
has as live and not as zombies (`running_iff`).
-/

namespace FortyTwoHundred.Ftp

structure Family where
  listener : Listener
  /-- the children in the order of their forks -/
  born : List Pid
  /-- the list that a child has inherited -/
  copy : Pid → List Pid
  /-- the children that have not terminated -/
  running : List Pid
  /-- those of them that have a `SIGINT` coming -/
  pending : List Pid
  /-- the children that a `SIGINT` has come for from outside -/
  struck : List Pid
  /-- the children whose handler has run -/
  handled : List Pid

inductive FamilyEv
  /-- a step of the listener, other than the end of a child -/
  | listener (e : ListenerEv)
  /-- a child is sent a `SIGINT` by another process than those of the server -/
  | interrupt (pid : Pid)
  /-- a child runs its handler for `SIGINT` -/
  | handle (pid : Pid)
  /-- a child returns from `copy_file` -/
  | finish (pid : Pid)

namespace Family

def init : Family := ⟨.init, [], fun _ => [], [], [], [], []⟩

/-- `kill (pid, SIGINT)` for each id; one that is no longer the id of a running child gets
nothing. -/
def signal (ids : List Pid) (s : Family) : Family :=
  { s with pending := ids.filter (fun p => decide (p ∈ s.running)) ++ s.pending }

/-- A child terminates; the listener has a zombie then, if it exists. -/
def terminate (pid : Pid) (s : Family) : Family :=
  { s with
    listener := (s.listener.step (.terminate pid)).getD s.listener
    running := s.running.filter fun p => decide (p ≠ pid)
    pending := s.pending.filter fun p => decide (p ≠ pid) }

/-- One step; `none` if it cannot happen. -/
def step (s : Family) : FamilyEv → Option Family
  | .listener (.terminate _) => none
  | .listener (.fork (some pid)) =>
    (s.listener.step (.fork (some pid))).map fun l =>
      { s with
        listener := l
        born := s.born ++ [pid]
        copy := Function.update s.copy pid s.listener.listed
        running := pid :: s.running }
  | .listener .sigint => (s.listener.step .sigint).map fun l =>
    { s with listener := l }.signal s.listener.listed
  | .listener (.add false) => (s.listener.step (.add false)).map fun l =>
    { s with listener := l }.signal s.listener.listed
  | .listener e => (s.listener.step e).map fun l => { s with listener := l }
  | .interrupt pid =>
    if pid ∈ s.running then some (signal [pid] { s with struck := pid :: s.struck }) else none
  | .handle pid =>
    if pid ∈ s.pending then
      some (({ s with handled := pid :: s.handled }.terminate pid).signal (s.copy pid)) else none
  | .finish pid => if pid ∈ s.running then some (s.terminate pid) else none

/-- What a step can do. -/
inductive Trans (s : Family) : FamilyEv → Family → Prop
  | fork {pid l} (h : s.listener.step (.fork (some pid)) = some l) :
      Trans s (.listener (.fork (some pid)))
        { s with
          listener := l
          born := s.born ++ [pid]
          copy := Function.update s.copy pid s.listener.listed
          running := pid :: s.running }
  | kill {e l} (hk : Listener.kills e) (h : s.listener.step e = some l) :
      Trans s (.listener e) ({ s with listener := l }.signal s.listener.listed)
  | listener {e l} (hk : ¬ Listener.kills e) (hfork : ∀ pid, e ≠ .fork (some pid))
      (hterm : ∀ pid, e ≠ .terminate pid) (h : s.listener.step e = some l) :
      Trans s (.listener e) { s with listener := l }
  | interrupt {pid} (h : pid ∈ s.running) :
      Trans s (.interrupt pid) (signal [pid] { s with struck := pid :: s.struck })
  | handle {pid} (h : pid ∈ s.pending) :
      Trans s (.handle pid)
      (({ s with handled := pid :: s.handled }.terminate pid).signal (s.copy pid))
  | finish {pid} (h : pid ∈ s.running) : Trans s (.finish pid) (s.terminate pid)

/-- **Inversion**: every step is one of these. -/
theorem trans_of_step {s t : Family} {e : FamilyEv} (h : s.step e = some t) : Trans s e t := by
  cases e with
  | listener e =>
    cases e with
    | terminate pid => cases h
    | fork pid =>
      cases pid with
      | none =>
        obtain ⟨l, hl, rfl⟩ := Option.map_eq_some_iff.mp h
        exact .listener (fun hk => hk) (fun _ => by simp) (fun _ => by simp) hl
      | some pid =>
        obtain ⟨l, hl, rfl⟩ := Option.map_eq_some_iff.mp h
        exact .fork hl
    | add ok =>
      obtain ⟨l, hl, rfl⟩ : ∃ l, s.listener.step (.add ok) = some l ∧
          (if ok then { s with listener := l } else { s with listener := l }.signal
          s.listener.listed) = t := by
        cases ok <;> exact Option.map_eq_some_iff.mp h
      cases ok with
      | false => exact .kill trivial hl
      | true => exact .listener (fun hk => hk) (fun _ => by simp) (fun _ => by simp) hl
    | sigint =>
      obtain ⟨l, hl, rfl⟩ := Option.map_eq_some_iff.mp h
      exact .kill trivial hl
    | _ =>
      obtain ⟨l, hl, rfl⟩ := Option.map_eq_some_iff.mp h
      exact .listener (fun hk => hk) (fun _ => by simp) (fun _ => by simp) hl
  | interrupt pid =>
    simp only [step] at h
    split_ifs at h with hp
    obtain rfl := Option.some.inj h
    exact .interrupt hp
  | handle pid =>
    simp only [step] at h
    split_ifs at h with hp
    obtain rfl := Option.some.inj h
    exact .handle hp
  | finish pid =>
    simp only [step] at h
    split_ifs at h with hp
    obtain rfl := Option.some.inj h
    exact .finish hp

/-- No id is given out that a child has had. -/
def NotReused (s : Family) : FamilyEv → Prop
  | .listener (.fork (some pid)) => pid ∉ s.listener.reaped
  | _ => True

/-- The child `q` was forked before the child `c`. -/
def Older (s : Family) (q c : Pid) : Prop := c ∈ s.born ∧ s.born.idxOf q < s.born.idxOf c

/-- A signal from outside accounts for one to `q`: it was sent to `q`, to a younger child, or to the
listener. -/
def Reached (s : Family) (q : Pid) : Prop :=
  (∃ c ∈ s.struck, q = c ∨ s.Older q c) ∨ q ∈ s.listener.signalled

/-- The books of the listener and the ages of the children agree. -/
structure Ages (s : Family) : Prop where
  books : s.listener.running = true → s.listener.Books
  signalled : s.listener.signalled = [] ∨ s.listener.signalled = s.listener.listed
  born : ∀ p, p ∈ s.born ↔ p ∈ s.listener.live ∨ p ∈ s.listener.reaped
  copy : ∀ c ∈ s.born, ∀ q, q ∈ s.copy c ↔ s.Older q c
  listed : ∀ c ∈ s.born, ∀ q ∈ s.copy c, q ∈ s.listener.listed

/-- Where the signals are, and where they have been. -/
structure Signals (s : Family) : Prop where
  running : ∀ p ∈ s.running, p ∈ s.born
  struck : ∀ p ∈ s.struck, p ∈ s.born
  handled : ∀ p ∈ s.handled, p ∈ s.born
  pending : ∀ p ∈ s.pending, p ∈ s.running
  reached : ∀ q, q ∈ s.pending ∨ q ∈ s.handled → s.Reached q
  stopped : ∀ c ∈ s.handled, c ∉ s.running
  passed : ∀ c ∈ s.handled, ∀ q, s.Older q c → q ∈ s.running → q ∈ s.pending
  killed : ∀ q ∈ s.listener.signalled, q ∈ s.running → q ∈ s.pending

/-! ## The listener -/

section Listener

variable {s l : Listener} {e : ListenerEv}

theorem mem_killChildren (s : Listener) (p : Pid) :
    (p ∈ s.killChildren.live ∨ p ∈ s.killChildren.reaped) ↔ (p ∈ s.live ∨ p ∈ s.reaped) := by
  unfold Listener.killChildren
  split <;> rfl

theorem listed_killChildren (s : Listener) : s.killChildren.listed = s.listed := by
  unfold Listener.killChildren
  split <;> rfl

/-- Children are known once they have been forked, and no one else is. -/
theorem known_iff (hb : s.Books) (h : s.step e = some l) (hfork : ∀ pid, e ≠ .fork (some pid))
    (p : Pid) : (p ∈ l.live ∨ p ∈ l.reaped) ↔ (p ∈ s.live ∨ p ∈ s.reaped) := by
  obtain ⟨-, htrans⟩ := Listener.trans_of_step h
  cases htrans with
  | @fork pid _ _ => exact absurd rfl (hfork pid)
  | sigchld => exact Listener.mem_reap_iff hb.zombies p
  | noAdd _ => exact mem_killChildren s p
  | sigint => exact mem_killChildren s p
  | _ => exact Iff.rfl

/-- Nothing is taken off the list. -/
theorem listed_mono (hb : s.Books) (h : s.step e = some l) : ∀ p ∈ s.listed, p ∈ l.listed := by
  intro p hp
  obtain ⟨-, htrans⟩ := Listener.trans_of_step h
  cases htrans with
  | malloc hpc =>
    rw [Listener.listed, hb.fresh hpc] at hp
    cases hp
  | add _ => exact List.mem_append_left _ hp
  | noAdd _ => rwa [listed_killChildren]
  | sigint => rwa [listed_killChildren]
  | _ => exact hp

theorem signalled_eq (hk : ¬ Listener.kills e) (h : s.step e = some l) :
    l.signalled = s.signalled := by
  obtain ⟨-, htrans⟩ := Listener.trans_of_step h
  cases htrans with
  | noAdd _ => exact absurd trivial hk
  | sigint => exact absurd trivial hk
  | _ => rfl

end Listener

/-! ## Ages -/

section Ages

variable {s t : Family} {q c r : Pid}

theorem Older.mem (h : s.Older q c) : q ∈ s.born := by
  have hc := List.idxOf_lt_length_of_mem h.1
  exact List.idxOf_lt_length_iff.mp (Nat.lt_trans h.2 hc)

theorem Older.trans (h : s.Older r q) (h' : s.Older q c) :
    s.Older r c := ⟨h'.1, Nat.lt_trans h.2 h'.2⟩

/-- A child that is forked is younger than all others. -/
theorem older_concat_iff {pid : Pid} (hnew : pid ∉ s.born) (hborn : t.born = s.born ++ [pid]) :
    t.Older q c ↔ s.Older q c ∨ (c = pid ∧ q ∈ s.born) := by
  unfold Older
  rw [hborn, List.mem_append, List.mem_singleton]
  have hlt : ∀ x ∈ s.born, (s.born ++ [pid]).idxOf x = s.born.idxOf x ∧
      s.born.idxOf x < s.born.length :=
    fun x hx => ⟨List.idxOf_append_of_mem hx, List.idxOf_lt_length_of_mem hx⟩
  have hge : ∀ x ∉ s.born, s.born.length ≤ (s.born ++ [pid]).idxOf x ∧
      s.born.idxOf x = s.born.length := by
    intro x hx
    rw [List.idxOf_append_of_notMem hx]
    exact ⟨Nat.le_add_right _ _, List.idxOf_eq_length hx⟩
  by_cases hc : c ∈ s.born
  · have hne : c ≠ pid := fun e => hnew (e ▸ hc)
    by_cases hq : q ∈ s.born
    · rw [(hlt c hc).1, (hlt q hq).1]
      tauto
    · rw [(hlt c hc).1, (hge q hq).2]
      have h1 := (hlt c hc).2
      have h2 := (hge q hq).1
      constructor
      · rintro ⟨-, h⟩
        omega
      · rintro (⟨-, h⟩ | ⟨h, -⟩)
        · omega
        · exact absurd h hne
  · by_cases hcp : c = pid
    · subst hcp
      rw [List.idxOf_append_of_notMem hnew, List.idxOf_cons_self, Nat.add_zero]
      by_cases hq : q ∈ s.born
      · rw [(hlt q hq).1]
        exact iff_of_true ⟨Or.inr rfl, (hlt q hq).2⟩ (Or.inr ⟨rfl, hq⟩)
      · have h1 := (hge q hq).1
        refine iff_of_false (fun h => ?_) fun h => ?_
        · have := h.2
          omega
        · rcases h with h | h
          · exact hnew h.1
          · exact hq h.2
    · refine iff_of_false (fun h => ?_) fun h => ?_
      · exact h.1.elim hc hcp
      · exact h.elim (fun h => hc h.1) fun h => hcp h.1

theorem older_congr (hborn : t.born = s.born) : t.Older q c ↔ s.Older q c := by
  unfold Older
  rw [hborn]

/-- The listener has taken a step that is no fork, and the children have not changed. -/
theorem Ages.listener (h : Ages s) {l : Listener} {e : ListenerEv} (hl : s.listener.step e = some l)
    (hfork : ∀ pid, e ≠ .fork (some pid)) (ht : t.listener = l) (hborn : t.born = s.born)
    (hcopy : t.copy = s.copy) : Ages t := by
  subst ht
  obtain ⟨hrun, htrans⟩ := Listener.trans_of_step hl
  have hb := h.books hrun
  refine ⟨fun hr => Listener.Books.step h.books hl hr, ?_, fun p => ?_, fun c hc q => ?_,
    fun c hc q hq => ?_⟩
  · by_cases hk : Listener.kills e
    · right
      rw [Listener.eq_killChildren hk htrans, Listener.signalled_killChildren hb,
        listed_killChildren]
    · left
      rw [signalled_eq hk hl, hb.signalled]
  · rw [hborn, h.born, known_iff hb hl hfork]
  · rw [hborn] at hc
    rw [hcopy, h.copy c hc, older_congr hborn]
  · rw [hborn] at hc
    rw [hcopy] at hq
    exact listed_mono hb hl q (h.listed c hc q hq)

/-- A forked child is new, and its copy of the list has all children. -/
theorem Ages.fork (h : Ages s) {pid : Pid} {l : Listener}
    (hl : s.listener.step (.fork (some pid)) = some l)
    (hnew : pid ∉ s.listener.reaped) : pid ∉ s.born ∧ (∀ q, q ∈ s.listener.listed ↔ q ∈ s.born) ∧
      l.signalled = [] ∧ l.listed = s.listener.listed ∧ ∀ p, (p ∈ l.live ∨ p ∈ l.reaped) ↔
        (p = pid ∨ p ∈ s.born) := by
  obtain ⟨hrun, htrans⟩ := Listener.trans_of_step hl
  have hb := h.books hrun
  cases htrans with
  | fork hpc hlive =>
    refine ⟨fun hmem => ?_, fun q => ?_, hb.signalled, rfl, fun p => ?_⟩
    · rcases (h.born pid).mp hmem with hl | hr
      · exact hlive hl
      · exact hnew hr
    · have hids := hb.ids q
      rw [Listener.pending, hpc] at hids
      rw [h.born, ← hids]
      simp only [reduceCtorEq, or_false]
    · rw [h.born]
      show (p ∈ pid :: s.listener.live ∨ p ∈ s.listener.reaped) ↔ _
      rw [List.mem_cons, or_assoc]

theorem listener_terminate (s : Family) (pid : Pid) :
    (s.terminate pid).listener = s.listener ∨ s.listener.step (.terminate pid) =
      some (s.terminate pid).listener := by
  have hl : (s.terminate pid).listener = (s.listener.step (.terminate pid)).getD s.listener := rfl
  rw [hl]
  cases s.listener.step (.terminate pid) with
  | none => exact Or.inl rfl
  | some l => exact Or.inr rfl

/-- The same children, and the same listener but for a zombie. -/
theorem Ages.terminate (h : Ages s) (pid : Pid) : Ages (s.terminate pid) := by
  rcases listener_terminate s pid with he | hl
  · refine ⟨?_, ?_, ?_, h.copy, ?_⟩
    · rw [he]
      exact h.books
    · rw [he]
      exact h.signalled
    · rw [he]
      exact h.born
    · rw [he]
      exact h.listed
  · exact h.listener hl (fun _ => by simp) rfl rfl rfl

theorem Ages.step {e : FamilyEv} (h : Ages s) (hnew : NotReused s e) (hs : s.step e = some t) :
    Ages t := by
  cases trans_of_step hs with
  | @fork pid l hl =>
    obtain ⟨hpid, hall, hsig, hlist, hborn⟩ := h.fork hl hnew
    refine ⟨fun hr => Listener.Books.step h.books hl hr, Or.inl hsig, fun p => ?_, fun c hc q => ?_,
      fun c hc q hq => ?_⟩
    · show p ∈ s.born ++ [pid] ↔ _
      rw [hborn, List.mem_append, List.mem_singleton, or_comm]
    · rw [older_concat_iff hpid rfl]
      by_cases hcp : c = pid
      · subst hcp
        show q ∈ Function.update s.copy c s.listener.listed c ↔ _
        rw [Function.update_self, hall]
        exact ⟨fun hq => Or.inr ⟨rfl, hq⟩, fun hq => hq.elim (fun ho => absurd ho.1 hpid) And.right⟩
      · show q ∈ Function.update s.copy pid s.listener.listed c ↔ _
        have hc' : c ∈ s.born := (List.mem_append.mp hc).resolve_right fun he =>
            hcp (List.mem_singleton.mp he)
        rw [Function.update_of_ne hcp, h.copy c hc']
        exact ⟨Or.inl, fun hq => hq.elim id fun he => absurd he.1 hcp⟩
    · show q ∈ l.listed
      rw [hlist]
      by_cases hcp : c = pid
      · subst hcp
        have hq' : q ∈ Function.update s.copy c s.listener.listed c := hq
        rwa [Function.update_self] at hq'
      · have hq' : q ∈ Function.update s.copy pid s.listener.listed c := hq
        have hc' : c ∈ s.born := (List.mem_append.mp hc).resolve_right fun he =>
            hcp (List.mem_singleton.mp he)
        rw [Function.update_of_ne hcp] at hq'
        exact h.listed c hc' q hq'
  | kill hk hl => exact h.listener hl (fun pid he => by rw [he] at hk; exact hk) rfl rfl rfl
  | listener hk hfork hterm hl => exact h.listener hl hfork rfl rfl rfl
  | interrupt hp => exact ⟨h.books, h.signalled, h.born, h.copy, h.listed⟩
  | @handle pid hp =>
    have h1 := h.terminate pid
    exact ⟨h1.books, h1.signalled, h1.born, h1.copy, h1.listed⟩
  | @finish pid hp => exact h.terminate pid

end Ages

/-! ## Signals -/

section Signals

variable {s t : Family} {pid : Pid}

theorem mem_terminate_running {p : Pid} : p ∈ (s.terminate pid).running ↔
    p ∈ s.running ∧ p ≠ pid := by
  show p ∈ s.running.filter _ ↔ _
  rw [List.mem_filter, decide_eq_true_iff]

theorem mem_terminate_pending {p : Pid} : p ∈ (s.terminate pid).pending ↔
    p ∈ s.pending ∧ p ≠ pid := by
  show p ∈ s.pending.filter _ ↔ _
  rw [List.mem_filter, decide_eq_true_iff]

theorem mem_signal_pending {ids : List Pid} {p : Pid} :
    p ∈ (s.signal ids).pending ↔ (p ∈ ids ∧ p ∈ s.running) ∨ p ∈ s.pending := by
  show p ∈ ids.filter _ ++ s.pending ↔ _
  rw [List.mem_append, List.mem_filter, decide_eq_true_iff]

theorem signalled_terminate (s : Family) (pid : Pid) :
    (s.terminate pid).listener.signalled = s.listener.signalled := by
  rcases listener_terminate s pid with he | hl
  · rw [he]
  · exact signalled_eq (e := .terminate pid) (fun hk => hk) hl

/-- A child that terminates is no longer due a signal, and was the only one to change. -/
theorem Signals.terminate (h : Signals s) (pid : Pid) : Signals (s.terminate pid) := by
  have hsig := signalled_terminate s pid
  refine ⟨fun p hp => h.running p (mem_terminate_running.mp hp).1, h.struck, h.handled,
    fun p hp => ?_, fun q hq => ?_,
    fun c hc hr => h.stopped c hc (mem_terminate_running.mp hr).1, fun c hc q ho hr =>
    ?_, fun q hq hr => ?_⟩
  · obtain ⟨hp, hne⟩ := mem_terminate_pending.mp hp
    exact mem_terminate_running.mpr ⟨h.pending p hp, hne⟩
  · have hreached := h.reached q (hq.imp (fun hp => (mem_terminate_pending.mp hp).1) id)
    unfold Reached at hreached ⊢
    rw [hsig]
    exact hreached
  · obtain ⟨hr, hne⟩ := mem_terminate_running.mp hr
    exact mem_terminate_pending.mpr ⟨h.passed c hc q ho hr, hne⟩
  · rw [hsig] at hq
    obtain ⟨hr, hne⟩ := mem_terminate_running.mp hr
    exact mem_terminate_pending.mpr ⟨h.killed q hq hr, hne⟩

/-- Signals are sent to children that the ones from outside account for. -/
theorem Signals.signal (h : Signals s) {ids : List Pid} (hids : ∀ q ∈ ids, s.Reached q) :
    Signals (s.signal ids) := by
  refine ⟨h.running, h.struck, h.handled, fun p hp => ?_, fun q hq => ?_, h.stopped,
    fun c hc q ho hr => ?_,
    fun q hq hr => ?_⟩
  · exact (mem_signal_pending.mp hp).elim And.right (h.pending p)
  · rcases hq with hq | hq
    · rcases mem_signal_pending.mp hq with ⟨hq, -⟩ | hq
      · exact hids q hq
      · exact h.reached q (Or.inl hq)
    · exact h.reached q (Or.inr hq)
  · exact mem_signal_pending.mpr (Or.inr (h.passed c hc q ho hr))
  · exact mem_signal_pending.mpr (Or.inr (h.killed q hq hr))

/-- A child is sent a signal from outside. -/
theorem Signals.interrupt (h : Signals s) (hp : pid ∈ s.running) :
    Signals (Family.signal [pid] { s with struck := pid :: s.struck }) := by
  have h1 : Signals { s with struck := pid :: s.struck } := by
    refine ⟨h.running, fun p hps => ?_, h.handled, h.pending, fun q hq => ?_, h.stopped,
      h.passed, h.killed⟩
    · rcases List.mem_cons.mp hps with rfl | hps
      · exact h.running p hp
      · exact h.struck p hps
    · rcases h.reached q hq with ⟨c, hc, hqc⟩ | hk
      · exact Or.inl ⟨c, List.mem_cons_of_mem _ hc, hqc⟩
      · exact Or.inr hk
  refine h1.signal fun q hq => Or.inl ⟨pid, List.mem_cons_self, Or.inl ?_⟩
  exact List.mem_singleton.mp hq

/-- A signal is accounted for by what accounts for one to a younger child. -/
theorem Reached.older (ha : Ages s) {q c : Pid} (h : s.Reached c) (ho : s.Older q c) :
    s.Reached q := by
  rcases h with ⟨d, hd, hcd⟩ | hk
  · refine Or.inl ⟨d, hd, Or.inr ?_⟩
    rcases hcd with rfl | hcd
    · exact ho
    · exact ho.trans hcd
  · -- the list of the listener has the older ones too
    have hlist := ha.listed c ho.1 q ((ha.copy c ho.1 q).mpr ho)
    rcases ha.signalled with hnil | hall
    · rw [hnil] at hk
      cases hk
    · exact Or.inr (hall ▸ hlist)

/-- **A handler runs**: the child terminates, and all older ones are sent a signal. -/
theorem Signals.handle (ha : Ages s) (h : Signals s) (hp : pid ∈ s.pending) :
    Signals (({ s with handled := pid :: s.handled }.terminate pid).signal (s.copy pid)) := by
  have hrun := h.pending pid hp
  have hborn := h.running pid hrun
  have hreached := h.reached pid (Or.inl hp)
  have hsig := signalled_terminate s pid
  have hmono : ∀ q, s.Reached q → (s.terminate pid).Reached q := by
    intro q hq
    unfold Reached at hq ⊢
    rw [hsig]
    exact hq
  have h1 : Signals ((s.terminate pid).signal (s.copy pid)) :=
    (h.terminate pid).signal fun q hq => hmono q (hreached.older ha ((ha.copy pid hborn q).mp hq))
  refine ⟨h1.running, h1.struck, fun p hps => ?_, h1.pending, fun q hq => ?_, fun c hc => ?_,
    fun c hc q ho hr => ?_,
    h1.killed⟩
  · rcases List.mem_cons.mp hps with rfl | hps
    · exact hborn
    · exact h.handled p hps
  · rcases hq with hq | hq
    · exact h1.reached q (Or.inl hq)
    · rcases List.mem_cons.mp hq with rfl | hq
      · exact hmono q hreached
      · exact h1.reached q (Or.inr hq)
  · rcases List.mem_cons.mp hc with rfl | hc
    · exact fun hr => (mem_terminate_running.mp hr).2 rfl
    · exact h1.stopped c hc
  · rcases List.mem_cons.mp hc with rfl | hc
    · exact mem_signal_pending.mpr (Or.inl ⟨(ha.copy c hborn q).mpr ho, hr⟩)
    · exact h1.passed c hc q ho hr

/-- A step of the listener that signals no one and forks no one. -/
theorem Signals.listener (h : Signals s) {l : Listener}
    (hsig : l.signalled = s.listener.signalled) : Signals { s with listener := l } := by
  refine ⟨h.running, h.struck, h.handled, h.pending, fun q hq => ?_, h.stopped, h.passed,
    fun q hq hr => ?_⟩
  · have hreached := h.reached q hq
    unfold Reached at hreached ⊢
    rw [show ({ s with listener := l } : Family).listener.signalled =
      s.listener.signalled from hsig]
    exact hreached
  · exact h.killed q (hsig ▸ hq) hr

/-- The listener signals its list. -/
theorem Signals.kill (ha : Ages s) (h : Signals s) {e : ListenerEv} {l : Listener}
    (hk : Listener.kills e) (hl : s.listener.step e = some l) :
    Signals ({ s with listener := l }.signal s.listener.listed) := by
  obtain ⟨hrun, htrans⟩ := Listener.trans_of_step hl
  have hb := ha.books hrun
  have hsig : l.signalled = s.listener.listed := by
    rw [Listener.eq_killChildren hk htrans, Listener.signalled_killChildren hb]
  have hold : ∀ q, s.Reached q → ∃ c ∈ s.struck, q = c ∨ s.Older q c := by
    intro q hq
    rcases hq with hq | hq
    · exact hq
    · rw [hb.signalled] at hq
      cases hq
  refine ⟨h.running, h.struck, h.handled, fun p hp => ?_, fun q hq => ?_, h.stopped,
    fun c hc q ho hr => ?_,
    fun q hq hr => ?_⟩
  · exact (mem_signal_pending.mp hp).elim And.right (h.pending p)
  · rcases hq with hq | hq
    · rcases mem_signal_pending.mp hq with ⟨hq, -⟩ | hq
      · exact Or.inr (show q ∈ l.signalled from hsig ▸ hq)
      · exact Or.inl (hold q (h.reached q (Or.inl hq)))
    · exact Or.inl (hold q (h.reached q (Or.inr hq)))
  · exact mem_signal_pending.mpr (Or.inr (h.passed c hc q ho hr))
  · have hq' : q ∈ l.signalled := hq
    rw [hsig] at hq'
    exact mem_signal_pending.mpr (Or.inl ⟨hq', hr⟩)

/-- A new child is due no signal, and is older than no one. -/
theorem Signals.fork (ha : Ages s) (h : Signals s) {l : Listener}
    (hl : s.listener.step (.fork (some pid)) = some l) (hnew : pid ∉ s.listener.reaped) :
    Signals { s with
      listener := l
      born := s.born ++ [pid]
      copy := Function.update s.copy pid s.listener.listed
      running := pid :: s.running } := by
  obtain ⟨hpid, hall, hsig, -, -⟩ := ha.fork hl hnew
  have hne : ∀ c ∈ s.born, c ≠ pid := fun c hc e => hpid (e ▸ hc)
  refine ⟨fun p hp => ?_, fun p hp => List.mem_append_left _ (h.struck p hp), fun p hp =>
    List.mem_append_left _ (h.handled p hp), fun p hp => List.mem_cons_of_mem _ (h.pending p hp),
      fun q hq => ?_,
    fun c hc hr => ?_, fun c hc q ho hr => ?_, fun q hq hr => ?_⟩
  · rcases List.mem_cons.mp hp with rfl | hp
    · exact List.mem_append_right _ (List.mem_singleton.mpr rfl)
    · exact List.mem_append_left _ (h.running p hp)
  · rcases h.reached q hq with ⟨c, hc, hqc⟩ | hk
    · exact Or.inl ⟨c, hc, hqc.imp_right fun ho => (older_concat_iff hpid rfl).mpr (Or.inl ho)⟩
    · have hb := ha.books (Listener.trans_of_step hl).1
      rw [hb.signalled] at hk
      cases hk
  · rcases List.mem_cons.mp hr with rfl | hr
    · exact hpid (h.handled c hc)
    · exact h.stopped c hc hr
  · have ho' := ((older_concat_iff hpid rfl).mp ho).resolve_right fun he =>
      hne c (h.handled c hc) he.1
    rcases List.mem_cons.mp hr with rfl | hr
    · exact absurd ho'.mem hpid
    · exact h.passed c hc q ho' hr
  · have hq' : q ∈ l.signalled := hq
    rw [hsig] at hq'
    cases hq'

theorem Signals.step {e : FamilyEv} (ha : Ages s) (h : Signals s) (hnew : NotReused s e)
    (hs : s.step e = some t) : Signals t := by
  cases trans_of_step hs with
  | fork hl => exact h.fork ha hl hnew
  | kill hk hl => exact h.kill ha hk hl
  | listener hk hfork hterm hl => exact h.listener (signalled_eq hk hl)
  | interrupt hp => exact h.interrupt hp
  | handle hp => exact h.handle ha hp
  | @finish pid hp => exact h.terminate pid

end Signals

/-! ## Whole runs -/

section Runs

variable {s t : Family}

/-- What holds in every state that is reached with new ids only. -/
structure Kept (s : Family) : Prop where
  ages : Ages s
  signals : Signals s

theorem kept_init : Kept init := by
  refine ⟨⟨fun _ => ⟨fun p => ?_, fun p hp => ?_, rfl, fun _ => rfl⟩, Or.inl rfl, fun p => ?_,
    fun c hc => ?_,
    fun c hc => ?_⟩, ⟨?_, ?_, ?_, ?_, ?_, ?_, ?_, ?_⟩⟩
  · simp [init, Listener.init, Listener.listed, Listener.pending]
  · cases hp
  · simp [init, Listener.init]
  · cases hc
  · cases hc
  · exact fun p hp => by cases hp
  · exact fun p hp => by cases hp
  · exact fun p hp => by cases hp
  · exact fun p hp => by cases hp
  · rintro q (hq | hq) <;> cases hq
  · exact fun c hc => by cases hc
  · exact fun c hc => by cases hc
  · exact fun q hq => by cases hq

theorem Kept.step {e : FamilyEv} (h : Kept s) (hnew : NotReused s e) (hs : s.step e = some t) :
    Kept t :=
  ⟨h.ages.step hnew hs, h.signals.step h.ages hnew hs⟩

theorem reachable_kept {es : List FamilyEv} (hnew : Machine.Meets step NotReused init es)
    (hes : Machine.exec step init es = some s) : Kept s :=
  Machine.exec_invariant_of_meets (fun _ _ _ h hok hs => h.step hok hs) kept_init hnew hes

/-- The children that run are the listener's live children but for the zombies. -/
def Alive (s : Family) : Prop :=
  s.listener.running = true → ∀ p, p ∈ s.running ↔ p ∈ s.listener.live ∧ p ∉ s.listener.zombies

theorem Alive.terminate (h : Alive s) {pid : Pid} (hp : pid ∈ s.running) :
    Alive (s.terminate pid) := by
  rcases listener_terminate s pid with he | hl
  · intro hrun
    rw [he] at hrun
    -- the listener has to know of it, if it exists
    exfalso
    obtain ⟨hlive, hz⟩ := (h hrun pid).mp hp
    have hsome : s.listener.step (.terminate pid) =
        some { s.listener with zombies := pid :: s.listener.zombies } := by
      unfold Listener.step
      rw [if_neg (by simp [hrun])]
      cases hpc : s.listener.pc <;> simp [hlive, hz, hpc]
    have hzombies : (s.terminate pid).listener.zombies = pid :: s.listener.zombies := by
      show ((s.listener.step (.terminate pid)).getD s.listener).zombies = _
      rw [hsome]
      rfl
    rw [he] at hzombies
    have := congrArg List.length hzombies
    simp at this
  · intro hrun p
    obtain ⟨hrun', htrans⟩ := Listener.trans_of_step hl
    generalize hle : (s.terminate pid).listener = l at htrans
    cases htrans with
    | terminate _ _ =>
      rw [mem_terminate_running, h hrun' p]
      simp only [List.mem_cons, not_or]
      tauto

theorem Alive.listener (h : Alive s) {e : ListenerEv} {l : Listener}
    (hl : s.listener.step e = some l) (hfork : ∀ pid, e ≠ .fork (some pid))
    (hterm : ∀ pid, e ≠ .terminate pid) (ht : t.listener = l) (hr : t.running = s.running) :
    Alive t := by
  intro hrun p
  subst ht
  rw [hr]
  obtain ⟨hrun', htrans⟩ := Listener.trans_of_step hl
  have hp := h hrun' p
  generalize hle : t.listener = l at htrans hrun
  cases htrans with
  | fork _ _ => exact absurd rfl (hfork _)
  | terminate _ _ => exact absurd rfl (hterm _)
  | noAdd _ =>
    rw [Listener.not_running_killChildren] at hrun
    cases hrun
  | sigint =>
    rw [Listener.not_running_killChildren] at hrun
    cases hrun
  | sigchld =>
    rw [hp]
    show _ ↔ p ∈ s.listener.live.filter _ ∧ p ∉ []
    rw [List.mem_filter, decide_eq_true_iff]
    simp
  | _ => exact hp

theorem Alive.step {e : FamilyEv} (hk : Kept s) (h : Alive s) (hs : s.step e = some t) :
    Alive t := by
  cases trans_of_step hs with
  | @fork pid l hl =>
    intro _ p
    obtain ⟨hrun, htrans⟩ := Listener.trans_of_step hl
    have hb := hk.ages.books hrun
    cases htrans with
    | fork _ hlive =>
      show p ∈ pid :: s.running ↔ p ∈ pid :: s.listener.live ∧ p ∉ s.listener.zombies
      rw [List.mem_cons, List.mem_cons, h hrun p]
      have := hb.zombies p
      constructor
      · rintro (rfl | hp)
        · exact ⟨Or.inl rfl, fun hz => hlive (this hz)⟩
        · exact ⟨Or.inr hp.1, hp.2⟩
      · rintro ⟨rfl | hp, hz⟩
        · exact Or.inl rfl
        · exact Or.inr ⟨hp, hz⟩
  | kill hkill hl =>
    exact h.listener hl (fun pid he => by rw [he] at hkill; exact hkill)
      (fun pid he => by rw [he] at hkill; exact hkill)
      rfl rfl
  | listener _ hfork hterm hl => exact h.listener hl hfork hterm rfl rfl
  | interrupt _ => exact h
  | @handle pid hp =>
    exact Alive.terminate (s := { s with handled := pid :: s.handled }) h
      (hk.signals.pending pid hp)
  | finish hp => exact h.terminate hp

theorem running_iff {es : List FamilyEv} (hnew : Machine.Meets step NotReused init es)
    (hes : Machine.exec step init es = some s) (hrun : s.listener.running = true) (p : Pid) :
    p ∈ s.running ↔ p ∈ s.listener.live ∧ p ∉ s.listener.zombies := by
  have h0 : Alive init := fun _ p => by simp [init, Listener.init]
  have h : Kept s ∧ Alive s := Machine.exec_invariant_of_meets (I := fun s => Kept s ∧ Alive s)
    (fun _ _ _ h hok hs => ⟨h.1.step hok hs, h.2.step h.1 hs⟩) ⟨kept_init, h0⟩ hnew hes
  exact h.2 hrun p

/-- The signals on their way can all be received. -/
theorem Kept.received (h : Kept s) :
    Machine.CanReach Family.step (fun e => ∃ pid, e = .handle pid) (fun _ => true)
    (s.running.length + 1) s
      fun t => t.pending = [] := by
  refine Machine.canReach_rounds (I := Kept) (fun s => s.running.length) (fun s h => ?_) h
  cases hp : s.pending with
  | nil => exact .here (Or.inl hp)
  | cons pid rest =>
    have hmem : pid ∈ s.pending := by
      rw [hp]
      exact List.mem_cons_self
    have hs : s.step (.handle pid) =
        some (({ s with handled := pid :: s.handled }.terminate pid).signal (s.copy pid)) :=
          if_pos hmem
    refine .event hs ⟨pid, rfl⟩ (n := 0) (by simp)
      (.here (Or.inr ⟨h.step (e := .handle pid) trivial hs, ?_⟩))
    show (s.running.filter fun p => decide (p ≠ pid)).length < s.running.length
    exact List.length_filter_lt_length_iff_exists.mpr ⟨pid, h.signals.pending pid hmem, by simp⟩

/-- **A signal goes down the ages**: in every run of the listener and its children in which no id is
given out twice, the children that have a `SIGINT` coming or have handled one are among those
signalled from outside, older ones, and those the listener has signalled.  All signals on their way
can be received, within as many steps as there are children running and one; and when they have
been, no child is left that is older than one whose handler has run, and none that the listener has
signalled. -/
theorem cascade {es : List FamilyEv} (hnew : Machine.Meets step NotReused init es)
    (hes : Machine.exec step init es = some s) :
    (∀ q, q ∈ s.pending ∨ q ∈ s.handled → s.Reached q) ∧
      (s.pending = [] → (∀ c ∈ s.handled, ∀ q, q = c ∨ s.Older q c → q ∉ s.running) ∧
        ∀ q ∈ s.listener.signalled, q ∉ s.running) ∧
      Machine.CanReach step (fun e => ∃ pid, e = .handle pid) (fun _ => true)
      (s.running.length + 1) s
        fun t => t.pending = [] := by
  have h := reachable_kept hnew hes
  refine ⟨h.signals.reached, fun hnil => ⟨fun c hc q hq hr => ?_, fun q hq hr => ?_⟩, h.received⟩
  · rcases hq with rfl | ho
    · exact h.signals.stopped q hc hr
    · have hp := h.signals.passed c hc q ho hr
      rw [hnil] at hp
      cases hp
  · have hp := h.signals.killed q hq hr
    rw [hnil] at hp
    cases hp

/-- Three children are forked, and the second is interrupted and runs its handler. -/
def threeChildren : List FamilyEv :=
  .listener (.malloc true) :: ([10, 11, 12] : List Pid).flatMap (fun pid =>
    [.listener (.recv 8), .listener (.fork (some pid)), .listener (.add true)]) ++ [.interrupt 11,
      .handle 11]

theorem notReused_of {s : Family} {pid : Pid} (h : s.listener.reaped = []) :
    NotReused s (.listener (.fork (some pid))) := by
  unfold NotReused
  rw [h]
  exact List.not_mem_nil

/-- The signal has gone on to the first child, and spares the third. -/
theorem cascade_three : ∃ s, Machine.exec step init threeChildren = some s ∧ s.pending = [10] ∧
    s.running = [12, 10] ∧
    s.Reached 10 ∧ s.Reached 11 ∧ ¬ s.Reached 12 := by
  obtain ⟨s, hs, hp, hr, hh, hst, hsig, hb⟩ : ∃ s, Machine.exec step init threeChildren = some s ∧
      s.pending = [10] ∧ s.running = [12, 10] ∧ s.handled = [11] ∧ s.struck = [11] ∧
      s.listener.signalled = [] ∧
      s.born = [10, 11, 12] := ⟨_, rfl, rfl, rfl, rfl, rfl, rfl, rfl⟩
  have hnew : Machine.Meets step NotReused init threeChildren :=
    .cons rfl trivial (.cons rfl trivial (.cons rfl (notReused_of rfl)
      (.cons rfl trivial (.cons rfl trivial
      (.cons rfl (notReused_of rfl)
      (.cons rfl trivial (.cons rfl trivial (.cons rfl (notReused_of rfl)
        (.cons rfl trivial (.cons rfl trivial (.cons rfl trivial trivial)))))))))))
  obtain ⟨hreached, -, -⟩ := cascade hnew hs
  refine ⟨s, hs, hp, hr, hreached 10 (Or.inl (by simp [hp])), hreached 11 (Or.inr (by simp [hh])),
    ?_⟩
  simp [Reached, Older, hst, hsig, hb]

end Runs

end Family

end FortyTwoHundred.Ftp

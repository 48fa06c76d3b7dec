import FortyTwoHundred.Lib.Files
import FortyTwoHundred.Ftp.Server

/-!
# Directory — many server children in one directory

`process_connections` forks a child for every datagram; all of them work in the server's directory.
The file-system calls of the children are steps of their own and interleave in any way.  `access`
and `fopen` are two calls, `fopen` truncates a file that is there, and the clean-up unlinks by
name.

A child touches only files that it has created, and a file that was transferred with status `0`
keeps its content, if and only if every `fopen` finds its name absent (`own_files_iff`).  The check
before it does not ensure that: two children may both make the check before the first of them
creates the file (`two_children_one_name`).
-/

namespace FortyTwoHundred.Ftp

open Files

structure Shared where
  /-- the children in the order of their forks -/
  children : ℕ → Option Child
  forked : ℕ
  fs : FS Bytes ℕ Byte

inductive SharedEv
  | fork (datagram : Bytes)
  | child (k : ℕ) (i : ChildIn)

/-- What an effect of child `k` does in the directory, once its stream has passed on what `fwrite`
has taken; `name` is its `filename`. -/
def Effect.onFiles (k : ℕ) (name : Bytes) (fs : FS Bytes ℕ Byte) : Effect → FS Bytes ℕ Byte
  | .send _ => fs
  | .create => fs.create k name
  | .append bs => fs.write k bs
  | .unlink => fs.unlink k name

namespace Shared

/-- `access` tells whether the name is in the directory. -/
def allows (s : Shared) (c : Child) : ChildIn → Bool
  | .access found => found == (s.fs.dir c.filename).isSome
  | _ => true

def step (origin : ℕ → Addr) (s : Shared) : SharedEv → Option Shared
  | .fork d => some { s with
      children := Function.update s.children s.forked (some (Child.init d))
      forked := s.forked + 1 }
  | .child k i =>
    (s.children k).bind fun c =>
      if s.allows c i then
        (c.step (origin k) i).map fun p =>
          { s with
            children := Function.update s.children k (some p.1)
            fs := p.2.foldl (Effect.onFiles k c.filename) s.fs }
      else none

/-- No child yet; the files that are there have been created by none of them. -/
structure Start (s : Shared) : Prop where
  children : ∀ k, s.children k = none
  forked : s.forked = 0
  fd : ∀ k, s.fs.fd k = none
  creator : ∀ i, (s.fs.file i).creator = none
  dir : ∀ {n i}, s.fs.dir n = some i → i < s.fs.next
  touched : s.fs.touched = []

/-- An `fopen` that succeeds finds its name absent. -/
def Absent (s : Shared) : SharedEv → Prop
  | .child k (.fopen true _) => ∀ c, s.children k = some c → c.pc = .fopen →
      s.fs.dir c.filename = none
  | _ => True

/-- From the creation of the file to its removal or to the end with status `0`. -/
def Live : ChildPc → Prop
  | .ackRequest _ | .poll _ | .write _ | .unlink _ | .finackTop _ | .finackRecv _ => True
  | .done e => e = .returned .ok
  | _ => False

structure Inv (s : Shared) : Prop where
  owned : s.fs.Owned
  own : s.fs.Own
  unborn : ∀ k, s.forked ≤ k → s.children k = none ∧ s.fs.fd k = none
  early : ∀ {k c}, s.children k = some c → c.pc.early → s.fs.fd k = none
  live : ∀ {k c}, s.children k = some c → Live c.pc →
    ∃ i pos, s.fs.fd k = some (i, pos) ∧ s.fs.dir c.filename = some i
  phase : ∀ {k c}, s.children k = some c → c.pc.early ∨ Live c.pc ∨ ∃ e, c.pc = .done e

theorem Inv.start {s : Shared} (h : s.Start) : s.Inv := by
  refine ⟨⟨h.dir, ?_, ?_, ?_⟩, ?_, fun k _ => ⟨h.children k, h.fd k⟩, ?_, ?_, ?_⟩
  · intro p i pos hp
    rw [h.fd] at hp
    cases hp
  · intro p i _ hc
    rw [h.creator] at hc
    cases hc
  · intro x hx
    rw [h.touched] at hx
    cases hx
  · intro x hx
    rw [h.touched] at hx
    cases hx
  · intro k c hc
    rw [h.children] at hc
    cases hc
  · intro k c hc
    rw [h.children] at hc
    cases hc
  · intro k c hc
    rw [h.children] at hc
    cases hc

section Steps

variable {s t : Shared} {k : ℕ} {c d : Child}

/-- The file of a child is not that of another. -/
theorem Inv.fd_inj (h : s.Inv) {j i pos pos' : ℕ} (hk : s.fs.fd k = some (i, pos))
    (hj : s.fs.fd j = some (i, pos')) : j = k := by
  have h1 := (h.owned.fd hk).2
  have h2 := (h.owned.fd hj).2
  rw [h1] at h2
  exact (Option.some.inj h2).symm

/-- A step of child `k` that keeps the other children's files in the directory. -/
theorem Inv.update (h : s.Inv) (hc : s.children k = some c) {fs : FS Bytes ℕ Byte}
    (howned : fs.Owned) (hown : fs.Own) (hfd : ∀ j, j ≠ k → fs.fd j = s.fs.fd j)
    (hdir : ∀ j b i pos, j ≠ k → s.fs.fd j = some (i, pos) → s.fs.dir b = some i →
      fs.dir b = some i)
    (hearly : d.pc.early → fs.fd k = none)
    (hlive : Live d.pc → ∃ i pos, fs.fd k = some (i, pos) ∧ fs.dir d.filename = some i)
    (hphase : d.pc.early ∨ Live d.pc ∨ ∃ e, d.pc = .done e) :
    Inv { s with children := Function.update s.children k (some d), fs := fs } := by
  have hk : k < s.forked := by
    by_contra hk
    rw [(h.unborn k (not_lt.mp hk)).1] at hc
    cases hc
  -- the new child is at `k`, the others are as before
  have hcases : ∀ {j b}, Function.update s.children k (some d) j = some b →
      (j = k ∧ b = d) ∨ (j ≠ k ∧ s.children j = some b) := by
    intro j b hb
    by_cases hjk : j = k
    · subst hjk
      rw [Function.update_self] at hb
      exact Or.inl ⟨rfl, (Option.some.inj hb).symm⟩
    · rw [Function.update_of_ne hjk] at hb
      exact Or.inr ⟨hjk, hb⟩
  refine ⟨howned, hown, ?_, ?_, ?_, ?_⟩
  · intro j hj
    have hj' : s.forked ≤ j := hj
    have hjk : j ≠ k := by omega
    refine ⟨?_, (hfd j hjk).trans (h.unborn j hj).2⟩
    show Function.update s.children k (some d) j = none
    rw [Function.update_of_ne hjk]
    exact (h.unborn j hj).1
  · intro j b hb hpc
    rcases hcases hb with ⟨rfl, rfl⟩ | ⟨hjk, hb⟩
    · exact hearly hpc
    · exact (hfd j hjk).trans (h.early hb hpc)
  · intro j b hb hpc
    rcases hcases hb with ⟨rfl, rfl⟩ | ⟨hjk, hb⟩
    · exact hlive hpc
    · obtain ⟨i, pos, h1, h2⟩ := h.live hb hpc
      exact ⟨i, pos, (hfd j hjk).trans h1, hdir j _ i pos hjk h1 h2⟩
  · intro j b hb
    rcases hcases hb with ⟨rfl, rfl⟩ | ⟨hjk, hb⟩
    · exact hphase
    · exact h.phase hb

/-- A step that does nothing to the files. -/
theorem Inv.quiet (h : s.Inv) (hc : s.children k = some c) (hearly : d.pc.early → c.pc.early)
    (hlive : Live d.pc → Live c.pc ∧ d.filename = c.filename)
    (hphase : d.pc.early ∨ Live d.pc ∨ ∃ e, d.pc = .done e) :
    Inv { s with children := Function.update s.children k (some d) } := by
  refine h.update hc h.owned h.own (fun _ _ => rfl) (fun _ _ _ _ _ _ hd => hd)
    (fun hpc => h.early hc (hearly hpc)) ?_
    hphase
  intro hpc
  obtain ⟨hl, hn⟩ := hlive hpc
  rw [hn]
  exact h.live hc hl

/-- The child creates its file where the name is absent. -/
theorem Inv.create (h : s.Inv) (hc : s.children k = some c) (hpc : c.pc.early)
    (habs : s.fs.dir c.filename = none) (hd : Live d.pc) (hn : d.filename = c.filename) :
    Inv { s with
      children := Function.update s.children k (some d)
      fs := s.fs.create k c.filename } := by
  obtain ⟨howned, hown⟩ := h.owned.create h.own habs (h.early hc hpc)
  have hfs := FS.create_absent k habs
  refine h.update hc howned hown ?_ ?_ ?_ ?_ (Or.inr (Or.inl hd))
  · intro j hjk
    rw [hfs]
    exact Function.update_of_ne hjk _ _
  · intro j b i pos hjk _ hb
    have hbn : b ≠ c.filename := by
      rintro rfl
      rw [habs] at hb
      cases hb
    rw [hfs]
    show Function.update s.fs.dir c.filename _ b = _
    rw [Function.update_of_ne hbn]
    exact hb
  · intro he
    cases hpc' : d.pc <;> simp [hpc', Live, ChildPc.early] at hd he
  · intro _
    rw [hfs, hn]
    exact ⟨s.fs.next, 0, Function.update_self _ _ _, Function.update_self _ _ _⟩

/-- The child writes to its file. -/
theorem Inv.write (h : s.Inv) (hc : s.children k = some c) (hl : Live c.pc) (bs : Bytes)
    (hearly : ¬ d.pc.early) (hn : d.filename = c.filename)
    (hphase : d.pc.early ∨ Live d.pc ∨ ∃ e, d.pc = .done e) :
    Inv { s with children := Function.update s.children k (some d), fs := s.fs.write k bs } := by
  obtain ⟨i, pos, hfd, hdir⟩ := h.live hc hl
  obtain ⟨howned, hown⟩ := h.owned.write (p := k) h.own bs
  have hfs : s.fs.write k bs =
      { (s.fs.setContent i (writeAt (s.fs.file i).content pos bs)).log k i with
      fd := Function.update s.fs.fd k (some (i, pos + bs.length)) } := by
    unfold FS.write
    rw [hfd]
  refine h.update hc howned hown ?_ ?_ (fun he => absurd he hearly) ?_ hphase
  · intro j hjk
    rw [hfs]
    exact Function.update_of_ne hjk _ _
  · intro j b i' pos' _ _ hb
    rw [hfs]
    exact hb
  · intro _
    rw [hfs, hn]
    exact ⟨i, pos + bs.length, Function.update_self _ _ _, hdir⟩

/-- The child unlinks its file. -/
theorem Inv.unlink (h : s.Inv) (hc : s.children k = some c) (hl : Live c.pc) (hearly : ¬ d.pc.early)
    (hlive : ¬ Live d.pc) (hphase : d.pc.early ∨ Live d.pc ∨ ∃ e, d.pc = .done e) :
    Inv { s with
      children := Function.update s.children k (some d)
      fs := s.fs.unlink k c.filename } := by
  obtain ⟨i, pos, hfd, hdir⟩ := h.live hc hl
  obtain ⟨howned, hown⟩ := h.owned.unlink h.own hdir hfd
  have hfs : s.fs.unlink k c.filename =
      { s.fs.log k i with dir := Function.update s.fs.dir c.filename none } := by
    unfold FS.unlink
    rw [hdir]
  refine h.update hc howned hown ?_ ?_ (fun he => absurd he hearly)
    (fun hl => absurd hl hlive) hphase
  · intro j _
    rw [hfs]
    rfl
  · -- another child's name is another name, or its file would be this one
    intro j b i' pos' hjk hj hb
    have hbn : b ≠ c.filename := by
      rintro rfl
      rw [hdir] at hb
      obtain rfl := Option.some.inj hb
      exact hjk (h.fd_inj hfd hj)
    rw [hfs]
    show Function.update s.fs.dir c.filename none b = _
    rw [Function.update_of_ne hbn]
    exact hb

theorem not_live_of_early {pc : ChildPc} (h : pc.early) : ¬ Live pc := by
  cases pc <;> simp [ChildPc.early, Live] at h ⊢

/-- The receive loop handles a datagram: only datagrams are sent, the file is left to later
steps. -/
theorem handle_files (now : ℤ) (beyond : ℕ → Byte) (b : Child) (fs : FS Bytes ℕ Byte) (k : ℕ)
    (name : Bytes) : (b.handle now beyond).1.filename = b.filename ∧
    Live (b.handle now beyond).1.pc ∧
      (b.handle now beyond).2.foldl (Effect.onFiles k name) fs = fs := by
  rw [Child.handle]
  split_ifs
  · exact ⟨rfl, trivial, rfl⟩
  · exact ⟨rfl, trivial, rfl⟩
  · exact ⟨rfl, trivial, rfl⟩
  · exact ⟨rfl, trivial, rfl⟩
  · exact ⟨rfl, trivial, rfl⟩

/-- **Every step keeps the files apart, if an `fopen` finds its name absent.** -/
theorem Inv.trans (h : s.Inv) {origin : Addr} {i : ChildIn} {effs : List Effect}
    (hc : s.children k = some c) (habs : s.Absent (.child k i))
    (ht : Child.Trans origin c i d effs) : Inv { s with
      children := Function.update s.children k (some d)
      fs := effs.foldl (Effect.onFiles k c.filename) s.fs } := by
  -- a step between two points at which the file is there
  have hmove : ∀ {d : Child}, Live c.pc → Live d.pc → d.filename = c.filename →
      Inv { s with children := Function.update s.children k (some d) } := fun hl hl' hn =>
    h.quiet hc (fun he => absurd hl' (not_live_of_early he)) (fun _ => ⟨hl, hn⟩)
      (Or.inr (Or.inl hl'))
  -- a step before the file is created
  have hbefore : ∀ {d : Child}, c.pc.early →
      (d.pc.early ∨ ∃ e, e ≠ .returned .ok ∧ d.pc = .done e) →
      Inv { s with children := Function.update s.children k (some d) } := by
    rintro d he (hd | ⟨e, hne, hd⟩)
    · exact h.quiet hc (fun _ => he) (fun hl => absurd hl (not_live_of_early hd)) (Or.inl hd)
    · exact h.quiet hc (fun _ => he) (fun hl => absurd (by rw [hd] at hl; exact hl) hne)
        (Or.inr (Or.inr ⟨e, hd⟩))
  have hdeny : ∀ {cmd status}, c.pc = .deny cmd status → c.pc.early := by
    intro cmd status hpc
    rcases h.phase hc with he | hl | ⟨e, he⟩
    · exact he
    · simp [hpc, Live] at hl
    · simp [hpc] at he
  cases ht with
  | @start ok hpc =>
    refine hbefore (by rw [hpc]; trivial) ?_
    rcases c.parse_early ok with hp | hp
    · exact Or.inl hp
    · exact Or.inr ⟨_, by simp, hp⟩
  | @access found hpc =>
    refine hbefore (by rw [hpc]; trivial) ?_
    rcases c.check_early found with hp | hp
    · exact Or.inl hp
    · exact Or.inr ⟨_, by simp, hp⟩
  | create hpc => exact h.create hc (by rw [hpc]; trivial) (habs c hc hpc) trivial rfl
  | noCreate hpc => exact hbefore (by rw [hpc]; trivial) (Or.inl (by simp [ChildPc.early]))
  | @denied cmd status again now hpc =>
    have he := hdeny hpc
    have hne : status ≠ .ok := by rw [hpc] at he; exact he
    exact hbefore he (Or.inr ⟨.returned status, by simpa using hne, rfl⟩)
  | notDenied hpc => exact hbefore (hdeny hpc) (Or.inr ⟨.exited .runtimeError, by simp, rfl⟩)
  | noAck hpc => exact hmove (by rw [hpc]; trivial) trivial rfl
  | ackAgain hpc htime => exact hmove (by rw [hpc]; trivial) (by rw [hpc]; trivial) rfl
  | ack hpc => exact hmove (by rw [hpc]; trivial) trivial rfl
  | idle hpc htime hr => exact hmove (by rw [hpc]; trivial) (by simp only [hpc]; trivial) rfl
  | timeout hpc htime => exact hmove (by rw [hpc]; trivial) trivial rfl
  | @datagram startTime now temp beyond r hpc htime hr =>
    obtain ⟨hn, hl, hfs⟩ := handle_files now beyond { c with buffer := overlay r.stored temp }
      s.fs k c.filename
    rw [hfs]
    exact hmove (by rw [hpc]; trivial) hl hn
  | @fwrite pending n now hpc hlen =>
    rw [Child.afterWrite]
    split_ifs
    · exact h.write hc (by rw [hpc]; trivial) _ (fun he => he) rfl (Or.inr (Or.inr ⟨_, rfl⟩))
    · exact h.write hc (by rw [hpc]; trivial) _ (fun he => he) rfl (Or.inr (Or.inl trivial))
    · exact h.write hc (by rw [hpc]; trivial) _ (fun he => he) rfl (Or.inr (Or.inl trivial))
  | @unlink status hpc =>
    exact h.unlink hc (by rw [hpc]; trivial) (fun he => he) (fun hl => by cases hl)
      (Or.inr (Or.inr ⟨_, rfl⟩))
  | @finack t ok again now hpc htime =>
    have hfs : (if ok then [Effect.send finAckPacket] else []).foldl (Effect.onFiles k c.filename)
        s.fs = s.fs := by
      cases ok <;> rfl
    rw [hfs]
    exact hmove (by rw [hpc]; trivial) trivial rfl
  | finackTimeout hpc htime => exact hmove (by rw [hpc]; trivial) rfl rfl
  | @finackRecv t now temp beyond r hpc =>
    have hn : (c.finackStep origin t temp r).filename = c.filename := by
      rw [Child.finackStep]
      split_ifs <;> rfl
    refine hmove (by rw [hpc]; trivial) ?_ hn
    rcases (c.finackStep_frame origin t temp r).1 with hp | hp
    · rw [hp]; rfl
    · rw [hp]; trivial

/-- A step of one child leaves the file of another alone. -/
theorem Inv.other_file (h : s.Inv) {origin : Addr} {i : ChildIn} {effs : List Effect}
    (hc : s.children k = some c) (habs : s.Absent (.child k i)) (ht : Child.Trans origin c i d effs)
    {j f pos : ℕ} (hjk : j ≠ k) (hj : s.fs.fd j = some (f, pos)) :
    (effs.foldl (Effect.onFiles k c.filename) s.fs).file f = s.fs.file f ∧
      (effs.foldl (Effect.onFiles k c.filename) s.fs).fd j = s.fs.fd j := by
  cases ht with
  | create hpc =>
    have hlt := (h.owned.fd hj).1
    show (s.fs.create k c.filename).file f = _ ∧ (s.fs.create k c.filename).fd j = _
    rw [FS.create_absent k (habs c hc hpc)]
    exact ⟨Function.update_of_ne (by omega) _ _, Function.update_of_ne hjk _ _⟩
  | @fwrite pending n now hpc hlen =>
    obtain ⟨g, pos', hfd, -⟩ := h.live hc (by rw [hpc]; trivial)
    have hgf : f ≠ g := by
      rintro rfl
      exact hjk (h.fd_inj hfd hj)
    show (s.fs.write k (pending.take n)).file f = _ ∧ (s.fs.write k (pending.take n)).fd j = _
    unfold FS.write
    rw [hfd]
    exact ⟨Function.update_of_ne hgf _ _, Function.update_of_ne hjk _ _⟩
  | unlink hpc =>
    show (s.fs.unlink k c.filename).file f = _ ∧ (s.fs.unlink k c.filename).fd j = _
    unfold FS.unlink
    split
    · exact ⟨rfl, rfl⟩
    · exact ⟨rfl, rfl⟩
  | @datagram startTime now temp beyond r hpc htime hr =>
    rw [(handle_files now beyond { c with buffer := overlay r.stored temp } s.fs k c.filename).2.2]
    exact ⟨rfl, rfl⟩
  | @finack t ok again now hpc htime =>
    cases ok
    · exact ⟨rfl, rfl⟩
    · exact ⟨rfl, rfl⟩
  | _ => exact ⟨rfl, rfl⟩

variable {origin : ℕ → Addr}

theorem step_child {i : ChildIn} (hs : s.step origin (.child k i) = some t) :
    ∃ c d effs, s.children k = some c ∧ s.allows c i = true ∧ c.step (origin k) i = some (d, effs) ∧
      t = { s with
        children := Function.update s.children k (some d)
        fs := effs.foldl (Effect.onFiles k c.filename) s.fs } := by
  obtain ⟨c, hc, hs⟩ := Option.bind_eq_some_iff.mp hs
  split_ifs at hs with hallow
  obtain ⟨⟨d, effs⟩, hstep, rfl⟩ := Option.map_eq_some_iff.mp hs
  exact ⟨c, d, effs, hc, hallow, hstep, rfl⟩

theorem Inv.fork (h : s.Inv) (m : Bytes) :
    Inv { s with
      children := Function.update s.children s.forked (some (Child.init m))
      forked := s.forked + 1 } := by
  have hfd := (h.unborn s.forked le_rfl).2
  have hcases : ∀ {j b}, Function.update s.children s.forked (some (Child.init m)) j = some b →
      (j = s.forked ∧ b = Child.init m) ∨ s.children j = some b := by
    intro j b hb
    by_cases hj : j = s.forked
    · subst hj
      rw [Function.update_self] at hb
      exact Or.inl ⟨rfl, (Option.some.inj hb).symm⟩
    · rw [Function.update_of_ne hj] at hb
      exact Or.inr hb
  refine ⟨h.owned, h.own, ?_, ?_, ?_, ?_⟩
  · intro j hj
    have hj' : s.forked + 1 ≤ j := hj
    refine ⟨?_, (h.unborn j (by omega)).2⟩
    show Function.update s.children s.forked _ j = none
    rw [Function.update_of_ne (by omega)]
    exact (h.unborn j (by omega)).1
  · intro j b hb hpc
    rcases hcases hb with ⟨rfl, rfl⟩ | hb
    · exact hfd
    · exact h.early hb hpc
  · intro j b hb hpc
    rcases hcases hb with ⟨rfl, rfl⟩ | hb
    · cases hpc
    · exact h.live hb hpc
  · intro j b hb
    rcases hcases hb with ⟨rfl, rfl⟩ | hb
    · exact Or.inl trivial
    · exact h.phase hb

theorem Inv.step (h : s.Inv) {e : SharedEv} (habs : s.Absent e) (hs : s.step origin e = some t) :
    t.Inv := by
  cases e with
  | fork m =>
    obtain rfl := Option.some.inj hs
    exact h.fork m
  | child k i =>
    obtain ⟨c, d, effs, hc, -, hstep, rfl⟩ := step_child hs
    exact h.trans hc habs (Child.trans_of_step hstep)

/-- A file whose transfer has ended with status `0`, as `u` has it. -/
def Finished (k : ℕ) (c : Child) (u s : Shared) : Prop :=
  s.children k = some c ∧ c.pc = .done (.returned .ok) ∧
    ∃ i pos, u.fs.fd k = some (i, pos) ∧ s.fs.fd k = some (i, pos) ∧ s.fs.file i = u.fs.file i

theorem Finished.step (h : s.Inv) {u : Shared} (hf : Finished k c u s) {e : SharedEv}
    (habs : s.Absent e) (hs : s.step origin e = some t) : Finished k c u t := by
  obtain ⟨hc, hpc, i, pos, hu, hfd, hfile⟩ := hf
  cases e with
  | fork m =>
    obtain rfl := Option.some.inj hs
    refine ⟨?_, hpc, i, pos, hu, hfd, hfile⟩
    have hne : k ≠ s.forked := by
      rintro rfl
      rw [(h.unborn s.forked le_rfl).1] at hc
      cases hc
    show Function.update s.children s.forked _ k = _
    rw [Function.update_of_ne hne]
    exact hc
  | child j i' =>
    obtain ⟨b, d, effs, hb, -, hstep, rfl⟩ := step_child hs
    have ht := Child.trans_of_step hstep
    have hjk : k ≠ j := by
      rintro rfl
      rw [hc] at hb
      obtain rfl := Option.some.inj hb
      cases ht <;> simp_all
    obtain ⟨h1, h2⟩ := h.other_file hb habs ht hjk hfd
    refine ⟨?_, hpc, i, pos, hu, h2.trans hfd, h1.trans hfile⟩
    show Function.update s.children j _ k = _
    rw [Function.update_of_ne hjk]
    exact hc

/-- Whatever a step does, creators stay and the history grows. -/
theorem later_step {e : SharedEv} (hs : s.step origin e = some t) : FS.Later s.fs t.fs := by
  cases e with
  | fork m =>
    obtain rfl := Option.some.inj hs
    exact .refl _
  | child k i =>
    obtain ⟨c, d, effs, -, -, -, rfl⟩ := step_child hs
    have key : ∀ (effs : List Effect) (fs : FS Bytes ℕ Byte),
        FS.Later fs (effs.foldl (Effect.onFiles k c.filename) fs) := by
      intro effs
      induction effs with
      | nil => intro fs; exact .refl fs
      | cons e effs ih =>
        intro fs
        refine .trans ?_ (ih _)
        cases e with
        | send m => exact .refl fs
        | create => exact FS.later_create k c.filename fs
        | append bs => exact FS.later_write k bs fs
        | unlink => exact FS.later_unlink k c.filename fs
    exact key effs s.fs

end Steps

/-- Files whose transfer had ended with status `0` somewhere in the run are there at its end, with
the content they had. -/
def Kept (origin : ℕ → Addr) (s₀ s : Shared) (es : List SharedEv) : Prop :=
  ∀ fs gs u k c, es = fs ++ gs → Machine.exec (step origin) s₀ fs = some u → u.children k = some c →
    c.pc = .done (.returned .ok) →
    ∃ i pos, u.fs.fd k = some (i, pos) ∧ s.fs.dir c.filename = some i ∧
      (s.fs.file i).content = (u.fs.file i).content

/-- **Children and their files.**  In every run of any number of children: no child truncates,
writes or unlinks a file that it has not created, and finished files are kept, if and only if every
`fopen` finds its name absent. -/
theorem own_files_iff (origin : ℕ → Addr) (s₀ s : Shared) (es : List SharedEv) (h₀ : s₀.Start)
    (h : Machine.exec (step origin) s₀ es = some s) :
    (s.fs.Own ∧ Kept origin s₀ s es) ↔ Machine.Meets (step origin) Absent s₀ es := by
  have hinv : ∀ {fs u}, Machine.Meets (step origin) Absent s₀ fs →
      Machine.exec (step origin) s₀ fs = some u → u.Inv :=
    fun hm hu => Machine.exec_invariant_of_meets (fun _ _ _ hI ha hs => hI.step ha hs)
      (Inv.start h₀) hm hu
  constructor
  · rintro ⟨hown, -⟩
    rcases Machine.meets_or_break Absent s₀ es with hm | ⟨fs, e, gs, u, rfl, hu, hm, hn⟩
    · exact hm
    · -- the first `fopen` of a name that is there truncates a file of another
      exfalso
      have hI := hinv hm hu
      obtain ⟨u', hu', h1⟩ := Machine.exec_append.mp h
      rw [hu] at hu'
      obtain rfl := Option.some.inj hu'
      obtain ⟨t, ht, h2⟩ := Machine.exec_cons_some.mp h1
      obtain ⟨k, now, c, hev, hc, hpc, i, hd⟩ : ∃ k now c, e = .child k (.fopen true now) ∧
          u.children k = some c ∧
          c.pc = .fopen ∧ ∃ i, u.fs.dir c.filename = some i := by
        unfold Absent at hn
        split at hn
        · next k now =>
          simp only [not_forall] at hn
          obtain ⟨c, hc, hpc, hd⟩ := hn
          exact ⟨k, now, c, rfl, hc, hpc, Option.ne_none_iff_exists'.mp hd⟩
        · exact absurd trivial hn
      subst hev
      obtain ⟨c', d, effs, hc', -, hstep, rfl⟩ := step_child ht
      obtain rfl : c = c' := Option.some.inj (hc.symm.trans hc')
      cases Child.trans_of_step hstep with
      | create _ =>
        obtain ⟨hmem, hlt, hcr⟩ :=
          FS.touched_create hI.owned hd (hI.early hc (by rw [hpc]; trivial))
        have hlater : FS.Later (u.fs.create k c.filename) s.fs := by
          refine Machine.exec_invariant (I := fun v : Shared => FS.Later (u.fs.create k c.filename)
            v.fs) ?_
            (FS.Later.refl _) h2
          intro v e w hv hs
          exact hv.trans (later_step hs)
        exact hlater.not_own hmem hlt hcr hown
  · intro hm
    refine ⟨(hinv hm h).own, ?_⟩
    rintro fs gs u k c rfl hu hc hpc
    obtain ⟨hm₁, hm₂⟩ := hm.append hu
    have hI := hinv hm₁ hu
    obtain ⟨u', hu', hgs⟩ := Machine.exec_append.mp h
    rw [hu] at hu'
    obtain rfl := Option.some.inj hu'
    obtain ⟨i, pos, hfd, -⟩ := hI.live hc (by rw [hpc]; rfl)
    obtain ⟨hI', hc', -, i', pos', hfd', hfd'', hfile⟩ : s.Inv ∧ Finished k c u s := by
      refine Machine.exec_invariant_of_meets (I := fun v => v.Inv ∧ Finished k c u v) ?_
        ⟨hI, hc, hpc, i, pos, hfd, hfd, rfl⟩ hm₂ hgs
      rintro v e w ⟨hv, hf⟩ ha hs
      exact ⟨hv.step ha hs, hf.step hv ha hs⟩
    obtain ⟨i'', pos'', h1, h2⟩ := hI'.live hc' (by rw [hpc]; rfl)
    rw [hfd''] at h1
    obtain ⟨rfl, -⟩ := Prod.mk.inj (Option.some.inj h1)
    exact ⟨i', pos', hfd', h2, by rw [hfile]⟩

/-- An empty directory. -/
def empty : Shared := ⟨fun _ => none, 0, ⟨fun _ => none, fun _ => ⟨[], none⟩, 0, fun _ => none, []⟩⟩

theorem start_empty :
    empty.Start := ⟨fun _ => rfl, rfl, fun _ => rfl, fun _ => rfl, fun h => (nomatch h), rfl⟩

/-- Child `k` receives a request for `a`, a file of one byte, and finds no such file. -/
def checked (k : ℕ) : List SharedEv :=
  [.fork (requestPacket [97] 1), .child k (.setup true), .child k (.access false)]

/-- Child `k` creates the file, receives the byte and the `FIN`, and returns `0`. -/
def transferred (k : ℕ) : List SharedEv :=
  [.child k (.fopen true 0), .child k (.send true false 0),
    .child k (.poll 0 [] (fun _ => 0) (.got ⟨[]⟩ (createPacket cmdData 1 1 [42]))),
    .child k (.fwrite 1 0),
    .child k (.poll 0 [] (fun _ => 0) (.got ⟨[]⟩ (createPacket cmdFin 0 0 []))),
      .child k (.send true false 2)]

theorem own_files_iff_transferred : ∃ s,
    Machine.exec (step fun _ => ⟨[]⟩) empty (checked 0 ++ transferred 0) = some s ∧
    s.fs.touched = [(0, 0)] ∧
    s.fs.Own := by
  obtain ⟨s, hs, ht⟩ : ∃ s, Machine.exec (step fun _ => ⟨[]⟩) empty (checked 0 ++ transferred 0) =
      some s ∧
      s.fs.touched = [(0, 0)] := ⟨_, rfl, rfl⟩
  refine ⟨s, hs, ht, ((own_files_iff _ empty s _ start_empty hs).mpr ?_).1⟩
  refine .cons rfl trivial (.cons rfl trivial (.cons rfl trivial ?_))
  refine .cons rfl (fun _ _ _ => rfl) (.cons rfl trivial (.cons rfl trivial ?_))
  exact .cons rfl trivial (.cons rfl trivial (.cons rfl trivial trivial))

/-- Two children make the check before either creates the file; the first transfers it and returns
`0`, then the second truncates it. -/
theorem two_children_one_name : ∃ s,
    Machine.exec (step fun _ => ⟨[]⟩) empty (checked 0 ++ checked 1 ++ transferred 0) = some s ∧
    (∃ c, s.children 0 = some c ∧ c.pc = .done (.returned .ok)) ∧ s.fs.dir [97] = some 0 ∧
    (s.fs.file 0).creator = some 0 ∧ (s.fs.file 0).content = [42] ∧
    ∃ t, Machine.exec (step fun _ => ⟨[]⟩) s [.child 1 (.fopen true 0)] = some t ∧
    (1, 0) ∈ t.fs.touched ∧
      (t.fs.file 0).creator = some 0 ∧ (t.fs.file 0).content = [] := by
  refine ⟨_, rfl, ⟨_, rfl, rfl⟩, rfl, rfl, rfl, _, rfl, ?_, rfl, rfl⟩
  decide

end Shared

end FortyTwoHundred.Ftp

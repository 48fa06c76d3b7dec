import FortyTwoHundred.Ftp.Directory
import FortyTwoHundred.Ftp.Cleanup

/-!
# Isolation — children that share a directory without noticing

`Apart` is what a server with many sessions is meant to be: every child works alone, with a file of
its own.  The children of `Shared` work in one directory; as long as every `fopen` finds its name
absent, each of them goes through the states it would go through alone, and its file is the one it
would have alone (`isolated`).  What holds of every run of one child so holds of every child in the
directory.

There the files have all that `fwrite` has taken.  `stdio` adds the streams: on the disk a file has
what its child's stream has passed on (`onDisk`).  `files_bounded` is about that: whatever datagrams
arrive, no child that has its file has more of it on disk than its announced size and one packet.
-/

namespace FortyTwoHundred.Ftp

open Files

/-- The children, each with a file of its own. -/
structure Apart where
  solos : ℕ → Option Solo
  forked : ℕ

namespace Apart

def start : Apart := ⟨fun _ => none, 0⟩

def step (origin : ℕ → Addr) (a : Apart) : SharedEv → Option Apart
  | .fork d =>
    some { solos := Function.update a.solos a.forked (some
      ⟨Child.init d, none, false⟩), forked := a.forked + 1 }
  | .child k i =>
    (a.solos k).bind fun x => (x.next (origin k) i).map fun y =>
      { a with solos := Function.update a.solos k (some y) }

/-- What every child keeps alone, all of them keep. -/
theorem exec_invariant {I : Solo → Prop} {origin : ℕ → Addr}
    (hinit : ∀ d, I ⟨Child.init d, none, false⟩)
    (hstep : ∀ k x i y, I x → x.next (origin k) i = some y → I y) {a : Apart} {es : List SharedEv}
    (h : Machine.exec (step origin) start es = some a) : ∀ k x, a.solos k = some x → I x := by
  refine Machine.exec_invariant (I := fun a : Apart => ∀ k x, a.solos k = some x → I x) ?_ ?_ h
  · intro a e b ha hs j y hy
    have hupdate : ∀ {k : ℕ} {x : Solo}, I x → Function.update a.solos k (some x) j = some y →
        I y := by
      intro k x hx hy
      by_cases hjk : j = k
      · subst hjk
        rw [Function.update_self] at hy
        exact Option.some.inj hy ▸ hx
      · rw [Function.update_of_ne hjk] at hy
        exact ha j y hy
    cases e with
    | fork d =>
      obtain rfl := Option.some.inj hs
      exact hupdate (hinit d) hy
    | child k i =>
      obtain ⟨x, hx, hs⟩ := Option.bind_eq_some_iff.mp hs
      obtain ⟨z, hz, rfl⟩ := Option.map_eq_some_iff.mp hs
      exact hupdate (hstep k x i z (ha k x hx) hz) hy
  · intro k x hx
    cases hx

end Apart

/-! ## What one child has on disk -/

namespace Solo

/-- What the file is at each point, whatever arrives and whatever the writes return.  Only a packet
that goes past the announced size makes it longer, and then the child is about to unlink it. -/
def Within (x : Solo) : Prop :=
  match x.child.pc with
  | .start | .access => x.child.read = 0
  | .fopen => x.child.read = 0 ∧ 0 ≤ x.child.filesize
  | .deny _ status => status ≠ .ok
  | .ackRequest _ | .poll _ => x.Holds x.child.read ∧ x.child.read ≤ x.child.filesize
  | .write pending =>
    x.Holds (x.child.read - pending.length) ∧ x.child.read - pending.length ≤ x.child.filesize ∧
      pending.length ≤ 65535
  | .unlink _ => x.Holds x.child.read ∧ x.child.read ≤ x.child.filesize + 65535
  | .finackTop _ | .finackRecv _ | .done (.returned .ok) => x.Holds x.child.filesize
  | .done _ => True

theorem within_parse {disk : Option Bytes} {opened : Bool} {c : Child} (hr : c.read = 0)
    (ok : Bool) : Within ⟨c.parse ok, disk, opened⟩ := by
  rw [Child.parse]
  split_ifs
  · exact trivial
  · exact (by simp : Status.badRequest ≠ .ok)
  · cases parseRequest (c.buffer.drop headerSize) with
    | none => exact (by simp : Status.badRequest ≠ .ok)
    | some req => exact hr

theorem within_check {disk : Option Bytes} {opened : Bool} {c : Child} (hr : c.read = 0)
    (found : Bool) : Within ⟨c.check found, disk, opened⟩ := by
  rw [Child.check]
  split_ifs
  · exact (by simp : Status.fileExists ≠ .ok)
  · cases scanSize c.sizeText with
    | none => exact trivial
    | some v =>
      dsimp only
      split_ifs with hv
      · exact trivial
      · exact ⟨hr, not_lt.mp hv⟩

theorem within_handle {disk : Option Bytes} {opened : Bool} {c : Child} (now : ℤ)
    (beyond : ℕ → Byte) (h : Holds ⟨c, disk, opened⟩ c.read) (hle : c.read ≤ c.filesize) :
    Within ⟨(c.handle now beyond).1, (c.handle now beyond).2.foldl Effect.onDisk disk, opened⟩ := by
  rw [Child.handle]
  split_ifs with hd hs hf hr
  · exact ⟨h, hle⟩
  · have hlen := (getLen c.buffer).toNat_lt
    simp only [Within, length_peek, add_sub_cancel_right]
    exact ⟨h, hle, by omega⟩
  · refine ⟨h, ?_⟩
    show (c.read : ℤ) ≤ c.filesize + 65535
    omega
  · rw [not_not] at hr
    simp only [Within]
    exact hr ▸ h
  · exact ⟨h, hle⟩

theorem Within.step {origin : Addr} {x y : Solo} {i : ChildIn} (h : x.Within)
    (hs : x.next origin i = some y) : y.Within := by
  obtain ⟨⟨c, effs⟩, hstep, rfl⟩ := Option.map_eq_some_iff.mp hs
  obtain ⟨child, disk, opened⟩ := x
  dsimp only at hstep ⊢
  cases Child.trans_of_step hstep with
  | start hpc => exact within_parse (by simpa only [Within, hpc] using h) _
  | access hpc => exact within_check (by simpa only [Within, hpc] using h) _
  | create hpc =>
    obtain ⟨hr, hsize⟩ : child.read = 0 ∧ 0 ≤ child.filesize := by simpa only [Within, hpc] using h
    exact ⟨⟨[], rfl, by simp [hr]⟩, by rw [hr]; exact hsize⟩
  | noCreate hpc => exact (by simp : Status.cannotCreate ≠ .ok)
  | @denied cmd status again now hpc =>
    have hne : status ≠ .ok := by simpa only [Within, hpc] using h
    cases status with
    | ok => exact absurd rfl hne
    | _ => trivial
  | notDenied hpc => trivial
  | noAck hpc =>
    obtain ⟨hh, hle⟩ : Holds ⟨child, disk, opened⟩ child.read ∧ child.read ≤ child.filesize := by
      simpa only [Within, hpc] using h
    refine ⟨hh, ?_⟩
    show (child.read : ℤ) ≤ child.filesize + 65535
    omega
  | ackAgain hpc ht => exact h
  | ack hpc =>
    have hh : Holds ⟨child, disk, opened⟩ child.read ∧ child.read ≤ child.filesize := by
        simpa only [Within, hpc] using h
    exact hh
  | idle hpc ht hr =>
    simp only [Within, hpc] at h ⊢
    exact h
  | timeout hpc ht =>
    obtain ⟨hh, hle⟩ : Holds ⟨child, disk, opened⟩ child.read ∧ child.read ≤ child.filesize := by
      simpa only [Within, hpc] using h
    refine ⟨hh, ?_⟩
    show (child.read : ℤ) ≤ child.filesize + 65535
    omega
  | datagram hpc ht hr =>
    have hh : Holds ⟨child, disk, opened⟩ child.read ∧ child.read ≤ child.filesize := by
        simpa only [Within, hpc] using h
    exact within_handle _ _ hh.1 hh.2
  | @fwrite pending n now hpc hn =>
    obtain ⟨⟨bs, hdisk, hlen⟩, hle, hpend⟩ : Holds ⟨child, disk, opened⟩
        (child.read - pending.length) ∧
        child.read - pending.length ≤ child.filesize ∧ pending.length ≤ 65535 := by
        simpa only [Within, hpc] using h
    dsimp only at hdisk
    rw [Child.afterWrite]
    split_ifs with hshort hover
    · trivial
    · have hholds : Holds ⟨{ child with pc := .unlink .badRequest },
        (disk.map (· ++ pending.take n)), opened⟩ child.read := by
        refine ⟨bs ++ pending.take n, by rw [hdisk]; rfl, ?_⟩
        rw [List.length_append, List.length_take]
        omega
      exact ⟨hholds, by dsimp only; omega⟩
    · have hholds : Holds ⟨{ child with pc := .poll now }, (disk.map (· ++ pending.take n)), opened⟩
        child.read := by
        refine ⟨bs ++ pending.take n, by rw [hdisk]; rfl, ?_⟩
        rw [List.length_append, List.length_take]
        omega
      exact ⟨hholds, not_lt.mp hover⟩
  | unlink hpc => trivial
  | @finack t ok again now hpc ht =>
    have hh : Holds ⟨child, disk, opened⟩ child.filesize := by simpa only [Within, hpc] using h
    cases ok
    · exact hh
    · exact hh
  | finackTimeout hpc ht =>
    have hh : Holds ⟨child, disk, opened⟩ child.filesize := by simpa only [Within, hpc] using h
    exact hh
  | @finackRecv t now temp beyond r hpc =>
    have hh : Holds ⟨child, disk, opened⟩ child.filesize := by simpa only [Within, hpc] using h
    obtain ⟨hp, -, -, -, hf⟩ := child.finackStep_frame origin t temp r
    rcases hp with hp | hp
    · simp only [Within, hp, Holds, hf]
      exact hh
    · simp only [Within, hp, Holds, hf]
      exact hh

end Solo

namespace Shared

/-- The children are in the same states, and one that has its file in the directory has the same
file. -/
structure Matches (s : Shared) (a : Apart) : Prop where
  forked : s.forked = a.forked
  children : ∀ k, s.children k = (a.solos k).map Solo.child
  files : ∀ k x, a.solos k = some x → Live x.child.pc →
    ∃ i, s.fs.fd k = some (i, (s.fs.file i).content.length) ∧ x.disk = some (s.fs.file i).content

section Steps

variable {s t : Shared} {a : Apart} {origin : ℕ → Addr}

theorem Matches.fork (h : s.Matches a) (d : Bytes) :
    Matches { s with
      children := Function.update s.children s.forked (some (Child.init d))
      forked := s.forked + 1 }
      { solos := Function.update a.solos a.forked (some
        ⟨Child.init d, none, false⟩), forked := a.forked + 1 } := by
  refine ⟨by rw [h.forked], fun k => ?_, fun k x hx hl => ?_⟩
  · dsimp only
    rw [h.forked]
    by_cases hk : k = a.forked
    · subst hk
      simp
    · rw [Function.update_of_ne hk, Function.update_of_ne hk]
      exact h.children k
  · dsimp only at hx ⊢
    by_cases hk : k = a.forked
    · subst hk
      rw [Function.update_self] at hx
      obtain rfl := Option.some.inj hx
      cases hl
    · rw [Function.update_of_ne hk] at hx
      exact h.files k x hx hl

/-- A step of child `k`, where its own file is as alone. -/
theorem Matches.child (h : s.Matches a) (hinv : s.Inv) {k : ℕ} {i : ChildIn} {c d : Child}
    {effs : List Effect} (hc : s.children k = some c) (habs : s.Absent (.child k i))
    (ht : Child.Trans (origin k) c i d effs) {y : Solo} (hy : y.child = d)
    (hfile : Live d.pc → ∃ i, (effs.foldl (Effect.onFiles k c.filename) s.fs).fd k =
        some (i, ((effs.foldl (Effect.onFiles k c.filename) s.fs).file i).content.length) ∧
      y.disk = some ((effs.foldl (Effect.onFiles k c.filename) s.fs).file i).content) :
    Matches { s with
        children := Function.update s.children k (some d)
        fs := effs.foldl (Effect.onFiles k c.filename) s.fs }
      { a with solos := Function.update a.solos k (some y) } := by
  refine ⟨h.forked, fun j => ?_, fun j z hz hl => ?_⟩
  · dsimp only
    by_cases hj : j = k
    · subst hj
      simp [hy]
    · rw [Function.update_of_ne hj, Function.update_of_ne hj]
      exact h.children j
  · dsimp only at hz ⊢
    by_cases hj : j = k
    · subst hj
      rw [Function.update_self] at hz
      obtain rfl := Option.some.inj hz
      exact hfile (hy ▸ hl)
    · rw [Function.update_of_ne hj] at hz
      obtain ⟨f, hfd, hdisk⟩ := h.files j z hz hl
      obtain ⟨h1, h2⟩ := hinv.other_file hc habs ht hj hfd
      exact ⟨f, by rw [h1, h2]; exact hfd, by rw [h1]; exact hdisk⟩

theorem handle_disk (now : ℤ) (beyond : ℕ → Byte) (c : Child) (disk : Option Bytes) :
    (c.handle now beyond).2.foldl Effect.onDisk disk = disk := by
  rw [Child.handle]
  split_ifs <;> rfl

/-- A child that has its file after a step had it before, or has just created it. -/
theorem live_of_trans (hinv : s.Inv) {k : ℕ} {c d : Child} (hc : s.children k = some c)
    {i : ChildIn} {effs : List Effect} (ht : Child.Trans (origin k) c i d effs) (hl : Live d.pc) :
    Live c.pc ∨ (∃ now, i = .fopen true now ∧ c.pc = .fopen ∧ effs = [.create]) := by
  cases ht with
  | @start ok hpc =>
    exfalso
    rcases c.parse_early ok with hp | hp
    · exact not_live_of_early hp hl
    · rw [hp] at hl
      cases hl
  | @access found hpc =>
    exfalso
    rcases c.check_early found with hp | hp
    · exact not_live_of_early hp hl
    · rw [hp] at hl
      cases hl
  | create hpc => exact Or.inr ⟨_, rfl, hpc, rfl⟩
  | noCreate hpc => cases hl
  | @denied cmd status again now hpc =>
    rcases hinv.phase hc with he | hlive | ⟨e, he⟩
    · rw [hpc] at he
      simp only [ChildPc.early] at he
      simp only [Child.finish, Live, Ending.returned.injEq] at hl
      exact absurd hl he
    · exact Or.inl hlive
    · rw [hpc] at he
      cases he
  | notDenied hpc => cases hl
  | _ => exact Or.inl (by simp only [*, Live])

/-- The file of the child that makes a step. -/
theorem Matches.own_file (h : s.Matches a) (hinv : s.Inv) {k : ℕ} {x : Solo}
    (hx : a.solos k = some x) {i : ChildIn} {d : Child} {effs : List Effect}
    (habs : s.Absent (.child k i)) (ht : Child.Trans (origin k) x.child i d effs)
    (hl : Live d.pc) :
    ∃ i, (effs.foldl (Effect.onFiles k x.child.filename) s.fs).fd k =
        some (i, ((effs.foldl (Effect.onFiles k x.child.filename) s.fs).file i).content.length) ∧
      effs.foldl Effect.onDisk x.disk =
        some ((effs.foldl (Effect.onFiles k x.child.filename) s.fs).file i).content := by
  have hc : s.children k = some x.child := by rw [h.children k, hx, Option.map_some]
  rcases live_of_trans hinv hc ht hl with hlc | ⟨now, rfl, hpc, rfl⟩
  · obtain ⟨f, hfd, hdisk⟩ := h.files k x hx hlc
    cases ht with
    | create hpc =>
      rw [hpc] at hlc
      cases hlc
    | @fwrite pending n now hpc hn =>
      refine ⟨f, ?_⟩
      simp only [List.foldl_cons, List.foldl_nil, Effect.onFiles, Effect.onDisk, FS.write, hfd,
        FS.log, FS.setContent, Function.update_self, FS.writeAt_length, List.length_append, hdisk,
        Option.map_some, and_self]
    | unlink hpc => cases hl
    | @datagram startTime now temp beyond r hpc htime hr =>
      rw [(handle_files now beyond _ s.fs k x.child.filename).2.2, handle_disk]
      exact ⟨f, hfd, hdisk⟩
    | @finack t ok again now hpc htime =>
      cases ok
      · exact ⟨f, hfd, hdisk⟩
      · exact ⟨f, hfd, hdisk⟩
    | _ => exact ⟨f, hfd, hdisk⟩
  · refine ⟨s.fs.next, ?_⟩
    simp only [List.foldl_cons, List.foldl_nil, Effect.onFiles, Effect.onDisk,
      FS.create_absent k (habs x.child hc hpc), Function.update_self, List.length_nil, and_self]

/-- **One step** in the directory is the step alone. -/
theorem Matches.step (h : s.Matches a) (hinv : s.Inv) {e : SharedEv} (habs : s.Absent e)
    (hs : s.step origin e = some t) : ∃ b, a.step origin e = some b ∧ t.Matches b := by
  cases e with
  | fork d =>
    obtain rfl := Option.some.inj hs
    exact ⟨_, rfl, h.fork d⟩
  | child k i =>
    obtain ⟨c, d, effs, hc, -, hstep, rfl⟩ := step_child hs
    have hc' := h.children k
    rw [hc] at hc'
    obtain ⟨x, hx, rfl⟩ := Option.map_eq_some_iff.mp hc'.symm
    have ht := Child.trans_of_step hstep
    obtain ⟨y, halone, hyc, hyd⟩ : ∃ y, x.next (origin k) i = some y ∧ y.child = d ∧
        y.disk = effs.foldl Effect.onDisk x.disk := by
      refine ⟨⟨d, effs.foldl Effect.onDisk x.disk, x.opened || decide (Effect.create ∈ effs)⟩,
        ?_, rfl, rfl⟩
      rw [Solo.next, hstep, Option.map_some]
    refine ⟨_, ?_, h.child hinv hc habs ht hyc fun hl => ?_⟩
    · rw [Apart.step, hx, Option.bind_some, halone, Option.map_some]
    · rw [hyd]
      exact h.own_file hinv hx habs ht hl

/-- The file a child has in the directory is the one it would have alone. -/
theorem Matches.file (h : s.Matches a) (hinv : s.Inv) {k : ℕ} {x : Solo} (hx : a.solos k = some x)
    (hl : Live x.child.pc) : ∃ i pos, s.fs.fd k = some (i, pos) ∧
    s.fs.dir x.child.filename = some i ∧
      x.disk = some (s.fs.file i).content := by
  have hc : s.children k = some x.child := by rw [h.children k, hx, Option.map_some]
  obtain ⟨i, pos, hfd, hdir⟩ := hinv.live hc hl
  obtain ⟨j, hfd', hdisk⟩ := h.files k x hx hl
  rw [hfd] at hfd'
  obtain ⟨rfl, -⟩ := Prod.mk.inj (Option.some.inj hfd')
  exact ⟨i, pos, hfd, hdir, hdisk⟩

theorem Matches.start {s : Shared} (h : s.Start) : s.Matches Apart.start := by
  refine ⟨h.forked, fun k => h.children k, fun k x hx => ?_⟩
  cases hx

/-- A run in the directory is a run of the children apart. -/
theorem exec_apart {s₀ : Shared} {es : List SharedEv} (h₀ : s₀.Start)
    (habs : Machine.Meets (step origin) Absent s₀ es)
    (h : Machine.exec (step origin) s₀ es = some s) :
    ∃ a, Machine.exec (Apart.step origin) Apart.start es = some a ∧ s.Inv ∧ s.Matches a := by
  have key : ∃ a, Machine.exec (Apart.step origin) Apart.start (es.map id) = some a ∧ s.Inv ∧
      s.Matches a := by
    refine Machine.exec_simulates (R := fun s a => s.Inv ∧ s.Matches a) ?_
      ⟨Inv.start h₀, Matches.start h₀⟩ habs h
    rintro s a e t ⟨hinv, hm⟩ hok hs
    obtain ⟨b, hb, hm'⟩ := hm.step hinv hok hs
    exact ⟨b, hb, hinv.step hok hs, hm'⟩
  rwa [List.map_id] at key

end Steps

/-- **Isolation.**  In every run of any number of children in one directory whose `fopen`s find
their names absent, every child is in the state it would be in if it worked alone, with the same
datagrams and results, and while it has its file, until the clean-up, the directory has the content
it would have written alone under its name. -/
theorem isolated (origin : ℕ → Addr) (s₀ s : Shared) (es : List SharedEv) (h₀ : s₀.Start)
    (habs : Machine.Meets (step origin) Absent s₀ es)
    (h : Machine.exec (step origin) s₀ es = some s) :
    ∃ a, Machine.exec (Apart.step origin) Apart.start es = some a ∧
      (∀ k, s.children k = (a.solos k).map Solo.child) ∧
      ∀ k x, a.solos k = some x → Live x.child.pc →
        (s.fs.dir x.child.filename).map (fun i => (s.fs.file i).content) = x.disk := by
  obtain ⟨a, ha, hinv, hm⟩ := exec_apart h₀ habs h
  refine ⟨a, ha, hm.children, fun k x hx hl => ?_⟩
  obtain ⟨i, -, -, hdir, hdisk⟩ := hm.file hinv hx hl
  rw [hdir, hdisk, Option.map_some]

theorem absent_transferred :
    Machine.Meets (step fun _ => ⟨[]⟩) Absent empty (checked 0 ++ transferred 0) := by
  refine .cons rfl trivial (.cons rfl trivial (.cons rfl trivial ?_))
  refine .cons rfl (fun _ _ _ => rfl) (.cons rfl trivial (.cons rfl trivial ?_))
  exact .cons rfl trivial (.cons rfl trivial (.cons rfl trivial trivial))

theorem isolated_transferred :
    ∃ s a x, Machine.exec (step fun _ => ⟨[]⟩) empty (checked 0 ++ transferred 0) = some s ∧
    Machine.exec (Apart.step fun _ => ⟨[]⟩) Apart.start (checked 0 ++ transferred 0) = some a ∧
    a.solos 0 = some x ∧
    s.children 0 = some x.child ∧ x.disk = some [42] ∧
    (s.fs.dir x.child.filename).map (fun i => (s.fs.file i).content) = some [42] := by
  obtain ⟨s, hs⟩ : ∃ s, Machine.exec (step fun _ => ⟨[]⟩) empty (checked 0 ++ transferred 0) =
      some s := ⟨_, rfl⟩
  obtain ⟨b, x, hb, hx, hl, hd⟩ : ∃ b x, Machine.exec (Apart.step fun _ => ⟨[]⟩) Apart.start
      (checked 0 ++ transferred 0) =
      some b ∧ b.solos 0 = some x ∧ Live x.child.pc ∧ x.disk = some [42] :=
        ⟨_, _, rfl, rfl, rfl, rfl⟩
  obtain ⟨a, ha, hc, hf⟩ := isolated _ empty s _ start_empty absent_transferred hs
  obtain rfl : b = a := Option.some.inj (hb.symm.trans ha)
  exact ⟨s, b, x, hs, hb, hx, by rw [hc 0, hx]; rfl, hd, (hf 0 x hx hl).trans hd⟩

/-! ## The streams of the children -/

/-- The children with their streams. -/
def stdio (origin : ℕ → Addr) : Stdio.Program Shared SharedEv ℕ Byte where
  step := step origin
  opens s
    | .child k i => (s.children k).bind fun c => if c.fopens i then some k else none
    | .fork _ => none
  writes s
    | .child k i => (s.children k).bind fun c => (c.fwrites i).map fun w => (k, w.1, w.2)
    | .fork _ => none
  ended s k := (s.children k).any Child.ended

/-- What file `i` is on the disk: of what its creator has written, what the stream has passed on. -/
def onDisk (s : Stdio.Streams Shared ℕ Byte) (i : ℕ) : Bytes :=
  match (s.base.fs.file i).creator with
  | none => (s.base.fs.file i).content
  | some k => ((s.stream k).map Stdio.Stream.file).getD (s.base.fs.file i).content

def HasFile (s : Shared) (k : ℕ) : Prop := ∃ c, s.children k = some c ∧ Live c.pc

/-- What child `k` has written to its file. -/
def content (s : Shared) (k : ℕ) : Bytes :=
  match s.fs.fd k with
  | none => []
  | some (i, _) => (s.fs.file i).content

theorem content_eq {s : Shared} {k i pos : ℕ} (h : s.fs.fd k = some (i, pos)) :
    s.content k = (s.fs.file i).content := by
  simp only [content, h]

section Streams

variable {s t : Shared} {a : Apart} {origin : ℕ → Addr}

/-- The step of a child, as its own stream sees it. -/
theorem writes_own (hm : s.Matches a) (hinv : s.Inv) {k : ℕ} {i : ChildIn} {c d : Child}
    {effs : List Effect} (hc : s.children k = some c) (habs : s.Absent (.child k i))
    (ht : Child.Trans (origin k) c i d effs) (hl : Live d.pc)
    (heq : t = { s with
      children := Function.update s.children k (some d)
      fs := effs.foldl (Effect.onFiles k c.filename) s.fs }) :
    (∃ bs n, (stdio origin).writes s (.child k i) = some (k, bs, n) ∧ s.HasFile k ∧
      t.content k = s.content k ++ bs.take n) ∨
    ((stdio origin).writes s (.child k i) = none ∧ (stdio origin).opens s (.child k i) = some k ∧
      t.content k = []) ∨
    ((∀ bs n, (stdio origin).writes s (.child k i) ≠ some (k, bs, n)) ∧
      (stdio origin).opens s (.child k i) ≠ some k ∧ s.HasFile k ∧ t.content k = s.content k) := by
  obtain ⟨x, hx, rfl⟩ : ∃ x, a.solos k = some x ∧ x.child = c := by
    have hk := hm.children k
    rw [hc] at hk
    exact Option.map_eq_some_iff.mp hk.symm
  obtain ⟨f, hfd, hdisk⟩ := hm.own_file hinv hx habs ht hl
  have hcontent : effs.foldl Effect.onDisk x.disk = some (t.content k) := by
    rw [hdisk, heq, content_eq (by exact hfd)]
  have hbefore : Live x.child.pc → x.disk = some (s.content k) := by
    intro hlc
    obtain ⟨g, hfd', hdisk'⟩ := hm.files k x hx hlc
    rw [hdisk', content_eq hfd']
  have honfile := ht.onFile
  rcases live_of_trans hinv hc ht hl with hlc | ⟨now, rfl, hpc, rfl⟩
  · have hdisk₀ := hbefore hlc
    cases honfile with
    | @fwrite pending n hw =>
      refine Or.inl ⟨pending, n, by simp [stdio, hc, hw], ⟨_, hc, hlc⟩, ?_⟩
      rw [hdisk₀] at hcontent
      exact (Option.some.inj hcontent).symm
    | create hw ho =>
      refine Or.inr (Or.inl ⟨by simp [stdio, hc, hw], by simp [stdio, hc, ho], ?_⟩)
      exact (Option.some.inj hcontent).symm
    | unlink hw ho => cases hcontent
    | sends hw ho hsend =>
      refine Or.inr (Or.inr ⟨by simp [stdio, hc, hw], by simp [stdio, hc, ho], ⟨_, hc, hlc⟩, ?_⟩)
      rw [foldl_onDisk_sends hsend, hdisk₀] at hcontent
      exact (Option.some.inj hcontent).symm
  · refine Or.inr (Or.inl ⟨by simp [stdio, hc, Child.fwrites], ?_, ?_⟩)
    · simp [stdio, hc, Child.fopens, hpc]
    · exact (Option.some.inj hcontent).symm

/-- **What a step writes** to the files of the children. -/
theorem stdio_writes (hm : s.Matches a) (hinv : s.Inv) {e : SharedEv} (habs : s.Absent e)
    (hs : s.step origin e = some t) : (stdio origin).Writes HasFile content s e t := by
  rintro p ⟨b, hb, hl⟩
  cases e with
  | fork m =>
    obtain rfl := Option.some.inj hs
    refine Or.inr (Or.inr ⟨fun _ _ => by simp [stdio], by simp [stdio], ⟨b, ?_, hl⟩, rfl⟩)
    dsimp only at hb
    by_cases hp : p = s.forked
    · subst hp
      rw [Function.update_self] at hb
      rw [← Option.some.inj hb] at hl
      cases hl
    · rwa [Function.update_of_ne hp] at hb
  | child k i =>
    obtain ⟨c, d, effs, hc, -, hstep, heq⟩ := step_child hs
    have ht := Child.trans_of_step hstep
    by_cases hpk : p = k
    · subst hpk
      rw [heq] at hb
      dsimp only at hb
      rw [Function.update_self] at hb
      obtain rfl := Option.some.inj hb
      exact writes_own hm hinv hc habs ht hl heq
    · rw [heq] at hb
      dsimp only at hb
      rw [Function.update_of_ne hpk] at hb
      obtain ⟨f, pos, hfd, -⟩ := hinv.live hb hl
      obtain ⟨hfile, hfd'⟩ := hinv.other_file hc habs ht hpk hfd
      refine Or.inr (Or.inr ⟨fun bs n => ?_, ?_, ⟨b, hb, hl⟩, ?_⟩)
      · cases hw : c.fwrites i <;> simp [stdio, hc, hw, Ne.symm hpk]
      · cases ho : c.fopens i <;> simp [stdio, hc, ho, Ne.symm hpk]
      · rw [heq, content_eq hfd, content_eq (by exact hfd'.trans hfd), hfile]

/-- The children with their streams: the directory and what the streams have been given. -/
theorem exec_streams {size : ℕ} {s₀ : Shared} {s : Stdio.Streams Shared ℕ Byte}
    {es : List (Stdio.Call SharedEv ℕ)} (h₀ : s₀.Start)
    (habs : Machine.Meets ((stdio origin).next size) (Stdio.Program.CallsMeet Absent)
      (.start s₀) es)
    (h : Machine.exec ((stdio origin).next size) (.start s₀) es = some s) :
    (s.base.Inv ∧ ∃ a, s.base.Matches a) ∧ Stdio.Program.Given HasFile content s := by
  refine Stdio.Program.exec_given (I := fun s => s.Inv ∧ ∃ a, s.Matches a) ?_ ?_
    ⟨Inv.start h₀, _, Matches.start h₀⟩ ?_ habs h
  · rintro s e t ⟨hinv, a, hm⟩ hok hs
    obtain ⟨b, -, hm'⟩ := hm.step hinv hok hs
    exact ⟨hinv.step hok hs, b, hm'⟩
  · rintro s e t ⟨hinv, a, hm⟩ hok hs
    exact stdio_writes hm hinv hok hs
  · rintro k ⟨c, hc, -⟩
    rw [Stdio.Streams.start, h₀.children k] at hc
    cases hc

/-- The file of a child on the disk is the file of its stream. -/
theorem onDisk_eq {s : Stdio.Streams Shared ℕ Byte} (hinv : s.base.Inv) {k i pos : ℕ}
    {f : Stdio.Stream Byte} (hfd : s.base.fs.fd k = some (i, pos)) (hf : s.stream k = some f) :
    onDisk s i = f.file := by
  simp only [onDisk, (hinv.owned.fd hfd).2, hf, Option.map_some, Option.getD_some]

end Streams

/-- Whatever arrives and whatever the writes return, a child that has its file has not written more
to it than the size it was announced with, but for one packet when it is about to unlink it. -/
theorem written_bounded (origin : ℕ → Addr) (s₀ s : Shared) (es : List SharedEv) (h₀ : s₀.Start)
    (habs : Machine.Meets (step origin) Absent s₀ es)
    (h : Machine.exec (step origin) s₀ es = some s) (k : ℕ) (c : Child)
    (hc : s.children k = some c) (hl : Live c.pc) :
    ∃ i, s.fs.dir c.filename = some i ∧
      ((s.fs.file i).content.length : ℤ) ≤ c.filesize + 65535 ∧
      ((∀ status, c.pc ≠ .unlink status) → ((s.fs.file i).content.length : ℤ) ≤ c.filesize) ∧
      (c.pc = .done (.returned .ok) → ((s.fs.file i).content.length : ℤ) = c.filesize) := by
  obtain ⟨a, ha, hinv, hm⟩ := exec_apart h₀ habs h
  have hk := hm.children k
  rw [hc] at hk
  obtain ⟨x, hx, rfl⟩ := Option.map_eq_some_iff.mp hk.symm
  have hwithin : x.Within :=
    Apart.exec_invariant (I := Solo.Within) (fun _ => rfl)
      (fun _ _ _ _ hw hs => hw.step hs) ha k x hx
  obtain ⟨i, -, -, hdir, hdisk⟩ := hm.file hinv hx hl
  have hlen : ∀ n, x.Holds n → ((s.fs.file i).content.length : ℤ) = n := by
    rintro n ⟨bs, hbs, rfl⟩
    rw [hdisk] at hbs
    rw [Option.some.inj hbs]
  refine ⟨i, hdir, ?_⟩
  simp only [Solo.Within] at hwithin
  cases hpc : x.child.pc with
  | ackRequest _ | poll _ =>
    rw [hpc] at hwithin
    rw [hlen _ hwithin.1]
    exact ⟨by omega, fun _ => hwithin.2, fun he => nomatch he⟩
  | write _ =>
    rw [hpc] at hwithin
    rw [hlen _ hwithin.1]
    exact ⟨by omega, fun _ => hwithin.2.1, fun he => nomatch he⟩
  | unlink status =>
    rw [hpc] at hwithin
    rw [hlen _ hwithin.1]
    exact ⟨hwithin.2, fun hne => absurd rfl (hne status), fun he => nomatch he⟩
  | finackTop _ | finackRecv _ =>
    rw [hpc] at hwithin
    rw [hlen _ hwithin]
    exact ⟨by omega, fun _ => le_rfl, fun he => nomatch he⟩
  | done e =>
    rw [hpc] at hl hwithin
    obtain rfl : e = .returned .ok := hl
    rw [hlen _ hwithin]
    exact ⟨by omega, fun _ => le_rfl, fun _ => rfl⟩
  | _ =>
    rw [hpc] at hl
    cases hl

/-- **No child fills the disk.**  In every run of any number of children in one directory whose
`fopen`s find their names absent, whatever datagrams arrive, whatever the writes return and whatever
their streams pass on when: as long as a child has its file, until it unlinks it or ends otherwise
than with `0`, the file on the disk is not longer than the size it was announced with, except that
it may have one packet more when the child is about to unlink it; and where the child has returned
`0` and its stream holds nothing back, the file has that size. -/
theorem files_bounded (origin : ℕ → Addr) (size : ℕ) (s₀ : Shared)
    (s : Stdio.Streams Shared ℕ Byte) (es : List (Stdio.Call SharedEv ℕ)) (h₀ : s₀.Start)
    (habs : Machine.Meets (step origin) Absent s₀ (Stdio.calls es))
    (h : Machine.exec ((stdio origin).next size) (.start s₀) es = some s) (k : ℕ) (c : Child)
    (hc : s.base.children k = some c) (hl : Live c.pc) :
    ∃ i f, s.base.fs.dir c.filename = some i ∧ s.stream k = some f ∧
      ((onDisk s i).length : ℤ) ≤ c.filesize + 65535 ∧
      ((∀ status, c.pc ≠ .unlink status) → ((onDisk s i).length : ℤ) ≤ c.filesize) ∧
      (c.pc = .done (.returned .ok) → f.held = [] → ((onDisk s i).length : ℤ) = c.filesize) := by
  have hmeets := Stdio.Program.meets_calls (m := stdio origin) h habs
  obtain ⟨⟨hinv, -⟩, hgiven⟩ := exec_streams h₀ hmeets h
  obtain ⟨i, hdir, hpacket, hle, heq⟩ :=
    written_bounded origin s₀ s.base _ h₀ habs (Stdio.Program.exec_calls h) k c hc hl
  obtain ⟨i', pos, hfd, hdir'⟩ := hinv.live hc hl
  obtain rfl := Option.some.inj (hdir.symm.trans hdir')
  obtain ⟨f, hf, hfgiven⟩ := hgiven k ⟨c, hc, hl⟩
  rw [content_eq hfd] at hfgiven
  -- the stream has passed on a beginning of what it was given
  have hlen : (onDisk s i).length ≤ (s.base.fs.file i).content.length := by
    rw [onDisk_eq hinv hfd hf, ← hfgiven]
    exact f.file_prefix.length_le
  refine ⟨i, f, hdir, hf, by omega, fun hne => ?_, fun hok hheld => ?_⟩
  · have := hle hne
    omega
  · rw [onDisk_eq hinv hfd hf, Stdio.Stream.file_eq_given hheld, hfgiven]
    exact heq hok

/-- The child of `transferred`, whose stream is flushed by its `fclose`. -/
def transferredOut : List (Stdio.Call SharedEv ℕ) :=
  (checked 0 ++ transferred 0).map (.call · 0) ++ [.close 0 1]

theorem files_bounded_transferredOut : ∃ s c i,
    Machine.exec ((stdio fun _ => ⟨[]⟩).next 4096) (.start empty) transferredOut = some s ∧
    s.base.children 0 = some c ∧ s.base.fs.dir c.filename = some i ∧
    ((onDisk s i).length : ℤ) = c.filesize := by
  obtain ⟨s, c, f, hs, hc, hpc, hf, hheld⟩ : ∃ s c f,
      Machine.exec ((stdio fun _ => ⟨[]⟩).next 4096) (.start empty) transferredOut = some s ∧
      s.base.children 0 = some c ∧ c.pc = .done (.returned .ok) ∧ s.stream 0 = some f ∧
      f.held = [] := ⟨_, _, _, rfl, rfl, rfl, rfl, rfl⟩
  obtain ⟨i, f', hi, hf', -, -, hlen⟩ :=
    files_bounded _ 4096 empty s _ start_empty absent_transferred hs 0 c hc (by rw [hpc]; rfl)
  obtain rfl := Option.some.inj (hf.symm.trans hf')
  exact ⟨s, c, i, hs, hc, hi, hlen hpc hheld⟩

end Shared

end FortyTwoHundred.Ftp

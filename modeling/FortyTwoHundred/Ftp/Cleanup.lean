import FortyTwoHundred.Lib.Stdio
import FortyTwoHundred.Ftp.Server

/-!
# Cleanup — what a server child leaves behind

The file a child has created is either complete when the child ends, or gone.  Every exit of
`copy_file` after `fopen` unlinks the file, but one: a short `fwrite` returns `RUNTIME_ERROR` and
leaves it.  And the child returns `0` whatever its `fclose` says: what that flush does not pass on
is missing from the file.  So a run that ends leaves no partial file if and only if none of its
writes was short and, where it returns `0`, the flush has passed on all (`no_partial_file_iff`).

`Solo.disk` has what `fwrite` has taken; what of it is on the disk is up to the stream, see
`stdio` and `onDisk`.
-/

namespace FortyTwoHundred.Ftp

namespace Solo

/-- The file after `n` bytes were written to it. -/
def Holds (s : Solo) (n : ℤ) : Prop := ∃ bs, s.disk = some bs ∧ (bs.length : ℤ) = n

/-- What the file is at each point of a child whose writes were not short. -/
def FileInv (s : Solo) : Prop :=
  match s.child.pc with
  | .start | .access | .fopen => s.opened = false ∧ s.child.read = 0
  | .deny _ status => status ≠ .ok ∧ s.opened = false ∧ s.child.read = 0
  | .ackRequest _ | .poll _ | .unlink _ => s.Holds s.child.read
  | .write pending => s.Holds (s.child.read - pending.length)
  | .finackTop _ | .finackRecv _ => s.Holds s.child.filesize
  | .done (.returned .ok) => s.Holds s.child.filesize
  | .done (.returned _) => s.opened = false
  | .done (.exited _) => s.opened = true → s.disk = none

/-- An `fwrite` step writes all it is given. -/
def FullWrite (s : Solo) (i : ChildIn) : Prop :=
  match s.child.pc, i with
  | .write pending, .fwrite n _ => n = pending.length
  | _, _ => True

theorem FileInv.of_early {s : Solo} (h : s.child.pc.early) (ho : s.opened = false)
    (hr : s.child.read = 0) : s.FileInv := by
  cases hpc : s.child.pc with
  | start => simp [FileInv, hpc, ho, hr]
  | access => simp [FileInv, hpc, ho, hr]
  | fopen => simp [FileInv, hpc, ho, hr]
  | deny cmd st =>
    rw [hpc] at h
    simp only [FileInv, hpc]
    exact ⟨h, ho, hr⟩
  | _ => simp [hpc, ChildPc.early] at h

/-- The receive loop handles a datagram: only a `DATA` packet in sequence changes `read`, and its
bytes are pending. -/
theorem fileInv_handle {disk : Option Bytes} {opened : Bool} {c : Child} (now : ℤ)
    (beyond : ℕ → Byte) (h : Holds ⟨c, disk, opened⟩ c.read) :
    FileInv ⟨(c.handle now beyond).1, (c.handle now beyond).2.foldl Effect.onDisk disk,
      opened || decide (Effect.create ∈ (c.handle now beyond).2)⟩ := by
  rw [Child.handle]
  split_ifs with hd hs hf hr
  · exact h
  · simp only [FileInv, length_peek]
    obtain ⟨bs, h1, h2⟩ := h
    refine ⟨bs, h1, ?_⟩
    rw [h2]
    ring
  · exact h
  · simp only [FileInv]
    rw [← not_not.mp hr]
    exact h
  · exact h

/-- **Every step whose write is not short keeps the file as it should be.** -/
theorem fileInv_step {origin : Addr} {s t : Solo} {i : ChildIn} (h : s.FileInv) (hw : s.FullWrite i)
    (hs : s.next origin i = some t) : t.FileInv := by
  obtain ⟨⟨c, effs⟩, hstep, rfl⟩ := Option.map_eq_some_iff.mp hs
  obtain ⟨child, disk, opened⟩ := s
  dsimp only at hstep ⊢
  cases Child.trans_of_step hstep with
  | @start ok hpc =>
    have h0 : opened = false ∧ child.read = 0 := by simpa only [FileInv, hpc] using h
    rcases child.parse_early ok with hp | hp
    · exact FileInv.of_early hp (by simp [h0.1]) ((child.parse_frame ok).1.trans h0.2)
    · simp only [FileInv, hp]; simp [h0.1]
  | @access found hpc =>
    have h0 : opened = false ∧ child.read = 0 := by simpa only [FileInv, hpc] using h
    rcases child.check_early found with hp | hp
    · exact FileInv.of_early hp (by simp [h0.1]) ((child.check_frame found).1.trans h0.2)
    · simp only [FileInv, hp]; simp [h0.1]
  | create hpc =>
    have h0 : opened = false ∧ child.read = 0 := by simpa only [FileInv, hpc] using h
    exact ⟨[], rfl, by simp [h0.2]⟩
  | noCreate hpc =>
    have h0 : opened = false ∧ child.read = 0 := by simpa only [FileInv, hpc] using h
    exact ⟨by simp, by simp [h0.1], h0.2⟩
  | @denied cmd status again now hpc =>
    have h0 : status ≠ .ok ∧ opened = false ∧ child.read = 0 := by simpa only [FileInv, hpc] using h
    cases status with
    | ok => exact absurd rfl h0.1
    | _ => simp [FileInv, Child.finish, h0.2.1]
  | @notDenied cmd status again now hpc =>
    have h0 : status ≠ .ok ∧ opened = false ∧ child.read = 0 := by simpa only [FileInv, hpc] using h
    simp [FileInv, Child.finish, h0.2.1]
  | noAck hpc =>
    have h0 : Holds ⟨child, disk, opened⟩ child.read := by simpa only [FileInv, hpc] using h
    exact h0
  | ackAgain hpc ht =>
    simp only [FileInv, hpc] at h ⊢
    exact h
  | ack hpc =>
    have h0 : Holds ⟨child, disk, opened⟩ child.read := by simpa only [FileInv, hpc] using h
    exact h0
  | idle hpc ht hr =>
    simp only [FileInv, hpc] at h ⊢
    exact h
  | timeout hpc ht =>
    have h0 : Holds ⟨child, disk, opened⟩ child.read := by simpa only [FileInv, hpc] using h
    exact h0
  | datagram hpc ht hr =>
    have h0 : Holds ⟨child, disk, opened⟩ child.read := by simpa only [FileInv, hpc] using h
    exact fileInv_handle _ _ h0
  | @fwrite pending n now hpc hn =>
    obtain ⟨bs, h1, h2⟩ : Holds ⟨child, disk, opened⟩ (child.read - pending.length) := by
      simpa only [FileInv, hpc] using h
    have hn : n = pending.length := by simpa only [FullWrite, hpc] using hw
    -- `read` was counted up when the packet was accepted; now the file catches up
    have h3 : Holds ⟨child, disk.map (· ++ pending.take n), opened⟩ child.read := by
      refine ⟨bs ++ pending.take n, by rw [show disk = some bs from h1]; rfl, ?_⟩
      rw [hn, List.take_length, List.length_append]
      push_cast
      rw [h2]
      ring
    rw [Child.afterWrite, if_neg (not_not.mpr hn)]
    split_ifs
    · exact h3
    · exact h3
  | unlink hpc => exact fun _ => rfl
  | @finack t ok again now hpc ht =>
    have h0 : Holds ⟨child, disk, opened⟩ child.filesize := by simpa only [FileInv, hpc] using h
    cases ok
    · exact h0
    · exact h0
  | finackTimeout hpc ht =>
    have h0 : Holds ⟨child, disk, opened⟩ child.filesize := by simpa only [FileInv, hpc] using h
    exact h0
  | finackRecv hpc =>
    have h0 : Holds ⟨child, disk, opened⟩ child.filesize := by simpa only [FileInv, hpc] using h
    rw [Child.finackStep]
    split_ifs
    · exact h0
    · exact h0

/-- A short write ends the child and leaves the file. -/
theorem short_write {origin : Addr} {s t : Solo} {i : ChildIn} (h : s.FileInv)
    (hw : ¬ s.FullWrite i) (hs : s.next origin i = some t) :
    t.child.pc = .done (.returned .runtimeError) ∧ t.disk ≠ none := by
  obtain ⟨⟨c, effs⟩, hstep, rfl⟩ := Option.map_eq_some_iff.mp hs
  obtain ⟨child, disk, opened⟩ := s
  dsimp only at hstep ⊢
  cases Child.trans_of_step hstep with
  | @fwrite pending n now hpc hn =>
    obtain ⟨bs, h1, -⟩ : Holds ⟨child, disk, opened⟩ (child.read - pending.length) := by
      simpa only [FileInv, hpc] using h
    have hne : n ≠ pending.length := by simpa only [FullWrite, hpc] using hw
    refine ⟨by simp [Child.afterWrite, hne, Child.finish], ?_⟩
    simp [Effect.onDisk, show disk = some bs from h1]
  | _ => simp [FullWrite, *] at hw

theorem next_done {origin : Addr} {s : Solo} {e : Ending} (h : s.child.pc = .done e) (i : ChildIn) :
    s.next origin i = none := by
  simp [next, Child.step, h]

/-- The start of a child forked for a datagram; `disk` is the file of the name it will ask for, if
there is one. -/
def init (datagram : Bytes) (disk : Option Bytes) : Solo := ⟨Child.init datagram, disk, false⟩

end Solo

/-! ## The stream -/

namespace Child

/-- The `fopen` succeeds. -/
def fopens (c : Child) : ChildIn → Bool
  | .fopen ok _ => ok && decide (c.pc = .fopen)
  | _ => false

/-- The bytes an `fwrite` is given, and its result. -/
def fwrites (c : Child) : ChildIn → Option (Bytes × ℕ)
  | .fwrite n _ =>
    match c.pc with
    | .write pending => some (pending, n)
    | _ => none
  | _ => none

def ended (c : Child) : Bool :=
  match c.pc with
  | .done _ => true
  | _ => false

/-- What a step does to the file: it writes to it, creates it, or neither. -/
inductive OnFile (c : Child) (i : ChildIn) : List Effect → Prop
  | fwrite {pending n} (h : c.fwrites i = some (pending, n)) :
      OnFile c i [.append (pending.take n)]
  | create (h : c.fwrites i = none) (ho : c.fopens i = true) : OnFile c i [.create]
  | unlink (h : c.fwrites i = none) (ho : c.fopens i = false) : OnFile c i [.unlink]
  | sends {effs} (h : c.fwrites i = none) (ho : c.fopens i = false)
      (hs : ∀ e ∈ effs, ∃ m, e = .send m) : OnFile c i effs

theorem Trans.onFile {origin : Addr} {c d : Child} {i : ChildIn} {effs : List Effect}
    (ht : Trans origin c i d effs) : OnFile c i effs := by
  cases ht with
  | create hpc => exact .create rfl (by simp [fopens, hpc])
  | noCreate hpc => exact .sends rfl rfl (by simp)
  | fwrite hpc hn => exact .fwrite (by simp [fwrites, hpc])
  | unlink hpc => exact .unlink rfl rfl
  | datagram hpc ht hr =>
    refine .sends rfl rfl fun e he => ?_
    rw [handle] at he
    split_ifs at he
    · exact ⟨_, List.mem_singleton.mp he⟩
    · exact ⟨_, List.mem_singleton.mp he⟩
    · cases he
    · cases he
    · cases he
  | @finack t ok again now hpc ht =>
    refine .sends rfl rfl fun e he => ?_
    cases ok
    · cases he
    · exact ⟨_, List.mem_singleton.mp he⟩
  | denied hpc => exact .sends rfl rfl (by simp)
  | ackAgain hpc ht => exact .sends rfl rfl (by simp)
  | ack hpc ht => exact .sends rfl rfl (by simp)
  | _ => exact .sends rfl rfl (by simp)

end Child

theorem foldl_onDisk_sends {effs : List Effect} (h : ∀ e ∈ effs, ∃ m, e = Effect.send m)
    (disk : Option Bytes) : effs.foldl Effect.onDisk disk = disk := by
  induction effs with
  | nil => rfl
  | cons e effs ih =>
    obtain ⟨m, rfl⟩ := h e (List.mem_cons_self ..)
    exact ih fun e he => h e (List.mem_cons_of_mem _ he)

namespace Solo

/-- The child with its stream; it is closed by `fclose` before `copy_file` returns `0`, and flushed
by `exit` after any other end. -/
def stdio (origin : Addr) : Stdio.Program Solo ChildIn Unit Byte where
  step := next origin
  opens s i := if s.child.fopens i then some () else none
  writes s i := (s.child.fwrites i).map fun w => ((), w.1, w.2)
  ended s _ := s.child.ended

/-- The file of the child's name on the disk. -/
def onDisk (s : Stdio.Streams Solo Unit Byte) : Option Bytes :=
  s.base.disk.map fun bs => ((s.stream ()).map Stdio.Stream.file).getD bs

/-- The child has created the file, and it is there. -/
def Filed (s : Solo) (_ : Unit) : Prop := s.opened = true ∧ s.disk ≠ none

def content (s : Solo) (_ : Unit) : Bytes := s.disk.getD []

theorem stdio_writes {origin : Addr} {s t : Solo} {i : ChildIn} (hs : s.next origin i = some t) :
    (stdio origin).Writes Filed content s i t := by
  obtain ⟨⟨c, effs⟩, hstep, rfl⟩ := Option.map_eq_some_iff.mp hs
  rintro - ⟨ho, hd⟩
  cases (Child.trans_of_step hstep).onFile with
  | @fwrite pending n hw =>
    left
    obtain ⟨bs, hbs⟩ : ∃ bs, s.disk = some bs :=
      Option.ne_none_iff_exists'.mp fun hn => hd (by simp [Effect.onDisk, hn])
    refine ⟨pending, n, by simp [stdio, hw], ⟨by simpa using ho, by simp [hbs]⟩, ?_⟩
    simp [content, Effect.onDisk, hbs]
  | create hw hop => exact Or.inr (Or.inl ⟨by simp [stdio, hw], by simp [stdio, hop], rfl⟩)
  | unlink hw hop => exact absurd rfl hd
  | sends hw hop hsend =>
    have hdisk := foldl_onDisk_sends hsend s.disk
    have hcreate : Effect.create ∉ effs := fun hm => by
      obtain ⟨m, hm⟩ := hsend _ hm
      cases hm
    dsimp only at ho hd
    rw [hdisk] at hd
    refine Or.inr (Or.inr ⟨by simp [stdio, hw], by simp [stdio, hop], ⟨?_, hd⟩, ?_⟩)
    · simpa [hcreate] using ho
    · simp only [content, hdisk]

/-- The child ended well with all of its file on the disk, or its file is gone. -/
def Clean (s : Stdio.Streams Solo Unit Byte) : Prop :=
  (s.base.child.pc = .done (.returned .ok) ∧
    ∃ bs, onDisk s = some bs ∧ (bs.length : ℤ) = s.base.child.filesize) ∨ onDisk s = none

/-- An `fwrite` takes all it is given; an `fclose` before the return of `0` passes on all that is
left. -/
def FullStep (s : Stdio.Streams Solo Unit Byte) : Stdio.Call ChildIn Unit → Prop
  | .call i _ => s.base.FullWrite i
  | .close _ k =>
    s.base.child.pc = .done (.returned .ok) → ∀ f, s.stream () = some f → k = f.held.length

/-- What holds in a run of full steps: the file as it should be, its bytes given to the stream, and
a stream that was closed on a return of `0` holds nothing back. -/
structure Kept (s : Stdio.Streams Solo Unit Byte) : Prop where
  file : s.base.FileInv
  given : Stdio.Program.Given Filed content s
  ended : ∀ f, s.stream () = some f → f.isOpen = false → s.base.child.ended = true
  flushed : s.base.child.pc = .done (.returned .ok) → ∀ f, s.stream () = some f →
    f.isOpen = false → f.held = []

section Runs

variable {origin : Addr} {size : ℕ} {s t : Stdio.Streams Solo Unit Byte}

theorem not_ended_of_next {x y : Solo} {i : ChildIn} (h : x.next origin i = some y) :
    x.child.ended = false := by
  unfold Child.ended
  split
  · next e hpc => rw [next_done hpc i] at h; cases h
  · rfl

theorem isOpen_of_streamStep {i : ChildIn} {k : ℕ} {fs : Unit → Option (Stdio.Stream Byte)}
    (h : (stdio origin).streamStep size s i k = some fs)
    (hopen : ∀ f, s.stream () = some f → f.isOpen = true) :
    ∀ f, fs () = some f → f.isOpen = true := by
  intro f hf
  cases hw : (stdio origin).writes s.base i with
  | none =>
    rw [Stdio.Program.streamStep_none hw] at h
    rw [← Option.some.inj h] at hf
    split at hf
    · rw [Function.update_self] at hf
      rw [← Option.some.inj hf]
      rfl
    · exact hopen f hf
  | some w =>
    obtain ⟨⟨⟩, bs, n⟩ := w
    obtain ⟨f', g, -, hg, rfl⟩ := Stdio.Program.streamStep_writes hw h
    rw [Function.update_self] at hf
    rw [← Option.some.inj hf]
    exact (Stdio.Stream.fwrite_inv hg).2.1

/-- **Every full step** keeps the file and the stream as they should be. -/
theorem Kept.next (h : Kept s) {e : Stdio.Call ChildIn Unit} (hok : FullStep s e)
    (hs : (stdio origin).next size s e = some t) : Kept t := by
  have hgiven : Stdio.Program.Given Filed content t := h.given.next (fun i k he => by
    subst he
    exact stdio_writes (Stdio.Program.next_call hs).1) hs
  cases e with
  | call i k =>
    obtain ⟨hstep, hstream⟩ := Stdio.Program.next_call hs
    have hopen : ∀ f, t.stream () = some f → f.isOpen = true := by
      refine isOpen_of_streamStep hstream fun f hf => ?_
      by_contra hc
      have hend := h.ended f hf (by simpa using hc)
      rw [not_ended_of_next hstep] at hend
      cases hend
    refine ⟨fileInv_step h.file hok hstep, hgiven, fun f hf hc => ?_, fun _ f hf hc => ?_⟩
    · rw [hopen f hf] at hc
      cases hc
    · rw [hopen f hf] at hc
      cases hc
  | close p k =>
    obtain ⟨hend, f, g, hf, hg, rfl⟩ := Stdio.Program.next_close hs
    refine ⟨h.file, hgiven, fun _ _ _ => hend, fun hpc f' hf' _ => ?_⟩
    rw [Stdio.Streams.stream_put_self] at hf'
    obtain rfl := Option.some.inj hf'
    rw [hok hpc f hf] at hg
    exact Stdio.Stream.held_fclose hg

/-- The stream of a file that is there, at the end of the child. -/
theorem onDisk_eq {f : Stdio.Stream Byte} (hf : s.stream () = some f) (hd : s.base.disk ≠ none) :
    onDisk s = some f.file := by
  obtain ⟨bs, hbs⟩ := Option.ne_none_iff_exists'.mp hd
  simp [onDisk, hbs, hf]

/-- After the child has ended and its stream is closed nothing happens. -/
theorem exec_closed {es : List (Stdio.Call ChildIn Unit)} (hend : s.base.child.ended = true)
    (hclosed : ∀ f, s.stream () = some f → f.isOpen = false)
    (h : Machine.exec ((stdio origin).next size) s es = some t) : t = s := by
  cases es with
  | nil => exact (Option.some.inj h).symm
  | cons e es =>
    obtain ⟨u, hu, -⟩ := Machine.exec_cons_some.mp h
    exfalso
    cases e with
    | call i k =>
      rw [not_ended_of_next (Stdio.Program.next_call hu).1] at hend
      cases hend
    | close p k =>
      obtain ⟨-, f, g, hf, hg, -⟩ := Stdio.Program.next_close hu
      have ho := (Stdio.Stream.fclose_inv hg).1
      rw [hclosed f hf] at ho
      cases ho

/-- What the child has done when it has ended stays. -/
theorem exec_ended {es : List (Stdio.Call ChildIn Unit)} (hend : s.base.child.ended = true)
    (h : Machine.exec ((stdio origin).next size) s es = some t) : t.base = s.base := by
  induction es generalizing s with
  | nil => rw [Option.some.inj h]
  | cons e es ih =>
    obtain ⟨u, hu, hes⟩ := Machine.exec_cons_some.mp h
    cases e with
    | call i k =>
      rw [not_ended_of_next (Stdio.Program.next_call hu).1] at hend
      cases hend
    | close p k =>
      have hbase : u.base = s.base := by
        obtain ⟨-, f, g, -, -, rfl⟩ := Stdio.Program.next_close hu
        rfl
      exact (ih (by rw [hbase]; exact hend) hes).trans hbase

/-- A short write, or a flush before the return of `0` that does not pass on all, leaves a partial
file. -/
theorem Kept.not_clean (h : Kept s) {e : Stdio.Call ChildIn Unit} (hok : ¬ FullStep s e)
    {u : Stdio.Streams Solo Unit Byte} {es : List (Stdio.Call ChildIn Unit)}
    (hs : (stdio origin).next size s e = some t)
    (ht : Machine.exec ((stdio origin).next size) t es = some u) (hopen : u.base.opened = true) :
    ¬ Clean u := by
  cases e with
  | call i k =>
    obtain ⟨hpc, hdisk⟩ := short_write h.file hok (Stdio.Program.next_call hs).1
    have hbase := exec_ended (by simp [Child.ended, hpc]) ht
    rintro (⟨hok, -⟩ | hnone)
    · rw [hbase, hpc] at hok
      cases hok
    · rw [onDisk, Option.map_eq_none_iff, hbase] at hnone
      exact hdisk hnone
  | close p k =>
    simp only [FullStep, not_forall] at hok
    obtain ⟨hpc, f, hf, hk⟩ := hok
    obtain ⟨hend, f', g, hf', hg, rfl⟩ := Stdio.Program.next_close hs
    obtain rfl := Option.some.inj (hf.symm.trans hf')
    obtain ⟨-, hle, hclosed, hgiven, hpassed⟩ := Stdio.Stream.fclose_inv hg
    obtain rfl := exec_closed (s := s.put () g) hend (fun f'' hf'' => by
      rw [Stdio.Streams.stream_put_self] at hf''
      rw [← Option.some.inj hf'']
      exact hclosed) ht
    obtain ⟨bs, hbs, hlen⟩ : s.base.Holds s.base.child.filesize := by
      simpa only [FileInv, hpc] using h.file
    have hfile : onDisk (s.put () g) = some g.file :=
      onDisk_eq Stdio.Streams.stream_put_self (by rw [Stdio.Streams.base_put, hbs]; simp)
    rintro (⟨-, cs, hcs, hcslen⟩ | hnone)
    · -- the file is shorter than what `fwrite` has taken
      rw [hfile] at hcs
      obtain rfl := Option.some.inj hcs
      obtain ⟨f'', hf'', hgiven'⟩ := h.given () ⟨hopen, by rw [hbs]; exact Option.some_ne_none _⟩
      obtain rfl := Option.some.inj (hf.symm.trans hf'')
      have hfull : f.given = bs := by rw [hgiven', content, hbs, Option.getD_some]
      rw [Stdio.Stream.length_file, hpassed, Stdio.Streams.base_put] at hcslen
      have hheld := f.length_held
      rw [hfull] at hheld
      omega
    · rw [hfile] at hnone
      cases hnone

end Runs

/-- **No partial file survives, if and only if no write is short and no flush fails.**  For every
run of a child that has ended after its `fopen` succeeded and whose stream has been closed: it has
returned `0` with all of its file on the disk, or the file is unlinked, exactly when every `fwrite`
of the run took all its bytes and, if it returned `0`, the flush of its `fclose` passed on all that
was left. -/
theorem no_partial_file_iff (origin : Addr) (size : ℕ) (datagram : Bytes) (disk : Option Bytes)
    (es : List (Stdio.Call ChildIn Unit)) (s : Stdio.Streams Solo Unit Byte)
    (h : Machine.exec ((stdio origin).next size) (.start (init datagram disk)) es = some s)
    (hdone : s.base.child.ended = true) (hopen : s.base.opened = true)
    (hclosed : ∀ f, s.stream () = some f → f.isOpen = false) :
    Clean s ↔
      Machine.Meets ((stdio origin).next size) FullStep (.start (init datagram disk)) es := by
  have h₀ : Kept (Stdio.Streams.start (init datagram disk)) :=
    ⟨⟨rfl, rfl⟩, fun _ hf => (nomatch hf.1), fun _ hf => (nomatch hf), fun _ _ hf => (nomatch hf)⟩
  constructor
  · intro hc
    rcases Machine.meets_or_break FullStep _ es with hm | ⟨fs, e, gs, u, rfl, hu, hm, hn⟩
    · exact hm
    · exfalso
      have hK : Kept u := Machine.exec_invariant_of_meets
        (fun _ _ _ hK hok hs => hK.next hok hs) h₀ hm hu
      obtain ⟨u', hu', hrest⟩ := Machine.exec_append.mp h
      obtain rfl := Option.some.inj (hu.symm.trans hu')
      obtain ⟨t, ht, hgs⟩ := Machine.exec_cons_some.mp hrest
      exact hK.not_clean hn ht hgs hopen hc
  · intro hm
    have hK : Kept s := Machine.exec_invariant_of_meets
      (fun _ _ _ hK hok hs => hK.next hok hs) h₀ hm h
    have hfile := hK.file
    cases hpc : s.base.child.pc with
    | done e =>
      simp only [FileInv, hpc] at hfile
      cases e with
      | exited st =>
        right
        rw [onDisk, hfile hopen, Option.map_none]
      | returned st =>
        cases st with
        | ok =>
          obtain ⟨bs, hbs, hlen⟩ := hfile
          have hd : s.base.disk ≠ none := by rw [hbs]; exact Option.some_ne_none _
          obtain ⟨f, hf, hgiven⟩ := hK.given () ⟨hopen, hd⟩
          refine Or.inl ⟨hpc, f.file, onDisk_eq hf hd, ?_⟩
          rw [Stdio.Stream.file_eq_given (hK.flushed hpc f hf (hclosed f hf)), hgiven, content,
            hbs]
          exact hlen
        | _ =>
          rw [hfile] at hopen
          cases hopen
    | _ => simp [Child.ended, hpc] at hdone

/-- A request for a file `a` of one byte, the byte and a `FIN`; nothing acknowledges the
`FINACK`. -/
def oneByteRun : List (Stdio.Call ChildIn Unit) :=
  [.call (.setup true) 0, .call (.access false) 0, .call (.fopen true 0) 0,
    .call (.send true false 1) 0,
    .call (.poll 1 [] (fun _ => 0) (.got ⟨[]⟩ (createPacket cmdData 1 1 [42]))) 0,
    .call (.fwrite 1 1) 0,
    .call (.poll 1 [] (fun _ => 0) (.got ⟨[]⟩ (createPacket cmdFin 0 0 []))) 0,
    .call (.send true false 3) 0]

theorem no_partial_file_iff_oneByteRun : ∃ s,
    Machine.exec ((stdio ⟨[]⟩).next 4096) (.start (init (requestPacket [97] 1) none))
      (oneByteRun ++ [.close () 1]) = some s ∧
    s.base.child.pc = .done (.returned .ok) ∧ onDisk s = some [42] ∧
    Machine.Meets ((stdio ⟨[]⟩).next 4096) FullStep (.start (init (requestPacket [97] 1) none))
      (oneByteRun ++ [.close () 1]) := by
  obtain ⟨s, hs, hpc, hdisk, hopen, hsize, hclosed⟩ : ∃ s,
      Machine.exec ((stdio ⟨[]⟩).next 4096) (.start (init (requestPacket [97] 1) none))
        (oneByteRun ++ [.close () 1]) = some s ∧ s.base.child.pc = .done (.returned .ok) ∧
      onDisk s = some [42] ∧ s.base.opened = true ∧ s.base.child.filesize = 1 ∧
      (s.stream ()).map Stdio.Stream.isOpen = some false := ⟨_, rfl, rfl, rfl, rfl, rfl, rfl⟩
  refine ⟨s, hs, hpc, hdisk, (no_partial_file_iff ⟨[]⟩ 4096 (requestPacket [97] 1) none _ s hs
    (by simp [Child.ended, hpc]) hopen fun f hf => ?_).mp (Or.inl ⟨hpc, [42], hdisk, hsize.symm⟩)⟩
  rw [hf] at hclosed
  exact Option.some.inj hclosed

/-- A full packet. -/
def fullPacket (n : ℕ) : Bytes := createPacket cmdData (.ofNat n) 2043 (List.replicate 2043 0)

/-- Three full packets; the third does not fit into the buffer, and the disk is full. -/
def fullDiskRun : List (Stdio.Call ChildIn Unit) :=
  [.call (.setup true) 0, .call (.access false) 0, .call (.fopen true 0) 0,
    .call (.send true false 1) 0,
    .call (.poll 1 [] (fun _ => 0) (.got ⟨[]⟩ (fullPacket 1))) 0, .call (.fwrite 2043 1) 0,
    .call (.poll 1 [] (fun _ => 0) (.got ⟨[]⟩ (fullPacket 2))) 0, .call (.fwrite 2043 1) 0,
    .call (.poll 1 [] (fun _ => 0) (.got ⟨[]⟩ (fullPacket 3))) 0, .call (.fwrite 10 1) 0,
    .close () 0]

set_option maxRecDepth 20000 in
/-- The third `fwrite` is short: the child returns `RUNTIME_ERROR`, and the empty file stays.  And
where only the flush of `fclose` fails the child returns `0`, and the file of one byte is empty. -/
theorem partial_file_survives :
    (∃ s, Machine.exec ((stdio ⟨[]⟩).next 4096) (.start (init (requestPacket [97] 6129) none))
        fullDiskRun = some s ∧
      s.base.child.pc = .done (.returned .runtimeError) ∧ s.base.opened = true ∧
      (s.stream ()).map Stdio.Stream.isOpen = some false ∧ onDisk s = some [] ∧ ¬ Clean s) ∧
    ∃ s, Machine.exec ((stdio ⟨[]⟩).next 4096) (.start (init (requestPacket [97] 1) none))
        (oneByteRun ++ [.close () 0]) = some s ∧
      s.base.child.pc = .done (.returned .ok) ∧ s.base.opened = true ∧
      (s.stream ()).map Stdio.Stream.isOpen = some false ∧ onDisk s = some [] ∧ ¬ Clean s := by
  constructor
  · obtain ⟨s, hs, hpc, hopen, hclosed, hdisk⟩ : ∃ s,
        Machine.exec ((stdio ⟨[]⟩).next 4096) (.start (init (requestPacket [97] 6129) none))
          fullDiskRun = some s ∧ s.base.child.pc = .done (.returned .runtimeError) ∧
        s.base.opened = true ∧ (s.stream ()).map Stdio.Stream.isOpen = some false ∧
        onDisk s = some [] := ⟨_, rfl, rfl, rfl, rfl, rfl⟩
    refine ⟨s, hs, hpc, hopen, hclosed, hdisk, ?_⟩
    rintro (⟨hok, -⟩ | hnone)
    · simp [hpc] at hok
    · simp [hdisk] at hnone
  · obtain ⟨s, hs, hpc, hopen, hclosed, hdisk, hsize⟩ : ∃ s,
        Machine.exec ((stdio ⟨[]⟩).next 4096) (.start (init (requestPacket [97] 1) none))
          (oneByteRun ++ [.close () 0]) = some s ∧ s.base.child.pc = .done (.returned .ok) ∧
        s.base.opened = true ∧ (s.stream ()).map Stdio.Stream.isOpen = some false ∧
        onDisk s = some [] ∧ s.base.child.filesize = 1 := ⟨_, rfl, rfl, rfl, rfl, rfl, rfl⟩
    refine ⟨s, hs, hpc, hopen, hclosed, hdisk, ?_⟩
    rintro (⟨-, bs, hbs, hlen⟩ | hnone)
    · rw [hdisk] at hbs
      rw [← Option.some.inj hbs, hsize] at hlen
      cases hlen
    · simp [hdisk] at hnone

end Solo

end FortyTwoHundred.Ftp

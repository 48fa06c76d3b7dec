import FortyTwoHundred.Lib.Machine
import Mathlib.Logic.Function.Basic
import Mathlib.Order.Nat

/-!
# Stdio — buffered output streams

A stream takes what `fwrite` is given into a buffer and passes it on to its file, in order.  It has
to pass on only what the buffer cannot take, and a call is short only where the buffer has to be
flushed.  `fclose` flushes what is left; what that flush does not pass on is lost, also where
nobody looks at its result.  So at any time the file has a beginning of what the stream has been
given (`file_prefix`), and all of it exactly if nothing is held back (`file_eq_given`).

A `Program` is a machine that says which of its steps open a stream and write to it.
`Program.next` runs it with its streams; its runs are runs of the machine (`exec_calls`), and
`exec_given` is the rule for what the streams have been given.
-/

namespace Stdio

variable {α : Type*}

/-- A stream that is, or was, open for writing. -/
structure Stream (α : Type*) where
  /-- what the calls of `fwrite` have taken -/
  given : List α
  /-- how much of it has been passed on to the file -/
  passed : ℕ
  isOpen : Bool
  passed_le : passed ≤ given.length

namespace Stream

/-- The file of the stream. -/
def file (f : Stream α) : List α := f.given.take f.passed

/-- What has not been passed on. -/
def held (f : Stream α) : List α := f.given.drop f.passed

/-- The stream of a file that has been created, or truncated. -/
def opened : Stream α := ⟨[], 0, true, le_rfl⟩

theorem length_held (f : Stream α) : f.held.length = f.given.length - f.passed := by simp [held]

theorem length_file (f : Stream α) : f.file.length = f.passed := by
  rw [file, List.length_take, min_eq_left f.passed_le]

theorem file_prefix (f : Stream α) : f.file <+: f.given := List.take_prefix _ _

theorem file_eq_given {f : Stream α} (h : f.held = []) : f.file = f.given := by
  have hd := List.take_append_drop f.passed f.given
  rwa [show f.given.drop f.passed = [] from h, List.append_nil] at hd

/-- `fwrite` of `bs` that returns `n` and passes `k` elements on, for a buffer of `size`. -/
def fwrite (size : ℕ) (bs : List α) (n k : ℕ) (f : Stream α) : Option (Stream α) :=
  if h : f.isOpen ∧ n ≤ bs.length ∧ k ≤ f.held.length + n ∧ f.held.length + n ≤ size + k ∧
      (n = bs.length ∨ size < f.held.length + bs.length) then
    some ⟨f.given ++ bs.take n, f.passed + k, true, by
      have := f.passed_le
      have := f.length_held
      rw [List.length_append, List.length_take]
      omega⟩
  else none

/-- `fclose` whose flush passes `k` elements on. -/
def fclose (k : ℕ) (f : Stream α) : Option (Stream α) :=
  if h : f.isOpen ∧ k ≤ f.held.length then
    some ⟨f.given, f.passed + k, false, by
      have := f.passed_le
      have := f.length_held
      omega⟩
  else none

variable {f g : Stream α} {size n k : ℕ} {bs : List α}

theorem fwrite_inv (h : f.fwrite size bs n k = some g) :
    f.isOpen ∧ g.isOpen ∧ g.given = f.given ++ bs.take n := by
  unfold fwrite at h
  split_ifs at h with hf
  obtain rfl := Option.some.inj h
  exact ⟨hf.1, rfl, rfl⟩

theorem fclose_inv (h : f.fclose k = some g) :
    f.isOpen ∧ k ≤ f.held.length ∧ g.isOpen = false ∧ g.given = f.given ∧
      g.passed = f.passed + k := by
  unfold fclose at h
  split_ifs at h with hf
  obtain rfl := Option.some.inj h
  exact ⟨hf.1, hf.2, rfl, rfl, rfl⟩

/-- A flush that passes everything on leaves nothing behind. -/
theorem held_fclose (h : f.fclose f.held.length = some g) : g.held = [] := by
  obtain ⟨-, -, -, hgiven, hpassed⟩ := fclose_inv h
  have := f.passed_le
  refine List.drop_eq_nil_of_le ?_
  rw [hgiven, hpassed, length_held]
  omega

end Stream

/-! ## Programs with streams -/

/-- A machine of processes `π`, each with at most one stream. -/
structure Program (σ ε π α : Type*) where
  step : σ → ε → Option σ
  /-- the process for which the step opens a stream -/
  opens : σ → ε → Option π
  /-- the process that writes, the elements and the result of `fwrite` -/
  writes : σ → ε → Option (π × List α × ℕ)
  /-- the process closes its stream, or has come to its end -/
  ended : σ → π → Bool

structure Streams (σ π α : Type*) where
  base : σ
  stream : π → Option (Stream α)

/-- The program before its first step. -/
def Streams.start {σ π : Type*} (s : σ) : Streams σ π α := ⟨s, fun _ => none⟩

/-- The stream of `p` is now `f`. -/
def Streams.put {σ π : Type*} [DecidableEq π] (s : Streams σ π α) (p : π) (f : Stream α) :
    Streams σ π α :=
  { s with stream := Function.update s.stream p (some f) }

section Put

variable {σ π : Type*} [DecidableEq π] {s : Streams σ π α} {p q : π} {f : Stream α}

@[simp] theorem Streams.base_put : (s.put p f).base = s.base := rfl

@[simp] theorem Streams.stream_put_self : (s.put p f).stream p = some f :=
  Function.update_self _ _ _

theorem Streams.stream_put_of_ne (h : q ≠ p) : (s.put p f).stream q = s.stream q :=
  Function.update_of_ne h _ _

end Put

/-- A step, with what an `fwrite` in it passes on; or `fclose`, and the flush of `exit`. -/
inductive Call (ε π : Type*)
  | call (e : ε) (k : ℕ)
  | close (p : π) (k : ℕ)

def calls {ε π : Type*} : List (Call ε π) → List ε
  | [] => []
  | .call e _ :: es => e :: calls es
  | .close _ _ :: es => calls es

namespace Program

variable {σ ε π : Type*} [DecidableEq π] (m : Program σ ε π α) (size : ℕ)

def streamStep (s : Streams σ π α) (e : ε) (k : ℕ) : Option (π → Option (Stream α)) :=
  match m.writes s.base e with
  | some (p, bs, n) =>
    (s.stream p).bind fun f =>
      (f.fwrite size bs n k).map fun g => Function.update s.stream p (some g)
  | none =>
    match m.opens s.base e with
    | some p => some (Function.update s.stream p (some .opened))
    | none => some s.stream

def next (s : Streams σ π α) : Call ε π → Option (Streams σ π α)
  | .call e k => (m.step s.base e).bind fun t => (m.streamStep size s e k).map fun fs => ⟨t, fs⟩
  | .close p k =>
    if m.ended s.base p then (s.stream p).bind fun f => (f.fclose k).map (s.put p) else none

variable {m size}

theorem next_call {s t : Streams σ π α} {e : ε} {k : ℕ}
    (h : m.next size s (.call e k) = some t) :
    m.step s.base e = some t.base ∧ m.streamStep size s e k = some t.stream := by
  obtain ⟨u, hu, h⟩ := Option.bind_eq_some_iff.mp h
  obtain ⟨fs, hfs, rfl⟩ := Option.map_eq_some_iff.mp h
  exact ⟨hu, hfs⟩

theorem next_close {s t : Streams σ π α} {p : π} {k : ℕ}
    (h : m.next size s (.close p k) = some t) :
    m.ended s.base p = true ∧ ∃ f g, s.stream p = some f ∧ f.fclose k = some g ∧
      t = s.put p g := by
  simp only [next] at h
  split_ifs at h with hend
  obtain ⟨f, hf, h⟩ := Option.bind_eq_some_iff.mp h
  obtain ⟨g, hg, rfl⟩ := Option.map_eq_some_iff.mp h
  exact ⟨hend, f, g, hf, hg, rfl⟩

/-- A step that writes: the stream of the process that does takes what `fwrite` says. -/
theorem streamStep_writes {s : Streams σ π α} {e : ε} {k n : ℕ} {p : π} {bs : List α}
    {fs : π → Option (Stream α)} (hw : m.writes s.base e = some (p, bs, n))
    (h : m.streamStep size s e k = some fs) :
    ∃ f g, s.stream p = some f ∧ f.fwrite size bs n k = some g ∧
      fs = Function.update s.stream p (some g) := by
  unfold streamStep at h
  rw [hw] at h
  obtain ⟨f, hf, h⟩ := Option.bind_eq_some_iff.mp h
  obtain ⟨g, hg, rfl⟩ := Option.map_eq_some_iff.mp h
  exact ⟨f, g, hf, hg, rfl⟩

/-- A step that does not write leaves the streams, or opens one. -/
theorem streamStep_none {s : Streams σ π α} {e : ε} (hw : m.writes s.base e = none) (k : ℕ) :
    m.streamStep size s e k = some (match m.opens s.base e with
      | some p => Function.update s.stream p (some .opened)
      | none => s.stream) := by
  unfold streamStep
  rw [hw]
  cases m.opens s.base e <;> rfl

/-- **The runs with streams are runs of the machine.** -/
theorem exec_calls {s t : Streams σ π α} {es : List (Call ε π)}
    (h : Machine.exec (m.next size) s es = some t) :
    Machine.exec m.step s.base (calls es) = some t.base := by
  induction es generalizing s with
  | nil => rw [← Option.some.inj h]; rfl
  | cons e es ih =>
    obtain ⟨u, hu, hes⟩ := Machine.exec_cons_some.mp h
    cases e with
    | call e k => exact Machine.exec_cons_some.mpr ⟨_, (next_call hu).1, ih hes⟩
    | close p k =>
      obtain ⟨-, f, g, -, -, heq⟩ := next_close hu
      have hrun := ih hes
      rwa [heq] at hrun

/-- Every `.call` of the run meets the condition in the state before it. -/
def CallsMeet (ok : σ → ε → Prop) (s : Streams σ π α) : Call ε π → Prop
  | .call e _ => ok s.base e
  | .close _ _ => True

theorem meets_calls {ok : σ → ε → Prop} {s t : Streams σ π α} {es : List (Call ε π)}
    (h : Machine.exec (m.next size) s es = some t)
    (hm : Machine.Meets m.step ok s.base (calls es)) :
    Machine.Meets (m.next size) (CallsMeet ok) s es := by
  induction es generalizing s with
  | nil => trivial
  | cons e es ih =>
    obtain ⟨u, hu, hes⟩ := Machine.exec_cons_some.mp h
    cases e with
    | call e k => exact .cons hu hm.1 (ih hes (hm.2 _ (next_call hu).1))
    | close p k =>
      have hbase : u.base = s.base := by
        obtain ⟨-, f, g, -, -, rfl⟩ := next_close hu
        rfl
      exact .cons hu trivial (ih hes (hbase ▸ hm))

/-- What a step of the machine does to the contents of the streams: those that are `live` after it
have been written to, opened or left alone. -/
def Writes (m : Program σ ε π α) (live : σ → π → Prop) (content : σ → π → List α) (s : σ) (e : ε)
    (t : σ) : Prop :=
  ∀ p, live t p →
    (∃ bs n, m.writes s e = some (p, bs, n) ∧ live s p ∧
      content t p = content s p ++ bs.take n) ∨
    (m.writes s e = none ∧ m.opens s e = some p ∧ content t p = []) ∨
    ((∀ bs n, m.writes s e ≠ some (p, bs, n)) ∧ m.opens s e ≠ some p ∧ live s p ∧
      content t p = content s p)

/-- The live streams have been given their contents. -/
def Given (live : σ → π → Prop) (content : σ → π → List α) (s : Streams σ π α) : Prop :=
  ∀ p, live s.base p → ∃ f, s.stream p = some f ∧ f.given = content s.base p

theorem Given.next {live : σ → π → Prop} {content : σ → π → List α} {s t : Streams σ π α}
    {e : Call ε π} (hg : Given live content s)
    (hw : ∀ e' k, e = .call e' k → m.Writes live content s.base e' t.base)
    (h : m.next size s e = some t) : Given live content t := by
  intro p hp
  cases e with
  | call e k =>
    obtain ⟨-, hstream⟩ := next_call h
    rcases hw e k rfl p hp with ⟨bs, n, hwr, hl, hc⟩ | ⟨hwr, ho, hc⟩ | ⟨hwr, ho, hl, hc⟩
    · obtain ⟨f, g, hf, hfg, hfs⟩ := streamStep_writes hwr hstream
      obtain ⟨f', hf', hgiven⟩ := hg p hl
      obtain rfl := Option.some.inj (hf.symm.trans hf')
      refine ⟨g, by rw [hfs, Function.update_self], ?_⟩
      rw [(Stream.fwrite_inv hfg).2.2, hgiven, hc]
    · rw [streamStep_none hwr, ho] at hstream
      refine ⟨.opened, ?_, hc.symm⟩
      rw [← Option.some.inj hstream]
      exact Function.update_self _ _ _
    · obtain ⟨f, hf, hgiven⟩ := hg p hl
      refine ⟨f, ?_, hgiven.trans hc.symm⟩
      cases hq : m.writes s.base e with
      | none =>
        rw [streamStep_none hq] at hstream
        rw [← Option.some.inj hstream]
        cases hq' : m.opens s.base e with
        | none => exact hf
        | some q => exact (Function.update_of_ne (fun hpq => ho (by rw [hq', hpq])) _ _).trans hf
      | some w =>
        obtain ⟨q, bs, n⟩ := w
        obtain ⟨f', g, -, -, hfs⟩ := streamStep_writes hq hstream
        rw [hfs, Function.update_of_ne (fun hpq => hwr bs n (by rw [hq, hpq]))]
        exact hf
  | close q k =>
    obtain ⟨-, f, g, hf, hfg, rfl⟩ := next_close h
    obtain ⟨f', hf', hgiven⟩ := hg p hp
    by_cases hpq : p = q
    · subst hpq
      obtain rfl := Option.some.inj (hf.symm.trans hf')
      exact ⟨g, Streams.stream_put_self, (Stream.fclose_inv hfg).2.2.2.1.trans hgiven⟩
    · exact ⟨f', (Streams.stream_put_of_ne hpq).trans hf', hgiven⟩

/-- **What the streams have been given** in a run whose calls meet `ok`, where an invariant of the
machine says what its steps write. -/
theorem exec_given {ok : σ → ε → Prop} {I : σ → Prop} {live : σ → π → Prop}
    {content : σ → π → List α}
    (hI : ∀ s e t, I s → ok s e → m.step s e = some t → I t)
    (hw : ∀ s e t, I s → ok s e → m.step s e = some t → m.Writes live content s e t)
    {s t : Streams σ π α} {es : List (Call ε π)} (hs : I s.base) (hg : Given live content s)
    (hok : Machine.Meets (m.next size) (CallsMeet ok) s es)
    (h : Machine.exec (m.next size) s es = some t) : I t.base ∧ Given live content t := by
  refine Machine.exec_invariant_of_meets (I := fun s => I s.base ∧ Given live content s) ?_
    ⟨hs, hg⟩ hok h
  rintro s e t ⟨hs, hg⟩ hok h
  refine ⟨?_, hg.next (fun e' k he => ?_) h⟩
  · cases e with
    | call e k => exact hI _ _ _ hs hok (next_call h).1
    | close p k =>
      obtain ⟨-, f, g, -, -, rfl⟩ := next_close h
      exact hs
  · subst he
    exact hw _ _ _ hs hok (next_call h).1

end Program

end Stdio

import Mathlib.Logic.Function.Basic
import Mathlib.Order.Nat

/-!
# Files — a directory shared by processes

Names of type `ν` are entries of one directory, files are numbered, and every process of type `π`
has at most one open file with its own position.  `create` is an open that truncates a file that is
there, `unlink` removes a name.  The history `touched` lists who truncated, wrote or unlinked which
file.

`Owned` says that every open file was created by the process that has it open.  Creating a name that
is absent keeps it (`Owned.create`), creating a name that is there does not: the file of another
process is truncated (`touched_create`).
-/

namespace Files

variable {ν π α : Type*}

/-- Contents of a file, and the process that created it (`none`: it was there before). -/
structure File (π α : Type*) where
  content : List α
  creator : Option π

structure FS (ν π α : Type*) where
  dir : ν → Option ℕ
  file : ℕ → File π α
  /-- number of files made so far -/
  next : ℕ
  /-- the open file of a process, and the position in it -/
  fd : π → Option (ℕ × ℕ)
  touched : List (π × ℕ)

/-- Bytes written at a position; a hole before it is filled with the default. -/
def writeAt [Inhabited α] (content : List α) (pos : ℕ) (bs : List α) : List α :=
  (content ++ List.replicate (pos - content.length) default).take pos ++ bs ++ content.drop
    (pos + bs.length)

namespace FS

def setContent (s : FS ν π α) (i : ℕ) (bs : List α) : FS ν π α :=
  { s with file := Function.update s.file i { s.file i with content := bs } }

def log (s : FS ν π α) (p : π) (i : ℕ) : FS ν π α := { s with touched := s.touched ++ [(p, i)] }

/-- Everything touched was touched by its creator. -/
def Own (s : FS ν π α) : Prop := ∀ x ∈ s.touched, (s.file x.2).creator = some x.1

structure Owned (s : FS ν π α) : Prop where
  dir : ∀ {n i}, s.dir n = some i → i < s.next
  fd : ∀ {p i pos}, s.fd p = some (i, pos) → i < s.next ∧ (s.file i).creator = some p
  opened : ∀ {p i}, i < s.next → (s.file i).creator = some p → s.fd p ≠ none
  touched : ∀ x ∈ s.touched, x.2 < s.next

/-- Files keep their creator, and the history grows. -/
structure Later (s t : FS ν π α) : Prop where
  next : s.next ≤ t.next
  creator : ∀ i < s.next, (t.file i).creator = (s.file i).creator
  touched : ∀ x ∈ s.touched, x ∈ t.touched

variable {s t u : FS ν π α} {p : π} {n : ν}

theorem Later.refl (s : FS ν π α) : Later s s := ⟨le_rfl, fun _ _ => rfl, fun _ h => h⟩

theorem Later.trans (h₁ : Later s t) (h₂ : Later t u) : Later s u :=
  ⟨h₁.next.trans h₂.next, fun i hi => (h₂.creator i (hi.trans_le h₁.next)).trans (h₁.creator i hi),
    fun x hx => h₂.touched x (h₁.touched x hx)⟩

theorem creator_setContent (s : FS ν π α) (i j : ℕ) (bs : List α) :
    ((s.setContent i bs).file j).creator = (s.file j).creator := by
  by_cases h : j = i
  · subst h
    simp [setContent]
  · simp [setContent, h]

/-- A file touched by another than its creator stays so. -/
theorem Later.not_own (h : Later s t) {x : π × ℕ} (hx : x ∈ s.touched) (hi : x.2 < s.next)
    (hc : (s.file x.2).creator ≠ some x.1) : ¬ t.Own := by
  intro hown
  have := hown x (h.touched x hx)
  rw [h.creator x.2 hi] at this
  exact hc this

/-! ## Open for writing -/

section Create

variable [DecidableEq ν] [DecidableEq π]

/-- Open for writing: a new file, or the file of that name truncated. -/
def create (p : π) (n : ν) (s : FS ν π α) : FS ν π α :=
  match s.dir n with
  | none =>
    { s with
      dir := Function.update s.dir n (some s.next)
      file := Function.update s.file s.next ⟨[], some p⟩
      next := s.next + 1
      fd := Function.update s.fd p (some (s.next, 0)) }
  | some i => { (s.setContent i []).log p i with fd := Function.update s.fd p (some (i, 0)) }

theorem later_create (p : π) (n : ν) (s : FS ν π α) : Later s (s.create p n) := by
  unfold create
  split
  · refine ⟨Nat.le_succ _, fun i hi => ?_, fun x hx => hx⟩
    show (Function.update s.file s.next ⟨[], some p⟩ i).creator = _
    rw [Function.update_of_ne (by omega)]
  · exact ⟨le_rfl, fun i _ => creator_setContent s _ i _, fun x hx => List.mem_append_left _ hx⟩

/-- Creating a name that is there truncates a file that is not the process's own. -/
theorem touched_create {i : ℕ} (h : s.Owned) (hd : s.dir n = some i) (hfd : s.fd p = none) :
    (p, i) ∈ (s.create p n).touched ∧ i < (s.create p n).next ∧
    ((s.create p n).file i).creator ≠ some p := by
  have hi := h.dir hd
  have hlater := later_create p n s
  refine ⟨?_, hi.trans_le hlater.next, ?_⟩
  · unfold create
    rw [hd]
    simp [log, setContent]
  · rw [hlater.creator i hi]
    intro hc
    exact h.opened hi hc hfd

theorem create_absent (p : π) (hd : s.dir n = none) :
    s.create p n = { s with
      dir := Function.update s.dir n (some s.next)
      file := Function.update s.file s.next ⟨[], some p⟩
      next := s.next + 1
      fd := Function.update s.fd p (some (s.next, 0)) } := by
  unfold create
  rw [hd]

theorem Owned.create (h : s.Owned) (hown : s.Own) (hd : s.dir n = none) (hfd : s.fd p = none) :
    (s.create p n).Owned ∧ (s.create p n).Own := by
  have hold : ∀ i < s.next, Function.update s.file s.next ⟨[], some p⟩ i = s.file i := fun i hi =>
    Function.update_of_ne (by omega) _ _
  rw [create_absent p hd]
  refine ⟨⟨?_, ?_, ?_, ?_⟩, ?_⟩
  · intro m i hm
    by_cases hmn : m = n
    · subst hmn
      simp only [Function.update_self, Option.some.injEq] at hm
      show i < s.next + 1
      omega
    · simp only [Function.update_of_ne hmn] at hm
      exact (h.dir hm).trans (Nat.lt_succ_self _)
  · intro q i pos hq
    by_cases hqp : q = p
    · subst hqp
      simp only [Function.update_self, Option.some.injEq, Prod.mk.injEq] at hq
      obtain ⟨rfl, -⟩ := hq
      exact ⟨Nat.lt_succ_self _, by simp⟩
    · simp only [Function.update_of_ne hqp] at hq
      obtain ⟨hi, hc⟩ := h.fd hq
      refine ⟨hi.trans (Nat.lt_succ_self _), ?_⟩
      show (Function.update s.file s.next ⟨[], some p⟩ i).creator = _
      rw [hold i hi]
      exact hc
  · intro q i hi hc
    by_cases hqp : q = p
    · subst hqp
      simp
    · simp only [Function.update_of_ne hqp]
      by_cases hin : i = s.next
      · subst hin
        simp only [Function.update_self, Option.some.injEq] at hc
        exact absurd hc.symm hqp
      · have hi' : i < s.next := Nat.lt_of_le_of_ne (Nat.lt_succ_iff.mp hi) hin
        have hc' : (Function.update s.file s.next ⟨[], some p⟩ i).creator = some q := hc
        rw [hold i hi'] at hc'
        exact h.opened hi' hc'
  · intro x hx
    exact (h.touched x hx).trans (Nat.lt_succ_self _)
  · intro x hx
    show (Function.update s.file s.next ⟨[], some p⟩ x.2).creator = _
    rw [hold x.2 (h.touched x hx)]
    exact hown x hx

end Create

/-! ## Write -/

/-- A write at the end appends. -/
theorem writeAt_length [Inhabited α] (content bs : List α) :
    writeAt content content.length bs = content ++ bs := by
  rw [writeAt, Nat.sub_self, List.replicate_zero, List.append_nil, List.take_length,
    List.drop_eq_nil_of_le (Nat.le_add_right _ _), List.append_nil]

section Write

variable [DecidableEq π] [Inhabited α]

/-- Write to the open file. -/
def write (p : π) (bs : List α) (s : FS ν π α) : FS ν π α :=
  match s.fd p with
  | none => s
  | some (i, pos) =>
    { (s.setContent i (writeAt (s.file i).content pos bs)).log p i with
      fd := Function.update s.fd p (some (i, pos + bs.length)) }

theorem later_write (p : π) (bs : List α) (s : FS ν π α) : Later s (s.write p bs) := by
  unfold write
  split
  · exact Later.refl s
  · exact ⟨le_rfl, fun i _ => creator_setContent s _ i _, fun x hx => List.mem_append_left _ hx⟩

theorem Owned.write (h : s.Owned) (hown : s.Own) (bs : List α) :
    (s.write p bs).Owned ∧ (s.write p bs).Own := by
  unfold FS.write
  split
  · exact ⟨h, hown⟩
  · next i pos hfd =>
    obtain ⟨hi, hc⟩ := h.fd hfd
    refine ⟨⟨h.dir, ?_, ?_, ?_⟩, ?_⟩
    · intro q j pos' hq
      show j < s.next ∧ ((s.setContent i _).file j).creator = some q
      rw [creator_setContent]
      by_cases hqp : q = p
      · subst hqp
        simp only [Function.update_self, Option.some.injEq, Prod.mk.injEq] at hq
        obtain ⟨rfl, -⟩ := hq
        exact ⟨hi, hc⟩
      · simp only [Function.update_of_ne hqp] at hq
        exact h.fd hq
    · intro q j hj hcj
      have hcj' : (s.file j).creator = some q := by
        rw [← hcj]
        exact (creator_setContent s i j _).symm
      by_cases hqp : q = p
      · subst hqp
        simp
      · simp only [Function.update_of_ne hqp]
        exact h.opened hj hcj'
    · intro x hx
      rcases List.mem_append.mp hx with hx | hx
      · exact h.touched x hx
      · rw [List.mem_singleton.mp hx]
        exact hi
    · intro x hx
      show ((s.setContent i _).file x.2).creator = _
      rw [creator_setContent]
      rcases List.mem_append.mp hx with hx | hx
      · exact hown x hx
      · rw [List.mem_singleton.mp hx]
        exact hc

end Write

/-! ## Unlink -/

section Unlink

variable [DecidableEq ν]

/-- Remove a name, if it is there. -/
def unlink (p : π) (n : ν) (s : FS ν π α) : FS ν π α :=
  match s.dir n with
  | none => s
  | some i => { s.log p i with dir := Function.update s.dir n none }

theorem later_unlink (p : π) (n : ν) (s : FS ν π α) : Later s (s.unlink p n) := by
  unfold unlink
  split
  · exact Later.refl s
  · exact ⟨le_rfl, fun _ _ => rfl, fun x hx => List.mem_append_left _ hx⟩

/-- A process may unlink the name of its own file. -/
theorem Owned.unlink {i pos : ℕ} (h : s.Owned) (hown : s.Own) (hd : s.dir n = some i)
    (hfd : s.fd p = some (i, pos)) : (s.unlink p n).Owned ∧ (s.unlink p n).Own := by
  obtain ⟨hi, hc⟩ := h.fd hfd
  unfold FS.unlink
  rw [hd]
  refine ⟨⟨?_, h.fd, h.opened, ?_⟩, ?_⟩
  · intro m j hm
    by_cases hmn : m = n
    · subst hmn
      simp at hm
    · simp only [Function.update_of_ne hmn] at hm
      exact h.dir hm
  · intro x hx
    rcases List.mem_append.mp hx with hx | hx
    · exact h.touched x hx
    · rw [List.mem_singleton.mp hx]
      exact hi
  · intro x hx
    rcases List.mem_append.mp hx with hx | hx
    · exact hown x hx
    · rw [List.mem_singleton.mp hx]
      exact hc

end Unlink

end FS

end Files

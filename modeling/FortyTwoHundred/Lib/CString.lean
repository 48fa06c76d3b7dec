import Mathlib.Data.List.Basic
import Mathlib.Data.List.TakeWhile

/-!
# CString — string functions in bounded memory

A pointer into a block of memory is given by what lies between it and the end of the block.  A
string ends with `nul`; the functions on strings here are those of C, but fail with `Outside.read`
where they would read past the end of the block, and `store` fails with `Outside.write` where more
is written to a block than its size.

`text nul mem` is the string at a pointer.  Where there is a `nul`, each function gives what its
name says of it.
-/

namespace CString

/-- An access outside a block. -/
inductive Outside
  | read
  | write
  deriving DecidableEq

variable {α : Type*} [DecidableEq α] (nul : α)

/-- The string at a pointer. -/
def text (mem : List α) : List α := mem.takeWhile (· != nul)

def strlen : List α → Except Outside ℕ
  | [] => .error .read
  | b :: mem => if b = nul then .ok 0 else (strlen mem).map (· + 1)

/-- `strchr`, with an offset for the pointer and `none` for the null pointer. -/
def strchr (c : α) : List α → Except Outside (Option ℕ)
  | [] => .error .read
  | b :: mem =>
    if b = c then .ok (some 0) else if b = nul then .ok none
      else (strchr c mem).map (Option.map (· + 1))

/-- `strrchr` looks at the whole string. -/
def strrchr (c : α) : List α → Except Outside (Option ℕ)
  | [] => .error .read
  | b :: mem =>
    if b = nul then .ok none
    else (strrchr c mem).map fun r =>
      match r with
      | some i => some (i + 1)
      | none => if b = c then some 0 else none

/-- The bytes that `strcpy` writes. -/
def strcpy : List α → Except Outside (List α)
  | [] => .error .read
  | b :: mem => if b = nul then .ok [nul] else (strcpy mem).map (b :: ·)

/-- The bytes that `strncpy` writes: always `n`. -/
def strncpy : ℕ → List α → Except Outside (List α)
  | 0, _ => .ok []
  | _ + 1, [] => .error .read
  | n + 1, b :: mem =>
    if b = nul then .ok (List.replicate (n + 1) nul) else (strncpy n mem).map (b :: ·)

/-- Bytes written to a block of this size. -/
def store (size : ℕ) (bs : List α) : Except Outside (List α) := if bs.length ≤ size then .ok bs
    else .error .write

variable {nul} {c b : α} {mem : List α}

@[simp] theorem text_nul (mem : List α) : text nul (nul :: mem) = [] := by simp [text]

theorem text_cons (h : b ≠ nul) : text nul (b :: mem) = b :: text nul mem := by simp [text, h]

/-- What follows the string does not matter. -/
theorem text_append (xs mem : List α) : text nul (xs ++ nul :: mem) = text nul xs := by
  induction xs with
  | nil => simp [text]
  | cons b xs ih =>
    by_cases hb : b = nul
    · rw [hb, List.cons_append, text_nul, text_nul]
    · rw [List.cons_append, text_cons hb, text_cons hb, ih]

/-- A block that holds a `nul` is a string, the `nul`, and what follows. -/
theorem exists_split (h : nul ∈ mem) : ∃ rest, mem = text nul mem ++ nul :: rest := by
  induction mem with
  | nil => cases h
  | cons b mem ih =>
    by_cases hb : b = nul
    · exact ⟨mem, by rw [hb, text_nul, List.nil_append]⟩
    · obtain ⟨rest, hrest⟩ := ih ((List.mem_cons.mp h).resolve_left fun e => hb e.symm)
      refine ⟨rest, ?_⟩
      rw [text_cons hb, List.cons_append, ← hrest]

/-! ## Within the block -/

section Within

variable (h : nul ∈ mem)
include h

/-- Induction over a string in memory. -/
@[elab_as_elim] theorem string_induct {P : List α → Prop} (hnil : ∀ mem, P (nul :: mem))
    (hcons : ∀ b mem, b ≠ nul → nul ∈ mem → P mem → P (b :: mem)) : P mem := by
  induction mem with
  | nil => cases h
  | cons b mem ih =>
    by_cases hb : b = nul
    · exact hb ▸ hnil mem
    · have hm : nul ∈ mem := (List.mem_cons.mp h).resolve_left fun e => hb e.symm
      exact hcons b mem hb hm (ih hm)

theorem strlen_eq : strlen nul mem = .ok (text nul mem).length := by
  refine string_induct h ?_ ?_
  · intro mem
    rw [strlen, if_pos rfl, text_nul, List.length_nil]
  · intro b mem hb _ ih
    rw [strlen, if_neg hb, ih, text_cons hb, List.length_cons]
    rfl

theorem strchr_eq (hc : c ≠ nul) :
    strchr nul c mem = .ok (if c ∈ text nul mem then some ((text nul mem).idxOf c) else none) := by
  refine string_induct h ?_ ?_
  · intro mem
    rw [strchr, if_neg hc.symm, if_pos rfl, text_nul, if_neg List.not_mem_nil]
  · intro b mem hb _ ih
    rw [strchr, text_cons hb]
    by_cases hbc : b = c
    · rw [if_pos hbc, hbc, if_pos List.mem_cons_self, List.idxOf_cons_self]
    · have hmem : c ∈ b :: text nul mem ↔ c ∈ text nul mem := by
        rw [List.mem_cons, or_iff_right fun e => hbc e.symm]
      rw [if_neg hbc, if_neg hb, ih]
      by_cases hm : c ∈ text nul mem
      · rw [if_pos hm, if_pos (hmem.mpr hm), List.idxOf_cons_ne _ hbc]
        rfl
      · rw [if_neg hm, if_neg (mt hmem.mp hm)]
        rfl

theorem strrchr_of_notMem (hc : c ∉ text nul mem) : strrchr nul c mem = .ok none := by
  revert hc
  refine string_induct h ?_ ?_
  · intro mem _
    rw [strrchr, if_pos rfl]
  · intro b mem hb _ ih hc
    rw [text_cons hb] at hc
    have hbc : b ≠ c := fun e => hc (e ▸ List.mem_cons_self)
    rw [strrchr, if_neg hb, ih fun hm => hc (List.mem_cons_of_mem b hm)]
    show Except.ok (if b = c then some 0 else none) = _
    rw [if_neg hbc]

theorem strrchr_of_mem (hc : c ∈ text nul mem) :
    ∃ i, strrchr nul c mem = .ok (some i) ∧ (text nul mem)[i]? = some c := by
  revert hc
  refine string_induct h ?_ ?_
  · intro mem hc
    rw [text_nul] at hc
    cases hc
  · intro b mem hb hmem ih hc
    rw [text_cons hb] at hc ⊢
    rw [strrchr, if_neg hb]
    by_cases hm : c ∈ text nul mem
    · obtain ⟨i, hi, hget⟩ := ih hm
      refine ⟨i + 1, ?_, hget⟩
      rw [hi]
      rfl
    · -- the only occurrence is the first byte
      obtain rfl : c = b := (List.mem_cons.mp hc).resolve_right hm
      refine ⟨0, ?_, rfl⟩
      rw [strrchr_of_notMem hmem hm]
      show Except.ok (if c = c then some 0 else none) = _
      rw [if_pos rfl]

theorem strcpy_eq : strcpy nul mem = .ok (text nul mem ++ [nul]) := by
  refine string_induct h ?_ ?_
  · intro mem
    rw [strcpy, if_pos rfl, text_nul, List.nil_append]
  · intro b mem hb _ ih
    rw [strcpy, if_neg hb, ih, text_cons hb]
    rfl

theorem strncpy_eq (n : ℕ) : ∃ bs, strncpy nul n mem = .ok bs ∧ bs.length = n := by
  induction n generalizing mem with
  | zero => exact ⟨[], rfl, rfl⟩
  | succ n ih =>
    cases mem with
    | nil => cases h
    | cons b mem =>
      rw [strncpy]
      by_cases hb : b = nul
      · exact ⟨List.replicate (n + 1) nul, if_pos hb, List.length_replicate⟩
      · obtain ⟨bs, hbs, hlen⟩ := ih ((List.mem_cons.mp h).resolve_left fun e => hb e.symm)
        refine ⟨b :: bs, ?_, by rw [List.length_cons, hlen]⟩
        rw [if_neg hb, hbs]
        rfl

end Within

/-- Without a `nul`, `strrchr` leaves the block. -/
theorem strrchr_outside (h : nul ∉ mem) : strrchr nul c mem = .error .read := by
  induction mem with
  | nil => rfl
  | cons b mem ih =>
    have hb : b ≠ nul := fun e => h (e ▸ List.mem_cons_self)
    rw [strrchr, if_neg hb, ih fun hm => h (List.mem_cons_of_mem b hm)]
    rfl

end CString

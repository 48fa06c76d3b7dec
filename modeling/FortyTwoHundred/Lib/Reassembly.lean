import Mathlib.Data.List.Infix
import Mathlib.Data.Nat.Find
import Mathlib.Data.Set.Finite.List

/-!
# Reassembly — items that arrive in any order

Items with numbers arrive in any order, with omissions and repetitions; `missing l` is the least
number that has not arrived.  A receiver that holds nothing back passes an item on if its number is
the number of items passed on before, and never comes back to the others.  `log_eq_iff` says when
its log is the items `0, …, missing - 1` after every arrival.
-/

namespace Reassembly

theorem exists_notMem (l : List ℕ) : ∃ k, k ∉ l := by
  obtain ⟨k, -, hk⟩ := Set.infinite_univ.exists_notMem_finset l.toFinset
  exact ⟨k, fun h => hk (List.mem_toFinset.mpr h)⟩

/-- The least number that is not in the list. -/
def missing (l : List ℕ) : ℕ := Nat.find (exists_notMem l)

theorem missing_notMem (l : List ℕ) : missing l ∉ l := Nat.find_spec (exists_notMem l)

theorem mem_of_lt_missing {l : List ℕ} {i : ℕ} (h : i < missing l) : i ∈ l :=
  not_not.mp (Nat.find_min (exists_notMem l) h)

theorem missing_eq {l : List ℕ} {k : ℕ} (hk : k ∉ l) (h : ∀ i < k, i ∈ l) : missing l = k := by
  rcases Nat.lt_trichotomy (missing l) k with hlt | heq | hgt
  · exact absurd (h _ hlt) (missing_notMem l)
  · exact heq
  · exact absurd (mem_of_lt_missing hgt) hk

@[simp] theorem missing_nil : missing [] = 0 := missing_eq (by simp) (by simp)

theorem missing_concat_of_ne {l : List ℕ} {i : ℕ} (h : i ≠ missing l) :
    missing (l ++ [i]) = missing l := by
  refine missing_eq ?_ ?_
  · have := missing_notMem l
    simp [this, Ne.symm h]
  · intro j hj
    exact List.mem_append_left _ (mem_of_lt_missing hj)

theorem missing_concat_self {l : List ℕ} (h : missing l + 1 ∉ l) :
    missing (l ++ [missing l]) = missing l + 1 := by
  refine missing_eq ?_ ?_
  · simp [h]
  · intro j hj
    rcases Nat.lt_succ_iff_lt_or_eq.mp hj with hj | rfl
    · exact List.mem_append_left _ (mem_of_lt_missing hj)
    · simp

/-- A number that is in the list with all numbers below it is before the gap. -/
theorem lt_missing {l : List ℕ} {q : ℕ} (hq : q ∈ l) (h : ∀ i < q, i ∈ l) : q < missing l := by
  by_contra hle
  rcases Nat.lt_or_eq_of_le (Nat.not_lt.mp hle) with hlt | heq
  · exact missing_notMem l (h _ hlt)
  · exact missing_notMem l (heq ▸ hq)

section Log

variable {α β : Type*} (num : α → ℕ) (log : List α → List β) (out : List α → α → β)

/-- **A receiver that holds nothing back** has passed on what has arrived without a gap, in order
and as `W` says, after every arrival, if and only if each item that arrives as the missing one
comes before its successor and goes out as `W` says. -/
theorem log_eq_iff (hnil : log [] = [])
    (hlog : ∀ fs a, log (fs ++ [a]) = if num a = (log fs).length then log fs ++ [out fs a]
      else log fs) (W : ℕ → β)
    (as : List α) :
    (∀ fs, fs <+: as → log fs = (List.range (missing (fs.map num))).map W) ↔
      ∀ fs a gs, as = fs ++ a :: gs → num a = missing (fs.map num) →
        num a + 1 ∉ fs.map num ∧ out fs a = W (num a) := by
  constructor
  · intro h fs a gs has hnum
    have h₁ := h fs ⟨a :: gs, has.symm⟩
    have h₂ := h (fs ++ [a]) ⟨gs, by rw [has]; simp⟩
    have hlen : (log fs).length = num a := by rw [h₁, hnum]; simp
    rw [hlog, if_pos hlen.symm, List.map_append, List.map_singleton] at h₂
    -- both sides have one item more than before
    have hk : missing (fs.map num ++ [num a]) = num a + 1 := by
      have := congrArg List.length h₂
      simp only [List.length_append, List.length_singleton, List.length_map, List.length_range,
        hlen] at this
      exact this.symm
    constructor
    · have := missing_notMem (fs.map num ++ [num a])
      rw [hk] at this
      exact fun hmem => this (List.mem_append_left _ hmem)
    · rw [hk, List.range_succ, List.map_append, List.map_singleton] at h₂
      exact List.singleton_inj.mp (List.append_inj_right' h₂ rfl)
  · intro h fs
    induction fs using List.reverseRecOn with
    | nil => intro _; simp [hnil]
    | append_singleton fs a ih =>
      rintro ⟨gs, has⟩
      have has' : as = fs ++ a :: gs := by rw [← has]; simp
      have ih := ih ⟨a :: gs, has'.symm⟩
      have hlen : (log fs).length = missing (fs.map num) := by rw [ih]; simp
      rw [hlog, hlen, List.map_append, List.map_singleton]
      by_cases hnum : num a = missing (fs.map num)
      · obtain ⟨hsucc, hout⟩ := h fs a gs has' hnum
        rw [if_pos hnum, ih, hout, hnum, missing_concat_self (hnum ▸ hsucc), List.range_succ,
          List.map_append,
          List.map_singleton]
      · rw [if_neg hnum, ih, missing_concat_of_ne hnum]

end Log

end Reassembly

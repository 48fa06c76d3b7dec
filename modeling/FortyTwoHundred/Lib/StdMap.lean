import Mathlib.Logic.Basic

/-!
# StdMap — maps in the manner of the C++ standard library

A map is a function to `Option`.  `insert` leaves a key that is there as it is; a read by
`operator[]` is an `insert` of the default value.
-/

namespace StdMap

variable {α β : Type*} [DecidableEq α]

/-- `m.insert ({k, v})`: nothing happens if the key is there. -/
def insert (m : α → Option β) (k : α) (v : β) : α → Option β :=
  fun x => if x = k then some ((m k).getD v) else m x

/-- `m.erase (k)`. -/
def erase (m : α → Option β) (k : α) : α → Option β := fun x => if x = k then none else m x

/-- The value of a key that may be there is replaced. -/
def put (m : α → Option β) (k : α) (v : β) : α → Option β := fun x => if x = k then some v else m x

variable {m : α → Option β} {k x : α} {v w : β}

@[simp] theorem insert_self : insert m k v k = some ((m k).getD v) := if_pos rfl

@[simp] theorem insert_of_ne (h : x ≠ k) : insert m k v x = m x := if_neg h

theorem insert_of_some (h : m k = some w) : insert m k v = m := by
  funext x
  by_cases hx : x = k
  · rw [hx, insert_self, h]
    rfl
  · exact insert_of_ne hx

theorem insert_eq_some (h : insert m k v x = some w) :
    m x = some w ∨ (x = k ∧ m k = none ∧ w = v) := by
  by_cases hx : x = k
  · subst hx
    rw [insert_self, Option.some.injEq] at h
    cases hm : m x with
    | none => exact Or.inr ⟨rfl, rfl, by rw [← h, hm]; rfl⟩
    | some u => exact Or.inl (by rw [← h, hm]; rfl)
  · exact Or.inl (by rwa [insert_of_ne hx] at h)

@[simp] theorem erase_self : erase m k k = none := if_pos rfl

@[simp] theorem erase_of_ne (h : x ≠ k) : erase m k x = m x := if_neg h

theorem erase_eq_some (h : erase m k x = some w) : x ≠ k ∧ m x = some w := by
  by_cases hx : x = k
  · rw [hx, erase_self] at h
    cases h
  · exact ⟨hx, by rwa [erase_of_ne hx] at h⟩

@[simp] theorem put_self : put m k v k = some v := if_pos rfl

@[simp] theorem put_of_ne (h : x ≠ k) : put m k v x = m x := if_neg h

theorem put_eq_some (h : put m k v x = some w) : (x = k ∧ w = v) ∨ (x ≠ k ∧ m x = some w) := by
  by_cases hx : x = k
  · subst hx
    rw [put_self, Option.some.injEq] at h
    exact Or.inl ⟨rfl, h.symm⟩
  · exact Or.inr ⟨hx, by rwa [put_of_ne hx] at h⟩

/-! ## Values up to a function -/

section Image

variable {γ : Type*} {f : β → γ} {m' : α → Option β}

/-- A value is replaced by one with the same image. -/
theorem map_put (h : ∀ x, (m' x).map f = (m x).map f) (hk : m k = some w) (hf : f v = f w) (x : α) :
    (put m' k v x).map f = (m x).map f := by
  by_cases hx : x = k
  · rw [hx, put_self, hk, Option.map_some, Option.map_some, hf]
  · rw [put_of_ne hx]
    exact h x

omit [DecidableEq α] in
theorem exists_of_map_eq (h : (m' x).map f = (m x).map f) (hx : m x = some w) :
    ∃ v, m' x = some v ∧ f v = f w := by
  rw [hx, Option.map_some] at h
  exact Option.map_eq_some_iff.mp h

omit [DecidableEq α] in
theorem eq_none_of_map_eq (h : (m' x).map f = (m x).map f) (hx : m x = none) : m' x = none := by
  rw [hx, Option.map_none] at h
  exact Option.map_eq_none_iff.mp h

end Image

end StdMap

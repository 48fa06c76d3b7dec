import Mathlib.Data.List.Basic
import FortyTwoHundred.Lib.StdMap

/-!
# Linked — nodes in a heap, linked by pointers

A heap is a map from addresses to nodes; an address without a node is free.  `Linked h p ns` says
that the pointers from `p` on lead to the nodes `ns` and then to the null pointer.  The nodes are
determined by `p` (`Linked.unique`), so no node comes twice.  A node can be freed at the front
(`Linked.free`), and a new one linked to the last (`Linked.snoc`).
-/

namespace Heap

/-- A node; `none` is the null pointer. -/
structure Node (α : Type*) where
  next : Option ℕ
  data : α

variable {α : Type*}

/-- The nodes from `p` on are `ns`, each with its address and its data. -/
def Linked (h : ℕ → Option (Node α)) : Option ℕ → List (ℕ × α) → Prop
  | p, [] => p = none
  | p, n :: ns => p = some n.1 ∧ ∃ next, h n.1 = some ⟨next, n.2⟩ ∧ Linked h next ns

/-- The addresses. -/
abbrev addrs (ns : List (ℕ × α)) : List ℕ := ns.map Prod.fst

namespace Linked

variable {h h' : ℕ → Option (Node α)} {p : Option ℕ} {ns ms : List (ℕ × α)} {a : ℕ} {x : α}

theorem unique (h1 : Linked h p ns) (h2 : Linked h p ms) : ns = ms := by
  induction ns generalizing p ms with
  | nil =>
    cases ms with
    | nil => rfl
    | cons m ms =>
      have hp : some m.1 = none := h2.1.symm.trans h1
      cases hp
  | cons n ns ih =>
    obtain ⟨hp, next, hn, hrest⟩ := h1
    cases ms with
    | nil =>
      have hp' : some n.1 = none := hp.symm.trans h2
      cases hp'
    | cons m ms =>
      obtain ⟨hp', next', hn', hrest'⟩ := h2
      have haddr : n.1 = m.1 := Option.some.inj (hp.symm.trans hp')
      rw [haddr, hn'] at hn
      obtain ⟨rfl, hdata⟩ := Node.mk.inj (Option.some.inj hn)
      rw [ih hrest hrest', Prod.ext haddr hdata.symm]

/-- The nodes from one of them on. -/
theorem suffix (h1 : Linked h p (ns ++ (a, x) :: ms)) : Linked h (some a) ((a, x) :: ms) := by
  induction ns generalizing p with
  | nil =>
    have hp : p = some a := h1.1
    exact hp ▸ h1
  | cons n ns ih =>
    obtain ⟨-, next, -, hrest⟩ := h1
    exact ih hrest

/-- The node at the front does not come again. -/
theorem notMem (h1 : Linked h p ((a, x) :: ns)) : a ∉ addrs ns := by
  intro hmem
  obtain ⟨⟨b, y⟩, hb, rfl⟩ := List.mem_map.mp hmem
  obtain ⟨pre, post, rfl⟩ := List.append_of_mem hb
  have hp : p = some b := h1.1
  rw [hp] at h1
  -- the pointer to `b` leads to two lists of different lengths
  have hsuffix : Linked h (some b) ((b, y) :: post) :=
    suffix (show Linked h (some b) (((b, x) :: pre) ++ (b, y) :: post) from h1)
  have := congrArg List.length (unique h1 hsuffix)
  simp only [List.length_cons, List.length_append] at this
  omega

/-- **Frame rule**: only the nodes themselves matter. -/
theorem congr (h1 : Linked h p ns) (heq : ∀ a ∈ addrs ns, h' a = h a) : Linked h' p ns := by
  induction ns generalizing p with
  | nil => exact h1
  | cons n ns ih =>
    obtain ⟨hp, next, hn, hrest⟩ := h1
    refine ⟨hp, next, ?_, ih hrest fun a ha => heq a (List.mem_cons_of_mem _ ha)⟩
    rw [heq n.1 List.mem_cons_self, hn]

/-- The node at the front is freed. -/
theorem free (h1 : Linked h p ((a, x) :: ns)) :
    ∃ next, h a = some ⟨next, x⟩ ∧ Linked (StdMap.erase h a) next ns := by
  have hnot := notMem h1
  obtain ⟨-, next, hn, hrest⟩ := h1
  refine ⟨next, hn, hrest.congr fun b hb => StdMap.erase_of_ne ?_⟩
  rintro rfl
  exact hnot hb

/-- A node at a free address is linked to the last one. -/
theorem snoc {b : ℕ} {y : α} (h1 : Linked h p (ns ++ [(a, x)])) (hb : h b = none) :
    Linked (StdMap.put (StdMap.put h b ⟨none, y⟩) a ⟨some b, x⟩) p
      (ns ++ [(a, x)] ++ [(b, y)]) := by
  induction ns generalizing p with
  | nil =>
    obtain ⟨hp, next, hn, -⟩ := h1
    have hne : b ≠ a := by
      rintro rfl
      rw [hb] at hn
      cases hn
    refine ⟨hp, some b, StdMap.put_self, rfl, none, ?_, rfl⟩
    rw [StdMap.put_of_ne hne, StdMap.put_self]
  | cons n ns ih =>
    have hlast : n.1 ≠ a := by
      rintro rfl
      exact notMem (x := n.2) h1 (by simp)
    obtain ⟨hp, next, hn, hrest⟩ := h1
    have hne : n.1 ≠ b := by
      rintro rfl
      rw [hb] at hn
      cases hn
    refine ⟨hp, next, ?_, ih hrest⟩
    rw [StdMap.put_of_ne hlast, StdMap.put_of_ne hne, hn]

/-- The last node is a list of one. -/
theorem last (h1 : Linked h p (ns ++ [(a, x)])) : h a = some ⟨none, x⟩ := by
  obtain ⟨-, next, hn, hnext⟩ := suffix h1
  rw [hn, show next = none from hnext]

end Linked

end Heap

import FortyTwoHundred.Lib.Linked
import FortyTwoHundred.Lib.Machine

/-!
# PacketList — the list of packets in memory (`list.h`)

The client's window and the server's children are lists of this kind; the models of both have them
as lists of values.  Here the nodes are in a heap, where `malloc` can return any address that is
free.  `remove_front` frees the node at the front and leaves `tail` as it is, so that `tail` points
to a free node when the list is empty, or to another use of that memory.  The list is still a queue
(`list_refines_queue`): `tail` is only followed when `head` is not null.
-/

namespace FortyTwoHundred.Ftp

open Heap (Node Linked addrs)

/-- `struct List`. -/
structure PacketList where
  head : Option ℕ
  tail : Option ℕ
  /-- an `unsigned int` -/
  size : UInt32

/-- A list and the nodes in memory; `fault` says that a pointer to no node has been followed. -/
structure ListState (α : Type) where
  list : PacketList
  heap : ℕ → Option (Node α)
  fault : Bool

inductive ListEv (α : Type)
  /-- `add_to_list`, and the address that `malloc` returns -/
  | add (data : α) (addr : Option ℕ)
  /-- `remove_front` -/
  | remove

namespace ListState

variable {α : Type}

/-- `init_list`. -/
def initList (s : ListState α) : ListState α := { s with list := ⟨none, none, 0⟩ }

/-- `add_to_list`, where `malloc` returns `addr`; the second component is its value. -/
def addToList (data : α) (addr : Option ℕ) (s : ListState α) : ListState α × ℕ :=
  match addr with
  | none => (s, 1)
  | some n =>
    let heap := StdMap.put s.heap n ⟨none, data⟩
    match s.list.head with
    | none => ({ s with list := ⟨some n, some n, 1⟩, heap := heap }, 0)
    | some _ =>
      match s.list.tail.bind fun t => (heap t).map (Prod.mk t) with
      | none => ({ s with fault := true }, 0)
      | some (t, node) =>
        ({ s with
            list := { s.list with tail := some n, size := s.list.size + 1 }
            heap := StdMap.put heap t { node with next := some n } }, 0)

/-- `remove_front`. -/
def removeFront (s : ListState α) : ListState α :=
  match s.list.head with
  | none => s
  | some f =>
    match s.heap f with
    | none => { s with fault := true }
    | some node =>
      { s with
        list := { s.list with head := node.next, size := s.list.size - 1 }
        heap := StdMap.erase s.heap f }

/-- `malloc` does not return an address that is in use. -/
def possible (s : ListState α) : ListEv α → Bool
  | .add _ (some n) => (s.heap n).isNone
  | _ => true

/-- One call. -/
def step (s : ListState α) (e : ListEv α) : Option (ListState α) :=
  if s.possible e then
    match e with
    | .add data addr => some (s.addToList data addr).1
    | .remove => some s.removeFront
  else none

/-- The same calls on a queue. -/
def onQueue (q : List α) : ListEv α → List α
  | .add _ none => q
  | .add data (some _) => q ++ [data]
  | .remove => q.tail

/-- The list in memory is the queue `q`: the nodes from `head` on hold its items, `size` is its
length as an `unsigned int`, and `tail` is the last node if there is one. -/
structure Represents (s : ListState α) (q : List α) : Prop where
  noFault : s.fault = false
  nodes : ∃ ns, Linked s.heap s.list.head ns ∧ ns.map Prod.snd = q ∧
    (s.list.head ≠ none → s.list.tail = (addrs ns).getLast?)
  size : s.list.size = UInt32.ofNat q.length

/-- The nodes of the list are `ns`, each with its address and its item. -/
structure Nodes (ns : List (ℕ × α)) (s : ListState α) : Prop where
  noFault : s.fault = false
  linked : Linked s.heap s.list.head ns
  tail : s.list.head ≠ none → s.list.tail = (addrs ns).getLast?
  size : s.list.size = UInt32.ofNat ns.length

section Nodes

variable {s : ListState α} {ns : List (ℕ × α)}

theorem represents_iff {q : List α} : s.Represents q ↔ ∃ ns, s.Nodes ns ∧ ns.map Prod.snd = q := by
  constructor
  · rintro ⟨hf, ⟨ns, hlinked, rfl, htail⟩, hsize⟩
    exact ⟨ns, ⟨hf, hlinked, htail, by rw [hsize, List.length_map]⟩, rfl⟩
  · rintro ⟨ns, ⟨hf, hlinked, htail, hsize⟩, rfl⟩
    exact ⟨hf, ⟨ns, hlinked, rfl, htail⟩, by rw [hsize, List.length_map]⟩

theorem Nodes.init (h : s.fault = false) : s.initList.Nodes [] :=
  ⟨h, rfl, fun hne => absurd rfl hne, rfl⟩

/-- A node at a free address comes to the end; the rest of the memory is as before. -/
theorem Nodes.addToList (h : s.Nodes ns) (x : α) {n : ℕ} (hn : s.heap n = none) :
    (s.addToList x (some n)).1.Nodes (ns ++ [(n, x)]) ∧
      ∀ a, a ∉ addrs (ns ++ [(n, x)]) → (s.addToList x (some n)).1.heap a = s.heap a := by
  rcases List.eq_nil_or_concat ns with rfl | ⟨ns, ⟨l, y⟩, rfl⟩
  · have hadd : (s.addToList x (some n)).1 =
        { s with list := ⟨some n, some n, 1⟩, heap := StdMap.put s.heap n ⟨none, x⟩ } := by
      simp only [ListState.addToList, show s.list.head = none from h.linked]
    rw [hadd]
    refine ⟨⟨h.noFault, ⟨rfl, none, StdMap.put_self, rfl⟩, fun _ => rfl, rfl⟩, fun a ha => ?_⟩
    exact StdMap.put_of_ne (by simpa using ha)
  · rw [List.concat_eq_append] at h ⊢
    have hhead : s.list.head ≠ none := by
      intro hnull
      have hlinked := h.linked
      rw [hnull] at hlinked
      simpa using hlinked.unique (show Linked s.heap none [] from rfl)
    have hlast : s.list.tail = some l := by
      rw [h.tail hhead]
      simp
    have hln : l ≠ n := by
      rintro rfl
      rw [h.linked.last] at hn
      cases hn
    have hadd : (s.addToList x (some n)).1 =
        { s with
          list := { s.list with tail := some n, size := s.list.size + 1 }
          heap := StdMap.put (StdMap.put s.heap n ⟨none, x⟩) l ⟨some n, y⟩ } := by
      obtain ⟨f, hf⟩ := Option.ne_none_iff_exists'.mp hhead
      simp only [ListState.addToList, hf, hlast, Option.bind_some, StdMap.put_of_ne hln,
        h.linked.last, Option.map_some]
    rw [hadd]
    refine ⟨⟨h.noFault, h.linked.snoc hn, fun _ => ?_, ?_⟩, fun a ha => ?_⟩
    · rw [addrs, List.map_append, List.map_singleton, List.getLast?_concat]
    · have hlen : (ns ++ [(l, y)] ++ [(n, x)]).length = (ns ++ [(l, y)]).length + 1 :=
        List.length_append
      dsimp only
      rw [h.size, hlen, UInt32.ofNat_add]
      rfl
    · have hne : a ≠ l ∧ a ≠ n := by
        simp only [addrs, List.map_append, List.map_singleton, List.mem_append, List.mem_singleton,
          not_or] at ha
        exact ⟨ha.1.2, ha.2⟩
      exact (StdMap.put_of_ne hne.1).trans (StdMap.put_of_ne hne.2)

/-- The node at the front is freed, and no other memory is touched. -/
theorem Nodes.removeFront {a : ℕ} {x : α} (h : s.Nodes ((a, x) :: ns)) :
    s.removeFront.Nodes ns ∧ s.removeFront.heap = StdMap.erase s.heap a := by
  obtain ⟨next, ha, hrest⟩ := h.linked.free
  have hhead : s.list.head = some a := h.linked.1
  have hfree : s.removeFront =
      { s with list := ⟨next, s.list.tail, s.list.size - 1⟩, heap := StdMap.erase s.heap a } := by
    simp only [ListState.removeFront, hhead, ha]
  rw [hfree]
  refine ⟨⟨h.noFault, hrest, fun hne => ?_, ?_⟩, rfl⟩
  · cases ns with
    | nil => exact absurd hrest hne
    | cons m ns =>
      have hlast := h.tail (by rw [hhead]; exact Option.some_ne_none _)
      rwa [addrs, List.map_cons, List.map_cons, List.getLast?_cons_cons] at hlast
  · dsimp only
    rw [h.size, List.length_cons, UInt32.ofNat_add]
    exact UInt32.add_sub_cancel _ _

/-- An empty list is left as it is. -/
theorem Nodes.removeFront_nil (h : s.Nodes []) : s.removeFront = s := by
  have hhead : s.list.head = none := h.linked
  rw [ListState.removeFront, hhead]

end Nodes

section Calls

variable {s : ListState α} {q : List α}

theorem Represents.removeFront (h : s.Represents q) : s.removeFront.Represents q.tail := by
  obtain ⟨ns, hnodes, rfl⟩ := represents_iff.mp h
  cases ns with
  | nil => exact hnodes.removeFront_nil.symm ▸ h
  | cons n ns => exact represents_iff.mpr ⟨ns, hnodes.removeFront.1, rfl⟩

theorem Represents.addToList (h : s.Represents q) (data : α) {n : ℕ} (hn : s.heap n = none) :
    (s.addToList data (some n)).1.Represents (q ++ [data]) := by
  obtain ⟨ns, hnodes, rfl⟩ := represents_iff.mp h
  exact represents_iff.mpr ⟨ns ++ [(n, data)], (hnodes.addToList data hn).1, by
    rw [List.map_append]; rfl⟩

/-- **One call** does to the list what it does to the queue. -/
theorem Represents.step {e : ListEv α} {t : ListState α} (h : s.Represents q)
    (hs : s.step e = some t) : t.Represents (onQueue q e) := by
  unfold ListState.step at hs
  split_ifs at hs with hposs
  cases e with
  | add data addr =>
    obtain rfl := Option.some.inj hs
    cases addr with
    | none => exact h
    | some n => exact h.addToList data (Option.isNone_iff_eq_none.mp hposs)
  | remove =>
    obtain rfl := Option.some.inj hs
    exact h.removeFront

end Calls

/-- Memory in which nothing is allocated, and a list that has not been set up. -/
def fresh : ListState α := ⟨⟨none, none, 0⟩, fun _ => none, false⟩

theorem represents_initList {s : ListState α} (h : s.fault = false) : s.initList.Represents [] :=
  ⟨h, ⟨[], rfl, rfl, fun hne => absurd rfl hne⟩, rfl⟩

/-- **The list is a queue**: after any calls on a list that `init_list` has set up, in any memory,
no pointer to a free node has been followed, the nodes from `head` on hold the items that have been
added and not removed, in order, `size` is their number modulo `2 ^ 32`, and `tail` is the last
node if `head` is not null. -/
theorem list_refines_queue (s₀ : ListState α) (h₀ : s₀.fault = false) (es : List (ListEv α))
    (s : ListState α) (hrun : Machine.exec step s₀.initList es = some s) :
    s.Represents (es.foldl onQueue []) :=
  Machine.exec_refines (fun _ _ _ _ h hs => h.step hs) (represents_initList h₀) hrun

/-- The second node is at the address of the first one, which has been freed. -/
theorem list_refines_queue_reused : ∃ s, Machine.exec step (fresh : ListState ℕ).initList
    [.add 5 (some 0), .remove, .add 6 (some 0), .add 7 (some 1)] = some s ∧
    s.Represents [6, 7] := by
  refine ⟨_, rfl, ?_⟩
  exact list_refines_queue fresh rfl [.add 5 (some 0), .remove, .add 6 (some 0),
    .add 7 (some 1)] _ rfl

/-! ## More items than an `unsigned int` counts -/

/-- Memory that is free stays free. -/
theorem heap_addToList {s : ListState α} {data : α} {n a : ℕ} (ha : s.heap a = none) (hne : a ≠ n) :
    (s.addToList data (some n)).1.heap a = none := by
  have hput : StdMap.put s.heap n ⟨none, data⟩ a = none := by rw [StdMap.put_of_ne hne, ha]
  rw [ListState.addToList]
  dsimp only
  split
  · exact hput
  · split
    · exact ha
    · next t node hnode =>
      obtain ⟨t', -, ht⟩ := Option.bind_eq_some_iff.mp hnode
      obtain ⟨node', hlive, heq⟩ := Option.map_eq_some_iff.mp ht
      obtain ⟨rfl, rfl⟩ := Prod.mk.inj heq
      -- the node that is changed is not free
      have : a ≠ t' := by
        rintro rfl
        rw [hput] at hlive
        cases hlive
      show StdMap.put _ t' _ a = none
      rw [StdMap.put_of_ne this, hput]

/-- `k` items at the addresses `0, …, k - 1`. -/
def adds (k : ℕ) : List (ListEv Unit) := (List.range k).map fun i => .add () (some i)

theorem exec_adds (k : ℕ) : ∃ s, Machine.exec step fresh.initList (adds k) = some s ∧ ∀ a, k ≤ a →
    s.heap a = none := by
  induction k with
  | zero => exact ⟨fresh.initList, rfl, fun _ _ => rfl⟩
  | succ k ih =>
    obtain ⟨s, hs, hfree⟩ := ih
    have hstep : s.step (.add () (some k)) = some (s.addToList () (some k)).1 := by
      have hposs : s.possible (.add () (some k)) = true := by
        show (s.heap k).isNone = true
        rw [hfree k (Nat.le_refl k)]
        rfl
      rw [step, if_pos hposs]
    refine ⟨(s.addToList () (some k)).1, ?_, fun a ha => heap_addToList (hfree a (by omega))
      (by omega)⟩
    rw [adds, List.range_succ, List.map_append]
    exact Machine.exec_append.mpr ⟨s, hs, Machine.exec_cons_some.mpr ⟨_, hstep, rfl⟩⟩

theorem length_foldl_adds (k : ℕ) : ((adds k).foldl onQueue []).length = k := by
  induction k with
  | zero => rfl
  | succ k ih =>
    rw [adds, List.range_succ, List.map_append, List.foldl_append]
    show (onQueue ((adds k).foldl onQueue []) (.add () (some k))).length = k + 1
    rw [onQueue, List.length_append, ih]
    rfl

/-- After `2 ^ 32` items, `size` is `0`. -/
theorem size_wraps : ∃ s, Machine.exec step fresh.initList (adds 4294967296) = some s ∧
    ((adds 4294967296).foldl onQueue []).length = 4294967296 ∧ s.list.size.toNat = 0 := by
  obtain ⟨s, hs, -⟩ := exec_adds 4294967296
  have hrep := Machine.exec_refines (fun _ _ _ _ h hs => h.step hs) (represents_initList rfl) hs
  refine ⟨s, hs, length_foldl_adds _, ?_⟩
  rw [hrep.size, length_foldl_adds]
  rfl

end ListState

end FortyTwoHundred.Ftp

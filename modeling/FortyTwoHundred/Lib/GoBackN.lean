import Mathlib.Order.Nat
import FortyTwoHundred.Lib.SeqNum

/-!
# GoBackN — indices of a go-back-N transfer over lossy queues

The sender has created items `0, …, n - 1`, released the first `f` of them and keeps the others, at
most `w`, in its window; it sends the whole window again and again.  The receiver has accepted
items `0, …, e - 1` and answers every item with the index of the next one it expects.  `Inv w f e n
ds as` describes such a state with the items `ds` and the answers `as` on their way, oldest first,
in two queues that may lose what they hold but keep the order.

`receive` is what a queue that loses nothing does to the receiver: a window delivered whole is
accepted whole.

On the wire the indices are 16-bit numbers.  What is on its way stays so close to `e` and `f` that
the numbers tell the indices (`Inv.item_eq`, `Inv.takeWhile_window`).
-/

namespace GoBackN

structure Inv (w f e n : ℕ) (ds as : List ℕ) : Prop where
  released : f ≤ e
  accepted : e ≤ n
  window : n ≤ f + w
  created : ∀ i ∈ ds, i < n
  -- an item on its way is at most a window behind the receiver, and behind every item sent before
  -- it
  recent : ∀ i ∈ ds, e ≤ i + w
  order : ds.Pairwise fun j i => j < i + w
  answers : ∀ a ∈ as, f ≤ a ∧ a ≤ e
  sorted : as.Pairwise (· ≤ ·)

variable {w f e n : ℕ} {ds as : List ℕ}

theorem Inv.init (w : ℕ) {as : List ℕ} (has : ∀ a ∈ as, a = 0) : Inv w 0 0 0 [] as := by
  refine ⟨le_rfl, le_rfl, Nat.zero_le _, by simp, by simp, List.Pairwise.nil, ?_, ?_⟩
  · intro a ha
    rw [has a ha]
    exact ⟨le_rfl, le_rfl⟩
  · refine List.pairwise_of_forall_mem_list ?_
    intro a ha b hb
    rw [has a ha, has b hb]

/-- The queues lose something. -/
theorem Inv.lose (h : Inv w f e n ds as) {ds' as' : List ℕ} (hd : ds'.Sublist ds)
    (ha : as'.Sublist as) : Inv w f e n ds' as' :=
  ⟨h.released, h.accepted, h.window, fun i hi => h.created i (hd.subset hi),
    fun i hi => h.recent i (hd.subset hi),
    h.order.sublist hd, fun a hm => h.answers a (ha.subset hm), h.sorted.sublist ha⟩

/-- The sender fills its window and sends it. -/
theorem Inv.send (h : Inv w f e n ds as) {n' : ℕ} (hn : n ≤ n') (hw : n' ≤ f + w) :
    Inv w f e n' (ds ++ List.range' f (n' - f)) as := by
  have h1 := h.released
  have h2 := h.accepted
  have h3 := h.window
  have hwin : ∀ i ∈ List.range' f (n' - f), f ≤ i ∧ i < n' := by
    intro i hi
    have := List.mem_range'_1.mp hi
    omega
  refine ⟨h1, by omega, hw, ?_, ?_, ?_, h.answers, h.sorted⟩
  · intro i hi
    rcases List.mem_append.mp hi with hi | hi
    · exact (h.created i hi).trans_le hn
    · exact (hwin i hi).2
  · intro i hi
    rcases List.mem_append.mp hi with hi | hi
    · exact h.recent i hi
    · have := hwin i hi
      omega
  · refine List.pairwise_append.mpr ⟨h.order, ?_, ?_⟩
    · refine List.pairwise_of_forall_mem_list ?_
      intro j hj i hi
      have := hwin j hj
      have := hwin i hi
      omega
    · -- an older item was created before, so it is less than a window ahead of the new ones
      intro j hj i hi
      have := h.created j hj
      have := hwin i hi
      omega

/-- **The number of an item tells its index**: an item with the expected number is the expected
one. -/
theorem Inv.item_eq (h : Inv w f e n ds as) (hw : w < 65536) {i : ℕ} (hi : i ∈ ds)
    (heq : UInt16.ofNat (i + 1) = UInt16.ofNat (e + 1)) : i = e := by
  have h1 := h.created i hi
  have h2 := h.recent i hi
  have h3 := h.window
  have h4 := h.released
  have := SeqNum.ofNat_inj_of_close (by omega) (by omega) heq
  omega

/-- The receiver takes the expected item. -/
theorem Inv.advance (h : Inv w f e n (e :: ds) as) : Inv w f (e + 1) n ds as := by
  have h1 := h.released
  have h2 := h.created e (by simp)
  obtain ⟨hhead, horder⟩ := List.pairwise_cons.mp h.order
  refine ⟨by omega, by omega, h.window, fun i hi => h.created i (by simp [hi]), ?_, horder,
    ?_, h.sorted⟩
  · -- what is behind the accepted item in the queue is less than a window behind it
    intro i hi
    have := hhead i hi
    omega
  · intro a ha
    have := h.answers a ha
    omega

/-- The receiver says what it expects. -/
theorem Inv.answer (h : Inv w f e n ds as) : Inv w f e n ds (as ++ [e]) := by
  refine ⟨h.released, h.accepted, h.window, h.created, h.recent, h.order, ?_, ?_⟩
  · intro a ha
    rcases List.mem_append.mp ha with ha | ha
    · exact h.answers a ha
    · rw [List.mem_singleton.mp ha]
      exact ⟨h.released, le_rfl⟩
  · refine List.pairwise_append.mpr ⟨h.sorted, List.pairwise_singleton _ _, ?_⟩
    intro a ha b hb
    rw [List.mem_singleton.mp hb]
    exact (h.answers a ha).2

/-- The receiver accepts the expected item. -/
theorem Inv.accept (h : Inv w f e n (e :: ds) as) : Inv w f (e + 1) n ds (as ++ [e + 1]) :=
    h.advance.answer

/-- **The number of an answer tells its index**: the items before the answered number are the items
below it. -/
theorem Inv.takeWhile_window (h : Inv w f e n ds as) (hw : w < 65536) {a : ℕ} (ha : a ∈ as) :
    (List.range' f (n - f)).takeWhile (fun i => UInt16.ofNat (i + 1) != UInt16.ofNat (a + 1)) =
      List.range' f (a - f) := by
  obtain ⟨h1, h2⟩ := h.answers a ha
  have h3 := h.accepted
  have h4 := h.window
  have hsplit : List.range' f (n - f) = List.range' f (a - f) ++ List.range' a (n - a) := by
    have e1 : f + (a - f) = a := by omega
    have e2 : a - f + (n - a) = n - f := by omega
    have := List.range'_append_1 (s := f) (m := a - f) (n := n - a)
    rw [e1, e2] at this
    exact this.symm
  have hne : ∀ i ∈ List.range' f (a - f), (UInt16.ofNat (i + 1) != UInt16.ofNat (a + 1)) =
      true := by
    intro i hi
    have hi := List.mem_range'_1.mp hi
    rw [bne_iff_ne]
    intro heq
    have := SeqNum.ofNat_inj_of_close (by omega) (by omega) heq
    omega
  rw [hsplit, List.takeWhile_append_of_pos hne]
  -- the item with the answered number, if it is in the window, ends the search
  obtain hz | ⟨k, hk⟩ : n - a = 0 ∨ ∃ k, n - a = k + 1 := by
    cases n - a with
    | zero => exact Or.inl rfl
    | succ k => exact Or.inr ⟨k, rfl⟩
  · rw [hz]
    simp
  · rw [hk, List.range'_succ, List.takeWhile_cons, bne_self_eq_false]
    simp

/-- The sender releases what an answer says. -/
theorem Inv.release {a : ℕ} (h : Inv w f e n ds (a :: as)) : Inv w a e n ds as := by
  obtain ⟨h1, h2⟩ := h.answers a (by simp)
  obtain ⟨hhead, hsorted⟩ := List.pairwise_cons.mp h.sorted
  have h3 := h.window
  exact ⟨h2, h.accepted, by omega, h.created, h.recent, h.order,
    fun b hb => ⟨hhead b hb, (h.answers b (by simp [hb])).2⟩, hsorted⟩

/-! ## A queue delivered whole -/

/-- The index the receiver expects after the items `is`. -/
def receive (e : ℕ) (is : List ℕ) : ℕ := is.foldl (fun e i => if i = e then e + 1 else e) e

theorem receive_cons (e i : ℕ) (is : List ℕ) :
    receive e (i :: is) = receive (if i = e then e + 1 else e) is := rfl

theorem le_receive (e : ℕ) (is : List ℕ) : e ≤ receive e is := by
  induction is generalizing e with
  | nil => exact le_rfl
  | cons i is ih =>
    rw [receive_cons]
    refine le_trans ?_ (ih _)
    split_ifs <;> omega

theorem receive_le {is : List ℕ} (hn : ∀ i ∈ is, i < n) (he : e ≤ n) : receive e is ≤ n := by
  induction is generalizing e with
  | nil => exact he
  | cons i is ih =>
    rw [receive_cons]
    have hi := hn i (by simp)
    refine ih (fun j hj => hn j (by simp [hj])) ?_
    split_ifs <;> omega

theorem le_receive_range' {k : ℕ} (hf : f ≤ e) : f + k ≤ receive e (List.range' f k) := by
  induction k generalizing f e with
  | zero => exact hf
  | succ k ih =>
    rw [List.range'_succ, receive_cons]
    have h1 := ih (f := f + 1) (e := if f = e then e + 1 else e) (by split_ifs <;> omega)
    omega

/-- **A window delivered whole** is accepted whole, whatever was on its way before it. -/
theorem Inv.receive_window (h : Inv w f e n (ds ++ List.range' f (n - f)) as) :
    receive e (ds ++ List.range' f (n - f)) = n := by
  have h1 := h.released.trans (le_receive e ds)
  have hle : receive e (ds ++ List.range' f (n - f)) ≤ n := receive_le h.created h.accepted
  have hge : f + (n - f) ≤ receive e (ds ++ List.range' f (n - f)) := by
    rw [receive, List.foldl_append]
    exact le_receive_range' h1
  omega

end GoBackN

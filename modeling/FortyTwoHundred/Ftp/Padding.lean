import FortyTwoHundred.Lib.Padding
import FortyTwoHundred.Ftp.Window

/-!
# Padding — empty `DATA` packets

The fill loop makes a packet of whatever `fread` returns, also of nothing.  After the end of the
file this pads the window, and `padding_lt_window` says that there are fewer than `WINDOW_SIZE`
such packets in a run, as long as `fread` does not return nothing before `st_size` bytes have been
read.  A file that does not change is read so (`inTime_of_window`).  A file that has been cut short
since its size was taken, or a directory, is not: the packets are acknowledged, `written` stays
where it is, and the window is filled with empty packets again.
-/

namespace FortyTwoHundred.Ftp

open Padding (Late)

/-- The payload lengths of packets. -/
def payloadLens (ps : List Bytes) : List ℕ := ps.map fun p => (getLen p).toNat

namespace Client

variable {φ : Type} {fread : φ → ℕ → Bytes × φ}

/-- The payload lengths of all packets created, in order. -/
def lens (c : Client φ) : List ℕ := payloadLens (c.removed ++ c.packets)

/-- Number of empty packets created. -/
def empties (c : Client φ) : ℕ := c.lens.count 0

/-- In `k` turns of the fill loop, `fread` returns nothing only after `st_size` bytes. -/
def FillsInTime (fread : φ → ℕ → Bytes × φ) : ℕ → Client φ → Prop
  | 0, _ => True
  | k + 1, c =>
    c.packets.length < windowSize ∧ c.written < c.size →
      ((fread c.file c.remaining).1 = [] → c.size ≤ c.lens.sum) ∧
      FillsInTime fread k (addPacket fread c)

/-- A step in which `fread` returns nothing only after `st_size` bytes. -/
def InTime (fread : φ → ℕ → Bytes × φ) (c : Client φ) : ClientIn → Prop
  | .send _ _ => c.pc = .pass → FillsInTime fread windowSize c
  | .recv _ _ _ => True

/-- The packets of a client whose file is not cut short. -/
structure PaddingInv (size : ℕ) (c : Client φ) : Prop where
  size_eq : c.size = size
  written : c.written = (payloadLens c.removed).sum
  window : c.packets.length ≤ windowSize
  late : Late size c.lens
  few : c.empties < windowSize

/-- The number of bytes to ask for is not negative. -/
def ReadRange (c : Client φ) : Prop := c.written < c.size → -1 ≤ c.read ∧ c.read ≤ c.size

section Steps

variable {size : ℕ} {c : Client φ}

theorem remaining_le (h : c.read ≤ c.size) :
    c.remaining ≤ payloadSize ∧ c.read + c.remaining ≤ c.size := by
  have hp : payloadSize = 2043 := rfl
  rw [remaining]
  split_ifs with hlt
  · have hconv : (toSizeT (c.size - c.read) : ℤ) = c.size - c.read := by
      rw [toSizeT, Int.emod_eq_of_lt (by omega) (by omega), Int.toNat_of_nonneg (by omega)]
    omega
  · omega

theorem lens_addPacket (h : (fread c.file c.remaining).1.length ≤ payloadSize) :
    (addPacket fread c).lens = c.lens ++ [(fread c.file c.remaining).1.length] := by
  have hp : payloadSize = 2043 := rfl
  have hlen : (UInt16.ofNat (fread c.file c.remaining).1.length).toNat =
      (fread c.file c.remaining).1.length := by
    rw [UInt16.toNat_ofNat']
    apply Nat.mod_eq_of_lt
    omega
  show payloadLens (c.removed ++ (c.packets ++ [_])) = payloadLens (c.removed ++ c.packets) ++ _
  rw [payloadLens, payloadLens, ← List.append_assoc, List.map_append, List.map_singleton,
    getLen_createPacket, hlen]

/-- One turn of the fill loop. -/
theorem PaddingInv.addPacket (h : PaddingInv size c) (hr : ReadRange c)
    (hfread : ∀ f n, (fread f n).1.length ≤ n) (hw : c.packets.length < windowSize)
    (hs : c.written < c.size) (hin : (fread c.file c.remaining).1 = [] → c.size ≤ c.lens.sum) :
    PaddingInv size (addPacket fread c) ∧ ReadRange (addPacket fread c) := by
  obtain ⟨hr1, hr2⟩ := hr hs
  obtain ⟨hmax, hsum⟩ := remaining_le hr2
  have hlen := hfread c.file c.remaining
  have hlens : (Client.addPacket fread c).lens = c.lens ++ [(fread c.file c.remaining).1.length] :=
    lens_addPacket (hlen.trans hmax)
  have hempty : (fread c.file c.remaining).1.length = 0 → size ≤ c.lens.sum := by
    intro h0
    have := hin (List.length_eq_zero_iff.mp h0)
    rw [h.size_eq] at this
    exact_mod_cast this
  refine ⟨⟨h.size_eq, h.written, ?_, ?_, ?_⟩, fun _ => ?_⟩
  · show (c.packets ++ [_]).length ≤ windowSize
    rw [List.length_append, List.length_singleton]
    omega
  · rw [hlens]
    exact h.late.concat hempty
  · rw [empties, hlens, List.count_append]
    by_cases h0 : (fread c.file c.remaining).1.length = 0
    · -- a packet with data is still in the list
      have hwritten : (payloadLens c.removed).sum < size := by
        have := h.written
        have := h.size_eq
        omega
      have hsplit : c.lens = payloadLens c.removed ++ payloadLens c.packets := List.map_append
      have hlate := h.late
      have hge := hempty h0
      rw [hsplit] at hlate hge ⊢
      have hlt := hlate.count_lt hwritten hge
      have hpl : (payloadLens c.packets).length = c.packets.length := List.length_map _
      rw [h0, List.count_singleton_self]
      omega
    · rw [List.count_singleton, if_neg (by simpa using h0)]
      exact h.few
  · show -1 ≤ c.read + ((fread c.file c.remaining).1.length : ℤ) ∧
      c.read + ((fread c.file c.remaining).1.length : ℤ) ≤ c.size
    omega

theorem PaddingInv.fill (h : PaddingInv size c) (hr : ReadRange c)
    (hfread : ∀ f n, (fread f n).1.length ≤ n) (hin : FillsInTime fread windowSize c) :
    PaddingInv size (fill fread c) := by
  have key : ∀ (k : ℕ) (c : Client φ), PaddingInv size c → ReadRange c → FillsInTime fread k c →
      PaddingInv size (fillLoop fread k c) := by
    intro k
    induction k with
    | zero => intro c h _ _; exact h
    | succ k ih =>
      intro c h hr hin
      rw [fillLoop]
      split_ifs with hcond
      · obtain ⟨hnow, hrest⟩ := hin hcond
        obtain ⟨h', hr'⟩ := h.addPacket hr hfread hcond.1 hcond.2 hnow
        exact ih _ h' hr' hrest
      · exact h
  exact key windowSize c h hr hin

theorem PaddingInv.removeFront (h : PaddingInv size c) {p : Bytes} {ps : List Bytes}
    (hps : c.packets = p :: ps) (now : ℤ) : PaddingInv size (c.removeFront now p ps) := by
  have hlens : (c.removeFront now p ps).lens = c.lens := by
    show payloadLens ((c.removed ++ [p]) ++ ps) = payloadLens (c.removed ++ c.packets)
    rw [hps, List.append_assoc, List.singleton_append]
  refine ⟨h.size_eq, ?_, ?_, hlens ▸ h.late, ?_⟩
  · show c.written + (getLen p).toNat = ((payloadLens (c.removed ++ [p])).sum : ℤ)
    rw [h.written, payloadLens, payloadLens, List.map_append, List.sum_append]
    simp
  · have := h.window
    rw [hps, List.length_cons] at this
    show ps.length ≤ windowSize
    omega
  · rw [empties, hlens]
    exact h.few

theorem PaddingInv.release (h : PaddingInv size c) (acked : UInt16) (now : ℤ) :
    PaddingInv size (release acked now c) :=
  release_induct (I := PaddingInv size) (fun _ _ _ hd hps _ => hd.removeFront hps now) h

/-- Variables that are not read here may change. -/
theorem PaddingInv.move {d : Client φ} (h : PaddingInv size c) (hs : d.size = c.size)
    (hw : d.written = c.written) (hp : d.packets = c.packets) (hr : d.removed = c.removed) :
    PaddingInv size d := by
  have hlens : d.lens = c.lens := by rw [lens, lens, hp, hr]
  exact ⟨hs.trans h.size_eq, by rw [hw, hr, h.written], hp ▸ h.window,
    hlens ▸ h.late, by rw [empties, hlens]; exact h.few⟩

theorem PaddingInv.loopTop (h : PaddingInv size c) (now : ℤ) : PaddingInv size (loopTop now c) := by
  rw [Client.loopTop]
  split_ifs <;> exact h.move rfl rfl rfl rfl

theorem ReadRange.loopTop (h : ReadRange c) (now : ℤ) : ReadRange (loopTop now c) := by
  rw [Client.loopTop]
  split_ifs <;> exact h

/-- Before the fill loop, the number of bytes to ask for is in range. -/
def Ready (c : Client φ) : Prop := c.pc = .pass ∨ c.pc = .reqSend ∨ c.pc = .reqRecv → ReadRange c

theorem ready_of_pc (h : c.pc = .drain ∨ c.pc = .finTop ∨ c.pc = .finRecv ∨ ∃ e, c.pc = .done e) :
    Ready c := by
  rintro (hp | hp | hp) <;> simp [hp] at h

theorem ready_finish (e : Ending) :
    Ready (c.finish e) := ready_of_pc (Or.inr (Or.inr (Or.inr ⟨e, rfl⟩)))

theorem PaddingInv.recvReply (h : PaddingInv size c) (hr : ReadRange c) (r : Recv) (now : ℤ) :
    PaddingInv size (recvReply r now c) ∧ Ready (recvReply r now c) := by
  have htop : ∀ d : Client φ, PaddingInv size d → ReadRange d →
      PaddingInv size (Client.loopTop now d) ∧
      Ready (Client.loopTop now d) := fun d hd hrd => ⟨hd.loopTop now, fun _ => hrd.loopTop now⟩
  rw [Client.recvReply]
  dsimp only
  split_ifs
  · exact ⟨h.move rfl rfl rfl rfl, fun _ => hr⟩
  · exact ⟨h.move rfl rfl rfl rfl, ready_finish _⟩
  · rw [reply]
    split_ifs
    · exact htop _ (h.move rfl rfl rfl rfl) hr
    · exact ⟨h.move rfl rfl rfl rfl, ready_finish _⟩
    · exact ⟨h.move rfl rfl rfl rfl, ready_finish _⟩
    · exact htop _ (h.move rfl rfl rfl rfl) hr

theorem PaddingInv.handle (h : PaddingInv size c) (hpc : c.pc = .drain) (temp : Bytes)
    (r : Recv) (now : ℤ) : PaddingInv size (handle ⟨r.ret, r.again, overlay r.stored temp⟩ now c) ∧
      Ready (handle ⟨r.ret, r.again, overlay r.stored temp⟩ now c) := by
  have hmoved : PaddingInv size { c with read := r.ret, buffer := overlay r.stored temp } :=
    h.move rfl rfl rfl rfl
  rw [Client.handle]
  dsimp only
  split_ifs with hfail hack hfin hlt
  · -- nothing to receive: `read` is `-1` at the start of the next pass
    refine ⟨hmoved.loopTop now, fun _ => ReadRange.loopTop ?_ now⟩
    have hret : r.ret = -1 := by
      cases r with
      | got src d =>
        have : (Recv.got src d).ret = ((d.take packetSize).length : ℤ) := rfl
        omega
      | fail e => rfl
    have hsize := h.size_eq
    show c.written < c.size → -1 ≤ r.ret ∧ r.ret ≤ c.size
    omega
  · refine ⟨hmoved.release _ now, ready_of_pc (Or.inl ?_)⟩
    rw [(release_frame _ _ _).1]
    exact hpc
  · exact ⟨h.move rfl rfl rfl rfl, ready_finish _⟩
  · refine ⟨hmoved.loopTop now, fun _ => ReadRange.loopTop ?_ now⟩
    intro hs
    exact absurd hs hlt
  · exact ⟨h.move rfl rfl rfl rfl, ready_of_pc (Or.inl hpc)⟩

/-- **One step** that is not cut short. -/
theorem PaddingInv.step (h : PaddingInv size c) (hr : Ready c)
    (hfread : ∀ f n, (fread f n).1.length ≤ n) {wanted : Addr}
    {i : ClientIn} {d : Client φ} (hin : InTime fread c i) (hs : next fread wanted c i = some d) :
    PaddingInv size d ∧ Ready d := by
  obtain ⟨⟨d, out⟩, hstep, rfl⟩ := Option.map_eq_some_iff.mp hs
  cases trans_of_step hstep with
  | request hpc _ => exact ⟨h.move rfl rfl rfl rfl, fun _ => hr (Or.inr (Or.inl hpc))⟩
  | noRequest hpc => exact ⟨h.move rfl rfl rfl rfl, ready_finish _⟩
  | reply hpc => exact h.recvReply (hr (Or.inr (Or.inr hpc))) _ _
  | pass hpc =>
    have hfill := h.fill (hr (Or.inl hpc)) hfread (hin hpc)
    dsimp only
    rw [passStep]
    split_ifs
    · exact ⟨hfill.move rfl rfl rfl rfl, ready_finish _⟩
    · exact ⟨hfill.move rfl rfl rfl rfl, ready_finish _⟩
    · exact ⟨hfill.move rfl rfl rfl rfl, ready_of_pc (Or.inl rfl)⟩
  | drain hpc => exact h.handle hpc _ _ _
  | fin hpc ht => exact ⟨h.move rfl rfl rfl rfl, ready_of_pc (Or.inr (Or.inr (Or.inl rfl)))⟩
  | finTimeout hpc ht => exact ⟨h.move rfl rfl rfl rfl, ready_finish _⟩
  | finRecv hpc =>
    dsimp only
    rw [handleFin]
    dsimp only
    split_ifs
    · exact ⟨h.move rfl rfl rfl rfl, ready_of_pc (Or.inr (Or.inr (Or.inl hpc)))⟩
    · exact ⟨h.move rfl rfl rfl rfl, ready_finish _⟩
    · exact ⟨h.move rfl rfl rfl rfl, ready_of_pc (Or.inr (Or.inl rfl))⟩

end Steps

theorem PaddingInv.init (file : φ) (size : ℕ) (name : Bytes) (now : ℤ) :
    PaddingInv size (Client.init file size name now) ∧ Ready (Client.init file size name now) := by
  refine ⟨⟨rfl, rfl, Nat.zero_le _, Padding.late_nil size, ?_⟩, fun _ hs => ?_⟩
  · show 0 < windowSize
    decide
  · show (-1 : ℤ) ≤ 0 ∧ (0 : ℤ) ≤ size
    omega

/-- **Bounded padding**: a client that gets nothing from `fread` only after `st_size` bytes creates
fewer than `WINDOW_SIZE` empty packets, whatever it receives. -/
theorem padding_lt_window (fread : φ → ℕ → Bytes × φ) (hfread : ∀ f n, (fread f n).1.length ≤ n)
    (wanted : Addr) (file : φ) (size : ℕ) (name : Bytes) (now : ℤ) (is : List ClientIn)
    (c : Client φ) (hok : Machine.Meets (next fread wanted) (InTime fread)
      (Client.init file size name now) is)
    (h : Machine.exec (next fread wanted) (Client.init file size name now) is = some c) :
    c.empties < windowSize :=
  (Machine.exec_invariant_of_meets (I := fun d => PaddingInv size d ∧ Ready d)
    (fun _ _ _ hd hin hs => hd.1.step hd.2 hfread hin hs)
    (PaddingInv.init file size name now) hok h).1.few

/-- Bytes read from a file that does not change. -/
theorem WindowInv.sum_lens {content : Bytes} {c : Client Bytes} (h : WindowInv content c) :
    c.lens.sum = min (payloadSize * c.created) content.length := by
  have key : ∀ n, (payloadLens ((List.range n).map (dataPacket content))).sum =
      min (payloadSize * n) content.length := by
    intro n
    induction n with
    | zero => simp [payloadLens]
    | succ n ih =>
      rw [← min_add_getLen, ← ih, List.range_succ, List.map_append, payloadLens, payloadLens,
        List.map_append,
        List.sum_append]
      rfl
  rw [lens, h.packets, key]

/-- A file that does not change gives `st_size` bytes before it gives nothing. -/
theorem inTime_of_window {content : Bytes} {c : Client Bytes} (h : WindowInv content c)
    (i : ClientIn) : InTime readFile c i := by
  have key : ∀ (k : ℕ) (c : Client Bytes), WindowInv content c → c.pc = .pass →
      c.read ≤ (min (payloadSize * c.created) content.length : ℕ) → FillsInTime readFile k c := by
    intro k
    induction k with
    | zero => intro c _ _ _; exact trivial
    | succ k ih =>
      intro c h hpc hr hcond
      have hnl : ¬ c.left := by simp [Client.left, hpc]
      obtain ⟨h', hr'⟩ := h.addPacket hr hnl hcond.1 hcond.2
      refine ⟨fun hempty => ?_, ih _ h' hpc hr'⟩
      rw [h.take_remaining hr] at hempty
      have hlen := congrArg List.length hempty
      have hp : payloadSize = 2043 := rfl
      rw [Chunk.length_chunk, List.length_nil] at hlen
      rw [h.sum_lens, h.size]
      omega
  cases i with
  | send sendto now => exact fun hpc => key windowSize c h hpc (h.read (Or.inl hpc))
  | recv temp r now => exact trivial

/-- So all runs with such a file meet the condition. -/
theorem meets_inTime (content name : Bytes) (wanted : Addr) (now : ℤ) (is : List ClientIn) :
    Machine.Meets (next readFile wanted) (InTime readFile)
    (Client.init content content.length name now) is := by
  refine Machine.meets_of_invariant (I := WindowInv content) ?_ (fun _ i h => inTime_of_window h i)
    (WindowInv.init content name now) is
  intro c i d hc hs
  obtain ⟨⟨d', out⟩, h1, rfl⟩ := Option.map_eq_some_iff.mp hs
  exact hc.step h1

/-- A file of one byte. -/
theorem padding_lt_window_one : ∃ c, Machine.exec (next readFile ⟨[]⟩) (Client.init [42] 1 [97] 0)
    [.send (fun _ => true) 0, .recv [] (.got ⟨[]⟩ (createPacket cmdAck 1 0 [])) 0,
      .send (fun _ => true) 0] = some c ∧
      c.created = 50 ∧ c.empties < windowSize := by
  obtain ⟨c, hc, hn⟩ : ∃ c, Machine.exec (next readFile ⟨[]⟩) (Client.init [42] 1 [97] 0)
      [.send (fun _ => true) 0, .recv [] (.got ⟨[]⟩ (createPacket cmdAck 1 0 [])) 0,
      .send (fun _ => true) 0] = some c ∧
        c.created = 50 := ⟨_, rfl, rfl⟩
  exact ⟨c, hc, hn, padding_lt_window readFile (fun f n => List.length_take_le n f) ⟨[]⟩
    [42] 1 [97] 0 _ c
    (meets_inTime [42] [97] ⟨[]⟩ 0 _) hc⟩

/-- `fread` returns nothing at all: a directory, or a file of one byte that has been cut to none.
The first fifty empty packets are acknowledged, and fifty more are created. -/
theorem padding_without_end : ∃ c, Machine.exec (next (fun _ _ => ([], ())) ⟨[]⟩)
    (Client.init () 1 [97] 0)
    [.send (fun _ => true) 0, .recv [] (.got ⟨[]⟩ (createPacket cmdAck 1 0 [])) 0,
      .send (fun _ => true) 0,
      .recv [] (.got ⟨[]⟩ (createPacket cmdAck 51 0 [])) 0, .recv [] (.fail .again) 0,
      .send (fun _ => true) 0] = some c ∧
      c.empties = 100 ∧ c.written = 0 ∧ c.pc = .drain :=
  ⟨_, rfl, rfl, rfl, rfl⟩

end Client

end FortyTwoHundred.Ftp

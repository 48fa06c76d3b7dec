import FortyTwoHundred.Srtp.Sockets
import Mathlib.Data.Finset.Card

/-!
# FifoNames — the names `_srtp_socket` makes up for its fifos

The loop of `_srtp_socket` counts a static `fifo_id` up and tries `mkfifo` with the name of each
value, until one is not in the directory.  A name is `tmpfifo` and the value with at least five
digits: it determines the value, since the zeros in front do not change the number that is read
back.  So a directory with `n` names stops the loop at most `n` times, and no two sockets of a
process ever have the same name, even if the fifo of one has been removed.
-/

namespace FortyTwoHundred.Srtp

/-- `INT_MAX`. -/
def intMax : ℕ := 2147483647

/-- Size of the field `filename` of a `Conn_t`. -/
def filenameSize : ℕ := 32

/-! ## Names -/

theorem toList_fifoName (id : ℕ) :
    (fifoName id).toList =
      "tmpfifo".toList ++ (List.replicate (5 - (Nat.toDigits 10 id).length) '0' ++
        Nat.toDigits 10 id) := by
  unfold fifoName
  rw [String.toList_append]
  exact congrArg _ String.toList_ofList

/-- The number is read back from the digits, whatever the number of zeros in front. -/
theorem fifoName_injective : Function.Injective fifoName := by
  intro i j h
  have hlist := congrArg String.toList h
  rw [toList_fifoName, toList_fifoName] at hlist
  have hdigits := congrArg (fun ds => Nat.ofDigitChars 10 ds 0) (List.append_cancel_left hlist)
  simpa only [Nat.ofDigitChars_append, Nat.ofDigitChars_replicate_zero, Nat.mul_zero,
    Nat.ofDigitChars_ten_toDigits]
    using hdigits

/-- A value of an `int` has at most ten digits, so the name and its terminator fit. -/
theorem length_fifoName {id : ℕ} (h : id ≤ intMax) : (fifoName id).length + 1 ≤ filenameSize := by
  have hdigits : (Nat.toDigits 10 id).length ≤ 10 := by
    rw [Nat.length_toDigits_le_iff (by decide) (by decide)]
    unfold intMax at h
    omega
  have hlen : (fifoName id).length =
      7 + (5 - (Nat.toDigits 10 id).length + (Nat.toDigits 10 id).length) := by
    rw [← String.length_toList, toList_fifoName, List.length_append, List.length_append,
      List.length_replicate]
    rfl
  unfold filenameSize
  omega

/-! ## The loop -/

/-- `mkfifo`: it fails if the name is there. -/
def mkfifo (names : Finset String) (filename : String) : Option (Finset String) :=
  if filename ∈ names then none else some (insert filename names)

/-- The variables after the loop, and the names in the directory. -/
structure Made where
  fifoId : ℕ
  filename : String
  names : Finset String

/-- The loop of `_srtp_socket`, at most `fuel` turns of it; `none` if it goes on after them or
counts past `INT_MAX`. -/
def fifoLoop (names : Finset String) : ℕ → ℕ → Option Made
  | 0, _ => none
  | fuel + 1, id =>
    if id < intMax then
      match mkfifo names (fifoName id) with
      | some names' => some ⟨id + 1, fifoName id, names'⟩
      | none => fifoLoop names fuel (id + 1)
    else none

/-- Of the values from `n` on one is not in `s`; the first of them is found after at most `s.card`
that are. -/
theorem exists_fresh {α : Type*} [DecidableEq α] {f : ℕ → α} (hf : Function.Injective f)
    (s : Finset α) (n : ℕ) : ∃ k ≤ s.card, f (n + k) ∉ s ∧ ∀ j < k, f (n + j) ∈ s := by
  have hinj : Function.Injective fun k => f (n + k) := fun i j h => Nat.add_left_cancel (hf h)
  have hcard : s.card < ((Finset.range (s.card + 1)).image fun k => f (n + k)).card := by
    rw [Finset.card_image_of_injective _ hinj, Finset.card_range]
    exact Nat.lt_succ_self _
  obtain ⟨x, hx, hnot⟩ := Finset.exists_mem_notMem_of_card_lt_card hcard
  obtain ⟨k, hk, rfl⟩ := Finset.mem_image.mp hx
  have hex : ∃ k, f (n + k) ∉ s := ⟨k, hnot⟩
  classical
  refine ⟨Nat.find hex, ?_, Nat.find_spec hex, fun j hj => not_not.mp (Nat.find_min hex hj)⟩
  exact (Nat.find_min' hex hnot).trans (Nat.lt_succ_iff.mp (Finset.mem_range.mp hk))

/-- The loop passes over the names that are there. -/
theorem fifoLoop_eq (names : Finset String) (tries : ℕ) :
    ∀ fuel id, tries < fuel → id + tries < intMax → fifoName (id + tries) ∉ names →
    (∀ j < tries, fifoName (id + j) ∈ names) → fifoLoop names fuel id =
      some ⟨id + tries + 1, fifoName (id + tries), insert (fifoName (id + tries)) names⟩ := by
  induction tries with
  | zero =>
    intro fuel id hfuel hid hnew _
    obtain ⟨fuel, rfl⟩ := Nat.exists_eq_succ_of_ne_zero (Nat.ne_of_gt hfuel)
    have hmk : mkfifo names (fifoName id) = some (insert (fifoName id) names) := if_neg hnew
    have hlt : id < intMax := hid
    unfold fifoLoop
    rw [if_pos hlt, hmk]
    rfl
  | succ tries ih =>
    intro fuel id hfuel hid hnew hold
    obtain ⟨fuel, rfl⟩ := Nat.exists_eq_succ_of_ne_zero (Nat.ne_zero_of_lt hfuel)
    have hmk : mkfifo names (fifoName id) = none := if_pos (hold 0 (Nat.succ_pos _))
    have hshift : ∀ j, id + (j + 1) = id + 1 + j := fun j => by omega
    unfold fifoLoop
    rw [if_pos (by omega), hmk, hshift tries]
    refine ih fuel (id + 1) (by omega) (by omega) (hshift tries ▸ hnew) fun j hj => ?_
    exact hshift j ▸ hold (j + 1) (by omega)

/-- The counter goes up, and not past `INT_MAX`; the name of the value before it is made. -/
theorem fifoLoop_some {names : Finset String} {m : Made} :
    ∀ {fuel id : ℕ}, fifoLoop names fuel id = some m →
    ∃ tries, m = ⟨id + tries + 1, fifoName (id + tries), insert (fifoName (id + tries)) names⟩ ∧
      id + tries < intMax
  | 0, _, h => by cases h
  | fuel + 1, id, h => by
    unfold fifoLoop at h
    split_ifs at h with hid
    split at h
    · next made hmk =>
      cases h
      refine ⟨0, ?_, hid⟩
      unfold mkfifo at hmk
      split_ifs at hmk
      rw [← Option.some.inj hmk]
      rfl
    · obtain ⟨tries, h1, h2⟩ := fifoLoop_some h
      have hshift : id + 1 + tries = id + (tries + 1) := by omega
      exact ⟨tries + 1, hshift ▸ h1, by omega⟩

/-! ## The process in a directory -/

/-- The process, and the names in the directory it works in. -/
structure InDir where
  names : Finset String
  sockets : Sockets

inductive SocketCall
  /-- whether `open` succeeds -/
  | socket (opens : Bool)
  | close (fd : ℤ)

namespace InDir

variable (bo : ByteOrder) (junk : ℕ → Junk)

/-- `_srtp_socket`: the loop, and then the code after it; a fifo that cannot be opened is
removed. -/
def srtpSocket (opens : Bool) (w : InDir) : Option InDir :=
  (fifoLoop w.names (w.names.card + 1) w.sockets.fifoId).bind fun m =>
    (w.sockets.step bo junk (.socket (m.fifoId - 1 - w.sockets.fifoId) opens)).map fun s =>
      ⟨if opens then m.names else m.names.erase m.filename, s⟩

/-- `_srtp_close`; the fifo of the connection is removed. -/
def srtpClose (fd : ℤ) (w : InDir) : Option InDir :=
  let names :=
    match w.sockets.isOpenSRTPSock fd, w.sockets.connAt fd with
    | true, some (_, c) => w.names.erase c.filename
    | _, _ => w.names
  (w.sockets.step bo junk (.close fd)).map fun s => ⟨names, s⟩

/-- One call; `none` if there has been a fault, or the counter would go past `INT_MAX`. -/
def step (w : InDir) : SocketCall → Option InDir
  | .socket opens => w.srtpSocket bo junk opens
  | .close fd => w.srtpClose bo junk fd

end InDir

namespace Sockets

/-- Every connection has the name of a value below the counter, and no two have the same. -/
structure Named (s : Sockets) : Prop where
  heap : ∀ id, s.next ≤ id → s.heap id = none
  counter : s.fifoId ≤ intMax
  name : ∀ id c, s.heap id = some c → ∃ k < s.fifoId, c.filename = fifoName k
  distinct : ∀ i j c d, s.heap i = some c → s.heap j = some d → i ≠ j → c.filename ≠ d.filename

section Named

variable {s t : Sockets}

/-- Connections may go, and the counter may go up. -/
theorem Named.mono (h : Named s) (hnext : t.next = s.next)
    (hheap : ∀ id c, t.heap id = some c → s.heap id = some c) (hid : s.fifoId ≤ t.fifoId)
    (hmax : t.fifoId ≤ intMax) : Named t := by
  refine ⟨fun id hle => ?_, hmax, fun id c hc => ?_, fun i j c d hc hd => ?_⟩
  · cases hc : t.heap id with
    | none => rfl
    | some c =>
      have := h.heap id (hnext ▸ hle)
      rw [hheap id c hc] at this
      cases this
  · obtain ⟨k, hk, hname⟩ := h.name id c (hheap id c hc)
    exact ⟨k, hk.trans_le hid, hname⟩
  · exact h.distinct i j c d (hheap i c hc) (hheap j d hd)

/-- The name of a new connection is of a value that the counter had not reached. -/
theorem Named.srtpSocket (h : Named s) {tries : ℕ} (hmax : s.fifoId + tries < intMax)
    (opens : Bool) : Named (s.srtpSocket tries opens) := by
  unfold Sockets.srtpSocket
  dsimp only
  split_ifs
  · -- an old connection has another name
    have hold : ∀ i c, s.heap i = some c → c.filename ≠ fifoName (s.fifoId + tries) := by
      intro i c hc he
      obtain ⟨k, hk, hname⟩ := h.name i c hc
      have := fifoName_injective (hname.symm.trans he)
      omega
    refine ⟨fun id hle => ?_, hmax, fun id c hc => ?_, fun i j c d hc hd hij => ?_⟩
    · have hlt : s.next < id := hle
      exact (StdMap.put_of_ne hlt.ne').trans (h.heap id hlt.le)
    · rcases StdMap.put_eq_some hc with ⟨-, rfl⟩ | ⟨-, hc⟩
      · exact ⟨s.fifoId + tries, Nat.lt_succ_self _, rfl⟩
      · obtain ⟨k, hk, hname⟩ := h.name id c hc
        exact ⟨k, hk.trans_le (by show s.fifoId ≤ s.fifoId + tries + 1; omega), hname⟩
    · rcases StdMap.put_eq_some hc with ⟨hi, rfl⟩ | ⟨-, hc⟩
      · rcases StdMap.put_eq_some hd with ⟨hj, -⟩ | ⟨-, hd⟩
        · exact absurd (hi.trans hj.symm) hij
        · exact (hold j d hd).symm
      · rcases StdMap.put_eq_some hd with ⟨-, rfl⟩ | ⟨-, hd⟩
        · exact hold i c hc
        · exact h.distinct i j c d hc hd hij
  · exact h.mono rfl (fun _ _ hc => hc) (by show s.fifoId ≤ s.fifoId + tries + 1; omega) hmax

/-- `_srtp_close` may delete a connection. -/
theorem srtpClose_heap (junk : ℕ → Junk) (fd : ℤ) (s : Sockets) :
    (s.srtpClose junk fd).next = s.next ∧ (s.srtpClose junk fd).fifoId = s.fifoId ∧
      (∀ id c, (s.srtpClose junk fd).heap id = some c → s.heap id = some c) ∧
      ∀ id c, s.isOpenSRTPSock fd = true → s.connAt fd = some (id, c) →
        (s.srtpClose junk fd).heap id = none := by
  unfold srtpClose
  split_ifs with ho
  · exact ⟨rfl, rfl, fun _ _ h => h, fun _ _ h => by simp [h] at ho⟩
  · have hat : (s.closeFd fd).connAt fd = s.connAt fd := rfl
    cases hc : s.connAt fd with
    | none =>
      rw [deref_of_none (hat.trans hc)]
      exact ⟨rfl, rfl, fun _ _ h => h, fun _ _ _ h => by cases h⟩
    | some p =>
      obtain ⟨i, c⟩ := p
      rw [deref_of_connAt (hat.trans hc)]
      dsimp only
      split_ifs
      all_goals
        refine ⟨rfl, rfl, fun _ _ h => (StdMap.erase_eq_some h).2, fun j d _ hj => ?_⟩
        obtain ⟨rfl, -⟩ := Prod.mk.inj (Option.some.inj hj)
        exact StdMap.erase_self

end Named

end Sockets

namespace InDir

variable {bo : ByteOrder} {junk : ℕ → Junk}

/-- The connections have names as in `Named`, and their fifos are in the directory. -/
structure Present (w : InDir) : Prop where
  named : w.sockets.Named
  mem : ∀ id c, w.sockets.heap id = some c → c.filename ∈ w.names

/-- **One call.** -/
theorem Present.step (w : InDir) (e : SocketCall) (u : InDir) (h : w.Present)
    (hs : w.step bo junk e = some u) : u.Present := by
  cases e with
  | socket opens =>
    obtain ⟨m, hm, hw⟩ := Option.bind_eq_some_iff.mp hs
    obtain ⟨s, hsock, rfl⟩ := Option.map_eq_some_iff.mp hw
    obtain ⟨tries, rfl, hmax⟩ := fifoLoop_some hm
    dsimp only at hsock
    rw [show w.sockets.fifoId + tries + 1 - 1 - w.sockets.fifoId = tries by omega] at hsock
    unfold Sockets.step at hsock
    split_ifs at hsock
    obtain rfl := Option.some.inj hsock
    have h1 := h.named.srtpSocket hmax opens
    refine ⟨h1.mono rfl (fun _ _ hc => hc) (Nat.le_refl _) h1.counter, fun id c hc => ?_⟩
    have hc' : (w.sockets.srtpSocket tries opens).heap id = some c := hc
    unfold Sockets.srtpSocket at hc'
    cases opens with
    | true =>
      show c.filename ∈ insert (fifoName (w.sockets.fifoId + tries)) w.names
      rcases StdMap.put_eq_some hc' with ⟨-, rfl⟩ | ⟨-, hc'⟩
      · exact Finset.mem_insert_self _ _
      · exact Finset.mem_insert_of_mem (h.mem id c hc')
    | false =>
      -- the fifo that is removed again has another name
      obtain ⟨k, hk, hname⟩ := h.named.name id c hc'
      have hne : c.filename ≠ fifoName (w.sockets.fifoId + tries) := fun he => by
        have := fifoName_injective (hname.symm.trans he)
        omega
      exact Finset.mem_erase.mpr ⟨hne, Finset.mem_insert_of_mem (h.mem id c hc')⟩
  | close fd =>
    obtain ⟨s, hsock, rfl⟩ := Option.map_eq_some_iff.mp hs
    unfold Sockets.step at hsock
    split_ifs at hsock
    obtain rfl := Option.some.inj hsock
    obtain ⟨hnext, hid, hheap, hgone⟩ := Sockets.srtpClose_heap junk fd w.sockets
    refine ⟨h.named.mono hnext hheap (Nat.le_of_eq hid.symm) (hid ▸ h.named.counter),
      fun i c hc => ?_⟩
    have hold := hheap i c hc
    dsimp only
    split
    · next j d hopen hat =>
      have hdel : (w.sockets.srtpClose junk fd).heap j = none := hgone j d hopen hat
      have hij : i ≠ j := by
        rintro rfl
        have hc' : (w.sockets.srtpClose junk fd).heap i = some c := hc
        rw [hdel] at hc'
        cases hc'
      exact Finset.mem_erase.mpr
        ⟨h.named.distinct i j c d hold (Sockets.connAt_eq_some.mp hat).2 hij, h.mem i c hold⟩
    · exact h.mem i c hold

/-- **The names of the fifos**: the loop ends within one turn more than the directory has names,
with a name that was not in it; and after every run of `_srtp_socket` and `_srtp_close` calls the
connections have different names, each of which is in the directory and fits into the field with
its terminator. -/
theorem fifo_names :
    (∀ (names : Finset String) (id : ℕ), id + names.card < intMax →
      ∃ tries ≤ names.card, fifoName (id + tries) ∉ names ∧ ∀ fuel, names.card < fuel →
        fifoLoop names fuel id =
          some ⟨id + tries + 1, fifoName (id + tries), insert (fifoName (id + tries)) names⟩) ∧
    ∀ (bo : ByteOrder) (junk : ℕ → Junk) (files : List ℕ) (names : Finset String)
      (es : List SocketCall) (w : InDir),
      Machine.exec (step bo junk) ⟨names, Sockets.init files⟩ es = some w →
        (∀ i j c d, w.sockets.heap i = some c → w.sockets.heap j = some d → i ≠ j →
          c.filename ≠ d.filename) ∧
          ∀ i c, w.sockets.heap i = some c →
            c.filename ∈ w.names ∧ c.filename.length + 1 ≤ filenameSize := by
  constructor
  · intro names id hid
    obtain ⟨tries, hle, hnew, hold⟩ := exists_fresh fifoName_injective names id
    refine ⟨tries, hle, hnew, fun fuel hfuel => ?_⟩
    exact fifoLoop_eq names tries fuel id (by omega) (by omega) hnew hold
  · intro bo junk files names es w h
    have hinit : (Sockets.init files).Named :=
      ⟨fun _ _ => rfl, Nat.zero_le _, fun _ _ hc => (by cases hc), fun _ _ _ _ hc => (by cases hc)⟩
    obtain ⟨hnamed, hmem⟩ : w.Present :=
      Machine.exec_invariant (I := Present) Present.step ⟨hinit, fun _ _ hc => (by cases hc)⟩ h
    refine ⟨hnamed.distinct, fun i c hc => ⟨hmem i c hc, ?_⟩⟩
    obtain ⟨k, hk, hname⟩ := hnamed.name i c hc
    rw [hname]
    exact length_fifoName (hk.le.trans hnamed.counter)

/-- The last name with five digits is there; and three sockets in a directory with the first name,
one of them closed. -/
theorem fifo_names_existing :
    (∃ tries ≤ 1, fifoName (99999 + tries) ∉ ({"tmpfifo99999"} : Finset String) ∧
      fifoLoop {"tmpfifo99999"} 2 99999 =
        some ⟨99999 + tries + 1, fifoName (99999 + tries), insert (fifoName (99999 + tries))
          {"tmpfifo99999"}⟩) ∧
    ∃ w c d, Machine.exec (step .little fun _ => ⟨0, 0, [], 0, 0⟩)
      ⟨{"tmpfifo00000"}, Sockets.init [0, 1, 2]⟩
        [.socket true, .socket true, .close 3, .socket true] = some w ∧
      w.sockets.heap 1 = some c ∧ w.sockets.heap 2 = some d ∧ c.filename ≠ d.filename ∧
      d.filename ∈ w.names ∧ d.filename.length + 1 ≤ filenameSize := by
  constructor
  · obtain ⟨tries, hle, hnew, hloop⟩ := fifo_names.1 {"tmpfifo99999"} 99999 (by decide)
    exact ⟨tries, hle, hnew, hloop 2 (by decide)⟩
  · obtain ⟨w, c, d, hw, hc, hd⟩ : ∃ w c d,
        Machine.exec (step .little fun _ => ⟨0, 0, [], 0, 0⟩)
        ⟨{"tmpfifo00000"}, Sockets.init [0, 1, 2]⟩
          [.socket true, .socket true, .close 3, .socket true] = some w ∧
        w.sockets.heap 1 = some c ∧ w.sockets.heap 2 = some d := ⟨_, _, _, rfl, rfl, rfl⟩
    obtain ⟨hne, hfit⟩ := fifo_names.2 .little _ [0, 1, 2] {"tmpfifo00000"} _ w hw
    exact ⟨w, c, d, hw, hc, hd, hne 1 2 c d hc hd (by decide), hfit 2 d hd⟩

end InDir

end FortyTwoHundred.Srtp

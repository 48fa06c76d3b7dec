import Mathlib.Data.List.Nodup
import FortyTwoHundred.Ftp.Client
import FortyTwoHundred.Ftp.PacketList

/-!
# ClientMemory — the data loop of the client on the heap

`Client` has the window as a list of packets.  Here it is what `copy_file` works on: a `struct List`
whose nodes point to blocks made by `create_packet`, all of them in memory that `malloc` hands out
and `free` takes back.  `malloc` may return any address that is not in use, one that has just been
freed too; it does not fail.  The local variables are those of `Client`, whose list fields are not
used (`Client.bare`).

`heap_client`: no pointer to free memory is ever followed or freed, the client sends what `Client`
sends, and the blocks it holds are those of its window.  The blocks that live only from one call to
the next (the request, `FIN`, `temp`) are not modelled here.
-/

namespace FortyTwoHundred.Ftp

open Heap (Node Linked addrs)

/-- The list of packets, whose items are the addresses of the blocks, and the blocks. -/
structure PacketMem where
  packets : ListState ℕ
  blocks : ℕ → Option Bytes

namespace PacketMem

/-- `malloc` may return this address. -/
def isFree (m : PacketMem) (a : ℕ) : Bool := (m.packets.heap a).isNone && (m.blocks a).isNone

/-- `add_to_list(packets, create_packet(…))`, with the block at `a` and the node at `n`. -/
def add (p : Bytes) (a n : ℕ) (m : PacketMem) : PacketMem :=
  { packets := (m.packets.addToList a (some n)).1, blocks := StdMap.put m.blocks a p }

/-- The packet a node points to. -/
def packetAt (m : PacketMem) (node : Option ℕ) : Option Bytes :=
  (node.bind m.packets.heap).bind fun n => m.blocks n.data

/-- `free(packets->head->data); remove_front(packets);` -/
def removeFront (m : PacketMem) : Option PacketMem :=
  (m.packets.list.head.bind m.packets.heap).bind fun n =>
    if (m.blocks n.data).isSome then
      some { packets := m.packets.removeFront, blocks := StdMap.erase m.blocks n.data }
    else none

/-- `send_all`, from a node on: the datagrams put on the wire, and whether a `sendto` failed; `none`
if a pointer to free memory is followed. -/
def sendAll (sendto : Bytes → Bool) (m : PacketMem) : ℕ → Option ℕ → Option (List Bytes × Bool)
  | _, none => some ([], false)
  | 0, some _ => none
  | k + 1, some n =>
    (m.packets.heap n).bind fun node => (m.blocks node.data).bind fun p =>
      if sendto p then (m.sendAll sendto k node.next).map fun r => (sendPacket p :: r.1, r.2)
        else some ([], true)

end PacketMem

/-- The client with its window in memory; `fault` says that a pointer to free memory has been
followed or freed. -/
structure HeapClient (φ : Type) where
  vars : Client φ
  mem : PacketMem
  fault : Bool

inductive HeapIn
  /-- a send as in `ClientIn`, and the addresses that `malloc` returns for blocks and nodes in a
  pass -/
  | send (sendto : Bytes → Bool) (now : ℤ) (fresh : List (ℕ × ℕ))
  | recv (temp : Bytes) (r : Recv) (now : ℤ)

/-- What the client with a list of packets is given. -/
def HeapIn.plain : HeapIn → ClientIn
  | .send sendto now _ => .send sendto now
  | .recv temp r now => .recv temp r now

/-- The addresses are free, and no two of them are the same. -/
def PacketMem.Fresh (m : PacketMem) (fresh : List (ℕ × ℕ)) : Prop :=
  (fresh.map Prod.fst ++ fresh.map Prod.snd).Nodup ∧
    ∀ a ∈ fresh.map Prod.fst ++ fresh.map Prod.snd, m.isFree a = true

instance (m : PacketMem) (fresh : List (ℕ × ℕ)) : Decidable (m.Fresh fresh) := by
  unfold PacketMem.Fresh
  infer_instance

/-- `malloc` can return these addresses; a pass needs no more than a window of them. -/
def HeapIn.Possible (m : PacketMem) : HeapIn → Prop
  | .send _ _ fresh => fresh.length = windowSize ∧ m.Fresh fresh
  | .recv .. => True

namespace HeapClient

variable {φ : Type} (fread : φ → ℕ → Bytes × φ)

/-- The body of the loop that fills the window. -/
def addPacket (a n : ℕ) (h : HeapClient φ) : HeapClient φ :=
  let chunk := (fread h.vars.file h.vars.remaining).1
  { h with
    vars := { h.vars with
      buffer := h.vars.buffer.take headerSize ++ overlay chunk (h.vars.buffer.drop headerSize)
      file := (fread h.vars.file h.vars.remaining).2
      sequence := h.vars.sequence + 1
      read := h.vars.read + chunk.length }
    mem := h.mem.add (createPacket cmdData h.vars.sequence (UInt16.ofNat chunk.length) chunk) a n }

/-- `while (packets->size < WINDOW_SIZE && written < size)`. -/
def fill : List (ℕ × ℕ) → HeapClient φ → HeapClient φ
  | [], h => h
  | (a, n) :: fresh, h =>
    if h.mem.packets.list.size.toNat < windowSize ∧ h.vars.written < h.vars.size then
      fill fresh (h.addPacket fread a n)
    else h

/-- The loop that takes acknowledged packets off the list; `none` if a pointer to free memory is
followed or freed. -/
def release (acked : UInt16) (now : ℤ) : ℕ → HeapClient φ → Option (HeapClient φ)
  | 0, h => if h.mem.packets.list.head = none then some h else none
  | k + 1, h =>
    if h.mem.packets.list.head = none then some h
    else
      (h.mem.packetAt h.mem.packets.list.head).bind fun front =>
        (h.mem.packetAt h.mem.packets.list.tail).bind fun back =>
          if acked = getSeqNum front then some h
          else if Client.outside acked (getSeqNum front) (getSeqNum back) then some h
          else
            h.mem.removeFront.bind fun m =>
              release acked now k
                { h with
                  vars := { h.vars with
                    lastACK := now
                    written := h.vars.written + (getLen front).toNat }
                  mem := m }

/-- A pass of the data loop up to the first receive, with the datagrams sent. -/
def passStep (sendto : Bytes → Bool) (now : ℤ) (fresh : List (ℕ × ℕ)) (h : HeapClient φ) :
    Option (HeapClient φ × List Bytes) :=
  let h := h.fill fread fresh
  (h.mem.sendAll sendto windowSize h.mem.packets.list.head).map fun sent =>
    if sent.2 then ({ h with vars := h.vars.finish (.exited .runtimeError) }, sent.1)
    else if ackTimeout < now - h.vars.lastACK then
      ({ h with vars := h.vars.finish (.exited .timeout) }, sent.1)
    else ({ h with vars := { h.vars with pc := .drain } }, sent.1)

/-- A turn of the loop `while (1)` on the buffer `read_only_from` left. -/
def handle (rr : ReadResult) (now : ℤ) (h : HeapClient φ) : Option (HeapClient φ) :=
  let h := { h with vars := { h.vars with read := rr.ret, buffer := rr.buffer } }
  if rr.ret < 0 ∧ rr.again then some { h with vars := Client.loopTop now h.vars }
  else if command h.vars.buffer = cmdAck then h.release (getSeqNum h.vars.buffer) now windowSize
  else if command h.vars.buffer = cmdFin then
    if h.vars.written < h.vars.size then some { h with vars := h.vars.finish (.exited .badRequest) }
    else some { h with vars := Client.loopTop now h.vars }
  else some h

/-- One step.  A client that has followed a pointer to free memory does nothing more; steps that do
not touch the list are those of `Client`. -/
def step (wanted : Addr) (h : HeapClient φ) (i : HeapIn) : Option (HeapClient φ × List Bytes) :=
  if h.fault then none
  else match h.vars.pc, i with
    | .pass, .send sendto now fresh =>
      if fresh.length = windowSize ∧ h.mem.Fresh fresh then
        match h.passStep fread sendto now fresh with
        | some p => some p
        | none => some ({ h with fault := true }, [])
      else none
    | .drain, .recv temp r now =>
      match h.handle (readOnlyFrom wanted h.vars.buffer temp r) now with
      | some h' => some (h', [])
      | none => some ({ h with fault := true }, [])
    | .pass, .recv .. | .drain, .send .. => none
    | _, _ => (h.vars.step fread wanted i.plain).map fun p => ({ h with vars := p.1 }, p.2)

end HeapClient

/-! ## The blocks of the window -/

/-- The memory is `mem₀` with the list in it: its nodes are `ns`, which point to the packets `ps`,
and everything else is as in `mem₀`. -/
structure Owns (mem₀ : PacketMem) (ns : List (ℕ × ℕ)) (ps : List Bytes) (m : PacketMem) : Prop where
  nodes : m.packets.Nodes ns
  holds : ns.map (fun n => m.blocks n.2) = ps.map some
  distinct : (ns.map Prod.snd).Nodup
  newNodes : ∀ a ∈ addrs ns, mem₀.packets.heap a = none
  newBlocks : ∀ a ∈ ns.map Prod.snd, mem₀.blocks a = none
  otherNodes : ∀ a, a ∉ addrs ns → m.packets.heap a = mem₀.packets.heap a
  otherBlocks : ∀ a, a ∉ ns.map Prod.snd → m.blocks a = mem₀.blocks a

section Owns

variable {mem₀ m : PacketMem} {ns : List (ℕ × ℕ)} {ps : List Bytes} {p : Bytes} {a n : ℕ}

theorem Owns.length (h : Owns mem₀ ns ps m) : ns.length = ps.length := by
  simpa using congrArg List.length h.holds

/-- A block of the window is in use. -/
theorem Owns.block_ne (h : Owns mem₀ ns ps m) (ha : a ∈ ns.map Prod.snd) : m.blocks a ≠ none := by
  obtain ⟨x, hx, rfl⟩ := List.mem_map.mp ha
  have hmem : m.blocks x.2 ∈ ns.map fun n => m.blocks n.2 := List.mem_map_of_mem hx
  rw [h.holds] at hmem
  obtain ⟨p, -, hp⟩ := List.mem_map.mp hmem
  rw [← hp]
  exact Option.some_ne_none _

/-- A node of the list is in use. -/
theorem Owns.node_ne (h : Owns mem₀ ns ps m) (hn : n ∈ addrs ns) : m.packets.heap n ≠ none := by
  obtain ⟨x, hx, rfl⟩ := List.mem_map.mp hn
  obtain ⟨pre, post, hsplit⟩ := List.append_of_mem hx
  have hlinked := h.nodes.linked
  rw [hsplit] at hlinked
  obtain ⟨-, next, hnode, -⟩ := hlinked.suffix
  rw [hnode]
  exact Option.some_ne_none _

theorem isFree_iff : m.isFree a = true ↔ m.packets.heap a = none ∧ m.blocks a = none := by
  rw [PacketMem.isFree, Bool.and_eq_true, Option.isNone_iff_eq_none, Option.isNone_iff_eq_none]

theorem PacketMem.Fresh.uncons {fresh : List (ℕ × ℕ)} (h : m.Fresh ((a, n) :: fresh)) :
    m.isFree a = true ∧ m.isFree n = true ∧ m.Fresh fresh ∧
      ∀ b ∈ fresh.map Prod.fst ++ fresh.map Prod.snd, b ≠ a ∧ b ≠ n := by
  obtain ⟨hdistinct, hfree⟩ := h
  rw [List.map_cons, List.map_cons, List.cons_append] at hdistinct hfree
  obtain ⟨ha, hdistinct⟩ := List.nodup_cons.mp hdistinct
  obtain ⟨hn, hdistinct⟩ := List.nodup_cons.mp (List.nodup_middle.mp hdistinct)
  have hmem : ∀ b ∈ fresh.map Prod.fst ++ fresh.map Prod.snd,
      b ∈ fresh.map Prod.fst ++ n :: fresh.map Prod.snd := by
    intro b hb
    rcases List.mem_append.mp hb with hb | hb
    · exact List.mem_append_left _ hb
    · exact List.mem_append_right _ (List.mem_cons_of_mem _ hb)
  refine ⟨hfree a (by simp), hfree n (by simp),
    ⟨hdistinct, fun b hb => hfree b (List.mem_cons_of_mem _ (hmem b hb))⟩, ?_⟩
  intro b hb
  constructor
  · rintro rfl
    exact ha (hmem b hb)
  · rintro rfl
    exact hn hb

/-- **Allocation**: a packet comes to the end of the window. -/
theorem Owns.add (h : Owns mem₀ ns ps m) (p : Bytes) (ha : m.isFree a = true)
    (hn : m.isFree n = true) : Owns mem₀ (ns ++ [(n, a)]) (ps ++ [p]) (m.add p a n) := by
  obtain ⟨-, hab⟩ := isFree_iff.mp ha
  obtain ⟨hnn, -⟩ := isFree_iff.mp hn
  have hna : a ∉ ns.map Prod.snd := fun hmem => h.block_ne hmem hab
  have hnn' : n ∉ addrs ns := fun hmem => h.node_ne hmem hnn
  obtain ⟨hnodes, hframe⟩ := h.nodes.addToList a hnn
  refine ⟨hnodes, ?_, ?_, ?_, ?_, ?_, ?_⟩
  · rw [List.map_append, List.map_append, ← h.holds]
    refine congrArg₂ (· ++ ·) (List.map_congr_left fun x hx => ?_) ?_
    · refine StdMap.put_of_ne ?_
      rintro rfl
      exact hna (List.mem_map_of_mem hx)
    · simp [PacketMem.add, StdMap.put_self]
  · rw [List.map_append, List.nodup_append]
    refine ⟨h.distinct, by simp, ?_⟩
    intro x hx y hy
    obtain rfl : y = a := by simpa using hy
    rintro rfl
    exact hna hx
  · intro b hb
    rw [addrs, List.map_append, List.mem_append] at hb
    rcases hb with hb | hb
    · exact h.newNodes b hb
    · obtain rfl : b = n := by simpa using hb
      rw [← h.otherNodes b hnn', hnn]
  · intro b hb
    rw [List.map_append, List.mem_append] at hb
    rcases hb with hb | hb
    · exact h.newBlocks b hb
    · obtain rfl : b = a := by simpa using hb
      rw [← h.otherBlocks b hna, hab]
  · intro b hb
    refine (hframe b hb).trans (h.otherNodes b fun hmem => hb ?_)
    rw [addrs, List.map_append]
    exact List.mem_append_left _ hmem
  · intro b hb
    rw [List.map_append, List.mem_append, not_or] at hb
    refine (StdMap.put_of_ne ?_).trans (h.otherBlocks b hb.1)
    simpa using hb.2

/-- What is free stays free, up to the two new addresses. -/
theorem Owns.isFree_add (h : Owns mem₀ ns ps m) (p : Bytes) (hn : m.isFree n = true) {b : ℕ}
    (hb : m.isFree b = true) (hba : b ≠ a) (hbn : b ≠ n) : (m.add p a n).isFree b = true := by
  obtain ⟨hbh, hbb⟩ := isFree_iff.mp hb
  refine isFree_iff.mpr ⟨?_, (StdMap.put_of_ne hba).trans hbb⟩
  refine ((h.nodes.addToList a (isFree_iff.mp hn).1).2 b ?_).trans hbh
  rw [addrs, List.map_append, List.mem_append, not_or]
  exact ⟨fun hmem => h.node_ne hmem hbh, by simpa using hbn⟩

/-- **Release**: the packet at the front and its node are freed. -/
theorem Owns.removeFront (h : Owns mem₀ ((n, a) :: ns) (p :: ps) m) :
    ∃ m', m.removeFront = some m' ∧ Owns mem₀ ns ps m' := by
  obtain ⟨hnodes, hheap⟩ := h.nodes.removeFront
  obtain ⟨hhead, next, hnode, -⟩ := h.nodes.linked
  obtain ⟨hblock, hholds⟩ := List.cons.inj h.holds
  obtain ⟨hna, hdistinct⟩ := List.nodup_cons.mp h.distinct
  have hnn : n ∉ addrs ns := h.nodes.linked.notMem
  have hrem : m.removeFront =
      some { packets := m.packets.removeFront, blocks := StdMap.erase m.blocks a } := by
    rw [PacketMem.removeFront, hhead, Option.bind_some, hnode, Option.bind_some, if_pos]
    show (m.blocks a).isSome = true
    rw [show m.blocks a = some p from hblock]
    rfl
  refine ⟨_, hrem, hnodes, ?_, hdistinct, ?_, ?_, ?_, ?_⟩
  · rw [← hholds]
    refine List.map_congr_left fun x hx => StdMap.erase_of_ne ?_
    rintro rfl
    exact hna (List.mem_map.mpr ⟨x, hx, rfl⟩)
  · exact fun b hb => h.newNodes b (List.mem_cons_of_mem _ hb)
  · exact fun b hb => h.newBlocks b (List.mem_cons_of_mem _ hb)
  · intro b hb
    dsimp only
    rw [hheap]
    by_cases hbn : b = n
    · subst hbn
      rw [h.newNodes b (by simp), StdMap.erase_self]
    · rw [StdMap.erase_of_ne hbn]
      exact h.otherNodes b (by simp [hbn, hb])
  · intro b hb
    dsimp only
    by_cases hba : b = a
    · subst hba
      rw [h.newBlocks b (by simp), StdMap.erase_self]
    · rw [StdMap.erase_of_ne hba]
      exact h.otherBlocks b (by simp [hba, hb])

/-- A packet of the window, read through its node. -/
theorem Owns.packetAt {pre post : List (ℕ × ℕ)} {qs rs : List Bytes}
    (h : Owns mem₀ (pre ++ (n, a) :: post) (qs ++ p :: rs) m) (hlen : pre.length = qs.length) :
    m.packetAt (some n) = some p := by
  obtain ⟨-, next, hnode, -⟩ := h.nodes.linked.suffix
  have hholds := h.holds
  rw [List.map_append, List.map_append] at hholds
  obtain ⟨-, hrest⟩ := List.append_inj hholds (by simpa using hlen)
  rw [PacketMem.packetAt, Option.bind_some, hnode, Option.bind_some]
  exact (List.cons.inj hrest).1

/-- The packet `tail` points to is the last one. -/
theorem Owns.back (h : Owns mem₀ ns (p :: ps) m) (hhead : m.packets.list.head = some n) :
    m.packetAt m.packets.list.tail = some ((p :: ps).getLastD p) := by
  obtain ⟨qs, q, hq⟩ : ∃ qs q, p :: ps = qs ++ [q] :=
    ⟨_, _, (List.dropLast_concat_getLast (by simp)).symm⟩
  have hne : ns ≠ [] := by
    rintro rfl
    exact absurd h.length (by simp)
  obtain ⟨pre, x, rfl⟩ : ∃ pre x, ns = pre ++ [x] := ⟨_, _, (List.dropLast_concat_getLast hne).symm⟩
  have hlen := h.length
  have htail : m.packets.list.tail = some x.1 := by
    rw [h.nodes.tail (by rw [hhead]; exact Option.some_ne_none _)]
    simp
  rw [hq] at h hlen ⊢
  rw [htail, List.getLastD_concat]
  exact h.packetAt (by simpa using hlen)

/-- **`send_all`** walks the nodes and sends the packets. -/
theorem Owns.sendAll (h : Owns mem₀ ns ps m) (sendto : Bytes → Bool) {k : ℕ} (hk : ns.length ≤ k) :
    m.sendAll sendto k m.packets.list.head = some (Ftp.sendAll sendto ps) := by
  have key : ∀ (ns : List (ℕ × ℕ)) (ps : List Bytes) (k : ℕ) (node : Option ℕ),
      Linked m.packets.heap node ns →
      ns.map (fun n => m.blocks n.2) = ps.map some → ns.length ≤ k →
      m.sendAll sendto k node = some (Ftp.sendAll sendto ps) := by
    intro ns
    induction ns with
    | nil =>
      intro ps k node hlinked hholds _
      obtain rfl : node = none := hlinked
      obtain rfl : ps = [] := by simpa using hholds.symm
      cases k <;> rfl
    | cons n ns ih =>
      intro ps k node hlinked hholds hk
      obtain ⟨rfl, next, hnode, hrest⟩ := hlinked
      cases ps with
      | nil => simp at hholds
      | cons p ps =>
        obtain ⟨hp, hholds⟩ := List.cons.inj hholds
        cases k with
        | zero => simp at hk
        | succ k =>
          have hrec := ih ps k next hrest hholds (by simpa using hk)
          rw [PacketMem.sendAll, hnode, Option.bind_some]
          dsimp only
          rw [show m.blocks n.2 = some p from hp, Option.bind_some, hrec, Ftp.sendAll]
          split_ifs <;> rfl
  exact key ns ps k _ h.nodes.linked h.holds hk

end Owns

/-! ## The two levels -/

/-- The local variables of the client, without its window. -/
def Client.bare {φ : Type} (c : Client φ) : Client φ := { c with packets := [], removed := [] }

/-- The client `h` in memory and the client `c` with a list of packets are in the same state. -/
structure Refines {φ : Type} (mem₀ : PacketMem) (ns : List (ℕ × ℕ)) (h : HeapClient φ)
    (c : Client φ) : Prop where
  vars : h.vars = c.bare
  mem : Owns mem₀ ns c.packets h.mem
  window : c.packets.length ≤ windowSize
  noFault : h.fault = false

section Refines

variable {φ : Type} {fread : φ → ℕ → Bytes × φ} {mem₀ : PacketMem} {ns : List (ℕ × ℕ)}
  {h : HeapClient φ} {c : Client φ}

theorem Refines.size (hr : Refines mem₀ ns h c) :
    h.mem.packets.list.size.toNat = c.packets.length := by
  have hw := hr.window
  have hsize : windowSize = 50 := rfl
  rw [hr.mem.nodes.size, hr.mem.length, UInt32.toNat_ofNat']
  omega

theorem Refines.addPacket (hr : Refines mem₀ ns h c) (hw : c.packets.length < windowSize) {a n : ℕ}
    (ha : h.mem.isFree a = true) (hn : h.mem.isFree n = true) :
    Refines mem₀ (ns ++ [(n, a)]) (h.addPacket fread a n) (c.addPacket fread) := by
  have hvars := hr.vars
  obtain ⟨v, m, f⟩ := h
  dsimp only at hvars
  subst hvars
  refine ⟨rfl, hr.mem.add _ ha hn, ?_, hr.noFault⟩
  simp only [Client.addPacket, List.length_append, List.length_singleton]
  omega

theorem Refines.fill (hr : Refines mem₀ ns h c) (fread : φ → ℕ → Bytes × φ) {fresh : List (ℕ × ℕ)}
    (hfresh : h.mem.Fresh fresh) : ∃ ns', Refines mem₀ ns' (h.fill fread fresh)
    (c.fillLoop fread fresh.length) := by
  induction fresh generalizing ns h c with
  | nil => exact ⟨ns, hr⟩
  | cons x fresh ih =>
    obtain ⟨a, n⟩ := x
    have hcond : (h.mem.packets.list.size.toNat < windowSize ∧ h.vars.written < h.vars.size) ↔
        (c.packets.length < windowSize ∧ c.written < c.size) := by
      rw [hr.size, hr.vars]
      rfl
    rw [HeapClient.fill, List.length_cons, Client.fillLoop]
    by_cases hc : c.packets.length < windowSize ∧ c.written < c.size
    · rw [if_pos hc, if_pos (hcond.mpr hc)]
      obtain ⟨ha, hn, hrest, hne⟩ := hfresh.uncons
      refine ih (hr.addPacket hc.1 ha hn) ⟨hrest.1, fun b hb => ?_⟩
      exact hr.mem.isFree_add _ hn (hrest.2 b hb) (hne b hb).1 (hne b hb).2
    · rw [if_neg hc, if_neg (hcond.not.mpr hc)]
      exact ⟨ns, hr⟩

theorem Refines.release (hr : Refines mem₀ ns h c) (acked : UInt16) (now : ℤ) {k : ℕ}
    (hk : c.packets.length ≤ k) : ∃ h' ns', h.release acked now k = some h' ∧
    Refines mem₀ ns' h' (c.release acked now) := by
  rw [Client.release]
  obtain ⟨ps, hps⟩ : ∃ ps, ps = c.packets := ⟨_, rfl⟩
  rw [← hps] at hk ⊢
  induction ps generalizing ns h c k with
  | nil =>
    have hlen := hr.mem.length
    rw [← hps] at hlen
    obtain rfl : ns = [] := List.eq_nil_of_length_eq_zero hlen
    have hhead : h.mem.packets.list.head = none := hr.mem.nodes.linked
    refine ⟨h, [], ?_, hr⟩
    cases k <;> rw [HeapClient.release, if_pos hhead]
  | cons p ps ih =>
    have hmem := hr.mem
    rw [← hps] at hmem
    cases ns with
    | nil => exact absurd hmem.length (by simp)
    | cons x ns =>
      obtain ⟨n, a⟩ := x
      obtain ⟨k, rfl⟩ : ∃ j, k = j + 1 := ⟨k - 1, by simp only [List.length_cons] at hk; omega⟩
      have hhead : h.mem.packets.list.head = some n := hmem.nodes.linked.1
      have hfront : h.mem.packetAt h.mem.packets.list.head = some p := by
        rw [hhead]
        exact Owns.packetAt (show Owns mem₀ ([] ++ (n, a) :: ns) ([] ++ p :: ps) h.mem from hmem)
          rfl
      have hback := hmem.back hhead
      rw [HeapClient.release, if_neg (by rw [hhead]; exact Option.some_ne_none _), hfront,
        Option.bind_some, hback,
        Option.bind_some, Client.releaseLoop]
      split_ifs with h1 h2
      · exact ⟨h, _, rfl, hr⟩
      · exact ⟨h, _, rfl, hr⟩
      · obtain ⟨m, hm, howns⟩ := hmem.removeFront
        rw [hm, Option.bind_some]
        have hr' : Refines mem₀ ns
            { h with
              vars := { h.vars with lastACK := now, written := h.vars.written + (getLen p).toNat }
              mem := m } (c.removeFront now p ps) := by
          refine ⟨?_, howns, ?_, hr.noFault⟩
          · dsimp only
            rw [hr.vars]
            rfl
          · have hw := hr.window
            rw [← hps, List.length_cons] at hw
            exact Nat.le_of_succ_le hw
        exact ih hr' (by simpa using hk) rfl

/-- The local variables change, and the window does not. -/
theorem Refines.setVars (hr : Refines mem₀ ns h c) {v d : Client φ} (hv : v = d.bare)
    (hp : d.packets = c.packets) : Refines mem₀ ns { h with vars := v } d :=
  ⟨hv, by rw [hp]; exact hr.mem, by rw [hp]; exact hr.window, hr.noFault⟩

theorem Refines.passStep (hr : Refines mem₀ ns h c) (fread : φ → ℕ → Bytes × φ)
    (sendto : Bytes → Bool) (now : ℤ) {fresh : List (ℕ × ℕ)} (hlen : fresh.length = windowSize)
    (hfresh : h.mem.Fresh fresh) : ∃ h' ns',
      h.passStep fread sendto now fresh = some (h', (c.passStep fread sendto now).2) ∧
      Refines mem₀ ns' h' (c.passStep fread sendto now).1 := by
  obtain ⟨ns', hf⟩ := hr.fill fread hfresh
  rw [hlen] at hf
  change Refines mem₀ ns' (h.fill fread fresh) (c.fill fread) at hf
  have hnodes : ns'.length ≤ windowSize := by rw [hf.mem.length]; exact hf.window
  have hlast : (h.fill fread fresh).vars.lastACK = (c.fill fread).lastACK := by rw [hf.vars]; rfl
  rw [HeapClient.passStep, Client.passStep]
  dsimp only
  rw [hf.mem.sendAll sendto hnodes, Option.map_some, hlast]
  split_ifs
  · exact ⟨_, ns', rfl, hf.setVars (by rw [hf.vars]; rfl) rfl⟩
  · exact ⟨_, ns', rfl, hf.setVars (by rw [hf.vars]; rfl) rfl⟩
  · exact ⟨_, ns', rfl, hf.setVars (by rw [hf.vars]; rfl) rfl⟩

theorem Client.loopTop_bare (now : ℤ) (c : Client φ) :
    c.bare.loopTop now = (c.loopTop now).bare := by
  rw [Client.loopTop, Client.loopTop, apply_ite Client.bare]
  rfl

theorem Client.loopTop_packets (now : ℤ) (c : Client φ) : (c.loopTop now).packets = c.packets := by
  rw [Client.loopTop]
  split_ifs <;> rfl

theorem Refines.handle (hr : Refines mem₀ ns h c) (rr : ReadResult) (now : ℤ) : ∃ h' ns',
    h.handle rr now = some h' ∧ Refines mem₀ ns' h' (c.handle rr now) := by
  obtain ⟨v, m, f⟩ := h
  obtain rfl : v = c.bare := hr.vars
  obtain ⟨d, hd⟩ : ∃ d : Client φ, d = { c with read := rr.ret, buffer := rr.buffer } := ⟨_, rfl⟩
  have hr' : Refines mem₀ ns ⟨d.bare, m, f⟩ d := hr.setVars rfl (by rw [hd])
  have hset : ∀ {e : Client φ}, e.packets = d.packets →
      ∃ h' ns', some (⟨e.bare, m, f⟩ : HeapClient φ) = some h' ∧ Refines mem₀ ns' h' e :=
    fun he => ⟨_, ns, rfl, hr'.setVars rfl he⟩
  have hheap : HeapClient.handle rr now ⟨c.bare, m, f⟩ =
      if rr.ret < 0 ∧ rr.again then some ⟨d.bare.loopTop now, m, f⟩
      else if command d.buffer = cmdAck then HeapClient.release (getSeqNum d.buffer) now windowSize
        ⟨d.bare, m, f⟩
      else if command d.buffer = cmdFin then
        if d.written < d.size then some ⟨(d.finish (.exited .badRequest)).bare, m, f⟩
          else some ⟨d.bare.loopTop now, m, f⟩
      else some ⟨d.bare, m, f⟩ := by
    rw [hd]
    rfl
  have hlist : Client.handle rr now c =
      if rr.ret < 0 ∧ rr.again then d.loopTop now
      else if command d.buffer = cmdAck then d.release (getSeqNum d.buffer) now
      else if command d.buffer = cmdFin then
        if d.written < d.size then d.finish (.exited .badRequest) else d.loopTop now
      else d := by
    rw [hd]
    rfl
  rw [hheap, hlist, Client.loopTop_bare]
  split_ifs
  · exact hset (Client.loopTop_packets _ _)
  · exact hr'.release _ now hr'.window
  · exact hset rfl
  · exact hset (Client.loopTop_packets _ _)
  · exact hset rfl

theorem Client.reply_bare (cmd : Byte) (now : ℤ) (c : Client φ) :
    c.bare.reply cmd now = (c.reply cmd now).bare := by
  rw [Client.reply, Client.reply, apply_ite Client.bare, apply_ite Client.bare,
    apply_ite Client.bare, ← Client.loopTop_bare]
  rfl

theorem Client.recvReply_bare (r : Recv) (now : ℤ) (c : Client φ) :
    c.bare.recvReply r now = (c.recvReply r now).bare := by
  rw [Client.recvReply, Client.recvReply]
  dsimp only
  rw [apply_ite Client.bare, apply_ite Client.bare, ← Client.reply_bare]
  rfl

theorem Client.handleFin_bare (rr : ReadResult) (c : Client φ) :
    c.bare.handleFin rr = (c.handleFin rr).bare := by
  rw [Client.handleFin, Client.handleFin]
  dsimp only
  rw [apply_ite Client.bare, apply_ite Client.bare]
  rfl

/-- The steps that do not touch the window are made on the local variables. -/
theorem Client.step_bare (fread : φ → ℕ → Bytes × φ) (wanted : Addr) (c : Client φ) (i : ClientIn)
    (hpass : c.pc ≠ .pass)
    (hdrain : c.pc ≠ .drain) : c.bare.step fread wanted i = (c.step fread wanted i).map fun p =>
      (p.1.bare, p.2) := by
  have hbare : c.bare.pc = c.pc := rfl
  cases i with
  | send sendto now =>
    cases hpc : c.pc with
    | reqSend =>
      simp only [Client.step, hbare, hpc]
      rw [apply_ite (Option.map fun p : Client φ × List Bytes => (p.1.bare, p.2))]
      rfl
    | pass => exact absurd hpc hpass
    | finTop =>
      simp only [Client.step, hbare, hpc]
      rw [apply_ite (Option.map fun p : Client φ × List Bytes => (p.1.bare, p.2))]
      rfl
    | _ => simp only [Client.step, hbare, hpc, Option.map_none]
  | recv temp r now =>
    cases hpc : c.pc with
    | reqRecv => simp only [Client.step, hbare, hpc, Client.recvReply_bare, Option.map_some]
    | drain => exact absurd hpc hdrain
    | finRecv =>
      simp only [Client.step, hbare, hpc, Client.handleFin_bare, Option.map_some]
      rfl
    | _ => simp only [Client.step, hbare, hpc, Option.map_none]

theorem Client.packets_of_step {wanted : Addr} {c d : Client φ} {i : ClientIn} {out : List Bytes}
    (hpass : c.pc ≠ .pass) (hdrain : c.pc ≠ .drain) (h : c.step fread wanted i = some (d, out)) :
    d.packets = c.packets := by
  cases Client.trans_of_step h with
  | reply hpc =>
    rw [Client.recvReply]
    dsimp only
    split_ifs
    · rfl
    · rfl
    · rw [Client.reply]
      split_ifs
      · exact Client.loopTop_packets _ _
      · rfl
      · rfl
      · exact Client.loopTop_packets _ _
  | pass hpc => exact absurd hpc hpass
  | drain hpc => exact absurd hpc hdrain
  | finRecv hpc =>
    rw [Client.handleFin]
    dsimp only
    split_ifs <;> rfl
  | _ => rfl

/-- **Every step of the client in memory is the step of the client with a list**, and follows no
pointer to free memory. -/
theorem Refines.step (hr : Refines mem₀ ns h c) {wanted : Addr} {i : HeapIn} {h' : HeapClient φ}
    {out : List Bytes} (hs : h.step fread wanted i = some (h', out)) :
    ∃ c' ns', c.step fread wanted i.plain = some (c', out) ∧ Refines mem₀ ns' h' c' := by
  have hpc : h.vars.pc = c.pc := by rw [hr.vars]; rfl
  have hother : ∀ {i : ClientIn}, c.pc ≠ .pass → c.pc ≠ .drain →
      ((h.vars.step fread wanted i).map fun p => ({ h with vars := p.1 }, p.2)) = some (h', out) →
      ∃ c' ns', c.step fread wanted i = some (c', out) ∧ Refines mem₀ ns' h' c' := by
    intro i hpass hdrain hs
    rw [hr.vars, Client.step_bare fread wanted c i hpass hdrain, Option.map_map,
      Option.map_eq_some_iff] at hs
    obtain ⟨⟨d, out'⟩, hd, he⟩ := hs
    obtain ⟨rfl, rfl⟩ := Prod.mk.inj he
    exact ⟨d, ns, hd, hr.setVars rfl (Client.packets_of_step hpass hdrain hd)⟩
  unfold HeapClient.step at hs
  rw [if_neg (by rw [hr.noFault]; simp), hpc] at hs
  split at hs
  · next sendto now fresh hp =>
    split_ifs at hs with hfresh
    obtain ⟨h'', ns', hpass, hr'⟩ := hr.passStep fread sendto now hfresh.1 hfresh.2
    rw [hpass] at hs
    obtain ⟨rfl, rfl⟩ := Prod.mk.inj (Option.some.inj hs)
    refine ⟨_, ns', ?_, hr'⟩
    simp only [HeapIn.plain, Client.step, hp]
  · next temp r now hp =>
    obtain ⟨h'', ns', hdrain, hr'⟩ := hr.handle (readOnlyFrom wanted h.vars.buffer temp r) now
    rw [hdrain] at hs
    obtain ⟨rfl, rfl⟩ := Prod.mk.inj (Option.some.inj hs)
    refine ⟨_, ns', ?_, hr'⟩
    simp only [HeapIn.plain, Client.step, hp]
    rfl
  · cases hs
  · cases hs
  · next i pc _ hpass hdrain hpass' hdrain' =>
    refine hother (fun hp => ?_) (fun hp => ?_) hs
    · cases i with
      | send sendto now fresh => exact hpass sendto now fresh hp rfl
      | recv temp r now => exact hpass' temp r now hp rfl
    · cases i with
      | send sendto now fresh => exact hdrain' sendto now fresh hp rfl
      | recv temp r now => exact hdrain temp r now hp rfl

/-- **What the client with a list can do, the client in memory can do too**, with any free
addresses. -/
theorem Refines.enabled (hr : Refines mem₀ ns h c) {wanted : Addr} {i : HeapIn}
    (hi : i.Possible h.mem) (hs : (c.step fread wanted i.plain).isSome) :
    (h.step fread wanted i).isSome := by
  have hpc : h.vars.pc = c.pc := by rw [hr.vars]; rfl
  have hother : c.pc ≠ .pass → c.pc ≠ .drain → (h.vars.step fread wanted i.plain).isSome := by
    intro hpass hdrain
    rw [hr.vars, Client.step_bare fread wanted c _ hpass hdrain, Option.isSome_map]
    exact hs
  unfold HeapClient.step
  rw [if_neg (by rw [hr.noFault]; simp), hpc]
  cases i with
  | send sendto now fresh =>
    cases hp : c.pc with
    | pass =>
      obtain ⟨hlen, hfresh⟩ : fresh.length = windowSize ∧ h.mem.Fresh fresh := hi
      obtain ⟨h', ns', hpass, -⟩ := hr.passStep fread sendto now hlen hfresh
      dsimp only
      rw [if_pos ⟨hlen, hfresh⟩, hpass]
      rfl
    | drain => simp [Client.step, HeapIn.plain, hp] at hs
    | _ =>
      dsimp only
      rw [Option.isSome_map]
      exact hother (by simp [hp]) (by simp [hp])
  | recv temp r now =>
    cases hp : c.pc with
    | pass => simp [Client.step, HeapIn.plain, hp] at hs
    | drain =>
      obtain ⟨h', ns', hdrain, -⟩ := hr.handle (readOnlyFrom wanted h.vars.buffer temp r) now
      dsimp only
      rw [hdrain]
      rfl
    | _ =>
      dsimp only
      rw [Option.isSome_map]
      exact hother (by simp [hp]) (by simp [hp])

end Refines

/-- The client at the start of `copy_file`, in any memory. -/
def HeapClient.init {φ : Type} (file : φ) (size : ℕ) (name : Bytes) (now : ℤ) (mem₀ : PacketMem) :
    HeapClient φ :=
  ⟨Client.init file size name now, { mem₀ with packets := mem₀.packets.initList }, false⟩

/-- **The client's window in memory.**  In every run, whatever the client receives, whatever `fread`
returns and wherever `malloc` puts the packets: no pointer to free memory is followed or freed, the
client does and sends what the client with a list of packets does, and the memory is as at the
start, except that every packet of the window, and nothing else, has a block and a node of its
own. -/
theorem heap_client {φ : Type} (fread : φ → ℕ → Bytes × φ) (wanted : Addr) (file : φ) (size : ℕ)
    (name : Bytes) (now : ℤ) (mem₀ : PacketMem) (h₀ : mem₀.packets.fault = false) (is : List HeapIn)
    (h : HeapClient φ) (out : List Bytes)
    (hrun : Machine.exec (Machine.logged (HeapClient.step fread wanted))
      (.init file size name now mem₀, []) is = some (h, out)) :
    ∃ c ns, Machine.exec (Machine.logged (Client.step fread wanted)) (.init file size name now, [])
    (is.map HeapIn.plain) =
        some (c, out) ∧ Refines mem₀ ns h c ∧
      ∀ i : HeapIn, i.Possible h.mem → (c.step fread wanted i.plain).isSome →
      (h.step fread wanted i).isSome := by
  have hinit : Refines mem₀ [] (HeapClient.init file size name now mem₀)
      (Client.init file size name now) :=
    ⟨rfl, ⟨.init h₀, rfl, List.nodup_nil, by simp, by simp, fun _ _ => rfl, fun _ _ => rfl⟩,
      Nat.zero_le _, rfl⟩
  obtain ⟨c, hc, ns, hr⟩ := Machine.exec_logged_simulates (R := fun h c => ∃ ns,
    Refines mem₀ ns h c) (f := HeapIn.plain)
    (fun h c i h' out ⟨ns, hr⟩ hs => (by
      obtain ⟨c', ns', hc, hr'⟩ := hr.step hs
      exact ⟨c', hc, ns', hr'⟩)) ⟨[], hinit⟩ hrun
  exact ⟨c, ns, hc, hr, fun i hi hs => hr.enabled hi hs⟩

/-- A file of one byte, with the blocks at `0, …, 49` and the nodes at `50, …, 99`; the first two
packets are released. -/
def heapRun : List HeapIn :=
  [.send (fun _ => true) 0 [], .recv [] (.got ⟨[]⟩ (createPacket cmdAck 1 0 [])) 0,
    .send (fun _ => true) 0 ((List.range 50).map fun i => (i, 50 + i)), .recv []
    (.got ⟨[]⟩ (createPacket cmdAck 3 0 [])) 0]

theorem heap_client_heapRun : ∃ h out c ns,
    Machine.exec (Machine.logged (HeapClient.step readFile ⟨[]⟩))
    (.init [42] 1 [97] 0 ⟨ListState.fresh, fun _ => none⟩, [])
      heapRun = some (h, out) ∧ h.mem.packets.list.size = 48 ∧ h.mem.blocks 0 = none ∧
      Refines ⟨ListState.fresh, fun _ => none⟩ ns h c := by
  obtain ⟨h, out, hrun, hsize, hfree⟩ : ∃ h out,
      Machine.exec (Machine.logged (HeapClient.step readFile ⟨[]⟩))
      (.init [42] 1 [97] 0 ⟨ListState.fresh, fun _ => none⟩, [])
        heapRun = some (h, out) ∧ h.mem.packets.list.size = 48 ∧ h.mem.blocks 0 = none :=
        ⟨_, _, rfl, rfl, rfl⟩
  obtain ⟨c, ns, -, hr, -⟩ := heap_client readFile ⟨[]⟩ [42] 1 [97] 0 ⟨ListState.fresh,
    fun _ => none⟩ rfl heapRun h out hrun
  exact ⟨h, out, c, ns, hrun, hsize, hfree, hr⟩

end FortyTwoHundred.Ftp

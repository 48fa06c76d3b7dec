import Mathlib.Logic.Function.Iterate
import FortyTwoHundred.Srtp.Sockets

/-!
# Address — the address a server binds to and the address a client connects to (`srtp.cpp`)

`srtp_bind` is `_srtp_bind` after `sin_port = ntohs (sin_port)` in the caller's own `sockaddr_in`;
`srtp_connect` is `_srtp_connect`, with the address as it is.  So on a machine with the low byte
first the port is turned round, once for each call with the same object.  `bind_address_iff` says
when none of this shows.
-/

namespace FortyTwoHundred.Srtp

/-- `sin_port = ntohs (sin_port)` in a `sockaddr_in`. -/
def ntohsPort (bo : ByteOrder) (address : Bytes) : Bytes :=
  poke 2 (bo.bytes (bo.ntohs (bo.word (address.getD 2 0) (address.getD 3 0)))) address

section Port

variable {address : Bytes} (h : address.length = sockaddrSize)
include h

theorem length_ntohsPort (bo : ByteOrder) : (ntohsPort bo address).length = sockaddrSize := by
  have hsize : sockaddrSize = 16 := rfl
  rw [ntohsPort, length_poke, h]
  rw [ByteOrder.length_bytes]
  omega

/-- The conversion leaves the port as it is on a machine with the high byte first, and a port with
two equal bytes. -/
theorem ntohsPort_eq_self_iff (bo : ByteOrder) :
    ntohsPort bo address = address ↔ bo = .big ∨ address.getD 2 0 = address.getD 3 0 := by
  have hport : address = poke 2 [address.getD 2 0, address.getD 3 0] address := by
    have hfour : 4 ≤ address.length := by rw [h]; decide
    clear h
    match address, hfour with
    | a :: b :: c :: d :: rest, _ => rfl
  have hinj : ∀ bs cs : Bytes, bs.length = 2 → cs.length = 2 →
      (poke 2 bs address = poke 2 cs address ↔ bs = cs) := by
    intro bs cs hb hc
    rw [poke, poke, hb, hc, List.append_left_inj, List.append_right_inj]
  have hread : ntohsPort bo address = address ↔
      ByteOrder.big.bytes (bo.word (address.getD 2 0) (address.getD 3 0)) = [address.getD 2 0,
      address.getD 3 0] := by
    rw [← hinj _ _ (ByteOrder.length_bytes _ _) rfl, ← hport, ntohsPort, ByteOrder.bytes_ntohs]
  rw [hread]
  cases bo with
  | big =>
    rw [ByteOrder.bytes_word]
    exact iff_of_true rfl (Or.inl rfl)
  | little =>
    have hswap : ByteOrder.little.word (address.getD 2 0) (address.getD 3 0) =
        ByteOrder.big.word (address.getD 3 0) (address.getD 2 0) := rfl
    rw [hswap, ByteOrder.bytes_word]
    constructor
    · intro heq
      exact Or.inr (List.cons.inj heq).1.symm
    · rintro (hbo | heq)
      · cases hbo
      · rw [heq]

end Port

namespace Sockets

/-- `srtp_bind` with the caller's `sockaddr_in` and `address_len`; the second component is the
`sockaddr_in` after the call. -/
def srtpBindIn (bo : ByteOrder) (fd : ℤ) (addressLen : ℕ) (p : Sockets × Bytes) : Sockets × Bytes :=
  let address := ntohsPort bo p.2
  (p.1.srtpBind fd (some (address.take addressLen)), address)

/-- Calls of `srtp_bind` one after the other, with the same `sockaddr_in`. -/
def srtpBinds (bo : ByteOrder) (fd : ℤ) (addressLen k : ℕ) (address : Bytes) (s : Sockets) :
    Sockets × Bytes :=
  (srtpBindIn bo fd addressLen)^[k] (s, address)

/-- The address that `srtp_connect` gives to `connect`, if it gets there. -/
def connectTarget (fd : ℤ) (address : Option Bytes) (s : Sockets) : Option Bytes :=
  if !s.isOpenSRTPSock fd then none
  else if !isValidIPAddress address then none
  else address

/-- The descriptor is open, and its connection holds the address `bs`. -/
structure Holds (fd : ℤ) (bs : Bytes) (s : Sockets) : Prop where
  isOpen : s.isOpenSRTPSock fd = true
  conn : ∃ id c, s.connAt fd = some (id, c) ∧ c.addrLen = some bs.length ∧ bs <+: c.addr

section Calls

variable {s : Sockets} {fd : ℤ}

/-- `_srtp_bind` stores the address. -/
theorem holds_srtpBind {bs : Bytes} (ho : s.isOpenSRTPSock fd = true) (hat : s.connAt fd ≠ none)
    (hpos : 0 < bs.length) (hsize : bs.length ≤ sockaddrSize) :
    Holds fd bs (s.srtpBind fd (some bs)) := by
  have hvalid : isValidIPAddress (some bs) = true := decide_eq_true hpos
  rcases srtpBind_cases fd (some bs) s with ⟨-, hinvalid⟩ | ⟨-, hn, -⟩ | ⟨id, c, bs', -, hc, e, he⟩
  · rw [hinvalid ho] at hvalid
    cases hvalid
  · exact absurd hn hat
  · obtain rfl := Option.some.inj e
    rw [he, if_neg (by omega)]
    refine ⟨ho, id, _, connAt_eq_some.mpr ⟨(connAt_eq_some.mp hc).1, StdMap.put_self⟩, rfl, ?_⟩
    show bs <+: (bs ++ c.addr.drop bs.length).take sockaddrSize
    rw [List.take_append, List.take_of_length_le hsize]
    exact List.prefix_append _ _

/-- `_srtp_listen` binds to the address of the connection. -/
theorem log_srtpListen {bs : Bytes} (h : Holds fd bs s) (hpos : 0 < bs.length) (junk : ℕ → Junk)
    (sockOk bindOk : Bool) (tid : ℕ) (buffer : Bytes) :
    ∃ rest, (s.srtpListen junk fd sockOk bindOk tid buffer).log =
      s.log ++ .bind (s.udpFd sockOk) bs bs.length :: rest := by
  obtain ⟨ho, id, c, hat, hlen, hbs⟩ := h
  have hlog : (s.openUdp sockOk).log = s.log := by cases sockOk <;> rfl
  have haddr : (c.readAddr (junk id)).take bs.length = bs := by
    obtain ⟨tail, hc⟩ := hbs
    rw [ConnT.readAddr, overlay, ← hc, List.append_assoc, List.take_left]
  have hread : c.readAddrLen (junk id) = bs.length := by
    rw [ConnT.readAddrLen, hlen]
    rfl
  unfold srtpListen
  rw [if_neg (by simp [ho]), deref_of_connAt hat]
  dsimp only
  rw [if_neg (by exact fun h0 => hpos.ne' (hread.symm.trans h0))]
  -- what is observed before the value of the call
  have hseen : ∀ v : ℤ, (s.openUdp sockOk).log ++
      [Obs.bind (s.udpFd sockOk) ((c.readAddr (junk id)).take (c.readAddrLen (junk id)))
      (c.readAddrLen (junk id))] ++
        [.ret v] = s.log ++ .bind (s.udpFd sockOk) bs bs.length :: [.ret v] := by
    intro v
    rw [hread, haddr, hlog, List.append_assoc]
    rfl
  split_ifs
  · exact ⟨[.ret (-1)], hseen (-1)⟩
  · exact ⟨[.ret 0], hseen 0⟩

/-- After some calls of `srtp_bind` the connection holds the address that the last one has left in
the caller's object. -/
theorem holds_srtpBinds (bo : ByteOrder) {len : ℕ} {address : Bytes}
    (ho : s.isOpenSRTPSock fd = true)
    (hat : s.connAt fd ≠ none) (haddr : address.length = sockaddrSize) (hpos : 0 < len)
    (hlen : len ≤ sockaddrSize) (k : ℕ) :
    (s.srtpBinds bo fd len k address).2.length = sockaddrSize ∧
      (s.srtpBinds bo fd len k address).1.isOpenSRTPSock fd = true ∧
      (s.srtpBinds bo fd len k address).1.connAt fd ≠ none ∧
      (0 < k → Holds fd ((s.srtpBinds bo fd len k address).2.take len)
        (s.srtpBinds bo fd len k address).1) := by
  induction k with
  | zero => exact ⟨haddr, ho, hat, fun h => absurd h (lt_irrefl 0)⟩
  | succ k ih =>
    obtain ⟨h1, h2, h3, -⟩ := ih
    rw [srtpBinds, Function.iterate_succ_apply']
    rw [srtpBinds] at h1 h2 h3
    generalize (srtpBindIn bo fd len)^[k] (s, address) = p at h1 h2 h3
    have hlen' : ((ntohsPort bo p.2).take len).length = len := by
      rw [List.length_take, length_ntohsPort h1]
      omega
    have hholds := holds_srtpBind h2 h3 (by omega : 0 < ((ntohsPort bo p.2).take len).length)
        (by omega)
    refine ⟨length_ntohsPort h1 bo, hholds.isOpen, ?_, fun _ => hholds⟩
    obtain ⟨id, c, hc, -⟩ := hholds.conn
    exact Option.ne_none_iff_exists'.mpr ⟨(id, c), hc⟩

theorem srtpBinds_snd {bo : ByteOrder} {len : ℕ} {address : Bytes}
    (h : ntohsPort bo address = address) (k : ℕ) :
    (s.srtpBinds bo fd len k address).2 = address := by
  induction k with
  | zero => rfl
  | succ k ih =>
    rw [srtpBinds, Function.iterate_succ_apply']
    show ntohsPort bo (s.srtpBinds bo fd len k address).2 = address
    rw [ih, h]

end Calls

/-- **Server and client agree on addresses**: each of `k` calls of `srtp_bind` leaves the caller's
`sockaddr_in` as it was, and a `srtp_listen` after them binds to the bytes that `srtp_connect`
connects to, if and only if there is no call, the machine has the high byte first, or the two bytes
of the port are equal. -/
theorem bind_address_iff (bo : ByteOrder) (junk : ℕ → Junk) (s : Sockets) (fd : ℤ)
    (address : Bytes) (len k : ℕ)
    (sockOk bindOk : Bool) (tid : ℕ) (buffer : Bytes) (haddr : address.length = sockaddrSize)
    (hlen : len ≤ sockaddrSize) : (∀ j ≤ k, (s.srtpBinds bo fd len j address).2 = address ∧
        (0 < j → s.connAt fd ≠ none → ∀ target, s.connectTarget fd (some (address.take len)) =
          some target → ∃ rest,
            ((s.srtpBinds bo fd len j address).1.srtpListen junk fd sockOk bindOk tid buffer).log =
            (s.srtpBinds bo fd len j address).1.log ++
              .bind ((s.srtpBinds bo fd len j address).1.udpFd sockOk) target
                target.length :: rest)) ↔
      k = 0 ∨ bo = .big ∨ address.getD 2 0 = address.getD 3 0 := by
  rw [← ntohsPort_eq_self_iff haddr]
  constructor
  · intro h
    rcases Nat.eq_zero_or_pos k with h0 | hk
    · exact Or.inl h0
    · exact Or.inr (h 1 hk).1
  · rintro hok j hj
    have hsnd : (s.srtpBinds bo fd len j address).2 = address := by
      rcases hok with h0 | hport
      · obtain rfl : j = 0 := by omega
        rfl
      · exact srtpBinds_snd hport j
    refine ⟨hsnd, ?_⟩
    intro hj0 hat target htarget
    obtain ⟨ho, hvalid, rfl⟩ : s.isOpenSRTPSock fd = true ∧
        isValidIPAddress (some (address.take len)) = true ∧
        address.take len = target := by
      unfold connectTarget at htarget
      split_ifs at htarget with h1 h2
      exact ⟨by simpa using h1, by simpa using h2, Option.some.inj htarget⟩
    have hpos : 0 < (address.take len).length := of_decide_eq_true hvalid
    have hpos' : 0 < len := by
      rw [List.length_take] at hpos
      omega
    obtain ⟨-, -, -, hholds⟩ := holds_srtpBinds bo ho hat haddr hpos' hlen j
    have hholds := hholds hj0
    rw [hsnd] at hholds
    exact log_srtpListen hholds hpos junk sockOk bindOk tid buffer

/-- The loopback address, and a port of two bytes. -/
def loopback (hi lo : Byte) : Bytes := [2, 0, hi, lo, 127, 0, 0, 1, 0, 0, 0, 0, 0, 0, 0, 0]

/-- A process with one SRTP socket. -/
def oneSocket : Sockets := srtpSocket 0 true (init [0, 1, 2])

/-- Three calls with port `257`, whose two bytes are equal; the socket listens where `srtp_connect`
goes. -/
theorem bind_address_port_257 : (loopback 1 1).length = sockaddrSize ∧
    (oneSocket.srtpBinds .little 3 16 3 (loopback 1 1)).2 = loopback 1 1 ∧
    oneSocket.connectTarget 3 (some (loopback 1 1)) = some (loopback 1 1) ∧
    ∃ rest, ((oneSocket.srtpBinds .little 3 16 3 (loopback 1 1)).1.srtpListen
      (fun _ => ⟨0, 0, [], 0, 0⟩) 3
        true true 7 []).log =
      (oneSocket.srtpBinds .little 3 16 3 (loopback 1 1)).1.log ++ .bind 4 (loopback 1 1)
        16 :: rest := by
  have htarget : oneSocket.connectTarget 3 (some (loopback 1 1)) = some (loopback 1 1) := rfl
  have hat : oneSocket.connAt 3 ≠ none := Option.some_ne_none _
  obtain ⟨hsame, hlisten⟩ :=
    (bind_address_iff .little (fun _ => ⟨0, 0, [], 0, 0⟩) oneSocket 3 (loopback 1 1)
    16 3 true true 7 [] rfl le_rfl).mpr (Or.inr (Or.inr rfl)) 3 le_rfl
  exact ⟨rfl, hsame, htarget, hlisten (by decide) hat _ htarget⟩

/-- On a machine with the low byte first, port `3000` is bound as port `47115`, and the caller's
object is changed; the second call with it changes it back. -/
theorem port_bound_swapped :
    (oneSocket.srtpBinds .little 3 16 1 (loopback 11 184)).2 ≠ loopback 11 184 ∧
      oneSocket.connectTarget 3 (some ((loopback 11 184).take 16)) = some (loopback 11 184) ∧
      ((oneSocket.srtpBinds .little 3 16 1 (loopback 11 184)).1.srtpListen
        (fun _ => ⟨0, 0, [], 0, 0⟩) 3 true true 7 []).log = [.ret 0, .bind 4 (loopback 184 11) 16,
        .ret 0] ∧
      loopback 184 11 ≠ loopback 11 184 ∧
      (oneSocket.srtpBinds .little 3 16 2 (loopback 11 184)).2 = loopback 11 184 :=
  ⟨by decide, rfl, rfl, by decide, rfl⟩

end Sockets

end FortyTwoHundred.Srtp

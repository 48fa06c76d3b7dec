import Mathlib.Data.List.TakeWhile
import FortyTwoHundred.Ftp.Common

/-!
# Request — the text of a write request

`complete_request` prints `name|size` into the payload of the `WRQ` packet (`sprintf "%s|%ld"`); the
server child takes the payload as a C string, cuts it at the first `|`, keeps what follows the last
`/` of the name and reads the size with `sscanf "%ld%c"`.

* `requestText`, `requestPacket`: the client's side.
* `parseRequest`: the server's side up to the existence check; `scanSize`: the `sscanf` after it.
* `scanSize_eq_some_iff`: the sizes that the server takes; `parseRequest_of_cstr`: the name and the
  size text of a request.
* `parseRequest_requestText`, `scanSize_requestText`: what the server reads back from the client's
  request.
-/

namespace FortyTwoHundred.Ftp

/-! ## Decimal numbers -/

def isDigit (b : Byte) : Bool := decide (48 ≤ b.toNat) && decide (b.toNat ≤ 57)

/-- `isspace` of the C locale. -/
def isSpace (b : Byte) : Bool := b.toNat == 32 || (decide (9 ≤ b.toNat) && decide (b.toNat ≤ 13))

/-- The value of a string of digits. -/
def decimal (ds : Bytes) : ℕ := ds.foldl (fun n d => n * 10 + (d.toNat - 48)) 0

/-- Digits of `n`, most significant first, put before `acc`. -/
def showAux : ℕ → ℕ → Bytes → Bytes
  | 0, _, acc => acc
  | fuel + 1, n, acc =>
    if n / 10 = 0 then UInt8.ofNat (48 + n % 10) :: acc
    else showAux fuel (n / 10) (UInt8.ofNat (48 + n % 10) :: acc)

/-- `%ld` of a number that is not negative. -/
def showLong (n : ℕ) : Bytes := showAux (n + 1) n []

theorem toNat_digit (n : ℕ) : (UInt8.ofNat (48 + n % 10)).toNat = 48 + n % 10 := by
  rw [UInt8.toNat_ofNat']
  omega

theorem isDigit_digit (n : ℕ) : isDigit (UInt8.ofNat (48 + n % 10)) = true := by
  simp only [isDigit, toNat_digit, Bool.and_eq_true, decide_eq_true_eq]
  omega

/-- What `showAux` adds before `acc` are digits, and they have the value `n`. -/
theorem showAux_spec {fuel n : ℕ} (h : n < fuel) (acc : Bytes) :
    ∃ ds, showAux fuel n acc = ds ++ acc ∧ ds ≠ [] ∧ (∀ d ∈ ds, isDigit d = true) ∧
    decimal ds = n := by
  induction fuel generalizing n acc with
  | zero => omega
  | succ fuel ih =>
    rw [showAux]
    split_ifs with h0
    · refine ⟨[UInt8.ofNat (48 + n % 10)], rfl, by simp, ?_, ?_⟩
      · intro d hmem
        rw [List.mem_singleton.mp hmem]; exact isDigit_digit n
      · simp only [decimal, List.foldl_cons, List.foldl_nil, toNat_digit]
        omega
    · obtain ⟨ds, e, hne, hd, hv⟩ := ih (n := n / 10) (by omega) (UInt8.ofNat (48 + n % 10) :: acc)
      refine ⟨ds ++ [UInt8.ofNat (48 + n % 10)], by rw [e]; simp, by simp, ?_, ?_⟩
      · intro d hmem
        rcases List.mem_append.mp hmem with hmem | hmem
        · exact hd d hmem
        · rw [List.mem_singleton.mp hmem]; exact isDigit_digit n
      · simp only [decimal, List.foldl_append, List.foldl_cons, List.foldl_nil, toNat_digit] at hv ⊢
        rw [hv]
        omega

theorem showLong_spec (n : ℕ) :
    showLong n ≠ [] ∧ (∀ d ∈ showLong n, isDigit d = true) ∧ decimal (showLong n) = n := by
  obtain ⟨ds, e, hne, hd, hv⟩ := showAux_spec (Nat.lt_succ_self n) []
  have e' : showLong n = ds := by rw [showLong, e, List.append_nil]
  rw [e']
  exact ⟨hne, hd, hv⟩

/-! ## The client's side -/

/-- `|` and `/`. -/
def bar : Byte := 124
def slash : Byte := 47

/-- `sprintf (payload, "%s|%ld", filename, size)`. -/
def requestText (name : Bytes) (size : ℕ) : Bytes := name ++ bar :: showLong size

/-- The packet of `complete_request`: `strlen (payload)` bytes of payload. -/
def requestPacket (name : Bytes) (size : ℕ) : Bytes :=
  createPacket cmdWrq 0 (UInt16.ofNat (requestText name size).length) (requestText name size)

/-! ## The server's side -/

/-- The C string at the start of a block of memory. -/
def cstr (mem : Bytes) : Bytes := mem.takeWhile (· != 0)

def longMax : ℤ := 2 ^ 63 - 1
def longMin : ℤ := -2 ^ 63

/-- An optional sign is skipped. -/
def skipSign (t : Bytes) : Bytes :=
  if t.head? = some 45 ∨ t.head? = some 43 then t.tail else t

/-- `%ld`: white space, an optional sign and at least one digit; a value out of range is clamped.
Gives the value and the rest of the input. -/
def scanLong (s : Bytes) : Option (ℤ × Bytes) :=
  let t := s.dropWhile isSpace
  let ds := (skipSign t).takeWhile isDigit
  if ds = [] then none
  else
    let v : ℤ := if t.head? = some 45 then -decimal ds else decimal ds
    some (max longMin (min longMax v), (skipSign t).dropWhile isDigit)

/-- `sscanf (s, "%ld%c", &filesize, &dummy)`: the value if exactly one conversion succeeds, that is
if `%c` finds nothing left. -/
def scanSize (s : Bytes) : Option ℤ :=
  match scanLong s with
  | some (v, []) => some v
  | _ => none

/-- What the request names: the file, and the text after the separator that holds its size. -/
structure Request where
  filename : Bytes
  sizeText : Bytes
  deriving DecidableEq

/-- The parsing of the payload: `none` if there is no `|`.  The last `/` is searched in the whole
payload, before the separator is overwritten. -/
def parseRequest (payload : Bytes) : Option Request :=
  let text := cstr payload
  if bar ∈ text then
    let separator := text.idxOf bar
    let cut := text.set separator 0
    let filename :=
      if slash ∈ text then cstr (cut.drop (text.length - text.reverse.idxOf slash)) else cstr cut
    some ⟨filename, text.drop (separator + 1)⟩
  else none

/-! ## What the server reads back -/

/-- The sizes that `sscanf` takes: white space, an optional sign and digits up to the end, with the
value they stand for, clamped to the range of a `long`. -/
def SizeText (s : Bytes) (v : ℤ) : Prop :=
  ∃ spaces sign ds, s = spaces ++ (sign ++ ds) ∧ (∀ b ∈ spaces, isSpace b = true) ∧
    (sign = [] ∨ sign = [43] ∨ sign = [45]) ∧ ds ≠ [] ∧ (∀ b ∈ ds, isDigit b = true) ∧
    v = max longMin (min longMax (if sign = [45] then -(decimal ds : ℤ) else decimal ds))

theorem isDigit_iff {b : Byte} : isDigit b = true ↔ 48 ≤ b.toNat ∧ b.toNat ≤ 57 := by
  simp only [isDigit, Bool.and_eq_true, decide_eq_true_eq]

theorem not_isSpace_of_isDigit {b : Byte} (h : isDigit b = true) : isSpace b = false := by
  rw [isDigit_iff] at h
  simp only [isSpace, Bool.or_eq_false_iff, beq_eq_false_iff_ne, Bool.and_eq_false_iff,
    decide_eq_false_iff_not]
  omega

/-- `%ld` of a text that is a sign and digits after white space. -/
theorem scanLong_sizeText {spaces sign ds : Bytes} (hsp : ∀ b ∈ spaces, isSpace b = true)
    (hsign : sign = [] ∨ sign = [43] ∨ sign = [45]) (hne : ds ≠ [])
    (hd : ∀ b ∈ ds, isDigit b = true) : scanLong (spaces ++ (sign ++ ds)) =
      some (max longMin (min longMax (if sign = [45] then -(decimal ds : ℤ) else decimal ds)),
        []) := by
  obtain ⟨d, ds', rfl⟩ := List.exists_cons_of_ne_nil hne
  have hdig := isDigit_iff.mp (hd d (by simp))
  have hspace := not_isSpace_of_isDigit (hd d (by simp))
  have h45 : d ≠ 45 := by
    rintro rfl
    exact absurd hdig.1 (by decide)
  have h43 : d ≠ 43 := by
    rintro rfl
    exact absurd hdig.1 (by decide)
  have htake : (d :: ds').takeWhile isDigit = d :: ds' := List.takeWhile_eq_self_iff.mpr hd
  have hdrop : (d :: ds').dropWhile isDigit = [] := List.dropWhile_eq_nil_iff.mpr hd
  have hskip : skipSign (d :: ds') = d :: ds' := by simp [skipSign, h45, h43]
  unfold scanLong
  rw [List.dropWhile_append_of_pos hsp]
  rcases hsign with rfl | rfl | rfl
  · rw [List.nil_append, List.dropWhile_cons_of_neg (by simp [hspace])]
    simp [hskip, h45, htake, hdrop]
  · have hs : skipSign (43 :: d :: ds') = d :: ds' := by simp [skipSign]
    rw [List.singleton_append, List.dropWhile_cons_of_neg (by decide)]
    simp [hs, htake, hdrop]
  · have hs : skipSign (45 :: d :: ds') = d :: ds' := by simp [skipSign]
    rw [List.singleton_append, List.dropWhile_cons_of_neg (by decide)]
    simp [hs, htake, hdrop]

/-- A text is its sign, if it has one, and what `skipSign` leaves. -/
theorem skipSign_split (t : Bytes) : ∃ sign, t = sign ++ skipSign t ∧
    (sign = [] ∨ sign = [43] ∨ sign = [45]) ∧
    (sign = [45] ↔ t.head? = some 45) := by
  cases t with
  | nil => exact ⟨[], by simp [skipSign], Or.inl rfl, by simp⟩
  | cons c t =>
    by_cases h45 : c = 45
    · subst h45
      exact ⟨[45], by simp [skipSign], Or.inr (Or.inr rfl), by simp⟩
    · by_cases h43 : c = 43
      · subst h43
        exact ⟨[43], by simp [skipSign], Or.inr (Or.inl rfl), by simp⟩
      · exact ⟨[], by simp [skipSign, h45, h43], Or.inl rfl, by simp [h45]⟩

/-- **The sizes that the server takes.** -/
theorem scanSize_eq_some_iff {s : Bytes} {v : ℤ} : scanSize s = some v ↔ SizeText s v := by
  constructor
  · intro h
    obtain ⟨sign, hsplit, hsign, hminus⟩ := skipSign_split (s.dropWhile isSpace)
    have hs : scanLong s = some (v, []) := by
      unfold scanSize at h
      split at h
      · next hs => rw [hs, Option.some.inj h]
      · cases h
    unfold scanLong at hs
    dsimp only at hs
    split_ifs at hs with hne hhead
    all_goals
      simp only [Option.some.injEq, Prod.mk.injEq] at hs
      obtain ⟨hv, hrest⟩ := hs
      have hds : (skipSign (s.dropWhile isSpace)).takeWhile isDigit =
          skipSign (s.dropWhile isSpace) :=
        List.takeWhile_eq_self_iff.mpr (List.dropWhile_eq_nil_iff.mp hrest)
      rw [hds] at hne hv
      refine ⟨s.takeWhile isSpace, sign, skipSign (s.dropWhile isSpace), ?_,
        fun b hb => List.mem_takeWhile_imp hb,
        hsign, hne, List.dropWhile_eq_nil_iff.mp hrest, ?_⟩
      · rw [← hsplit, List.takeWhile_append_dropWhile]
    · rw [if_pos (hminus.mpr hhead), hv]
    · rw [if_neg (fun e => hhead (hminus.mp e)), hv]
  · rintro ⟨spaces, sign, ds, rfl, hsp, hsign, hne, hd, rfl⟩
    rw [scanSize, scanLong_sizeText hsp hsign hne hd]

/-- The text of a size is read back as that size. -/
theorem scanSize_showLong {n : ℕ} (h : (n : ℤ) ≤ longMax) :
    scanSize (showLong n) = some (n : ℤ) := by
  obtain ⟨hne, hd, hv⟩ := showLong_spec n
  have hmin : longMin ≤ (n : ℤ) := le_trans (by decide) (Int.natCast_nonneg n)
  rw [scanSize_eq_some_iff]
  refine ⟨[], [], showLong n, rfl, by simp, Or.inl rfl, hne, hd, ?_⟩
  rw [if_neg (by simp), hv, min_eq_right h, max_eq_right hmin]

/-- A byte that is no white space, sign or digit makes `sscanf` fail. -/
theorem scanSize_of_mem {s : Bytes} {b : Byte} (hb : b ∈ s) (hsp : isSpace b = false)
    (hd : isDigit b = false) (h43 : b ≠ 43) (h45 : b ≠ 45) : scanSize s = none := by
  cases hs : scanSize s with
  | none => rfl
  | some v =>
    exfalso
    obtain ⟨spaces, sign, ds, rfl, h1, h2, -, h3, -⟩ := scanSize_eq_some_iff.mp hs
    rcases List.mem_append.mp hb with hb | hb
    · simp [h1 b hb] at hsp
    · rcases List.mem_append.mp hb with hb | hb
      · rcases h2 with rfl | rfl | rfl <;> simp_all
      · simp [h3 b hb] at hd

theorem scanSize_of_bar {s : Bytes} (h : bar ∈ s) : scanSize s = none :=
  scanSize_of_mem h (by decide) (by decide) (by decide) (by decide)

theorem scanSize_of_slash {s : Bytes} (h : slash ∈ s) : scanSize s = none :=
  scanSize_of_mem h (by decide) (by decide) (by decide) (by decide)

theorem bne_of_notMem {t : Bytes} {b : Byte} (h : b ∉ t) : ∀ c ∈ t, (c != b) = true := by
  intro c hc
  rw [bne_iff_ne]
  rintro rfl
  exact h hc

theorem cstr_append_zero {t mem : Bytes} (ht : 0 ∉ t) : cstr (t ++ 0 :: mem) = t := by
  rw [cstr, List.takeWhile_append_of_pos (bne_of_notMem ht)]
  simp

theorem cstr_append_replicate (t : Bytes) (k : ℕ) : cstr (t ++ List.replicate k 0) = cstr t := by
  induction t with
  | nil => cases k <;> simp [cstr, List.replicate_succ]
  | cons b t ih =>
    by_cases hb : b = 0
    · simp [cstr, hb]
    · simp only [cstr, List.cons_append] at ih ⊢
      rw [List.takeWhile_cons_of_pos (by simpa using hb),
        List.takeWhile_cons_of_pos (by simpa using hb), ih]

theorem zero_notMem_cstr (mem : Bytes) : 0 ∉ cstr mem := by
  intro h
  have := List.mem_takeWhile_imp h
  simp at this

theorem cstr_of_notMem {t : Bytes} (ht : 0 ∉ t) : cstr t = t := by
  rw [cstr, List.takeWhile_eq_self_iff]
  exact bne_of_notMem ht

/-- The part of a path after its last `/`; all of it if it has none. -/
def basename (path : Bytes) : Bytes := (path.reverse.takeWhile (· != slash)).reverse

theorem slash_notMem_basename (path : Bytes) : slash ∉ basename path := by
  rw [basename, List.mem_reverse]
  intro h
  have := List.mem_takeWhile_imp h
  simp at this

theorem basename_of_notMem {path : Bytes} (h : slash ∉ path) : basename path = path := by
  have hrev : slash ∉ path.reverse := by simpa using h
  rw [basename, List.takeWhile_eq_self_iff.mpr (bne_of_notMem hrev), List.reverse_reverse]

theorem basename_append {a b : Bytes} (hb : slash ∉ b) : basename (a ++ slash :: b) = b := by
  have hrev : slash ∉ b.reverse := by simpa using hb
  rw [basename, List.reverse_append, List.reverse_cons, List.append_assoc,
    List.takeWhile_append_of_pos (bne_of_notMem hrev)]
  simp

/-- A text with a `/` splits at its last one, which is where `strrchr` points. -/
theorem split_last_slash {t : Bytes} (h : slash ∈ t) :
    ∃ a b, t = a ++ slash :: b ∧ slash ∉ b ∧ t.length - t.reverse.idxOf slash = a.length + 1 := by
  obtain ⟨b, a, e, hb⟩ := List.eq_append_cons_of_mem (List.mem_reverse.mpr h)
  have ht : t = a.reverse ++ slash :: b.reverse := by
    rw [← List.reverse_reverse t, e]
    simp
  refine ⟨a.reverse, b.reverse, ht, by simpa using hb, ?_⟩
  rw [e, List.idxOf_append_of_notMem hb, ht]
  simp
  omega

/-- **The parsed request**: the text is cut at the first `|`, and the name is what follows the last
`/` of the whole text; a `/` after the `|` makes it a part of the size text. -/
theorem parseRequest_of_cstr {mem path size : Bytes} (ht : cstr mem = path ++ bar :: size)
    (hbar : bar ∉ path) :
    parseRequest mem = some ⟨if slash ∈ size then basename size else basename path, size⟩ := by
  have hzero : 0 ∉ path ++ bar :: size := ht ▸ zero_notMem_cstr mem
  simp only [List.mem_append, List.mem_cons, not_or] at hzero
  obtain ⟨hz1, -, hz2⟩ := hzero
  have hmem : bar ∈ path ++ bar :: size := by simp
  have hidx : (path ++ bar :: size).idxOf bar = path.length := by
    rw [List.idxOf_append_of_notMem hbar]
    simp
  have hset : (path ++ bar :: size).set path.length 0 = path ++ 0 :: size := by simp
  have hdrop : (path ++ bar :: size).drop (path.length + 1) = size := by simp
  unfold parseRequest
  simp only [ht, hmem, if_true, hidx, hset, hdrop, Option.some.injEq, Request.mk.injEq, and_true]
  by_cases hsize : slash ∈ size
  · -- the last `/` is in the size text
    obtain ⟨a, b, rfl, hb, -⟩ := split_last_slash hsize
    have hslash : slash ∈ path ++ bar :: (a ++ slash :: b) := by simp
    obtain ⟨a', b', e, hb', hlen⟩ := split_last_slash hslash
    have hab : b' = b := by
      rw [← basename_append hb', ← e, show path ++ bar :: (a ++ slash :: b) = (path ++ bar :: a) ++
        slash :: b by simp,
        basename_append hb]
    rw [if_pos hslash, if_pos hsize, basename_append hb, hlen]
    subst hab
    have ha' : a'.length = path.length + 1 + a.length := by
      have := congrArg List.length e
      simp only [List.length_append, List.length_cons] at this
      omega
    have hcut : path ++ 0 :: (a ++ slash :: b') = (path ++ 0 :: a ++ [slash]) ++ b' := by simp
    rw [hcut, List.drop_left' (by simp; omega), cstr_of_notMem fun h0 => hz2 (by simp [h0])]
  · rw [if_neg hsize]
    by_cases hpath : slash ∈ path
    · obtain ⟨a, b, rfl, hb, -⟩ := split_last_slash hpath
      have hslash : slash ∈ (a ++ slash :: b) ++ bar :: size := by simp
      obtain ⟨a', b', e, hb', hlen⟩ := split_last_slash hslash
      have hnot : slash ∉ b ++ bar :: size := by
        simp only [List.mem_append, List.mem_cons, not_or]
        exact ⟨hb, by decide, hsize⟩
      have hab : b' = b ++ bar :: size := by
        rw [← basename_append hb', ← e, List.append_assoc, List.cons_append, basename_append hnot]
      rw [if_pos hslash, basename_append hb, hlen]
      have ha' : a'.length = a.length := by
        have := congrArg List.length e
        simp only [hab, List.length_append, List.length_cons] at this
        omega
      have hcut : (a ++ slash :: b) ++ 0 :: size = (a ++ [slash]) ++ (b ++ 0 :: size) := by simp
      rw [hcut, List.drop_left' (by simp [ha']), cstr_append_zero fun h0 => hz1 (by simp [h0])]
    · have hslash : slash ∉ path ++ bar :: size := by
        simp only [List.mem_append, List.mem_cons, not_or]
        exact ⟨hpath, by decide, hsize⟩
      rw [if_neg hslash, basename_of_notMem hpath, cstr_append_zero hz1]

theorem parseRequest_of_notMem {mem : Bytes} (h : bar ∉ cstr mem) : parseRequest mem = none := by
  unfold parseRequest
  simp only [h, if_false]

theorem zero_notMem_requestText {name : Bytes} (hnul : 0 ∉ name) (n : ℕ) :
    0 ∉ requestText name n := by
  obtain ⟨-, hd, -⟩ := showLong_spec n
  simp only [requestText, List.mem_append, List.mem_cons, not_or]
  refine ⟨hnul, by decide, fun h0 => ?_⟩
  have := hd 0 h0
  revert this; decide

theorem slash_notMem_showLong (n : ℕ) : slash ∉ showLong n := by
  intro h
  have := (showLong_spec n).2.1 slash h
  revert this; decide

/-- **Round trip** of a name without `|`. -/
theorem parseRequest_requestText {name mem : Bytes} {n : ℕ} (hmem : cstr mem = requestText name n)
    (hbar : bar ∉ name) : parseRequest mem = some ⟨basename name, showLong n⟩ := by
  rw [parseRequest_of_cstr hmem hbar, if_neg (slash_notMem_showLong n)]

/-- The size text of a request for `name`: what `sscanf` accepts there is the client's size, and it
accepts nothing if the name has a `|`. -/
theorem scanSize_requestText {name mem : Bytes} {n : ℕ} {req : Request} {v : ℤ}
    (hmem : cstr mem = requestText name n)
    (hn : (n : ℤ) ≤ longMax) (hreq : parseRequest mem = some req)
    (hv : scanSize req.sizeText = some v) : bar ∉ name ∧ v = n := by
  by_cases hname : bar ∈ name
  · -- the first `|` is inside the name, another one is left in the size text
    exfalso
    obtain ⟨a, b, rfl, ha⟩ := List.eq_append_cons_of_mem hname
    have e : requestText (a ++ bar :: b) n = a ++ bar :: (b ++ bar :: showLong n) := by
        simp [requestText]
    rw [parseRequest_of_cstr (hmem.trans e) ha, Option.some.injEq] at hreq
    rw [← hreq, scanSize_of_bar (by simp)] at hv
    cases hv
  · refine ⟨hname, ?_⟩
    rw [parseRequest_of_cstr hmem hname, Option.some.injEq] at hreq
    rw [← hreq, scanSize_showLong hn] at hv
    exact (Option.some.inj hv).symm

/-! ## The packet of a request that fits -/

section Fits

variable {name : Bytes} {n : ℕ} (hfits : (requestText name n).length < payloadSize)
include hfits

theorem toNat_length_requestText :
    (UInt16.ofNat (requestText name n).length).toNat = (requestText name n).length := by
  have hp : payloadSize = 2043 := rfl
  rw [UInt16.toNat_ofNat']
  omega

theorem isPacket_requestPacket : IsPacket (requestPacket name n) := by
  refine .createPacket (toNat_length_requestText hfits).le ?_
  rw [toNat_length_requestText hfits]
  exact hfits.le

theorem sendPacket_requestPacket : sendPacket (requestPacket name n) = requestPacket name n :=
  sendPacket_createPacket (toNat_length_requestText hfits).le

theorem drop_requestPacket : (requestPacket name n).drop headerSize = requestText name n := by
  rw [requestPacket, drop_createPacket, toNat_length_requestText hfits, List.take_length]

end Fits

end FortyTwoHundred.Ftp

import FortyTwoHundred.Lib.CString
import FortyTwoHundred.Ftp.Server

/-!
# Bounds — the memory that the parsing of a request touches

`parseRequest` of `Request` takes the payload of a request as a C string, wherever that ends.  Here
the same code is run on the block of memory it has, the rest of the `PACKET_SIZE` buffer after the
header, with the calls of the string functions as the source makes them: an access outside a block
is an error.  Where there is none the result is the one of `parseRequest`
(`Child.parse_of_parseChecked`), and `request_bounds_iff` says for which datagrams there is none.
-/

namespace FortyTwoHundred.Ftp

open CString (Outside strlen strchr strrchr strcpy strncpy store text)

/-- The copy of the file name to a fresh block; `filename` is the offset of the last `/`. -/
def copyFilename (payload : Bytes) (filename : Option ℕ) : Except Outside Bytes :=
  match filename with
  | none => do
    let len ← strlen 0 payload
    let bs ← strcpy 0 payload
    store (len + 1) bs
  | some i => do
    let len ← strlen 0 (payload.drop (i + 1))
    -- the length of the string from the `/` on, and one more
    let n ← strlen 0 (payload.drop i)
    let bs ← strncpy 0 (n + 1) (payload.drop (i + 1))
    store (len + 1) bs

/-- The parsing of the payload in its block. -/
def parseChecked (payload : Bytes) : Except Outside (Option Request) := do
  let filename ← strrchr 0 slash payload
  let separator ← strchr 0 bar payload
  match separator with
  | none => return none
  | some i =>
    let payload := payload.set i 0
    let name ← copyFilename payload filename
    -- `sscanf` reads the string after the separator
    let len ← strlen 0 (payload.drop (i + 1))
    return some ⟨cstr name, (payload.drop (i + 1)).take len⟩

theorem text_zero (mem : Bytes) : text 0 mem = cstr mem := rfl

section Parse

variable {payload : Bytes}

theorem parseChecked_of_notMem (h : 0 ∉ payload) : parseChecked payload = .error .read := by
  rw [parseChecked, CString.strrchr_outside h]
  rfl

variable (h : 0 ∈ payload)
include h

theorem strchr_bar :
    strchr 0 bar payload = .ok (if bar ∈ cstr payload then some ((cstr payload).idxOf bar)
    else none) := by
  rw [CString.strchr_eq h (by decide), text_zero]

theorem parseChecked_no_bar (hbar : bar ∉ cstr payload) : parseChecked payload = .ok none := by
  have hname : ∃ r, strrchr 0 slash payload = .ok r := by
    by_cases hs : slash ∈ cstr payload
    · obtain ⟨i, hi, -⟩ := CString.strrchr_of_mem h hs
      exact ⟨_, hi⟩
    · exact ⟨_, CString.strrchr_of_notMem h hs⟩
  obtain ⟨r, hr⟩ := hname
  rw [parseChecked, hr, strchr_bar h, if_neg hbar]
  rfl

/-- The block after the separator has been overwritten: a string is cut in the text. -/
theorem set_payload (hbar : bar ∈ cstr payload) : ∃ rest,
    payload.set ((cstr payload).idxOf bar) 0 = (cstr payload).set ((cstr payload).idxOf bar) 0 ++
      0 :: rest := by
  obtain ⟨rest, hrest⟩ := CString.exists_split h
  rw [text_zero] at hrest
  have hat : ∀ k < (cstr payload).length, payload.set k 0 = (cstr payload).set k 0 ++
      0 :: rest := by
    intro k hk
    conv_lhs => rw [hrest]
    rw [List.set_append_left _ _ hk]
  exact ⟨rest, hat _ (List.idxOf_lt_length_iff.mpr hbar)⟩

/-- **The copy of a name after a `/`** writes one byte more than its block has. -/
theorem parseChecked_slash (hbar : bar ∈ cstr payload) (hslash : slash ∈ cstr payload) :
    parseChecked payload = .error .write := by
  obtain ⟨i, hi, hget⟩ := CString.strrchr_of_mem h hslash
  rw [text_zero] at hget
  obtain ⟨hlt, -⟩ := List.getElem?_eq_some_iff.mp hget
  obtain ⟨rest, hset⟩ := set_payload h hbar
  have hnul : ∀ k ≤ (cstr payload).length,
      (0 : Byte) ∈ (payload.set ((cstr payload).idxOf bar) 0).drop k := by
    intro k hk
    rw [hset, List.drop_append_of_le_length (by rw [List.length_set]; exact hk)]
    simp
  -- the `/` is still there
  have hne : (cstr payload).idxOf bar ≠ i := by
    rintro rfl
    rw [List.getElem?_eq_getElem hlt, List.getElem_idxOf hlt] at hget
    exact absurd (Option.some.inj hget) (by decide)
  have hdrop : (payload.set ((cstr payload).idxOf bar) 0).drop i =
      slash :: (payload.set ((cstr payload).idxOf bar) 0).drop (i + 1) := by
    have hat : (payload.set ((cstr payload).idxOf bar) 0)[i]? = some slash := by
      rw [hset, List.getElem?_append_left (by rw [List.length_set]; exact hlt),
        List.getElem?_set_ne hne, hget]
    obtain ⟨hlen, heq⟩ := List.getElem?_eq_some_iff.mp hat
    rw [List.drop_eq_getElem_cons hlen, heq]
  have hcopy : copyFilename (payload.set ((cstr payload).idxOf bar) 0) (some i) =
      .error .write := by
    have hlen := CString.strlen_eq (hnul (i + 1) hlt)
    have hlen' := CString.strlen_eq (hnul i hlt.le)
    rw [hdrop, CString.text_cons (by decide), List.length_cons, ← hdrop] at hlen'
    obtain ⟨bs, hbs, hbl⟩ := CString.strncpy_eq (hnul (i + 1) hlt)
      ((text 0 ((payload.set ((cstr payload).idxOf bar) 0).drop (i + 1))).length + 1 + 1)
    rw [copyFilename, hlen, hlen']
    show (strncpy 0 _ _ >>= _) = _
    rw [hbs]
    show store _ _ = _
    rw [store, if_neg (by omega)]
  rw [parseChecked, hi, strchr_bar h, if_pos hbar]
  show (copyFilename _ _ >>= _) = _
  rw [hcopy]
  rfl

/-- Without a `/`, all accesses are within the blocks. -/
theorem parseChecked_no_slash (hbar : bar ∈ cstr payload) (hslash : slash ∉ cstr payload) :
    parseChecked payload = .ok (parseRequest payload) := by
  obtain ⟨rest, hset⟩ := set_payload h hbar
  have hlt : (cstr payload).idxOf bar < (cstr payload).length := List.idxOf_lt_length_iff.mpr hbar
  have hnul : (0 : Byte) ∈ payload.set ((cstr payload).idxOf bar) 0 := by
    rw [hset]
    simp
  have hcut : cstr (payload.set ((cstr payload).idxOf bar) 0) =
      cstr ((cstr payload).set ((cstr payload).idxOf bar) 0) := by
    rw [hset, ← text_zero, CString.text_append, text_zero]
  have hcopy : copyFilename (payload.set ((cstr payload).idxOf bar) 0) none =
      .ok (cstr (payload.set ((cstr payload).idxOf bar) 0) ++ [0]) := by
    rw [copyFilename, CString.strlen_eq hnul, CString.strcpy_eq hnul, text_zero]
    show store _ _ = _
    rw [store, if_pos (by rw [List.length_append, List.length_singleton])]
  -- the text after the separator
  have hafter : (payload.set ((cstr payload).idxOf bar) 0).drop ((cstr payload).idxOf bar + 1) =
      (cstr payload).drop ((cstr payload).idxOf bar + 1) ++ 0 :: rest := by
    rw [hset, List.drop_append_of_le_length (by rw [List.length_set]; exact hlt),
      List.drop_set_of_lt (Nat.lt_succ_self _)]
  have hzero : 0 ∉ (cstr payload).drop ((cstr payload).idxOf bar + 1) := fun hm =>
    zero_notMem_cstr payload (List.mem_of_mem_drop hm)
  have hlen : strlen 0 ((payload.set ((cstr payload).idxOf bar) 0).drop
      ((cstr payload).idxOf bar + 1)) =
      .ok ((cstr payload).drop ((cstr payload).idxOf bar + 1)).length := by
    rw [CString.strlen_eq (by rw [hafter]; simp), hafter, CString.text_append, text_zero,
      cstr_of_notMem hzero]
  have hname : cstr (cstr (payload.set ((cstr payload).idxOf bar) 0) ++ [0]) =
      cstr ((cstr payload).set ((cstr payload).idxOf bar) 0) := by
    rw [cstr_append_zero (zero_notMem_cstr _), hcut]
  rw [parseChecked, CString.strrchr_of_notMem h hslash, strchr_bar h, if_pos hbar]
  show (copyFilename _ _ >>= _) = _
  rw [hcopy]
  show (strlen _ _ >>= _) = _
  rw [hlen]
  show Except.ok (some _) = _
  rw [hname, hafter, List.take_left, parseRequest]
  dsimp only
  rw [if_pos hbar, if_neg hslash]

end Parse

/-- Where no access is outside a block, the result is that of `parseRequest`. -/
theorem parseChecked_eq {payload : Bytes} {r : Option Request} (h : parseChecked payload = .ok r) :
    r = parseRequest payload := by
  by_cases hnul : 0 ∈ payload
  · by_cases hbar : bar ∈ cstr payload
    · by_cases hslash : slash ∈ cstr payload
      · rw [parseChecked_slash hnul hbar hslash] at h
        cases h
      · rw [parseChecked_no_slash hnul hbar hslash] at h
        exact (Except.ok.inj h).symm
    · rw [parseChecked_no_bar hnul hbar] at h
      rw [← Except.ok.inj h, parseRequest]
      dsimp only
      rw [if_neg hbar]
  · rw [parseChecked_of_notMem hnul] at h
    cases h

/-- The payloads that are parsed within the blocks. -/
theorem parseChecked_ok_iff (payload : Bytes) :
    (∃ r, parseChecked payload = .ok r) ↔
      0 ∈ payload ∧ (bar ∉ cstr payload ∨ slash ∉ cstr payload) := by
  constructor
  · rintro ⟨r, hr⟩
    have hnul : 0 ∈ payload := by
      by_contra hnul
      rw [parseChecked_of_notMem hnul] at hr
      cases hr
    refine ⟨hnul, ?_⟩
    by_contra hboth
    obtain ⟨hbar, hslash⟩ := not_or.mp hboth
    rw [parseChecked_slash hnul (not_not.mp hbar) (not_not.mp hslash)] at hr
    cases hr
  · rintro ⟨hnul, hor⟩
    by_cases hbar : bar ∈ cstr payload
    · exact ⟨_, parseChecked_no_slash hnul hbar (hor.resolve_left (not_not.mpr hbar))⟩
    · exact ⟨_, parseChecked_no_bar hnul hbar⟩

namespace Child

/-- `parse` on the memory of the child. -/
def parseChecked (ok : Bool) (c : Child) : Except Outside Child :=
  if !ok then .ok (c.finish (.returned .runtimeError))
  else if command c.buffer ≠ cmdWrq ∧ getSeqNum c.buffer ≠ 0 then
    .ok { c with pc := .deny cmdBadReq .badRequest }
  else (Ftp.parseChecked (c.buffer.drop headerSize)).map fun r =>
    match r with
    | none => { c with pc := .deny cmdBadReq .badRequest }
    | some req => { c with pc := .access, filename := req.filename, sizeText := req.sizeText }

/-- It is `parse`, where it does not fail. -/
theorem parse_of_parseChecked {ok : Bool} {c d : Child} (h : c.parseChecked ok = .ok d) :
    d = c.parse ok := by
  unfold parseChecked at h
  unfold parse
  split_ifs at h ⊢
  · exact (Except.ok.inj h).symm
  · exact (Except.ok.inj h).symm
  · cases hr : Ftp.parseChecked (c.buffer.drop headerSize) with
    | error e =>
      rw [hr] at h
      cases h
    | ok r =>
      rw [hr] at h
      rw [← parseChecked_eq hr]
      cases r with
      | none => exact (Except.ok.inj h).symm
      | some req => exact (Except.ok.inj h).symm

theorem zero_mem_init {d : Bytes} (hd : d.length ≤ packetSize) :
    0 ∈ (Child.init d).buffer.drop headerSize ↔ d.length < packetSize ∨ 0 ∈ d.drop headerSize := by
  have hsize : packetSize = 2048 := rfl
  have hhead : headerSize = 5 := rfl
  rw [buffer_init hd, List.drop_append, List.mem_append, List.drop_replicate,
    List.mem_replicate, or_comm]
  apply or_congr_left
  rw [and_iff_left rfl]
  omega

end Child

/-- **Request parsing stays in bounds**: for a datagram of at most `PACKET_SIZE` bytes, no string
function reads past the end of the buffer and no copy writes more than was allocated, if and only
if the header test rejects it, or its payload ends with a `NUL` within the buffer and has no `|` or
no `/` before that. -/
theorem request_bounds_iff (d : Bytes) (hd : d.length ≤ packetSize) :
    (∃ c, (Child.init d).parseChecked true = .ok c) ↔
      (command d ≠ cmdWrq ∧ getSeqNum d ≠ 0) ∨
        ((d.length < packetSize ∨ 0 ∈ d.drop headerSize) ∧
          (bar ∉ cstr (d.drop headerSize) ∨ slash ∉ cstr (d.drop headerSize))) := by
  rw [← Child.zero_mem_init hd, ← Child.cstr_init hd, ← Child.command_init hd,
    ← Child.getSeqNum_init hd,
    ← parseChecked_ok_iff]
  unfold Child.parseChecked
  rw [if_neg (by decide)]
  by_cases hbad : command (Child.init d).buffer ≠ cmdWrq ∧ getSeqNum (Child.init d).buffer ≠ 0
  · rw [if_pos hbad]
    exact iff_of_true ⟨_, rfl⟩ (Or.inl hbad)
  · rw [if_neg hbad, or_iff_right hbad]
    cases parseChecked ((Child.init d).buffer.drop headerSize) with
    | error e => exact iff_of_false (fun ⟨_, h⟩ => by cases h) (fun ⟨_, h⟩ => by cases h)
    | ok r => exact iff_of_true ⟨_, rfl⟩ ⟨_, rfl⟩

/-- The request of a client for a file in its working directory. -/
theorem request_bounds_plain_name : (requestPacket [97] 1).length ≤ packetSize ∧
    ∃ c, (Child.init (requestPacket [97] 1)).parseChecked true = .ok c :=
  ⟨by decide, (request_bounds_iff (requestPacket [97] 1) (by decide)).mpr
    (Or.inr ⟨Or.inl (by decide), Or.inr (by decide)⟩)⟩

/-- A name with a directory overruns the block of its copy by one byte; a request that fills the
buffer with no `NUL` is read past the end. -/
theorem request_out_of_bounds :
    (Child.init (requestPacket [47, 97] 1)).parseChecked true = .error .write ∧
      (cmdWrq :: 0 :: 0 :: List.replicate 2045 97).length = packetSize ∧
      (Child.init (cmdWrq :: 0 :: 0 :: List.replicate 2045 97)).parseChecked true =
        .error .read := by
  have hlen : (cmdWrq :: 0 :: 0 :: List.replicate 2045 97).length = packetSize := by
    rw [List.length_cons, List.length_cons, List.length_cons, List.length_replicate, packetSize]
  refine ⟨rfl, hlen, ?_⟩
  have hnul : 0 ∉ (Child.init (cmdWrq :: 0 :: 0 :: List.replicate 2045 97)).buffer.drop
      headerSize := by
    rw [Child.buffer_init hlen.le, hlen, Nat.sub_self, List.replicate_zero, List.append_nil]
    show 0 ∉ (List.replicate 2045 97).drop 2
    rw [List.drop_replicate]
    intro h
    exact absurd (List.eq_of_mem_replicate h) (by decide)
  have hcmd : command (Child.init (cmdWrq :: 0 :: 0 :: List.replicate 2045 97)).buffer = cmdWrq :=
    Child.command_init hlen.le
  rw [Child.parseChecked, if_neg (by decide), if_neg (fun h => h.1 hcmd),
    parseChecked_of_notMem hnul]
  rfl

end FortyTwoHundred.Ftp

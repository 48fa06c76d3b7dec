import FortyTwoHundred.Ftp.Site

/-!
# Taken — what an interrupted upload leaves

The handler of `SIGINT` ends a child with `exit(0)` wherever it is, and unlinks nothing.  What the
child has written stays in the directory under its name, and a child that checks that name later
refuses its request.  Nothing takes the file away again: of the clients whose requests come after
the interruption, none ever succeeds with that name (`interrupted`).
-/

namespace FortyTwoHundred.Ftp

/-! ## The children of later requests -/

namespace Child

/-- The request has not been checked yet, or it has been refused. -/
def Refused : ChildPc → Prop
  | .start | .access => True
  | .deny _ status => status ≠ .ok
  | .done e => e ≠ .returned .ok
  | _ => False

theorem Refused.not_live {pc : ChildPc} (h : Refused pc) : ¬ Shared.Live pc := by
  intro hl
  cases pc <;> simp_all [Refused, Shared.Live]

variable {origin : Addr} {c d : Child} {i : ChildIn} {effs : List Effect}

/-- A child that finds its file when it checks the name stays refused. -/
theorem Refused.trans (h : Refused c.pc) (ht : Trans origin c i d effs)
    (hfound : i ≠ .access false) : Refused d.pc := by
  cases ht with
  | @start ok hpc =>
    unfold parse
    split_ifs
    · exact (by simp : Ending.returned Status.runtimeError ≠ .returned .ok)
    · exact (by simp : Status.badRequest ≠ .ok)
    · cases parseRequest (c.buffer.drop headerSize) with
      | none => exact (by simp : Status.badRequest ≠ .ok)
      | some req => trivial
  | @access found hpc =>
    cases found with
    | true => exact (by simp : Status.fileExists ≠ .ok)
    | false => exact absurd rfl hfound
  | @denied cmd status again now hpc =>
    rw [hpc] at h
    exact fun he => h (Ending.returned.inj he)
  | notDenied hpc => exact (by simp : Ending.exited Status.runtimeError ≠ .returned .ok)
  | _ => simp [Refused, *] at h

/-- The name is that of the request. -/
theorem Trans.filename (ht : Trans origin c i d effs) (hpc : c.pc ≠ .start) :
    d.filename = c.filename := by
  by_cases hacc : c.pc = .access
  · cases ht with
    | @access found _ =>
      unfold check
      split_ifs
      · rfl
      · cases scanSize c.sizeText with
        | none => rfl
        | some v =>
          dsimp only
          split_ifs <;> rfl
    | _ => simp_all
  · exact (ht.keeps hpc hacc).filename

end Child

namespace Shared

variable {s t : Shared} {origin : ℕ → Addr}

/-- Child `k` is as it was, and so is its file; the children forked since, from number `n` on, do
not get past the check of that name. -/
structure Taken (n k : ℕ) (c : Child) (content : Bytes) (s : Shared) : Prop where
  child : s.children k = some c
  file : ∃ i pos, s.fs.fd k = some (i, pos) ∧ (s.fs.file i).content = content
  refused : ∀ m d, n ≤ m → s.children m = some d → d.filename = c.filename → Child.Refused d.pc

theorem Taken.fork {n k : ℕ} {c : Child} {content : Bytes} (h : Taken n k c content s)
    (hinv : s.Inv) (m : Bytes) : Taken n k c content
      { s with
        children := Function.update s.children s.forked (some (Child.init m))
        forked := s.forked + 1 } := by
  have hne : k ≠ s.forked := by
    rintro rfl
    have hc := h.child
    rw [(hinv.unborn s.forked le_rfl).1] at hc
    cases hc
  refine ⟨(Function.update_of_ne hne _ _).trans h.child, h.file, fun l d hl hd hname => ?_⟩
  dsimp only at hd
  by_cases hlf : l = s.forked
  · subst hlf
    rw [Function.update_self] at hd
    rw [← Option.some.inj hd]
    trivial
  · rw [Function.update_of_ne hlf] at hd
    exact h.refused l d hl hd hname

/-- A call of another child. -/
theorem Taken.other {n k : ℕ} {c : Child} {content : Bytes} (h : Taken n k c content s)
    (hinv : s.Inv) (hl : Live c.pc)
    {m : ℕ} (hm : m ≠ k) {i : ChildIn} (habs : s.Absent (.child m i))
    (hs : s.step origin (.child m i) = some t) : Taken n k c content t := by
  obtain ⟨b, d, effs, hb, hallow, hstep, rfl⟩ := step_child hs
  have ht := Child.trans_of_step hstep
  obtain ⟨f, pos, hfd, hcontent⟩ := h.file
  obtain ⟨hfile, hfd'⟩ := hinv.other_file hb habs ht hm.symm hfd
  refine ⟨(Function.update_of_ne hm.symm _ _).trans h.child,
    ⟨f, pos, hfd'.trans hfd, by rw [hfile, hcontent]⟩, ?_⟩
  intro l e hl' he hname
  dsimp only at he
  by_cases hlm : l = m
  · subst hlm
    rw [Function.update_self] at he
    obtain rfl := Option.some.inj he
    by_cases hpc : b.pc = .start
    · refine Child.Refused.trans (by rw [hpc]; trivial) ht ?_
      rintro rfl
      cases ht
      simp_all
    · have hb' : b.filename = c.filename := (ht.filename hpc).symm.trans hname
      refine Child.Refused.trans (h.refused l b hl' hb hb') ht ?_
      -- the name is in the directory
      rintro rfl
      obtain ⟨i, -, -, hdir⟩ := hinv.live h.child hl
      simp [allows, hb', hdir] at hallow
  · rw [Function.update_of_ne hlm] at he
    exact h.refused l e hl' he hname

end Shared

/-! ## The rest of the run -/

namespace Site

variable {U : ℕ → Upload} {s t : Site} {addr wanted origin : ℕ → Addr}

/-- **Every step of the site** leaves a child that was ended as it was, with its file, and keeps its
name taken. -/
theorem taken_step {n k : ℕ} {c : Child} {content : Bytes} (hl : Shared.Live c.pc)
    (hinv : s.server.Inv) (hstop : s.stopped k = true) (h : s.server.Taken n k c content)
    {e : SiteEv} (hok : Confirmed s e) (hs : s.step addr wanted origin e = some t) :
    t.stopped k = true ∧ t.server.Taken n k c content := by
  have hclient : ∀ {j src i}, s.clientStep wanted j src i = some t → t.stopped k = true ∧
      t.server.Taken n k c content := by
    intro j src i hs
    obtain ⟨p, -, rfl⟩ := Option.map_eq_some_iff.mp hs
    dsimp only
    split <;> exact ⟨hstop, h⟩
  cases e with
  | clientSend j sendto now => exact hclient hs
  | clientGot j temp m d now =>
    simp only [Site.step] at hs
    split_ifs at hs
    exact hclient hs
  | clientFail j temp errno now => exact hclient hs
  | fork j d =>
    obtain ⟨-, rfl⟩ := fork_inv hs
    exact ⟨hstop, h.fork hinv d⟩
  | child m i =>
    obtain ⟨b, d, effs, ⟨hruns, -⟩, -, -, hserver, heq⟩ := child_inv hs
    have hm : m ≠ k := by
      rintro rfl
      rw [hstop] at hruns
      cases hruns
    refine ⟨?_, h.other hinv hl hm hok hserver⟩
    rw [heq]
    exact hstop
  | interrupt m =>
    obtain ⟨-, rfl⟩ := interrupt_inv hs
    refine ⟨?_, h⟩
    dsimp only
    by_cases hm : k = m
    · rw [hm, Function.update_self]
    · rw [Function.update_of_ne hm]
      exact hstop

/-- **An interrupted upload takes its name**: in every run of the site as in `uploads`, when a child
is ended by a `SIGINT` while it has a file, what it has written stays in the directory as it is,
whatever happens then; for a client's child that is a beginning of the client's file.  And no
client whose requests are all received later returns `0` with that name. -/
theorem interrupted (hcount : ∀ j, chunkCount (U j).content + 49 < 65536) (now : ℕ → ℤ)
    (server : Shared)
    (h₀ : server.Start) (es : List SiteEv)
    (hok : Machine.Meets (step addr wanted origin) Confirmed (init U now server) es)
    (h : Machine.exec (step addr wanted origin) (init U now server) es = some s) (k : ℕ) (c : Child)
    (hc : s.server.children k = some c) (hl : Shared.Live c.pc)
    (ht : s.step addr wanted origin (.interrupt k) = some t)
    (fs : List SiteEv) (u : Site) (hok' : Machine.Meets (step addr wanted origin) Confirmed t fs)
    (hu : Machine.exec (step addr wanted origin) t fs = some u) :
    (∃ bs, (s.server.fs.dir c.filename).map (fun i => (s.server.fs.file i).content) = some bs ∧
        (u.server.fs.dir c.filename).map (fun i => (u.server.fs.file i).content) = some bs ∧
        ∀ j, s.peer k = some j → bs <+: (U j).content) ∧
      ∀ l, basename (U l).name = c.filename → (∀ m, u.peer m = some l → s.server.forked ≤ m) →
        (u.clients l).pc ≠ .done (.returned .ok) := by
  have hinv : Inv U s := Machine.exec_invariant_of_meets (I := Inv U)
      (fun _ _ _ hI hc hs => hI.step hcount hc hs)
    (Inv.init U now h₀) hok h
  obtain ⟨a, ha⟩ := hinv.serving
  obtain ⟨i, pos, hfd, hdir⟩ := ha.dir.live hc hl
  have hstart : Inv U t ∧ t.stopped k = true ∧
      t.server.Taken s.server.forked k c (s.server.fs.file i).content := by
    refine ⟨hinv.step (e := .interrupt k) hcount trivial ht, ?_⟩
    obtain ⟨-, rfl⟩ := interrupt_inv ht
    refine ⟨Function.update_self _ _ _, hc, ⟨i, pos, hfd, rfl⟩, fun m d hm hd => ?_⟩
    have hm' := ha.lt_forked hd
    omega
  obtain ⟨huinv, -, htaken⟩ := Machine.exec_invariant_of_meets
    (I := fun v => Inv U v ∧ v.stopped k = true ∧
    v.server.Taken s.server.forked k c (s.server.fs.file i).content)
    (fun v e w hv he hs => by
      obtain ⟨b, hb⟩ := hv.1.serving
      exact ⟨hv.1.step hcount he hs, taken_step hl hb.dir hv.2.1 hv.2.2 he hs⟩) hstart hok' hu
  obtain ⟨b, hb⟩ := huinv.serving
  refine ⟨⟨(s.server.fs.file i).content, by rw [hdir, Option.map_some], ?_, fun j hj => ?_⟩,
    fun l hname hlater hpc => ?_⟩
  · obtain ⟨f, pos', hfd', hcontent⟩ := htaken.file
    obtain ⟨f', pos'', hfd'', hdir'⟩ := hb.dir.live htaken.child hl
    rw [hfd'] at hfd''
    obtain ⟨rfl, -⟩ := Prod.mk.inj (Option.some.inj hfd'')
    rw [hdir', Option.map_some, hcontent]
  · obtain ⟨hname, f, hdir', hpre, -⟩ := hinv.file hc hj hl
    rw [← hname, hdir] at hdir'
    obtain rfl := Option.some.inj hdir'
    exact hpre
  · -- a child in its closing loop has not been refused
    obtain ⟨m, d, hm, hd, hcl⟩ := huinv.agreed l hpc
    have hdname : d.filename = c.filename := (huinv.file hd hm.1 hcl.live).1.trans hname
    exact (htaken.refused m d (hlater m hm.1) hd hdname).not_live hcl.live

/-- The child of client `0` creates the file. -/
def created : List SiteEv :=
  [.clientSend 0 (fun _ => true) 0, .fork (some 0) (requestPacket [97] 1), .child 0 (.setup true),
    .child 0 (.access false),
    .child 0 (.fopen true 0), .child 0 (.send true false 0)]

/-- Client `1` asks for the same name. -/
def denied : List SiteEv :=
  [.clientSend 1 (fun _ => true) 0, .fork (some 1) (requestPacket [97] 1), .child 1 (.setup true),
    .child 1 (.access true),
    .child 1 (.send true false 0), .clientGot 1 [] 1 (createPacket cmdExists 0 0 []) 0]

/-- A step of clients that have the same file of one byte. -/
def sampleStep : Site → SiteEv → Option Site := step (fun _ => ⟨[]⟩) (fun _ => ⟨[]⟩) fun _ => ⟨[]⟩

theorem interrupted_denied : ∃ s t u,
    Machine.exec sampleStep (init (fun _ => Session.oneByte) (fun _ => 0) Shared.empty) created =
      some s ∧
    sampleStep s (.interrupt 0) = some t ∧ Machine.exec sampleStep t denied = some u ∧
    (u.server.fs.dir [97]).map (fun i => (u.server.fs.file i).content) = some [] ∧
    (u.clients 1).pc ≠ .done (.returned .ok) := by
  obtain ⟨s, t, u, c, hs, ht, hu, hc, hpc, hname, hempty, hpeer, hforked, hdenied⟩ : ∃ s t u c,
      Machine.exec sampleStep (init (fun _ => Session.oneByte) (fun _ => 0) Shared.empty) created =
      some s ∧
      sampleStep s (.interrupt 0) = some t ∧ Machine.exec sampleStep t denied = some u ∧
      s.server.children 0 = some c ∧ c.pc = .poll 0 ∧ c.filename = [97] ∧
      (s.server.fs.dir [97]).map (fun i => (s.server.fs.file i).content) = some [] ∧
      u.peer = Function.update (Function.update (fun _ => none) 0 (some 0)) 1 (some 1) ∧
        s.server.forked = 1 ∧
      Machine.Meets sampleStep Confirmed t denied := by
    refine ⟨_, _, _, _, rfl, rfl, rfl, rfl, rfl, rfl, rfl, rfl, rfl, ?_⟩
    refine .cons rfl (fun hpc => by cases hpc)
      (.cons rfl trivial (.cons rfl trivial (.cons rfl trivial ?_)))
    exact .cons rfl trivial (.cons rfl trivial trivial)
  have hkept := interrupted (U := fun _ => Session.oneByte) (fun _ => by decide)
    (fun _ => 0) Shared.empty
    Shared.start_empty created ?_ hs 0 c hc (by rw [hpc]; trivial) ht denied u hdenied hu
  · obtain ⟨⟨bs, hbefore, hafter, -⟩, hlater⟩ := hkept
    rw [hname] at hbefore hafter
    rw [hempty] at hbefore
    refine ⟨s, t, u, hs, ht, hu, hafter.trans hbefore.symm, hlater 1 hname.symm fun m hm => ?_⟩
    rw [hforked]
    by_contra h0
    obtain rfl : m = 0 := by omega
    rw [hpeer] at hm
    cases hm
  · refine .cons rfl (fun hpc => by cases hpc)
      (.cons rfl trivial (.cons rfl trivial (.cons rfl trivial ?_)))
    exact .cons rfl (fun _ _ _ => rfl) (.cons rfl trivial trivial)

end Site

end FortyTwoHundred.Ftp

import Mathlib.Data.List.Basic

/-!
# Machine — runs of a partial step function

A machine is a step function `step : σ → ε → Option σ` on states `σ` and events `ε`; `none` says
that the event cannot occur in that state.  A run is a list of events, `exec step s es` the state
it ends in.

* `exec_invariant`: what one step preserves holds after every run; `exec_refines` is the same for a
  relation to the states of another machine.
* `Meets step ok s es`: every step of the run `es` from `s` meets the condition `ok` in the state
  before it; `exec_invariant_of_meets` is the invariant rule for such runs, and `exec_simulates` the
  simulation by another machine, step by step; in `exec_simulates_runs` a step may be any number of
  steps of the other machine.
* `logged step` is the machine that keeps all that its steps put out.
* `watched mark step` is the machine with a flag that remembers whether an event with `mark` has
  occurred.
* `Always step I s es`: every state that the run goes through has `I`.  Where a step keeps `I`
  exactly if it meets `ok`, `Always` and `Meets` are the same (`always_iff_meets`).
-/

namespace Machine

variable {σ ε : Type*} (step : σ → ε → Option σ)

/-- The state after the events `es`, if all of them can occur in turn. -/
def exec : σ → List ε → Option σ
  | s, [] => some s
  | s, e :: es => (step s e).bind fun t => exec t es

@[simp] theorem exec_nil (s : σ) : exec step s [] = some s := rfl

theorem exec_cons (s : σ) (e : ε) (es : List ε) :
    exec step s (e :: es) = (step s e).bind fun t => exec step t es := rfl

variable {step}

theorem exec_cons_some {s u : σ} {e : ε} {es : List ε} :
    exec step s (e :: es) = some u ↔ ∃ t, step s e = some t ∧ exec step t es = some u := by
  rw [exec_cons, Option.bind_eq_some_iff]

theorem exec_append {s u : σ} {es fs : List ε} :
    exec step s (es ++ fs) = some u ↔ ∃ t, exec step s es = some t ∧ exec step t fs = some u := by
  induction es generalizing s with
  | nil => simp
  | cons e es ih =>
    rw [List.cons_append, exec_cons_some]
    constructor
    · rintro ⟨t, h1, h2⟩
      obtain ⟨v, h3, h4⟩ := ih.mp h2
      exact ⟨v, exec_cons_some.mpr ⟨t, h1, h3⟩, h4⟩
    · rintro ⟨v, h1, h4⟩
      obtain ⟨t, h2, h3⟩ := exec_cons_some.mp h1
      exact ⟨t, h2, ih.mpr ⟨v, h3, h4⟩⟩

/-- **Invariant rule**: what every step preserves holds after every run. -/
theorem exec_invariant {I : σ → Prop} (hstep : ∀ s e t, I s → step s e = some t → I t)
    {s t : σ} {es : List ε} (hs : I s) (h : exec step s es = some t) : I t := by
  induction es generalizing s with
  | nil => simp only [exec_nil, Option.some.injEq] at h; exact h ▸ hs
  | cons e es ih =>
    obtain ⟨u, h1, h2⟩ := exec_cons_some.mp h
    exact ih (hstep s e u hs h1) h2

/-- **Refinement rule**: if every step does to a state what `f` does to what it represents, so does
every run. -/
theorem exec_refines {τ : Type*} {R : σ → τ → Prop} {f : τ → ε → τ}
    (hstep : ∀ s q e t, R s q → step s e = some t → R t (f q e)) {s t : σ} {q : τ}
    {es : List ε} (hs : R s q) (h : exec step s es = some t) : R t (es.foldl f q) := by
  induction es generalizing s q with
  | nil => simp only [exec_nil, Option.some.injEq] at h; exact h ▸ hs
  | cons e es ih =>
    obtain ⟨u, h1, h2⟩ := exec_cons_some.mp h
    exact ih (hstep s q e u hs h1) h2

variable (step)

/-- Every step of the run meets `ok` in the state it is taken in. -/
def Meets (ok : σ → ε → Prop) : σ → List ε → Prop
  | _, [] => True
  | s, e :: es => ok s e ∧ ∀ t, step s e = some t → Meets ok t es

variable {step}

theorem Meets.cons {ok : σ → ε → Prop} {s t : σ} {e : ε} {es : List ε} (ht : step s e = some t)
    (he : ok s e) (hm : Meets step ok t es) : Meets step ok s (e :: es) :=
  ⟨he, fun _ h => Option.some.inj (ht.symm.trans h) ▸ hm⟩

theorem Meets.and {ok ok' : σ → ε → Prop} {s : σ} {es : List ε} (h : Meets step ok s es)
    (h' : Meets step ok' s es) : Meets step (fun u e => ok u e ∧ ok' u e) s es := by
  induction es generalizing s with
  | nil => exact trivial
  | cons e es ih => exact ⟨⟨h.1, h'.1⟩, fun t ht => ih (h.2 t ht) (h'.2 t ht)⟩

/-- **Invariant rule for conditional runs**: what every step that meets `ok` preserves holds after
every run whose steps all meet `ok`. -/
theorem exec_invariant_of_meets {ok : σ → ε → Prop} {I : σ → Prop}
    (hstep : ∀ s e t, I s → ok s e → step s e = some t → I t) {s t : σ} {es : List ε} (hs : I s)
    (hok : Meets step ok s es) (h : exec step s es = some t) : I t := by
  induction es generalizing s with
  | nil => simp only [exec_nil, Option.some.injEq] at h; exact h ▸ hs
  | cons e es ih =>
    obtain ⟨u, h1, h2⟩ := exec_cons_some.mp h
    exact ih (hstep s e u hs hok.1 h1) (hok.2 u h1) h2

/-- A condition that an invariant gives is met by every run. -/
theorem meets_of_invariant {ok : σ → ε → Prop} {I : σ → Prop}
    (hstep : ∀ s e t, I s → step s e = some t → I t) (hok : ∀ s e, I s → ok s e) {s : σ} (hs : I s)
    (es : List ε) : Meets step ok s es := by
  induction es generalizing s with
  | nil => exact trivial
  | cons e es ih => exact ⟨hok s e hs, fun t ht => ih (hstep s e t hs ht)⟩

/-- **Simulation rule**: if every step that meets `ok` can be made by the other machine, from a
related state and on the translated event, so can every run of such steps. -/
theorem exec_simulates {τ ε' : Type*} {step' : τ → ε' → Option τ} {ok : σ → ε → Prop}
    {R : σ → τ → Prop} {f : ε → ε'}
    (hsim : ∀ s q e t, R s q → ok s e → step s e = some t → ∃ r, step' q (f e) = some r ∧ R t r)
    {s t : σ} {q : τ} {es : List ε} (hs : R s q) (hok : Meets step ok s es)
    (h : exec step s es = some t) : ∃ r, exec step' q (es.map f) = some r ∧ R t r := by
  induction es generalizing s q with
  | nil =>
    simp only [exec_nil, Option.some.injEq] at h
    exact ⟨q, rfl, h ▸ hs⟩
  | cons e es ih =>
    obtain ⟨u, h1, h2⟩ := exec_cons_some.mp h
    obtain ⟨v, hv, huv⟩ := hsim s q e u hs hok.1 h1
    obtain ⟨r, hr, htr⟩ := ih huv (hok.2 u h1) h2
    exact ⟨r, exec_cons_some.mpr ⟨v, hv, hr⟩, htr⟩

/-- **Simulation by runs**: if every step that meets `ok` is a run of the other machine, of no, one
or more steps, so is every run of such steps. -/
theorem exec_simulates_runs {τ ε' : Type*} {step' : τ → ε' → Option τ} {ok : σ → ε → Prop}
    {R : σ → τ → Prop}
    (hsim : ∀ s q e t, R s q → ok s e → step s e = some t → ∃ es' r, exec step' q es' = some r ∧
      R t r)
    {s t : σ} {q : τ} {es : List ε} (hs : R s q) (hok : Meets step ok s es)
    (h : exec step s es = some t) : ∃ es' r, exec step' q es' = some r ∧ R t r := by
  induction es generalizing s q with
  | nil =>
    simp only [exec_nil, Option.some.injEq] at h
    exact ⟨[], q, rfl, h ▸ hs⟩
  | cons e es ih =>
    obtain ⟨u, h1, h2⟩ := exec_cons_some.mp h
    obtain ⟨fs, v, hv, huv⟩ := hsim s q e u hs hok.1 h1
    obtain ⟨gs, r, hr, htr⟩ := ih huv (hok.2 u h1) h2
    exact ⟨fs ++ gs, r, exec_append.mpr ⟨v, hv, hr⟩, htr⟩

/-- A run whose steps do not all meet `ok` has a first step that does not. -/
theorem meets_or_break (ok : σ → ε → Prop) (s : σ) (es : List ε) :
    Meets step ok s es ∨ ∃ fs e gs u, es = fs ++ e :: gs ∧ exec step s fs = some u ∧
    Meets step ok s fs ∧ ¬ ok u e := by
  induction es generalizing s with
  | nil => exact Or.inl trivial
  | cons e es ih =>
    by_cases he : ok s e
    · cases ht : step s e with
      | none => exact Or.inl ⟨he, fun t h => by rw [ht] at h; cases h⟩
      | some t =>
        rcases ih t with hm | ⟨fs, e', gs, u, rfl, hu, hm, hn⟩
        · exact Or.inl (.cons ht he hm)
        · exact Or.inr ⟨e :: fs, e', gs, u, rfl, exec_cons_some.mpr ⟨t, ht, hu⟩, .cons ht he hm, hn⟩
    · exact Or.inr ⟨[], e, es, s, rfl, rfl, trivial, he⟩

theorem Meets.append {ok : σ → ε → Prop} {s u : σ} {fs gs : List ε} (h : Meets step ok s (fs ++ gs))
    (hu : exec step s fs = some u) : Meets step ok s fs ∧ Meets step ok u gs := by
  induction fs generalizing s with
  | nil =>
    simp only [exec_nil, Option.some.injEq] at hu
    exact ⟨trivial, hu ▸ h⟩
  | cons f fs ih =>
    obtain ⟨t, ht, hu⟩ := exec_cons_some.mp hu
    obtain ⟨h1, h2⟩ := ih (h.2 t ht) hu
    exact ⟨.cons ht h.1 h1, h2⟩

/-- Two machines that agree on the steps that meet `ok` agree on the runs of such steps. -/
theorem exec_congr {step' : σ → ε → Option σ} {ok : σ → ε → Prop}
    (h : ∀ s e, ok s e → step s e = step' s e) {s : σ} {es : List ε} (hok : Meets step ok s es) :
    exec step s es = exec step' s es := by
  induction es generalizing s with
  | nil => rfl
  | cons e es ih =>
    rw [exec_cons, exec_cons, ← h s e hok.1]
    cases ht : step s e with
    | none => rfl
    | some t => exact ih (hok.2 t ht)

/-! ## What the steps put out -/

/-- A machine whose steps put something out, as a machine that keeps all that has been put out. -/
def logged {ω : Type*} (step : σ → ε → Option (σ × List ω)) (s : σ × List ω) (e : ε) :
    Option (σ × List ω) :=
  (step s.1 e).map fun p => (p.1, s.2 ++ p.2)

/-- The simulation rule for machines that put something out: they put out the same. -/
theorem exec_logged_simulates {τ ε' ω : Type*} {step : σ → ε → Option (σ × List ω)}
    {step' : τ → ε' → Option (τ × List ω)} {R : σ → τ → Prop} {f : ε → ε'}
    (hsim : ∀ s q e t out, R s q → step s e = some (t, out) → ∃ r, step' q (f e) = some (r, out) ∧
      R t r) {s t : σ} {q : τ}
    {es : List ε} {out : List ω} (hs : R s q) (h : exec (logged step) (s, []) es = some (t, out)) :
    ∃ r, exec (logged step') (q, []) (es.map f) = some (r, out) ∧ R t r := by
  have hmeets : Meets (logged step) (fun _ _ => True) (s, []) es :=
    meets_of_invariant (I := fun _ => True) (fun _ _ _ _ _ => trivial)
      (fun _ _ _ => trivial) trivial es
  have key : ∃ r, exec (logged step') (q, []) (es.map f) = some r ∧ R t r.1 ∧ out = r.2 := by
    refine exec_simulates (R := fun (x : σ × List ω) (y : τ × List ω) => R x.1 y.1 ∧ x.2 = y.2) ?_
      ⟨hs, rfl⟩ hmeets h
    rintro ⟨s, sent⟩ ⟨q, sent'⟩ e t ⟨hq, rfl⟩ - ht
    obtain ⟨⟨u, new⟩, hu, rfl⟩ := Option.map_eq_some_iff.mp ht
    obtain ⟨r, hr, hur⟩ := hsim s q e u new hq hu
    exact ⟨(r, sent ++ new), by rw [logged, hr, Option.map_some], hur, rfl⟩
  obtain ⟨⟨r, out'⟩, hr, ht, rfl⟩ := key
  exact ⟨r, hr, ht⟩

/-! ## A machine that remembers -/

/-- The machine with a flag that is set by an event with `mark`. -/
def watched (mark : ε → Bool) (step : σ → ε → Option σ) (s : Bool × σ) (e : ε) :
    Option (Bool × σ) :=
  (step s.2 e).map fun t => (s.1 || mark e, t)

theorem watched_eq_some {mark : ε → Bool} {s t : Bool × σ} {e : ε} :
    watched mark step s e = some t ↔ step s.2 e = some t.2 ∧ t.1 = (s.1 || mark e) := by
  obtain ⟨b, t⟩ := t
  rw [watched, Option.map_eq_some_iff]
  constructor
  · rintro ⟨u, hu, e⟩
    obtain ⟨rfl, rfl⟩ := Prod.mk.inj e
    exact ⟨hu, rfl⟩
  · rintro ⟨hu, rfl⟩
    exact ⟨t, hu, rfl⟩

/-! ## What holds all along a run -/

/-- Every state of the run has the property. -/
def Always (step : σ → ε → Option σ) (I : σ → Prop) (s : σ) (es : List ε) : Prop :=
  ∀ fs gs u, es = fs ++ gs → exec step s fs = some u → I u

theorem always_cons {I : σ → Prop} {s t : σ} {e : ε} {es : List ε} (ht : step s e = some t) :
    Always step I s (e :: es) ↔ I s ∧ Always step I t es := by
  constructor
  · intro h
    refine ⟨h [] (e :: es) s rfl rfl, fun fs gs u he hu => ?_⟩
    exact h (e :: fs) gs u (by rw [he]; rfl) (exec_cons_some.mpr ⟨t, ht, hu⟩)
  · rintro ⟨hs, h⟩ fs gs u he hu
    cases fs with
    | nil =>
      simp only [exec_nil, Option.some.injEq] at hu
      exact hu ▸ hs
    | cons f fs =>
      obtain ⟨rfl, rfl⟩ := List.cons.inj he
      obtain ⟨t', ht', hu⟩ := exec_cons_some.mp hu
      rw [ht] at ht'
      cases ht'
      exact h fs gs u rfl hu

theorem always_nil {I : σ → Prop} {s : σ} : Always step I s [] ↔ I s := by
  refine ⟨fun h => h [] [] s rfl rfl, fun hs fs gs u he hu => ?_⟩
  obtain ⟨rfl, -⟩ := List.append_eq_nil_iff.mp he.symm
  simp only [exec_nil, Option.some.injEq] at hu
  exact hu ▸ hs

/-- The steps of such a run are made in states with the property. -/
theorem Always.meets {I : σ → Prop} {s : σ} {es : List ε} (h : Always step I s es) :
    Meets step (fun u _ => I u) s es := by
  induction es generalizing s with
  | nil => exact trivial
  | cons e es ih => exact ⟨h [] (e :: es) s rfl rfl, fun t ht => ih ((always_cons ht).mp h).2⟩

/-- **Exact condition of an invariant**: if a step from a state with `I` leads to a state with `I`
exactly if it meets `ok`, then `I` holds all along a run exactly if all its steps meet `ok`.  The
states may be taken from an invariant `J`. -/
theorem always_iff_meets {ok : σ → ε → Prop} {I J : σ → Prop}
    (hJ : ∀ s e t, J s → step s e = some t → J t)
    (hI : ∀ s e t, J s → I s → step s e = some t → (I t ↔ ok s e)) {s u : σ} {es : List ε}
    (hjs : J s) (his : I s) (h : exec step s es = some u) : Always step I s es ↔
      Meets step ok s es := by
  induction es generalizing s with
  | nil => exact always_nil.trans ⟨fun _ => trivial, fun _ => his⟩
  | cons e es ih =>
    obtain ⟨t, ht, hu⟩ := exec_cons_some.mp h
    rw [always_cons ht]
    constructor
    · rintro ⟨-, ha⟩
      have hit : I t := ha [] es t rfl rfl
      exact .cons ht ((hI s e t hjs his ht).mp hit) ((ih (hJ s e t hjs ht) hit hu).mp ha)
    · intro hm
      have hit : I t := (hI s e t hjs his ht).mpr hm.1
      exact ⟨his, (ih (hJ s e t hjs ht) hit hu).mpr (hm.2 t ht)⟩

/-- Conditions that agree in the states of an invariant `J` are met by the same runs; `J` need only
be kept by the steps that meet them. -/
theorem meets_congr_of {ok ok' : σ → ε → Prop} {J : σ → Prop}
    (hJ : ∀ s e t, J s → ok' s e → step s e = some t → J t) (hok : ∀ s e, J s → (ok s e ↔ ok' s e))
    {s : σ} (hs : J s) (es : List ε) : Meets step ok s es ↔ Meets step ok' s es := by
  induction es generalizing s with
  | nil => exact Iff.rfl
  | cons e es ih =>
    constructor
    · rintro ⟨he, hm⟩
      have he' := (hok s e hs).mp he
      exact ⟨he', fun t ht => (ih (hJ s e t hs he' ht)).mp (hm t ht)⟩
    · rintro ⟨he', hm⟩
      exact ⟨(hok s e hs).mpr he', fun t ht => (ih (hJ s e t hs he' ht)).mpr (hm t ht)⟩

/-- The same for a run that can be executed, where the conditions need only agree on the steps that
can occur. -/
theorem meets_congr_exec {ok ok' : σ → ε → Prop} {J : σ → Prop}
    (hJ : ∀ s e t, J s → ok' s e → step s e = some t → J t)
    (hok : ∀ s e t, J s → step s e = some t → (ok s e ↔ ok' s e)) {s u : σ} {es : List ε} (hs : J s)
    (h : exec step s es = some u) : Meets step ok s es ↔ Meets step ok' s es := by
  induction es generalizing s with
  | nil => exact Iff.rfl
  | cons e es ih =>
    obtain ⟨t, ht, hu⟩ := exec_cons_some.mp h
    constructor
    · rintro ⟨he, hm⟩
      have he' := (hok s e t hs ht).mp he
      exact .cons ht he' ((ih (hJ s e t hs he' ht) hu).mp (hm t ht))
    · rintro ⟨he', hm⟩
      exact .cons ht ((hok s e t hs ht).mpr he') ((ih (hJ s e t hs he' ht) hu).mpr (hm t ht))

theorem meets_congr {ok ok' : σ → ε → Prop} {J : σ → Prop}
    (hJ : ∀ s e t, J s → step s e = some t → J t) (hok : ∀ s e, J s → (ok s e ↔ ok' s e)) {s : σ}
    (hs : J s) (es : List ε) : Meets step ok s es ↔ Meets step ok' s es :=
  meets_congr_of (fun s e t h _ ht => hJ s e t h ht) hok hs es

end Machine

import Mathlib.Tactic.Common
import FortyTwoHundred.Lib.Machine

/-!
# Progress — what a machine can still reach

`CanReach step ok costly n s Q` says that `s` has a run to a state with `Q`, all of whose events are
`ok` and at most `n` of them `costly`.  Used for recovery: `ok` describes an environment that
behaves well from now on, and `n` bounds what the recovery takes.  The rules put runs together: one
event, one run after the other, and `canReach_rounds` for rounds that each take one costly event
and lower a measure.
-/

namespace Machine

variable {σ ε : Type*} (step : σ → ε → Option σ) (ok : ε → Prop) (costly : ε → Bool)

/-- Some run of `ok` events, at most `n` of them `costly`, leads from `s` to a state with `Q`. -/
def CanReach (n : ℕ) (s : σ) (Q : σ → Prop) : Prop :=
  ∃ es t, (∀ e ∈ es, ok e) ∧ es.countP costly ≤ n ∧ exec step s es = some t ∧ Q t

variable {step ok costly} {n m : ℕ} {s t : σ} {e : ε} {Q R : σ → Prop}

theorem CanReach.mono (h : CanReach step ok costly n s Q) (hnm : n ≤ m) (hQ : ∀ t, Q t → R t) :
    CanReach step ok costly m s R := by
  obtain ⟨es, t, hok, hn, ht, hq⟩ := h
  exact ⟨es, t, hok, Nat.le_trans hn hnm, ht, hQ t hq⟩

theorem CanReach.here (h : Q s) : CanReach step ok costly n s Q :=
  ⟨[], s, by simp, Nat.zero_le _, rfl, h⟩

/-- One run after the other. -/
theorem CanReach.seq (h : CanReach step ok costly n s fun t => CanReach step ok costly m t Q) :
    CanReach step ok costly (n + m) s Q := by
  obtain ⟨es, t, hes, hn, ht, fs, u, hfs, hm, hu, hq⟩ := h
  refine ⟨es ++ fs, u, ?_, ?_, exec_append.mpr ⟨t, ht, hu⟩, hq⟩
  · intro e he
    rcases List.mem_append.mp he with he | he
    · exact hes e he
    · exact hfs e he
  · rw [List.countP_append]
    exact Nat.add_le_add hn hm

/-- One event, and then a run. -/
theorem CanReach.event (hs : step s e = some t) (he : ok e) (hm : [e].countP costly + n ≤ m)
    (h : CanReach step ok costly n t Q) : CanReach step ok costly m s Q := by
  have h1 : CanReach step ok costly ([e].countP costly) s fun t =>
      CanReach step ok costly n t Q := by
    refine ⟨[e], t, ?_, Nat.le_refl _, exec_cons_some.mpr ⟨t, hs, rfl⟩, h⟩
    intro e' he'
    rw [List.mem_singleton.mp he']
    exact he
  exact h1.seq.mono hm fun _ h => h

/-- **Simulation**: what a machine can reach, one can match that follows each of its events with a
run of no greater cost. -/
theorem CanReach.simulate {σ' ε' : Type*} {step' : σ' → ε' → Option σ'} {ok' : ε' → Prop}
    {costly' : ε' → Bool} {M : σ → σ' → Prop} {s' : σ'}
    (hstep : ∀ s e t s', M s s' → ok e → step s e = some t →
      CanReach step' ok' costly' ([e].countP costly) s' (M t))
    (h : CanReach step ok costly n s Q) (hM : M s s') : CanReach step' ok' costly' n s' fun t' =>
      ∃ t, M t t' ∧ Q t := by
  obtain ⟨es, t, hok, hn, ht, hq⟩ := h
  refine CanReach.mono ?_ hn fun _ h => h
  clear hn
  induction es generalizing s s' with
  | nil =>
    obtain rfl := Option.some.inj ht
    exact .here ⟨s, hM, hq⟩
  | cons e es ih =>
    obtain ⟨u, hu, ht⟩ := exec_cons_some.mp ht
    have hfirst := hstep s e u s' hM (hok e List.mem_cons_self) hu
    have hrun : CanReach step' ok' costly' ([e].countP costly + es.countP costly) s' fun t' =>
        ∃ t, M t t' ∧ Q t :=
      (hfirst.mono (Nat.le_refl _) fun u' hu' => ih hu'
        (fun e' he' => hok e' (List.mem_cons_of_mem _ he')) ht).seq
    rwa [← List.countP_append] at hrun

/-- What one machine can reach, another can that makes the same steps under other names. -/
theorem CanReach.map {ε' : Type*} {step' : σ → ε' → Option σ} {ok' : ε' → Prop}
    {costly' : ε' → Bool} (f : ε → ε')
    (hstep : ∀ s e t, ok e → step s e = some t → step' s (f e) = some t)
    (hok : ∀ e, ok e → ok' (f e)) (hcostly : ∀ e, ok e → costly' (f e) = costly e)
    (h : CanReach step ok costly n s Q) : CanReach step' ok' costly' n s Q := by
  refine (h.simulate (M := Eq) ?_ rfl).mono (Nat.le_refl n) fun _ ⟨_, he, hq⟩ => he ▸ hq
  rintro s e t _ rfl he ht
  refine .event (n := 0) (hstep s e t he ht) (hok e he) ?_ (.here rfl)
  simp only [List.countP_singleton, hcostly e he, Nat.add_zero, Nat.le_refl]

/-- **Rounds**: where a round of one costly event leads to the goal or lowers the measure, the goal
is reached within the measure and one more round. -/
theorem canReach_rounds {I : σ → Prop} (μ : σ → ℕ)
    (hround : ∀ s, I s → CanReach step ok costly 1 s fun t => Q t ∨ (I t ∧ μ t < μ s))
    {s : σ} (hs : I s) : CanReach step ok costly (μ s + 1) s Q := by
  induction hk : μ s using Nat.strongRecOn generalizing s with
  | _ k ih =>
    subst hk
    have h1 : CanReach step ok costly 1 s fun t => CanReach step ok costly (μ s) t Q := by
      refine (hround s hs).mono (Nat.le_refl 1) ?_
      rintro t (hq | ⟨ht, hlt⟩)
      · exact .here hq
      · exact (ih (μ t) hlt ht rfl).mono (by omega) fun _ h => h
    exact h1.seq.mono (by omega) fun _ h => h

end Machine

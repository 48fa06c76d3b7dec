import FortyTwoHundred.Lib.Machine

/-!
# Timed — machines with a clock, and what is bound to happen

`timed time step` is the machine `step` with a clock: its states are pairs of the time of the last
event and a state, and an event with an earlier time cannot occur.  So its runs are the runs whose
times do not decrease.

`Inevitable step P s` says that every way to go on from `s` comes to a state with `P`, and that it
is always possible to go on before that.
-/

namespace Machine

variable {σ ε τ : Type*}

section Clock

variable [LE τ] [DecidableLE τ]

/-- The machine with a clock. -/
def timed (time : ε → τ) (step : σ → ε → Option σ) (s : τ × σ) (e : ε) : Option (τ × σ) :=
  if s.1 ≤ time e then (step s.2 e).map fun t => (time e, t) else none

variable {time : ε → τ} {step : σ → ε → Option σ} {s t : τ × σ} {e : ε}

theorem timed_eq_some : timed time step s e = some t ↔ s.1 ≤ time e ∧ step s.2 e = some t.2 ∧
    t.1 = time e := by
  obtain ⟨c, t⟩ := t
  unfold timed
  split_ifs with hle
  · rw [Option.map_eq_some_iff]
    constructor
    · rintro ⟨u, hu, e⟩
      obtain ⟨rfl, rfl⟩ := Prod.mk.inj e
      exact ⟨hle, hu, rfl⟩
    · rintro ⟨-, hu, rfl⟩
      exact ⟨t, hu, rfl⟩
  · constructor
    · intro h
      cases h
    · rintro ⟨h, -⟩
      exact absurd h hle

end Clock

/-- Whatever happens, a state with `P` is reached. -/
inductive Inevitable (step : σ → ε → Option σ) (P : σ → Prop) : σ → Prop
  | here {s : σ} (h : P s) : Inevitable step P s
  | later {s : σ} (hgo : ∃ e t, step s e = some t)
      (h : ∀ e t, step s e = some t → Inevitable step P t) : Inevitable step P s

/-- What is inevitable is possible. -/
theorem Inevitable.exists_exec {step : σ → ε → Option σ} {P : σ → Prop} {s : σ}
    (h : Inevitable step P s) : ∃ es u, exec step s es = some u ∧ P u := by
  induction h with
  | here h => exact ⟨[], _, rfl, h⟩
  | later hgo _ ih =>
    obtain ⟨e, t, ht⟩ := hgo
    obtain ⟨es, u, hu, hP⟩ := ih e t ht
    exact ⟨e :: es, u, exec_cons_some.mpr ⟨t, ht, hu⟩, hP⟩

/-- **What no run comes to is not inevitable.** -/
theorem not_inevitable {step : σ → ε → Option σ} {P I : σ → Prop} (hP : ∀ s, I s → ¬ P s)
    (hI : ∀ s e t, I s → step s e = some t → I t) {s : σ} (hs : I s) : ¬ Inevitable step P s := by
  intro h
  obtain ⟨es, u, hu, hPu⟩ := h.exists_exec
  exact hP u (exec_invariant hI hs hu) hPu

end Machine

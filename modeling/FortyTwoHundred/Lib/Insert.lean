import FortyTwoHundred.Lib.Machine

/-!
# Insert — a run with further events inserted

A list of `Item`s describes two runs of one machine.  Both take the `common` events; where one run
takes the first list of an `instead`, the other takes the second, and what is inserted stands
instead of nothing.  `Along step okc oki c d ms` says that every item meets its condition in the
states the two runs have reached; `exec_along` is the simulation rule that carries a relation
between the two states to the end.
-/

namespace Machine

inductive Item (ε : Type*)
  | common (e : ε)
  | instead (es es' : List ε)

variable {σ ε : Type*}

/-- The events of the first run. -/
def base : List (Item ε) → List ε
  | [] => []
  | .common e :: ms => e :: base ms
  | .instead es _ :: ms => es ++ base ms

variable (step : σ → ε → Option σ)

/-- The items meet their conditions in the states of the two runs before them. -/
def Along (okc : σ → σ → ε → Prop) (oki : σ → σ → List ε → List ε → Prop) :
    σ → σ → List (Item ε) → Prop
  | _, _, [] => True
  | c, d, .common e :: ms =>
    okc c d e ∧ ∀ c' d', step c e = some c' → step d e = some d' → Along okc oki c' d' ms
  | c, d, .instead es es' :: ms =>
    oki c d es es' ∧
      ∀ c' d', exec step c es = some c' → exec step d es' = some d' → Along okc oki c' d' ms

variable {step}

section Cons

variable {okc : σ → σ → ε → Prop} {oki : σ → σ → List ε → List ε → Prop} {c d c' d' : σ}
  {ms : List (Item ε)}

theorem Along.common {e : ε} (hc : step c e = some c') (hd : step d e = some d') (he : okc c d e)
    (h : Along step okc oki c' d' ms) : Along step okc oki c d (.common e :: ms) :=
  ⟨he, fun _ _ hc' hd' =>
    Option.some.inj (hc.symm.trans hc') ▸ Option.some.inj (hd.symm.trans hd') ▸ h⟩

theorem Along.instead {es es' : List ε} (hc : exec step c es = some c')
    (hd : exec step d es' = some d') (he : oki c d es es') (h : Along step okc oki c' d' ms) :
    Along step okc oki c d (.instead es es' :: ms) :=
  ⟨he, fun _ _ hc' hd' =>
    Option.some.inj (hc.symm.trans hc') ▸ Option.some.inj (hd.symm.trans hd') ▸ h⟩

end Cons

end Machine

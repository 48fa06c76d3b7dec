import Mathlib.Data.List.Basic

/-!
# Traced — computations that read a memory

`Traced ι β α` is a computation with a value in `α` on a memory of `β`s at the places `ι`.  It also
gives the places it reads, in their order.
-/

/-- A computation on a memory. -/
structure Traced (ι β α : Type) where
  value : (ι → β) → α
  /-- the places it reads -/
  reads : (ι → β) → List ι

namespace Traced

variable {ι β α γ : Type}

instance : Monad (Traced ι β) where
  pure a := ⟨fun _ => a, fun _ => []⟩
  bind x f := ⟨fun mem => (f (x.value mem)).value mem, fun mem => x.reads mem ++
    (f (x.value mem)).reads mem⟩

/-- One place. -/
def load (i : ι) : Traced ι β β := ⟨fun mem => mem i, fun _ => [i]⟩

/-- Several places. -/
def loads (is : List ι) : Traced ι β (List β) := ⟨fun mem => is.map mem, fun _ => is⟩

variable (mem : ι → β)

@[simp] theorem value_bind (x : Traced ι β α) (f : α → Traced ι β γ) :
    (x >>= f).value mem = (f (x.value mem)).value mem := rfl

@[simp] theorem value_loads (is : List ι) :
    (loads is : Traced ι β (List β)).value mem = is.map mem := rfl

@[simp] theorem reads_pure (a : α) : (pure a : Traced ι β α).reads mem = [] := rfl

@[simp] theorem reads_bind (x : Traced ι β α) (f : α → Traced ι β γ) :
    (x >>= f).reads mem = x.reads mem ++ (f (x.value mem)).reads mem := rfl

@[simp] theorem reads_load (i : ι) : (load i : Traced ι β β).reads mem = [i] := rfl

@[simp] theorem reads_loads (is : List ι) : (loads is : Traced ι β (List β)).reads mem = is := rfl

end Traced

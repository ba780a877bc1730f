import Synthesis.Symbol

/-!
# One value for each variable

Inputs bind each variable to a number or leave it unbound, and bounds give each variable a ceiling.
Both are a record with one entry per variable.
-/

set_option autoImplicit false

namespace Synthesis

/-- One entry of type `α` for each variable. -/
structure PerVariable (α : Type) where
  x : α
  y : α
  z : α
  deriving DecidableEq

namespace PerVariable

variable {α β : Type}

/-- The same entry for every variable. -/
def const (a : α) : PerVariable α := ⟨a, a, a⟩

/-- The entry of one variable. -/
def get (r : PerVariable α) : Variable → α
  | .x => r.x
  | .y => r.y
  | .z => r.z

/-- Replaces the entry of one variable. -/
def set (r : PerVariable α) (v : Variable) (a : α) : PerVariable α :=
  match v with
  | .x => { r with x := a }
  | .y => { r with y := a }
  | .z => { r with z := a }

/-- Combines two records entry by entry. -/
def zipWith {γ : Type} (f : α → β → γ) (r : PerVariable α) (s : PerVariable β) : PerVariable γ :=
  ⟨f r.x s.x, f r.y s.y, f r.z s.z⟩

/-- The entries in the order of `Variable.all`. -/
def toList (r : PerVariable α) : List α := Variable.all.map r.get

@[simp] theorem get_const (a : α) (v : Variable) : (const a).get v = a := by
  cases v <;> rfl

@[simp] theorem get_set_self (r : PerVariable α) (v : Variable) (a : α) :
    (r.set v a).get v = a := by
  cases v <;> rfl

theorem get_set_of_ne (r : PerVariable α) {v w : Variable} (h : w ≠ v) (a : α) :
    (r.set v a).get w = r.get w := by
  cases v <;> cases w <;> first | rfl | exact absurd rfl h

@[simp] theorem get_zipWith {γ : Type} (f : α → β → γ) (r : PerVariable α) (s : PerVariable β)
    (v : Variable) : (zipWith f r s).get v = f (r.get v) (s.get v) := by
  cases v <;> rfl

/-- Two records are equal when they agree on every variable. -/
theorem ext_get {r s : PerVariable α} (h : ∀ v, r.get v = s.get v) : r = s := by
  have hx := h .x
  have hy := h .y
  have hz := h .z
  cases r
  cases s
  simp only [get] at hx hy hz
  simp [hx, hy, hz]

end PerVariable

end Synthesis

import Mathlib.Data.Int.ModEq
import Synthesis.Evaluation

/-!
# Wrapping around once or at every node

Sums and products wrap around at every node on the way up. A tree of sums and products stands for a
polynomial, though, and a polynomial has an exact value in the integers, however large. The two have
little to do with each other in between, but at the root

> **the value is the exact one, wrapped around once** (`evalNumber_eq_wrapped`).

Wrapping integers around to 64 bits respects sums and products, so it does not matter when it is
done, or how often. In particular overflow on the way does no harm if the exact value fits again.
Conditionals are left out for a reason: a comparison of wrapped numbers is not a comparison of the
exact ones.
-/

set_option autoImplicit false

namespace Synthesis

/-! ## Wrapped integers -/

/-- Among the values, a wrapped integer is the only one in its residue class. -/
theorem Value.toInt_modEq_iff {v : Value} {n : Int} :
    v.toInt ≡ n [ZMOD 2 ^ 64] ↔ v = Int64.ofInt n := by
  constructor
  · intro h
    -- The balanced residue of a value is the value itself.
    have hbalanced : n.bmod (2 ^ 64) = v.toInt := by
      rw [← Int.emod_bmod n, ← Int64.toInt_bmod v, ← Int.emod_bmod v.toInt]
      exact congrArg (Int.bmod · (2 ^ 64)) h.symm
    exact ((Int64.ofInt_eq_iff_bmod_eq_toInt n v).2 hbalanced).symm
  · rintro rfl
    rw [Int64.toInt_ofInt]
    exact Int.bmod_emod

/-- An integer that fits is not changed by wrapping it around. -/
theorem Value.toInt_ofInt_of_fits {n : Int} (hlow : Int64.minValue.toInt ≤ n)
    (hhigh : n ≤ Int64.maxValue.toInt) : (Int64.ofInt n).toInt = n := by
  rw [Int64.toInt_minValue] at hlow
  rw [Int64.toInt_maxValue] at hhigh
  exact Int64.toInt_ofInt_of_le hlow (by omega)

/-- The input that binds every variable to its value. -/
def Bindings.full (values : PerVariable Value) : Bindings :=
  ⟨some values.x, some values.y, some values.z⟩

theorem Bindings.get_full (values : PerVariable Value) (v : Variable) :
    (full values).get v = some (values.get v) := by
  cases v <;> rfl

namespace Tree

/-! ## Polynomials -/

/-- Made of variables and literals by sums and products alone. Such a tree has no holes. -/
inductive IsPolynomial : Tree → Prop where
  | leaf (a : Atom) (s : Summary) : IsPolynomial (.leaf a s)
  | add {l r : Tree} (s : Summary) :
      IsPolynomial l → IsPolynomial r → IsPolynomial (.binary .add l r s)
  | multiply {l r : Tree} (s : Summary) :
      IsPolynomial l → IsPolynomial r → IsPolynomial (.binary .multiply l r s)

/-- The value of a polynomial in the integers, where nothing overflows. -/
def exactValue? (values : PerVariable Value) : Tree → Option Int
  | .leaf (.var v) _ => some (values.get v).toInt
  | .leaf (.lit l) _ => some l.value.toInt
  | .binary .add l r _ => do return (← l.exactValue? values) + (← r.exactValue? values)
  | .binary .multiply l r _ => do return (← l.exactValue? values) * (← r.exactValue? values)
  | _ => none

variable {t : Tree}

/-- **Wrapping around once is enough.** -/
theorem evalNumber_eq_wrapped (values : PerVariable Value) (ht : t.IsPolynomial) :
    ∃ n, t.exactValue? values = some n ∧ t.evalNumber (.full values) = .ok (Int64.ofInt n) := by
  induction ht with
  | leaf a s =>
    cases a with
    | var v =>
      refine ⟨(values.get v).toInt, rfl, ?_⟩
      rw [evalNumber, Atom.eval, Bindings.get_full, Int64.ofInt_toInt]
    | lit l =>
      refine ⟨l.value.toInt, rfl, ?_⟩
      rw [evalNumber, Atom.eval, Int64.ofInt_toInt]
  | add s _ _ ihl ihr =>
    obtain ⟨m, hm, hl⟩ := ihl
    obtain ⟨n, hn, hr⟩ := ihr
    refine ⟨m + n, by rw [exactValue?, hm, hn]; rfl, ?_⟩
    rw [evalNumber, hl, hr, Int64.ofInt_add]
    rfl
  | multiply s _ _ ihl ihr =>
    obtain ⟨m, hm, hl⟩ := ihl
    obtain ⟨n, hn, hr⟩ := ihr
    refine ⟨m * n, by rw [exactValue?, hm, hn]; rfl, ?_⟩
    rw [evalNumber, hl, hr, Int64.ofInt_mul]
    rfl

/-- **A polynomial evaluates to the one value that is congruent to its exact value**, modulo 2 to
the power 64, whatever the variables are bound to. So if the exact value fits, that is what it
evaluates to, even if something on the way does not fit. -/
theorem polynomial_wraps_once (values : PerVariable Value) (ht : t.IsPolynomial) :
    ∃ n v, t.exactValue? values = some n ∧ t.evalNumber (.full values) = .ok v ∧
      (∀ w : Value, w.toInt ≡ n [ZMOD 2 ^ 64] ↔ w = v) ∧
      (Int64.minValue.toInt ≤ n → n ≤ Int64.maxValue.toInt → v.toInt = n) := by
  obtain ⟨n, hexact, heval⟩ := evalNumber_eq_wrapped values ht
  exact ⟨n, Int64.ofInt n, hexact, heval, fun _ => Value.toInt_modEq_iff,
    Value.toInt_ofInt_of_fits⟩

/-- The square of the largest number overflows, all the way round to one, and so does the other
product. Their sum is the largest number again, because it is so in the integers. -/
theorem polynomial_wraps_once_overflow : ∃ (t square : Tree) (values : PerVariable Value),
    t.text = "Add(Multiply(x, x), Multiply(x, y))" ∧ square.text = "Multiply(x, x)" ∧
      values = ⟨Int64.maxValue, Int64.minValue + 2, 0⟩ ∧
      square.evalNumber (.full values) = .ok 1 ∧
      t.exactValue? values = some 9223372036854775807 ∧
      t.evalNumber (.full values) = .ok Int64.maxValue := by
  let x : Tree := .mkLeaf .zero (.var .x)
  let y : Tree := .mkLeaf .zero (.var .y)
  let square : Tree := .mkBinary .zero .multiply x x
  let t : Tree := .mkBinary .zero .add square (.mkBinary .zero .multiply x y)
  let values : PerVariable Value := ⟨Int64.maxValue, Int64.minValue + 2, 0⟩
  have ht : t.IsPolynomial :=
    .add _ (.multiply _ (.leaf _ _) (.leaf _ _)) (.multiply _ (.leaf _ _) (.leaf _ _))
  have hone : Int64.maxValue * Int64.maxValue = 1 := by decide
  have hsquare : square.evalNumber (.full values) = .ok 1 := congrArg Except.ok hone
  have hexact : t.exactValue? values = some 9223372036854775807 := by decide +kernel
  obtain ⟨n, v, hn, hv, -, hfits⟩ := polynomial_wraps_once values ht
  obtain rfl := Option.some.inj (hn.symm.trans hexact)
  have hmax : v = Int64.maxValue := Int64.toInt_inj.1 (hfits (by decide) (by decide))
  exact ⟨t, square, values, by decide +kernel, by decide +kernel, rfl, hsquare, hexact,
    hmax ▸ hv⟩

end Tree

end Synthesis

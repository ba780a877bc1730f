import Synthesis.Proofs.Evaluation.Inversion
import Synthesis.Proofs.Tree.FirstHole

/-!
# Results that stay

A tree may be evaluated before it is complete, and on an input that does not bind everything. Either
the result is the complaint that something is missing, a hole that was come to or a variable that
was read, or nothing that is missing was needed. In the second case, be it a value or a misfit,

> **the result is not changed by filling holes** (`Covers.persists`), and
> **it is not changed by binding more variables** (`persists_of_extendedBy`).

This is what laziness is good for. A branch that is not taken and an operand that does not decide
any more are not looked at, so what they become later is of no account.

Two results are compared by `Settles`: the second is the first, unless the first is a fault of the
kind that may yet be mended. That is kept by running one thing after the other (`Settles.bind`), and
with it every kind of node is settled once, for holes and for variables alike.
-/

set_option autoImplicit false

namespace Synthesis

namespace EvalError

/-- A hole was come to. -/
def IsHole (e : EvalError) : Prop := ∃ c, e = hole c

/-- A variable was read that has no value. -/
def IsUnbound (e : EvalError) : Prop := ∃ v, e = unbound v

end EvalError

/-- All that the first input binds, the second one binds to the same value. -/
def Bindings.ExtendedBy (input input' : Bindings) : Prop :=
  ∀ v n, input.get v = some n → input'.get v = some n

/-! ## Two results -/

/-- The second result is the first one, unless that is a fault that may be mended. -/
def Settles {α : Type} (mendable : EvalError → Prop) (r r' : Except EvalError α) : Prop :=
  (∀ e, mendable e → r ≠ .error e) → r' = r

namespace Settles

variable {α β : Type} {mendable also : EvalError → Prop} {r r' r'' : Except EvalError α}
  {f f' : α → Except EvalError β}

theorem refl (r : Except EvalError α) : Settles mendable r r := fun _ => rfl

theorem of_mendable {e : EvalError} (he : mendable e) : Settles mendable (.error e) r' :=
  fun h => absurd rfl (h e he)

/-- A value is not mended. -/
theorem of_ok {a : α} (h : Settles mendable r r') (hr : r = .ok a) : r' = .ok a := by
  subst hr
  exact h fun _ _ => by simp

/-- One fault may be mended first and the other one then. -/
theorem trans (h : Settles mendable r r') (h' : Settles also r' r'') :
    Settles (fun e => mendable e ∨ also e) r r'' := by
  intro hr
  have hsame : r' = r := h fun e he => hr e (.inl he)
  subst hsame
  exact h' fun e he => hr e (.inr he)

/-- What is settled step by step is settled as a whole. -/
theorem bind (h : Settles mendable r r') (hf : ∀ a, Settles mendable (f a) (f' a)) :
    Settles mendable (r >>= f) (r' >>= f') := by
  cases r with
  | ok a =>
    rw [h.of_ok rfl]
    exact hf a
  | error e =>
    intro hr
    -- The fault of the first step is that of the whole.
    have hsame : r' = .error e := h fun e' he' heq => hr e' he' (Except.error.inj heq ▸ rfl)
    rw [hsame]
    rfl

end Settles

/-! ## Two trees -/

namespace Tree

variable {mendable also : EvalError → Prop} {input input' input'' : Bindings}
  {t u v c p n l r c' p' n' l' r' : Tree}

/-- Read as a number or as a truth value, the second tree has the result that the first one has,
unless that is a fault that may be mended. Each tree is evaluated on an input of its own. -/
structure Persists (mendable : EvalError → Prop) (input : Bindings) (t : Tree)
    (input' : Bindings) (u : Tree) : Prop where
  number : Settles mendable (t.evalNumber input) (u.evalNumber input')
  truth : Settles mendable (t.evalTruth input) (u.evalTruth input')

theorem Persists.trans (h : Persists mendable input t input' u)
    (h' : Persists also input' u input'' v) :
    Persists (fun e => mendable e ∨ also e) input t input'' v :=
  ⟨h.number.trans h'.number, h.truth.trans h'.truth⟩

/-! ### One node -/

theorem Persists.not (h : Persists mendable input c input' c') (s s' : Summary) :
    Persists mendable input (not c s) input' (not c' s') where
  number := .refl _
  truth := by
    rw [evalTruth, evalTruth]
    exact h.truth.bind fun _ => .refl _

theorem Persists.binary (op : BinaryOperator) (hl : Persists mendable input l input' l')
    (hr : Persists mendable input r input' r') (s s' : Summary) :
    Persists mendable input (binary op l r s) input' (binary op l' r' s') := by
  cases op with
  | add | multiply =>
    refine ⟨?_, .refl _⟩
    rw [evalNumber, evalNumber]
    exact hl.number.bind fun _ => hr.number.bind fun _ => .refl _
  | lt | eq =>
    refine ⟨.refl _, ?_⟩
    rw [evalTruth, evalTruth]
    exact hl.number.bind fun _ => hr.number.bind fun _ => .refl _
  | and =>
    refine ⟨.refl _, ?_⟩
    rw [evalTruth, evalTruth]
    refine hl.truth.bind fun truth => ?_
    cases truth with
    | true => exact hr.truth
    | false => exact .refl _
  | or =>
    refine ⟨.refl _, ?_⟩
    rw [evalTruth, evalTruth]
    refine hl.truth.bind fun truth => ?_
    cases truth with
    | true => exact .refl _
    | false => exact hr.truth

theorem Persists.ite (hc : Persists mendable input c input' c')
    (hp : Persists mendable input p input' p') (hn : Persists mendable input n input' n')
    (s s' : Summary) : Persists mendable input (ite c p n s) input' (ite c' p' n' s') where
  number := by
    rw [evalNumber, evalNumber]
    refine hc.truth.bind fun truth => ?_
    cases truth with
    | true => exact hp.number
    | false => exact hn.number
  truth := .refl _

/-! ### Whole trees -/

/-- Filling holes mends no fault but that of having come to a hole. -/
theorem Covers.persists (h : t.Covers u) (input : Bindings) :
    Persists EvalError.IsHole input t input u := by
  induction h with
  | hole c s u => exact ⟨.of_mendable ⟨c, rfl⟩, .of_mendable ⟨c, rfl⟩⟩
  | leaf a s s' => exact ⟨.refl _, .refl _⟩
  | not s s' _ ih => exact ih.not s s'
  | binary op s s' _ _ ihl ihr => exact ihl.binary op ihr s s'
  | ite s s' _ _ _ ihc ihp ihn => exact ihc.ite ihp ihn s s'

/-- A variable that has a value keeps it. -/
theorem settles_eval_atom (h : input.ExtendedBy input') (a : Atom) :
    Settles EvalError.IsUnbound (a.eval input) (a.eval input') := by
  cases a with
  | lit l => exact .refl _
  | var v =>
    rw [Atom.eval, Atom.eval]
    cases hv : input.get v with
    | none => exact .of_mendable ⟨v, rfl⟩
    | some n =>
      rw [h v n hv]
      exact .refl _

/-- Binding more variables mends no fault but that of having read one without a value. -/
theorem persists_of_extendedBy (h : input.ExtendedBy input') (t : Tree) :
    Persists EvalError.IsUnbound input t input' t := by
  induction t with
  | hole c s => exact ⟨.refl _, .refl _⟩
  | leaf a s => exact ⟨settles_eval_atom h a, .refl _⟩
  | not c s ih => exact ih.not s s
  | binary op l r s ihl ihr => exact ihl.binary op ihr s s
  | ite c p n s ihc ihp ihn => exact ihc.ite ihp ihn s s

/-- **Evaluation is lazy, and what it has found stays.** Unless it is the fault of having come to a
hole, the result of a tree is not changed by replacing any of its holes by whatever tree. Unless it
is the fault of having read an unbound variable, it is not changed by binding more variables. And
unless it is one or the other, it is the result of everything that the tree may become, on every
input that binds more. All of this holds for trees read as numbers and as truth values. -/
theorem result_persists (t : Tree) (input : Bindings) :
    (∀ b path c sum s, t.at? path = some (.hole c sum) →
      ∃ g, t.substitute? b path s = some g ∧ Persists EvalError.IsHole input t input g.tree) ∧
    (∀ input', input.ExtendedBy input' → Persists EvalError.IsUnbound input t input' t) ∧
    ∀ u input', t.Covers u → input.ExtendedBy input' →
      Persists (fun e => e.IsUnbound ∨ e.IsHole) input t input' u := by
  refine ⟨?_, fun input' h => persists_of_extendedBy h t, ?_⟩
  · intro b path c sum s hat
    obtain ⟨g, hg⟩ := exists_substitute? hat b s
    exact ⟨g, hg, (covers_of_substitute? hat hg).persists input⟩
  · intro u input' hcovers h
    exact (persists_of_extendedBy h t).trans (hcovers.persists input')

/-- The first operand decides, so the condition needs no second one, and the conditional needs no
negative branch. Neither the hole there nor `y` is missed, and what is put there later may even be
of the wrong category. Read as a truth value the tree is a misfit, and it stays one. -/
theorem result_persists_decided : ∃ (b : Bounds) (t u : Tree) (g : Regrowth) (input : Bindings),
    t.text = "Ite(Or(Lt(1, x), B), Multiply(x, x), Add(y, E))" ∧
      u.text = "Ite(Or(Lt(1, x), Eq(y, 2)), Multiply(x, x), Add(y, Not(B)))" ∧
      input = ⟨some 3, none, none⟩ ∧ t.evalNumber input = .ok 9 ∧
      t.substitute? b [2, 1] (.mkNot b (.mkHole b .boolean)) = some g ∧
      g.tree.evalNumber input = .ok 9 ∧ t.evalNumber ⟨some 3, some 2, none⟩ = .ok 9 ∧
      u.evalNumber ⟨some 3, some 2, none⟩ = .ok 9 ∧
      u.evalTruth ⟨some 3, some 2, none⟩ = .error (.misfit .ite .boolean) := by
  let b : Bounds := .zero
  let x : Tree := .mkLeaf b (.var .x)
  let y : Tree := .mkLeaf b (.var .y)
  let decides : Tree := .mkBinary b .lt (.mkLeaf b (.lit .one)) x
  let square : Tree := .mkBinary b .multiply x x
  let t : Tree := .mkIte (.mkBinary b .or decides (.mkHole b .boolean)) square
    (.mkBinary b .add y (.mkHole b .numeric))
  let u : Tree := .mkIte
    (.mkBinary b .or decides (.mkBinary b .eq y (.mkLeaf b (.lit .two)))) square
    (.mkBinary b .add y (.mkNot b (.mkHole b .boolean)))
  let input : Bindings := ⟨some 3, none, none⟩
  have hnumber : t.evalNumber input = .ok 9 := rfl
  have htruth : t.evalTruth input = .error (.misfit .ite .boolean) := rfl
  have hextended : input.ExtendedBy ⟨some 3, some 2, none⟩ := by
    intro v n hn
    cases v with
    | x => exact hn
    | y | z => cases hn
  have hcovers : t.Covers u :=
    .ite _ _ (.binary .or _ _ (.refl _) (.hole _ _ _)) (.refl _)
      (.binary .add _ _ (.refl _) (.hole _ _ _))
  obtain ⟨hreplace, hbind, hboth⟩ := result_persists t input
  obtain ⟨g, hg, hreplaced⟩ := hreplace b [2, 1] .numeric _ (.mkNot b (.mkHole b .boolean)) rfl
  have hbound := (hbind _ hextended).number
  have hcompleted := hboth u _ hcovers hextended
  have hmisfit : u.evalTruth ⟨some 3, some 2, none⟩ = t.evalTruth input := by
    refine hcompleted.truth ?_
    rintro e (⟨k, rfl⟩ | ⟨k, rfl⟩) <;> simp [htruth]
  exact ⟨b, t, u, g, input, by decide +kernel, by decide +kernel, rfl, hnumber, hg,
    hreplaced.number.of_ok hnumber, hbound.of_ok hnumber, hcompleted.number.of_ok hnumber,
    hmisfit.trans htruth⟩

end Tree

end Synthesis

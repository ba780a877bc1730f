import Synthesis.Example.Basic
import Synthesis.Proofs.Tree.Built

/-!
# Evaluation taken apart

The evaluators are written with `do`, and this file is where that is opened, once. What the rest
needs is what a *value* says about the operands: where a sum or product has a value both operands
have one, and where a conditional has a value it is that of a branch. The faults along the way are
nobody's concern here.

Symbols alone decide what a tree evaluates to (`evalNumber_annotate`), so it does not matter under
which bounds a program was built.
-/

set_option autoImplicit false

namespace Synthesis

/-- A bound computation has a value only through the value of its first half. -/
theorem ok_of_bind_eq_ok {ε α β : Type} {x : Except ε α} {f : α → Except ε β} {y : β}
    (h : x >>= f = .ok y) : ∃ a, x = .ok a ∧ f a = .ok y := by
  cases x with
  | error e => exact absurd h (by simp [bind, Except.bind])
  | ok a => exact ⟨a, rfl, h⟩

/-- The fault of a bound computation is that of one of its halves. -/
theorem error_of_bind_eq_error {ε α β : Type} {x : Except ε α} {f : α → Except ε β} {e : ε}
    (h : x >>= f = .error e) : x = .error e ∨ ∃ a, x = .ok a ∧ f a = .error e := by
  cases x with
  | error e' => exact .inl (Except.error.inj h ▸ rfl)
  | ok a => exact .inr ⟨a, rfl, h⟩

/-- A variable has the value that the input binds it to. -/
theorem get_of_eval_var {input : Bindings} {w : Variable} {v : Value}
    (h : (Atom.var w).eval input = .ok v) : input.get w = some v := by
  simp only [Atom.eval] at h
  cases hw : input.get w with
  | none => exact absurd h (by simp [hw])
  | some n =>
    rw [hw] at h
    exact congrArg some (Except.ok.inj h)

namespace Tree

variable {input : Bindings} {v : Value}

theorem ok_of_evalNumber_binary {op : BinaryOperator} {l r : Tree} {s : Summary}
    (h : (binary op l r s).evalNumber input = .ok v) :
    ∃ m n, l.evalNumber input = .ok m ∧ r.evalNumber input = .ok n ∧
      (op = .add ∧ m + n = v ∨ op = .multiply ∧ m * n = v) := by
  cases op with
  | add =>
    rw [evalNumber] at h
    obtain ⟨m, hm, h⟩ := ok_of_bind_eq_ok h
    obtain ⟨n, hn, h⟩ := ok_of_bind_eq_ok h
    exact ⟨m, n, hm, hn, .inl ⟨rfl, Except.ok.inj h⟩⟩
  | multiply =>
    rw [evalNumber] at h
    obtain ⟨m, hm, h⟩ := ok_of_bind_eq_ok h
    obtain ⟨n, hn, h⟩ := ok_of_bind_eq_ok h
    exact ⟨m, n, hm, hn, .inr ⟨rfl, Except.ok.inj h⟩⟩
  | lt | eq | and | or => exact absurd h (by simp [evalNumber])

theorem ok_of_evalNumber_ite {c p n : Tree} {s : Summary}
    (h : (ite c p n s).evalNumber input = .ok v) :
    p.evalNumber input = .ok v ∨ n.evalNumber input = .ok v := by
  rw [evalNumber] at h
  obtain ⟨truth, -, h⟩ := ok_of_bind_eq_ok h
  cases truth with
  | true => exact .inl h
  | false => exact .inr h

/-- What a tree evaluates to is a matter of its symbols. -/
theorem eval_annotate (b : Bounds) (input : Bindings) (t : Tree) :
    (t.annotate b).evalNumber input = t.evalNumber input ∧
      (t.annotate b).evalTruth input = t.evalTruth input := by
  induction t with
  | hole | leaf => exact ⟨rfl, rfl⟩
  | not c s ih => simp [annotate, mkNot, evalNumber, evalTruth, ih.2]
  | binary op l r s ihl ihr =>
    cases op <;>
      simp [annotate, mkBinary, evalNumber, evalTruth, ihl.1, ihl.2, ihr.1, ihr.2]
  | ite c p n s ihc ihp ihn =>
    simp [annotate, mkIte, evalNumber, evalTruth, ihc.2, ihp.1, ihn.1]

theorem evalNumber_annotate (b : Bounds) (input : Bindings) (t : Tree) :
    (t.annotate b).evalNumber input = t.evalNumber input :=
  (eval_annotate b input t).1

end Tree

/-! ## Meeting examples -/

namespace Program

/-- The program produces the output of every example. -/
def Meets (p : Program) (es : List Example) : Prop :=
  ∀ e ∈ es, Evaluator.interpreter p e.input = .ok e.output

theorem meets_iff {p : Program} {es : List Example} :
    p.Meets es ↔ Example.allAccept .interpreter p es = .ok true := by
  induction es with
  | nil => exact ⟨fun _ => rfl, fun _ _ he => absurd he (by simp)⟩
  | cons e es ih =>
    constructor
    · intro h
      have he : Evaluator.interpreter p e.input = .ok e.output := h e (by simp)
      have hes : Example.allAccept .interpreter p es = .ok true :=
        ih.1 fun e' he' => h e' (by simp [he'])
      simp [Example.allAccept, Example.accepts, he, hes, bind, Except.bind, pure, Except.pure]
    · intro h
      rw [Example.allAccept] at h
      obtain ⟨accepted, he, h⟩ := ok_of_bind_eq_ok h
      obtain ⟨value, hvalue, he⟩ := ok_of_bind_eq_ok he
      cases accepted with
      | false => exact absurd (Except.ok.inj h) Bool.false_ne_true
      | true =>
        have hout : value = e.output := of_decide_eq_true (Except.ok.inj he)
        intro e' he'
        rcases List.mem_cons.1 he' with rfl | he'
        · rw [hvalue, hout]
        · exact ih.2 h e' he'

/-- Programs with the same symbols meet the same examples. -/
theorem meets_iff_of_annotate_eq {p q : Program} {es : List Example} {b : Bounds}
    (h : p.tree.annotate b = q.tree) : q.Meets es ↔ p.Meets es := by
  have heval (input : Bindings) :
      Evaluator.interpreter q input = Evaluator.interpreter p input := by
    show q.tree.evalNumber input = p.tree.evalNumber input
    rw [← h, Tree.evalNumber_annotate]
  simp only [Meets, heval]

end Program

end Synthesis

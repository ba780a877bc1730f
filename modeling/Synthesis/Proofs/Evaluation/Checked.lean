import Synthesis.Evaluation

/-!
# Evaluation that checks its assumptions

An evaluator may also be written over symbols and lists of children. It asks for the operator at the
root, turns away the ones of the wrong category, and then reads as many children as the operator
should have. On the way it assumes that the children are there, and that no operator of the wrong
category is left when the cases are gone through.

Faults are answers, but an assumption that does not hold leaves nothing to answer with. `Checked`
keeps the two apart, and

> **no assumption is ever broken** (`checkedNumber_eq`),

whatever the tree is and whether it has a value or not.
-/

set_option autoImplicit false

namespace Synthesis

/-- A computation that comes to a value or to a fault, or breaks an assumption. -/
abbrev Checked (α : Type) := ExceptT EvalError Option α

namespace Checked

variable {α β : Type}

/-- The computation kept to its assumptions and came to a result. -/
def of (r : Except EvalError α) : Checked α := ExceptT.mk (some r)

/-- An assumption does not hold. -/
def broken : Checked α := ExceptT.mk none

/-- Two halves that keep to their assumptions make a whole that does. -/
theorem of_bind (x : Except EvalError α) (f : α → Except EvalError β) :
    (of x >>= fun a => of (f a)) = of (x >>= f) := by
  cases x <;> rfl

end Checked

namespace Tree

theorem size_lt_of_mem_children {t c : Tree} (hc : c ∈ t.children) : c.size < t.size := by
  cases t with
  | hole | leaf => exact absurd hc (by simp [children])
  | not c' s =>
    obtain rfl := List.mem_singleton.1 hc
    exact Nat.lt_succ_self _
  | binary op l r s =>
    simp only [children, List.mem_cons, List.not_mem_nil, or_false] at hc
    rcases hc with rfl | rfl <;> simp only [size] <;> omega
  | ite c' p n s =>
    simp only [children, List.mem_cons, List.not_mem_nil, or_false] at hc
    rcases hc with rfl | rfl | rfl <;> simp only [size] <;> omega

/-! ## The evaluator -/

/-- The operator at the root, if it produces values of the category that is wanted. -/
def operator (t : Tree) (wanted : Category) : Except EvalError Operator :=
  match t.symbol with
  | .hole c => .error (.hole c)
  | .op op => if op.category = wanted then .ok op else .error (.misfit op wanted)

/-- The child at a position, if there is one. It is smaller than the tree. -/
def child? (t : Tree) (i : Nat) : Option { c : Tree // c.size < t.size } :=
  match h : t.children[i]? with
  | some c => some ⟨c, size_lt_of_mem_children (List.mem_of_getElem? h)⟩
  | none => none

/-- The numbers that the first two children evaluate to, the first one first. -/
def operands (t : Tree) (eval : (c : Tree) → c.size < t.size → Checked Value) :
    Checked (Value × Value) := do
  let ⟨l, hl⟩ ← t.child? 0
  let m ← eval l hl
  let ⟨r, hr⟩ ← t.child? 1
  let n ← eval r hr
  return (m, n)

mutual

/-- The number a tree evaluates to, with every assumption checked. -/
def checkedNumber (input : Bindings) (t : Tree) : Checked Value := do
  match ← Checked.of (t.operator .numeric) with
  | .atom a => Checked.of (a.eval input)
  | .binary .add =>
    let (m, n) ← t.operands fun c _ => c.checkedNumber input
    return m + n
  | .binary .multiply =>
    let (m, n) ← t.operands fun c _ => c.checkedNumber input
    return m * n
  | .ite =>
    let ⟨c, _⟩ ← t.child? 0
    if ← c.checkedTruth input then
      let ⟨p, _⟩ ← t.child? 1
      p.checkedNumber input
    else
      let ⟨n, _⟩ ← t.child? 2
      n.checkedNumber input
  | .not | .binary .lt | .binary .eq | .binary .and | .binary .or => Checked.broken
termination_by t.size

/-- The truth value a tree evaluates to, with every assumption checked. -/
def checkedTruth (input : Bindings) (t : Tree) : Checked Bool := do
  match ← Checked.of (t.operator .boolean) with
  | .binary .lt =>
    let (m, n) ← t.operands fun c _ => c.checkedNumber input
    return decide (m < n)
  | .binary .eq =>
    let (m, n) ← t.operands fun c _ => c.checkedNumber input
    return decide (m = n)
  | .not =>
    let ⟨c, _⟩ ← t.child? 0
    return !(← c.checkedTruth input)
  | .binary .and =>
    let ⟨l, _⟩ ← t.child? 0
    if ← l.checkedTruth input then
      let ⟨r, _⟩ ← t.child? 1
      r.checkedTruth input
    else return false
  | .binary .or =>
    let ⟨l, _⟩ ← t.child? 0
    if ← l.checkedTruth input then return true
    else
      let ⟨r, _⟩ ← t.child? 1
      r.checkedTruth input
  | .atom _ | .ite | .binary .add | .binary .multiply => Checked.broken
termination_by t.size

end

/-! ## No assumption is broken -/

variable {input : Bindings} {op : BinaryOperator} {l r c p n : Tree} {s : Summary}

/-- Two operands that keep to their assumptions are evaluated one after the other. -/
theorem operands_binary (hl : l.checkedNumber input = .of (l.evalNumber input))
    (hr : r.checkedNumber input = .of (r.evalNumber input)) :
    ((binary op l r s).operands fun c _ => c.checkedNumber input) =
      .of (do return (← l.evalNumber input, ← r.evalNumber input)) := by
  show (l.checkedNumber input >>= fun m => r.checkedNumber input >>= fun n => .of (.ok (m, n))) = _
  simp only [hl, hr, Checked.of_bind]
  rfl

theorem checked_binary (op : BinaryOperator) (s : Summary)
    (hl : l.checkedNumber input = .of (l.evalNumber input) ∧
      l.checkedTruth input = .of (l.evalTruth input))
    (hr : r.checkedNumber input = .of (r.evalNumber input) ∧
      r.checkedTruth input = .of (r.evalTruth input)) :
    (binary op l r s).checkedNumber input = .of ((binary op l r s).evalNumber input) ∧
      (binary op l r s).checkedTruth input = .of ((binary op l r s).evalTruth input) := by
  rw [checkedNumber, checkedTruth]
  cases op with
  | add | multiply =>
    refine ⟨?_, rfl⟩
    simp only [operands_binary hl.1 hr.1]
    rw [evalNumber]
    cases l.evalNumber input <;> cases r.evalNumber input <;> rfl
  | lt | eq =>
    refine ⟨rfl, ?_⟩
    simp only [operands_binary hl.1 hr.1]
    rw [evalTruth]
    cases l.evalNumber input <;> cases r.evalNumber input <;> rfl
  | and =>
    refine ⟨rfl, ?_⟩
    show (l.checkedTruth input >>= fun p =>
      if p = true then r.checkedTruth input else .of (.ok false)) = _
    simp only [hl.2, hr.2, ← apply_ite Checked.of, Checked.of_bind]
    rw [evalTruth]
    rfl
  | or =>
    refine ⟨rfl, ?_⟩
    show (l.checkedTruth input >>= fun p =>
      if p = true then .of (.ok true) else r.checkedTruth input) = _
    simp only [hl.2, hr.2, ← apply_ite Checked.of, Checked.of_bind]
    rw [evalTruth]
    rfl

/-- **No assumption is broken.** Checked or not, evaluation comes to the same value or fault. -/
theorem checked_eq (input : Bindings) (t : Tree) :
    t.checkedNumber input = .of (t.evalNumber input) ∧
      t.checkedTruth input = .of (t.evalTruth input) := by
  induction t with
  | hole c s =>
    rw [checkedNumber, checkedTruth]
    exact ⟨rfl, rfl⟩
  | leaf a s =>
    rw [checkedNumber, checkedTruth]
    exact ⟨rfl, rfl⟩
  | not c s ih =>
    rw [checkedNumber, checkedTruth]
    refine ⟨rfl, ?_⟩
    show (c.checkedTruth input >>= fun p => .of (.ok !p)) = _
    rw [ih.2, Checked.of_bind, evalTruth]
    rfl
  | binary op l r s ihl ihr => exact checked_binary op s ihl ihr
  | ite c p n s ihc ihp ihn =>
    rw [checkedNumber, checkedTruth]
    refine ⟨?_, rfl⟩
    show (c.checkedTruth input >>= fun truth =>
      if truth = true then p.checkedNumber input else n.checkedNumber input) = _
    simp only [ihc.2, ihp.1, ihn.1, ← apply_ite Checked.of, Checked.of_bind]
    rw [evalNumber]

theorem checkedNumber_eq (input : Bindings) (t : Tree) :
    t.checkedNumber input = .of (t.evalNumber input) :=
  (checked_eq input t).1

end Tree

end Synthesis

import Synthesis.Proofs.Evaluation.Inversion
import Synthesis.Proofs.Grammar.Generation

/-!
# Programs of a grammar have values

Evaluation stops at a hole, at an operator of the wrong category, and at a variable without a value.
A program of a grammar has no holes and only operators that fit. So the first two never happen, and

> **what is wrong, if anything is, is wrong with the input** (`answers_of_generates`).

On examples that bind all variables its trial comes to a verdict (`exists_allAccept`), and no step
of a search fails for want of a value.
-/

set_option autoImplicit false

namespace Synthesis

variable {input : Bindings}

/-! ## Whose fault it is -/

/-- The input gives every variable a value. -/
def BindsAll (input : Bindings) : Prop := ∀ v : Variable, ∃ n, input.get v = some n

theorem BindsAll.get_ne_none (h : BindsAll input) (v : Variable) : input.get v ≠ none := by
  obtain ⟨n, hn⟩ := h v
  rw [hn]
  exact Option.some_ne_none n

/-- There is a value, or a variable was read that the input does not bind. -/
def BlamesInput {α : Type} (input : Bindings) (r : Except EvalError α) : Prop :=
  ∀ err, r = .error err → ∃ v, err = .unbound v ∧ input.get v = none

namespace BlamesInput

variable {α β : Type} {x : Except EvalError α} {f : α → Except EvalError β}

theorem ok (a : α) : BlamesInput input (.ok a : Except EvalError α) :=
  fun _ herr => absurd herr (by simp)

theorem bind (hx : BlamesInput input x) (hf : ∀ a, BlamesInput input (f a)) :
    BlamesInput input (x >>= f) := by
  intro err herr
  rcases error_of_bind_eq_error herr with herr | ⟨a, -, herr⟩
  · exact hx err herr
  · exact hf a err herr

end BlamesInput

namespace Tree

variable {g : Grammar} {b : Bounds} {c : Category} {t : Tree}

/-- Evaluated as one of the category, the tree has no fault of its own. -/
def Answers (input : Bindings) (t : Tree) : Category → Prop
  | .numeric => BlamesInput input (t.evalNumber input)
  | .boolean => BlamesInput input (t.evalTruth input)

/-! ## One node -/

theorem answers_leaf (a : Atom) (s : Summary) : (leaf a s).Answers input .numeric := by
  cases a with
  | lit l => exact .ok l.value
  | var v =>
    intro err herr
    rw [evalNumber, Atom.eval] at herr
    cases hv : input.get v with
    | none =>
      rw [hv] at herr
      exact ⟨v, (Except.error.inj herr).symm, hv⟩
    | some n =>
      rw [hv] at herr
      exact absurd herr (by simp)

theorem answers_not {t : Tree} (ht : t.Answers input .boolean) (s : Summary) :
    (not t s).Answers input .boolean := by
  rw [Answers, evalTruth]
  exact BlamesInput.bind ht fun p => .ok _

theorem answers_binary {op : BinaryOperator} {l r : Tree} (hl : l.Answers input op.operands)
    (hr : r.Answers input op.operands) (s : Summary) :
    (binary op l r s).Answers input op.category := by
  cases op with
  | add | multiply =>
    rw [BinaryOperator.category, Answers, evalNumber]
    exact BlamesInput.bind hl fun m => BlamesInput.bind hr fun n => .ok _
  | lt | eq =>
    rw [BinaryOperator.category, Answers, evalTruth]
    exact BlamesInput.bind hl fun m => BlamesInput.bind hr fun n => .ok _
  | and | or =>
    -- The first operand may decide, and then the second one is not evaluated.
    rw [BinaryOperator.category, Answers, evalTruth]
    refine BlamesInput.bind hl fun p => ?_
    cases p <;> first | exact .ok _ | exact hr

theorem answers_ite {t p n : Tree} (ht : t.Answers input .boolean)
    (hp : p.Answers input .numeric) (hn : n.Answers input .numeric) (s : Summary) :
    (ite t p n s).Answers input .numeric := by
  rw [Answers, evalNumber]
  refine BlamesInput.bind ht fun truth => ?_
  cases truth with
  | false => exact hn
  | true => exact hp

/-! ## Whole programs -/

/-- **A complete tree of a grammar has no fault of its own**, evaluated as one of the category that
it was generated from. -/
theorem answers_of_generates (input : Bindings) (h : g.Generates c t) :
    Built b t → t.isComplete = true → t.Answers input c := by
  -- The grammar lists an operator under its own category.
  have hcategory {op : Operator} {c : Category} (hop : op ∈ g.operators c) : op.category = c :=
    Grammar.category_of_mem_operators hop
  induction h with
  | hole c s =>
    intro hb hcomplete
    rw [built_hole_iff.1 hb] at hcomplete
    exact absurd hcomplete Bool.false_ne_true
  | leaf s hop =>
    intro _ _
    rw [← hcategory hop]
    exact answers_leaf _ s
  | not s hop _ ih =>
    intro hb hcomplete
    rw [isComplete_not hb] at hcomplete
    rw [← hcategory hop]
    exact answers_not (ih (built_not_iff.1 hb).1 hcomplete) s
  | binary s hop _ _ ihl ihr =>
    intro hb hcomplete
    rw [isComplete_binary hb, Bool.and_eq_true] at hcomplete
    obtain ⟨hl, hr, -⟩ := built_binary_iff.1 hb
    rw [← hcategory hop]
    exact answers_binary (ihl hl hcomplete.1) (ihr hr hcomplete.2) s
  | ite s hop _ _ _ iht ihp ihn =>
    intro hb hcomplete
    rw [isComplete_ite hb, Bool.and_eq_true, Bool.and_eq_true] at hcomplete
    obtain ⟨ht, hp, hn, -⟩ := built_ite_iff.1 hb
    rw [← hcategory hop]
    exact answers_ite (iht ht hcomplete.1.1) (ihp hp hcomplete.1.2) (ihn hn hcomplete.2) s

end Tree

namespace Example

variable {g : Grammar} {b : Bounds} {p : Program} {es es' : List Example}

/-- If trying a program of a grammar comes to no verdict, some example is to blame. -/
theorem exists_unbound_of_allAccept {err : EvalError} (hgen : g.Generates .numeric p.tree)
    (hb : p.tree.Built b) (herr : allAccept .interpreter p es = .error err) :
    ∃ v, err = .unbound v ∧ ∃ e ∈ es, e.input.get v = none := by
  induction es with
  | nil => exact absurd herr (by simp [allAccept])
  | cons e es ih =>
    rcases error_of_bind_eq_error herr with haccepts | ⟨accepted, -, hrest⟩
    · -- The example itself is to blame, because comparing values is no fault.
      rcases error_of_bind_eq_error haccepts with heval | ⟨value, -, hverdict⟩
      · obtain ⟨v, hv, hnone⟩ := Tree.answers_of_generates e.input hgen hb p.complete err heval
        exact ⟨v, hv, e, List.mem_cons_self, hnone⟩
      · exact absurd hverdict (by simp [pure, Except.pure])
    · cases accepted with
      | false => exact absurd hrest (by simp [pure, Except.pure])
      | true =>
        obtain ⟨v, hv, e', he', hnone⟩ := ih hrest
        exact ⟨v, hv, e', List.mem_cons_of_mem _ he', hnone⟩

/-- Trying a program of a grammar on examples that bind all variables comes to a verdict. -/
theorem exists_allAccept (hes : ∀ e ∈ es, BindsAll e.input) (hgen : g.Generates .numeric p.tree)
    (hb : p.tree.Built b) : ∃ verdict, allAccept .interpreter p es = .ok verdict := by
  cases hverdict : allAccept .interpreter p es with
  | ok verdict => exact ⟨verdict, rfl⟩
  | error err =>
    obtain ⟨v, -, e, he, hnone⟩ := exists_unbound_of_allAccept hgen hb hverdict
    exact absurd hnone ((hes e he).get_ne_none v)

/-- The verdict on a program of a grammar does not depend on the order of the examples, or on how
often each is given. -/
theorem allAccept_congr (hes : ∀ e ∈ es, BindsAll e.input) (hsame : ∀ e, e ∈ es ↔ e ∈ es')
    (hgen : g.Generates .numeric p.tree) (hb : p.tree.Built b) :
    allAccept .interpreter p es = allAccept .interpreter p es' := by
  have hes' : ∀ e ∈ es', BindsAll e.input := fun e he => hes e ((hsame e).2 he)
  -- Trying in either order comes to a verdict, and the verdicts are told by the same examples.
  obtain ⟨verdict, hverdict⟩ := exists_allAccept hes hgen hb
  obtain ⟨verdict', hverdict'⟩ := exists_allAccept hes' hgen hb
  have hmeets : p.Meets es ↔ p.Meets es' := by simp only [Program.Meets, hsame]
  rw [Program.meets_iff, Program.meets_iff, hverdict, hverdict'] at hmeets
  rw [hverdict, hverdict']
  cases verdict <;> cases verdict' <;> simp_all

end Example

end Synthesis

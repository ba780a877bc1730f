import Mathlib.Algebra.GroupWithZero.Nat
import Mathlib.Data.List.Forall2
import Synthesis.Proofs.Enumerator.Checked
import Synthesis.Proofs.Enumerator.Counting
import Synthesis.Proofs.Enumerator.Queue
import Synthesis.Proofs.Tree.Scan
import Synthesis.Proofs.Tree.Sharing

/-!
# What an expansion does, all of it

An expansion looks for a hole, fills it in every way, drops some of the results, puts the others
into line and counts. Each of these has its laws elsewhere; here they are put together into one
description of the enumerator afterwards, down to the last field:

> **the line gains the admitted candidates under consecutive numbers, in the order of the grammar,
> and nothing else happens to it** (`expand_described`).

The candidates are told apart from the way they are made: to each operator that the grammar lists
for the hole belongs the tree that has it, on top of fresh holes, in the place of the hole
(`FilledWith`). There is one for each operator because a hole that was found can be filled.
-/

set_option autoImplicit false

namespace Synthesis

/-- The second tree is the first one with an operator on top of fresh holes at the path. -/
def Tree.FilledWith (b : Bounds) (t : Tree) (path : Path) (op : Operator) (u : Tree) : Prop :=
  ∃ s, Tree.build? b (.op op) (op.signature.map (.mkHole b)) = some s ∧
    t.substitute? b path s = some ⟨u, path.length⟩

/-- Given the operator and the place there is at most one such tree. -/
theorem Tree.rightUnique_filledWith (b : Bounds) (t : Tree) (path : Path) :
    Relator.RightUnique (t.FilledWith b path) := by
  rintro op u u' ⟨s, hs, hu⟩ ⟨s', hs', hu'⟩
  rw [hs] at hs'
  rw [← Option.some.inj hs', hu] at hu'
  exact congrArg Regrowth.tree (Option.some.inj hu')

/-- Where every element has an image, the images are those of the elements in their order. -/
theorem forall₂_filterMap {α β : Type} {f : α → Option β} (hf : ∀ a, (f a).isSome) (l : List α) :
    List.Forall₂ (fun a b => f a = some b) l (l.filterMap f) := by
  induction l with
  | nil => exact .nil
  | cons a l ih =>
    obtain ⟨b, hb⟩ := Option.isSome_iff_exists.1 (hf a)
    rw [List.filterMap_cons_some hb]
    exact .cons hb ih

/-- What related elements have in common may be read off either side. -/
theorem map_eq_map_of_forall₂ {α β γ : Type} {R : α → β → Prop} {f : α → γ} {g : β → γ}
    {l : List α} {m : List β} (h : List.Forall₂ R l m) (hR : ∀ a b, R a b → f a = g b) :
    l.map f = m.map g := by
  rw [← List.forall₂_eq_eq_eq, List.forall₂_map_left_iff, List.forall₂_map_right_iff]
  exact h.imp hR

@[simp] theorem Tree.size_sprout (b : Bounds) (op : Operator) :
    (Tree.sprout b op).size = 1 + op.arity := by
  cases op <;> rfl

namespace Enumerator

variable {g : Grammar} {b : Bounds} {e : Enumerator} {t u : Tree} {h : Hole} {op : Operator}
  {c : Candidate} {requests : List Request}

/-! ## One candidate for each operator -/

theorem forall₂_candidates (hh : t.firstHole? = some h) :
    List.Forall₂ (fun op c => e.fill? t h op = some c) (e.grammar.operators h.category)
      (e.candidates t h) :=
  forall₂_filterMap (fun op => isSome_fill? hh op) _

/-- Filling a hole takes the nodes of the sprout and those on the way to the hole. -/
theorem fill?_eq_some (hc : e.fill? t h op = some c) :
    t.FilledWith e.bounds h.path op c.tree ∧ c.built = 1 + op.arity + h.path.length := by
  obtain ⟨r, hr, rfl⟩ := Option.map_eq_some_iff.1 hc
  have hrebuilt := Tree.rebuilt_of_substitute? hr
  refine ⟨⟨_, Tree.build?_signature e.bounds op, ?_⟩, ?_⟩
  · rw [hr, ← hrebuilt]
  · rw [← hrebuilt]

theorem totalBuilt_eq (cs : List Candidate) :
    Candidate.totalBuilt cs = (cs.map (·.built)).sum := by
  induction cs with
  | nil => rfl
  | cons c cs ih => rw [Candidate.totalBuilt, ih, List.map_cons, List.sum_cons]

theorem length_growths (hh : t.firstHole? = some h) :
    (t.growths e.grammar e.bounds).length = (e.grammar.operators h.category).length := by
  rw [← candidates_map_tree hh, List.length_map, (forall₂_candidates hh).length_eq]

theorem forall₂_growths (hh : t.firstHole? = some h) :
    List.Forall₂ (t.FilledWith e.bounds h.path) (e.grammar.operators h.category)
      (t.growths e.grammar e.bounds) := by
  rw [← candidates_map_tree hh, List.forall₂_map_right_iff]
  exact (forall₂_candidates hh).imp fun op c hc => (fill?_eq_some hc).1

theorem built_eq (hh : t.firstHole? = some h) : e.built t =
    ((e.grammar.operators h.category).map fun op => 1 + op.arity + h.path.length).sum := by
  have hbuilt := map_eq_map_of_forall₂ (f := fun op => 1 + op.arity + h.path.length)
    (forall₂_candidates (e := e) hh) fun op c hc => (fill?_eq_some hc).2.symm
  rw [built, hh, hbuilt]
  exact totalBuilt_eq _

/-- What is built for a candidate is what it does not have in common with the tree. -/
theorem unshared_of_filledWith {s : Summary} (hat : t.at? h.path = some (.hole h.category s))
    (hu : t.FilledWith b h.path op u) : t.unshared u = 1 + op.arity + h.path.length := by
  obtain ⟨r, hbuild, hr⟩ := hu
  rw [Tree.build?_signature] at hbuild
  obtain rfl := Option.some.inj hbuild
  have hroot : ∃ op', (Tree.sprout b op).symbol = .op op' := ⟨op, Tree.symbol_sprout b op⟩
  have hcount := Tree.unshared_of_substitute? hat (Tree.ne_hole_of_symbol hroot).symm hr
  rw [hcount, Tree.unshared_hole hroot, Tree.size_sprout]

/-! ## What is dropped -/

/-- What is not kept is below the target. -/
theorem length_growths_sub (e : Enumerator) (t : Tree) :
    (t.growths e.grammar e.bounds).length - (e.kept t).length =
      ((t.growths e.grammar e.bounds).filter
        fun u => decide (u.bound < e.bounds.target)).length := by
  have hsplit := List.length_eq_length_filter_add (l := t.growths e.grammar e.bounds)
    fun u => decide (e.bounds.target ≤ u.bound)
  have hrest : (fun u : Tree => !decide (e.bounds.target ≤ u.bound)) =
      fun u => decide (u.bound < e.bounds.target) := by
    funext u
    rw [← decide_not]
    exact decide_eq_decide.2 Int64.not_le
  rw [hrest] at hsplit
  rw [hsplit, kept, Nat.add_sub_cancel_left]

/-! ## The whole of it -/

/-- The enumerator after an expansion, field by field. -/
theorem expand_of_hole (hh : t.firstHole? = some h) : e.expand t =
    let pruned :=
      ((t.growths e.grammar e.bounds).filter fun u => decide (u.bound < e.bounds.target)).length
    (⟨(e.kept t).length, pruned⟩, { e with
      worklist := ((e.kept t).foldl push e).worklist
      nextNumber := e.nextNumber + (e.kept t).length
      stats := { e.stats with
        nodesBuilt := e.stats.nodesBuilt +
          ((e.grammar.operators h.category).map fun op => 1 + op.arity + h.path.length).sum
        enqueued := e.stats.enqueued + (e.kept t).length
        pruned := e.stats.pruned + pruned
        expanded := e.stats.expanded + 1 } }) := by
  have hdropped := length_growths_sub e t
  have hfst := expand_fst e t
  have hsnd := expand_snd e t
  rw [hdropped] at hfst
  rw [foldl_push_eq, tally, hdropped, built_eq hh, hh] at hsnd
  exact Prod.ext hfst hsnd

/-- **What an expansion does.** However the enumerator was used before, and whatever tree it is
handed, even one that was put together under other bounds: if the tree has no hole, nothing changes.
Otherwise there is one candidate for each operator that the grammar lists for the category of the
first hole, and the candidates whose bound is at least the target join the line in their order under
the numbers from the next one on, while all entries stay where they are. The other candidates are
counted as pruned, and the nodes of all of them that they do not have in common with the tree as
built; these are the operator, its fresh holes and as many nodes as there are steps to the hole. -/
theorem expand_described (h : (new g b).after? requests = some e) (ht : t.Assembled) :
    ((∀ path c s, t.at? path ≠ some (.hole c s)) → e.expand t = (⟨0, 0⟩, e)) ∧
    ∀ hole, t.IsFirstHole hole → ∃ candidates worklist,
      let operators := e.grammar.operators hole.category
      let kept := candidates.filter fun u => decide (e.bounds.target ≤ u.bound)
      let dropped := candidates.filter fun u => decide (u.bound < e.bounds.target)
      let built := (operators.map fun op => 1 + op.arity + hole.path.length).sum
      List.Forall₂ (t.FilledWith e.bounds hole.path) operators candidates ∧
      e.expand t = (⟨kept.length, dropped.length⟩, { e with
        worklist := worklist
        nextNumber := e.nextNumber + kept.length
        stats := { e.stats with
          nodesBuilt := e.stats.nodesBuilt + built
          enqueued := e.stats.enqueued + kept.length
          pruned := e.stats.pruned + dropped.length
          expanded := e.stats.expanded + 1 } }) ∧
      worklist.toList.Perm (e.worklist.toList ++
        kept.mapIdx fun i u => (.ofTree u (e.nextNumber + i), u)) ∧
      kept.length + dropped.length = operators.length ∧
      built = (candidates.map t.unshared).sum := by
  have hnumbered := (numbered_new g b).after h
  constructor
  · intro hfree
    have hnone := (Tree.isComplete_iff_firstHole? ht).1 ((Tree.isComplete_iff_holeFree ht).2 hfree)
    rw [expand, hnone]
  · intro hole hfirst
    have hh := (Tree.firstHole?_eq_some_iff ht).2 hfirst
    obtain ⟨s, hat⟩ := hfirst.1
    have hcandidates := forall₂_growths (e := e) hh
    refine ⟨t.growths e.grammar e.bounds, _, hcandidates, expand_of_hole hh,
      hnumbered.toList_foldl_push_perm (e.kept t), ?_, ?_⟩
    · show (e.kept t).length + _ = _
      have hkept : (e.kept t).length ≤ (t.growths e.grammar e.bounds).length :=
        List.length_filter_le _ _
      rw [← length_growths_sub, hcandidates.length_eq]
      omega
    · exact congrArg List.sum (map_eq_map_of_forall₂ hcandidates
        fun op u hu => (unshared_of_filledWith hat hu).symm)

/-- A sum that was built when nothing was known yet is handed to an enumerator that has grown the
start. The sum with a variable that is always zero, or with a small literal, misses the target. -/
theorem expand_described_sum : ∃ (e : Enumerator) (t : Tree) (candidates : List Tree),
    t.text = "Add(y, E)" ∧
      e.worklist.toList.map (·.2.text) = ["x", "Add(E, E)", "Multiply(E, E)", "Ite(B, E, E)"] ∧
      e.nextNumber = 5 ∧ candidates.map Tree.text =
        ["Add(y, x)", "Add(y, y)", "Add(y, z)", "Add(y, 1)", "Add(y, 2)", "Add(y, 3)",
          "Add(y, Ite(B, E, E))", "Add(y, Add(E, E))", "Add(y, Multiply(E, E))"] ∧
      (e.expand t).1 = ⟨4, 5⟩ ∧ (e.expand t).2.stats = ⟨42, 9, 10, 1, 2⟩ ∧
      (e.expand t).2.nextNumber = 9 ∧
      (e.expand t).2.worklist.toList.Perm (e.worklist.toList ++
        (candidates.filter fun u => decide (5 ≤ u.bound)).mapIdx
          fun i u => (.ofTree u (5 + i), u)) := by
  let b : Bounds := ⟨5, ⟨5, 0, 0⟩⟩
  let t : Tree := .mkBinary .zero .add (.mkLeaf .zero (.var .y)) (.mkHole .zero .numeric)
  have ht : t.Assembled := .binary _ .add (.leaf _ _) (.hole _ _)
  have hh : t.firstHole? = some ⟨[1], .numeric⟩ := rfl
  have hview : ((new .arithmetic b).after? [.pop, .expand (.mkHole b .numeric)]).map
      (fun e => (e.grammar, e.bounds, e.worklist.toList.map (·.2.text), e.nextNumber, e.stats)) =
        some (.arithmetic, b, ["x", "Add(E, E)", "Multiply(E, E)", "Ite(B, E, E)"], 5,
          ⟨17, 5, 5, 1, 1⟩) := by
    decide +kernel
  obtain ⟨e, he, hview⟩ := Option.map_eq_some_iff.1 hview
  simp only [Prod.mk.injEq] at hview
  obtain ⟨hgrammar, hbounds, htexts, hnext, hstats⟩ := hview
  obtain ⟨candidates, worklist, hfilled, hexpand, hentries, -, -⟩ :=
    (expand_described he ht).2 _ ((Tree.firstHole?_eq_some_iff ht).1 hh)
  have hcandidates : candidates = t.growths .arithmetic b := by
    have hgrowths := forall₂_growths (e := e) hh
    rw [hgrammar, hbounds] at hgrowths
    rw [hgrammar, hbounds] at hfilled
    exact List.right_unique_forall₂' (Tree.rightUnique_filledWith _ _ _) hfilled hgrowths
  subst hcandidates
  refine ⟨e, t, t.growths .arithmetic b, by decide +kernel, htexts, hnext, by decide +kernel, ?_⟩
  rw [hexpand]
  simp only [hgrammar, hbounds, hnext, hstats] at hentries ⊢
  exact ⟨by decide +kernel, by decide +kernel, by decide +kernel, hentries⟩

end Enumerator

end Synthesis

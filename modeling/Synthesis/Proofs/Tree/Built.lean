import Synthesis.Tree.Path

/-!
# Trees built under one set of bounds

The constructors of `Tree` take any summary, so most of what is true of the trees of a run is not
true of all trees. `Built b` singles out the ones that were put together with the `mk` functions
under the bounds `b`, children first. It is the hypothesis of every fact about costs and bounds.
Completeness does not depend on bounds, and for facts about it `Assembled` is enough, where every
node may have been put together under bounds of its own.

`Built` and `annotate` say the same thing twice: a tree is built under `b` exactly when deriving
its summaries anew under `b` changes nothing (`built_iff`). The inductive form is what proofs take
apart, the equation is what decides. Symbols do not depend on bounds at all, so a tree and its
`annotate` print the same, cost the same and compute the same.
-/

set_option autoImplicit false

namespace Synthesis

namespace Tree

/-- Put together node by node, every node under the same bounds. -/
inductive Built (b : Bounds) : Tree → Prop where
  | hole (c : Category) : Built b (mkHole b c)
  | leaf (a : Atom) : Built b (mkLeaf b a)
  | not {c : Tree} : Built b c → Built b (mkNot b c)
  | binary (op : BinaryOperator) {l r : Tree} : Built b l → Built b r → Built b (mkBinary b op l r)
  | ite {c p n : Tree} : Built b c → Built b p → Built b n → Built b (mkIte c p n)

/-- Put together node by node, each node under whatever bounds. -/
inductive Assembled : Tree → Prop where
  | hole (b : Bounds) (c : Category) : Assembled (mkHole b c)
  | leaf (b : Bounds) (a : Atom) : Assembled (mkLeaf b a)
  | not (b : Bounds) {c : Tree} : Assembled c → Assembled (mkNot b c)
  | binary (b : Bounds) (op : BinaryOperator) {l r : Tree} :
      Assembled l → Assembled r → Assembled (mkBinary b op l r)
  | ite {c p n : Tree} : Assembled c → Assembled p → Assembled n → Assembled (mkIte c p n)

variable {b b' : Bounds} {t : Tree}

theorem Built.assembled (h : Built b t) : Assembled t := by
  induction h with
  | hole c => exact .hole b c
  | leaf a => exact .leaf b a
  | not _ ih => exact .not b ih
  | binary op _ _ ihl ihr => exact .binary b op ihl ihr
  | ite _ _ _ ihc ihp ihn => exact .ite ihc ihp ihn

/-! ## Building and annotating -/

theorem Built.annotate_eq (h : Built b t) : t.annotate b = t := by
  induction h with
  | hole c => rfl
  | leaf a => rfl
  | @not c _ ih => exact congrArg (mkNot b) ih
  | @binary op l r _ _ ihl ihr =>
    show mkBinary b op (l.annotate b) (r.annotate b) = _
    rw [ihl, ihr]
  | @ite c p n _ _ _ ihc ihp ihn =>
    show mkIte (c.annotate b) (p.annotate b) (n.annotate b) = _
    rw [ihc, ihp, ihn]

theorem built_annotate (b : Bounds) (t : Tree) : Built b (t.annotate b) := by
  induction t with
  | hole c s => exact .hole c
  | leaf a s => exact .leaf a
  | not c s ih => exact .not ih
  | binary op l r s ihl ihr => exact .binary op ihl ihr
  | ite c p n s ihc ihp ihn => exact .ite ihc ihp ihn

theorem built_iff : Built b t ↔ t.annotate b = t :=
  ⟨Built.annotate_eq, fun h => h ▸ built_annotate b t⟩

instance (b : Bounds) (t : Tree) : Decidable (Built b t) := decidable_of_iff _ built_iff.symm

theorem root_of_build? {s : Symbol} {cs : List Tree} (h : build? b s cs = some t) :
    t.symbol = s ∧ t.children = cs := by
  unfold build? at h
  split at h
  case h_6 => exact absurd h (by simp)
  all_goals
    obtain rfl := Option.some.inj h
    exact ⟨rfl, rfl⟩

/-- A built tree is what its symbol makes of its children. -/
theorem Built.build?_eq (h : Built b t) : build? b t.symbol t.children = some t := by
  cases h <;> rfl

@[simp] theorem symbol_sprout (b : Bounds) (op : Operator) : (sprout b op).symbol = .op op := by
  cases op <;> rfl

/-- A sprout is built. -/
theorem built_sprout (b : Bounds) (op : Operator) : Built b (sprout b op) := by
  cases op with
  | atom a => exact .leaf a
  | not => exact .not (.hole _)
  | binary op => exact .binary op (.hole _) (.hole _)
  | ite => exact .ite (.hole _) (.hole _) (.hole _)

/-! ## What a built node is made of -/

theorem built_hole_iff {c : Category} {s : Summary} :
    Built b (hole c s) ↔ hole c s = mkHole b c := by
  rw [built_iff]
  exact eq_comm

theorem built_leaf_iff {a : Atom} {s : Summary} :
    Built b (leaf a s) ↔ leaf a s = mkLeaf b a := by
  rw [built_iff]
  exact eq_comm

theorem built_not_iff {c : Tree} {s : Summary} :
    Built b (not c s) ↔ Built b c ∧ not c s = mkNot b c := by
  constructor
  · intro h
    cases h with
    | not hc => exact ⟨hc, rfl⟩
  · rintro ⟨hc, h⟩
    exact h ▸ .not hc

theorem built_binary_iff {op : BinaryOperator} {l r : Tree} {s : Summary} :
    Built b (binary op l r s) ↔ Built b l ∧ Built b r ∧ binary op l r s = mkBinary b op l r := by
  constructor
  · intro h
    cases h with
    | binary _ hl hr => exact ⟨hl, hr, rfl⟩
  · rintro ⟨hl, hr, h⟩
    exact h ▸ .binary op hl hr

theorem built_ite_iff {c p n : Tree} {s : Summary} :
    Built b (ite c p n s) ↔ Built b c ∧ Built b p ∧ Built b n ∧ ite c p n s = mkIte c p n := by
  constructor
  · intro h
    cases h with
    | ite hc hp hn => exact ⟨hc, hp, hn, rfl⟩
  · rintro ⟨hc, hp, hn, h⟩
    exact h ▸ .ite hc hp hn

/-! ## Below the root -/

/-- What the root has and every node hands on to its children is had by all nodes. -/
theorem forall_mem_subtrees {P : Tree → Prop} (hchildren : ∀ t, P t → ∀ c ∈ t.children, P c)
    (ht : P t) {u : Tree} (hu : u ∈ t.subtrees) : P u := by
  induction t with
  | hole | leaf =>
    obtain rfl := List.mem_singleton.1 hu
    exact ht
  | not c s ih =>
    rcases List.mem_cons.1 hu with rfl | hu
    · exact ht
    · exact ih (hchildren _ ht c (by simp [children])) hu
  | binary op l r s ihl ihr =>
    rcases List.mem_cons.1 hu with rfl | hu
    · exact ht
    · rcases List.mem_append.1 hu with hu | hu
      · exact ihl (hchildren _ ht l (by simp [children])) hu
      · exact ihr (hchildren _ ht r (by simp [children])) hu
  | ite c p n s ihc ihp ihn =>
    rcases List.mem_cons.1 hu with rfl | hu
    · exact ht
    · rcases List.mem_append.1 hu with hu | hu
      · rcases List.mem_append.1 hu with hu | hu
        · exact ihc (hchildren _ ht c (by simp [children])) hu
        · exact ihp (hchildren _ ht p (by simp [children])) hu
      · exact ihn (hchildren _ ht n (by simp [children])) hu

theorem Built.of_mem_children (ht : Built b t) {c : Tree} (hc : c ∈ t.children) : Built b c := by
  cases ht with
  | hole | leaf => exact absurd hc (by simp [mkHole, mkLeaf, children])
  | not h =>
    obtain rfl := List.mem_singleton.1 hc
    exact h
  | binary op hl hr =>
    simp only [mkBinary, children, List.mem_cons, List.not_mem_nil, or_false] at hc
    rcases hc with rfl | rfl
    · exact hl
    · exact hr
  | ite h hp hn =>
    simp only [mkIte, children, List.mem_cons, List.not_mem_nil, or_false] at hc
    rcases hc with rfl | rfl | rfl
    · exact h
    · exact hp
    · exact hn

/-- What stands below a node of a built tree is built. -/
theorem Built.of_mem_subtrees (ht : Built b t) {u : Tree} (hu : u ∈ t.subtrees) : Built b u :=
  forall_mem_subtrees (fun _ ht _ hc => ht.of_mem_children hc) ht hu

/-! ## Completeness read off the children -/

theorem isComplete_not {c : Tree} {s : Summary} (h : Built b (not c s)) :
    (not c s).isComplete = c.isComplete := by
  rw [(built_not_iff.1 h).2]
  rfl

theorem isComplete_binary {op : BinaryOperator} {l r : Tree} {s : Summary}
    (h : Built b (binary op l r s)) :
    (binary op l r s).isComplete = (l.isComplete && r.isComplete) := by
  rw [(built_binary_iff.1 h).2.2]
  rfl

theorem isComplete_ite {c p n : Tree} {s : Summary} (h : Built b (ite c p n s)) :
    (ite c p n s).isComplete = (c.isComplete && p.isComplete && n.isComplete) := by
  rw [(built_ite_iff.1 h).2.2.2]
  rfl

/-! ## What does not depend on the bounds -/

@[simp] theorem text_annotate (b : Bounds) (t : Tree) : (t.annotate b).text = t.text := by
  induction t with
  | hole | leaf => rfl
  | not c s ih => simp [annotate, mkNot, text, ih]
  | binary op l r s ihl ihr => simp [annotate, mkBinary, text, ihl, ihr]
  | ite c p n s ihc ihp ihn => simp [annotate, mkIte, text, ihc, ihp, ihn]

theorem summary_annotate (h : Built b t) (b' : Bounds) :
    (t.annotate b').cost = t.cost ∧ (t.annotate b').isComplete = t.isComplete := by
  induction h with
  | hole | leaf => exact ⟨rfl, rfl⟩
  | @not c _ ih =>
    show Operator.not.weight + (c.annotate b').cost = Operator.not.weight + c.cost ∧
      (c.annotate b').isComplete = c.isComplete
    rw [ih.1, ih.2]
    exact ⟨rfl, rfl⟩
  | @binary op l r _ _ ihl ihr =>
    show _ + ((l.annotate b').cost + (r.annotate b').cost) = _ + (l.cost + r.cost) ∧
      ((l.annotate b').isComplete && (r.annotate b').isComplete) = (l.isComplete && r.isComplete)
    rw [ihl.1, ihl.2, ihr.1, ihr.2]
    exact ⟨rfl, rfl⟩
  | @ite c p n _ _ _ ihc ihp ihn =>
    show _ + ((c.annotate b').cost + (p.annotate b').cost + (n.annotate b').cost) =
        _ + (c.cost + p.cost + n.cost) ∧
      ((c.annotate b').isComplete && (p.annotate b').isComplete && (n.annotate b').isComplete) =
        (c.isComplete && p.isComplete && n.isComplete)
    rw [ihc.1, ihc.2, ihp.1, ihp.2, ihn.1, ihn.2]
    exact ⟨rfl, rfl⟩

end Tree

end Synthesis

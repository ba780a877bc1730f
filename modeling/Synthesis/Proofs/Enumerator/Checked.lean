import Synthesis.Proofs.Enumerator.Line
import Synthesis.Proofs.Tree.Checked

/-!
# Expansion that checks its assumptions

To expand a tree, its first hole is looked up again at the path that was found, an operator is put
on top of as many fresh holes as it lists operands, and the result takes the hole's place. None of
this can go wrong, for the path was found in the same tree and an operator has the arity of its own
signature. `Enumerator.expand` relies on that: what could not be built would be passed over. Here it
would put an end to everything, and

> **every candidate can be built** (`checkedExpand?_eq`).
-/

set_option autoImplicit false

namespace Synthesis

/-- Where every element has an image, none is passed over. -/
theorem mapM_eq_some_filterMap {α β : Type} {f : α → Option β} (hf : ∀ a, (f a).isSome)
    (l : List α) : l.mapM f = some (l.filterMap f) := by
  induction l with
  | nil => rfl
  | cons a l ih =>
    obtain ⟨b, hb⟩ := Option.isSome_iff_exists.1 (hf a)
    simp [List.mapM_cons, hb, ih]

namespace Enumerator

variable {e e' : Enumerator} {t : Tree} {h : Hole}

/-! ## One candidate -/

/-- The tree with the node at a path replaced by an operator on top of fresh holes, all of them
assembled from their parts. -/
def checkedFill? (e : Enumerator) (t : Tree) (path : Path) (op : Operator) : Option Candidate := do
  let holes ← op.signature.mapM fun c => Tree.assemble? e.bounds (.hole c) []
  let sprout ← Tree.assemble? e.bounds (.op op) holes
  let r ← t.regrow? e.bounds path sprout
  return ⟨r.tree, 1 + holes.length + r.rebuilt⟩

/-- As many fresh holes as it takes are assembled. -/
theorem mapM_assemble?_hole (b : Bounds) (cs : List Category) :
    cs.mapM (fun c => Tree.assemble? b (.hole c) []) = some (cs.map (Tree.mkHole b)) := by
  have hhole : (fun c => Tree.assemble? b (.hole c) []) = some ∘ Tree.mkHole b :=
    funext fun c => Tree.assemble?_eq b _ _
  rw [hhole, mapM_eq_some_filterMap (fun _ => rfl), List.filterMap_eq_map]

theorem checkedFill?_eq (e : Enumerator) (t : Tree) (h : Hole) (op : Operator) :
    e.checkedFill? t h.path op = e.fill? t h op := by
  rw [checkedFill?, mapM_assemble?_hole, fill?]
  simp only [Option.bind_eq_bind, Option.bind_some, Tree.assemble?_eq, Tree.build?_signature,
    Tree.regrow?_eq, List.length_map, Option.map_eq_bind]
  rfl

/-- A hole that was found is there and can be filled. -/
theorem isSome_fill? (hh : t.firstHole? = some h) (op : Operator) : (e.fill? t h op).isSome := by
  obtain ⟨sum, hat⟩ := Tree.at?_firstHole? hh
  obtain ⟨r, hr⟩ := Tree.exists_substitute? hat e.bounds (.sprout e.bounds op)
  rw [fill?, hr]
  rfl

/-! ## All candidates -/

/-- Expands a tree, unless a candidate cannot be built. -/
def checkedExpand? (e : Enumerator) (t : Tree) : Option (Expansion × Enumerator) :=
  match t.firstHole? with
  | none => some (⟨0, 0⟩, e)
  | some h => do
    let hole ← t.at? h.path
    let operators := e.grammar.operators hole.symbol.category
    return e.settle (← operators.mapM (e.checkedFill? t h.path))

/-- **Every candidate can be built.** -/
theorem checkedExpand?_eq (e : Enumerator) (t : Tree) :
    e.checkedExpand? t = some (e.expand t) := by
  rw [checkedExpand?]
  cases hh : t.firstHole? with
  | none => rw [expand, hh]
  | some h =>
    obtain ⟨sum, hat⟩ := Tree.at?_firstHole? hh
    have hall := mapM_eq_some_filterMap (isSome_fill? (e := e) hh) (e.grammar.operators h.category)
    have hfill : e.checkedFill? t h.path = e.fill? t h := funext (e.checkedFill?_eq t h)
    simp only [hat, Tree.symbol, Symbol.category, hfill, hall, Option.bind_eq_bind,
      Option.bind_some, expand_of_firstHole? hh]
    rfl

/-! ## The beginning, and putting back -/

/-- An enumerator that has assembled a hole of the start category, and nothing else. -/
def checkedNew? (g : Grammar) (b : Bounds) : Option Enumerator := do
  let hole ← Tree.assemble? b (.hole Grammar.start) []
  return push ⟨g, b, .empty, 0, none, { Stats.zero with nodesBuilt := 1 }⟩ hole

theorem checkedNew?_eq (g : Grammar) (b : Bounds) : checkedNew? g b = some (new g b) := by
  rw [checkedNew?, Tree.assemble?_eq]
  rfl

/-- After a pop, any tree can be put back. -/
theorem isSome_unpop?_of_pop? (hpop : e.pop? = some (t, e')) (u : Tree) :
    (e'.unpop? u).isSome := by
  obtain ⟨place, -, rfl⟩ := pop?_eq_some_iff.1 hpop
  rfl

end Enumerator

end Synthesis

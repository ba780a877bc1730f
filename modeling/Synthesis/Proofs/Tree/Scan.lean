import Synthesis.Proofs.Tree.Nodes
import Synthesis.Proofs.Tree.Preorder

/-!
# Looking for a hole, with and without shortcuts

The search for the first hole never enters a subtree that is marked as complete. Two other ways to
look for it are written down here. `scan?` walks over all nodes one by one and looks at no summary.
`seek` is the search as one would run it on a single path: an index is put at its end on the way
into a child and taken off on the way out, so that a child that was searched in vain must leave the
path as it was. All three come to the same end,

> **whatever node is marked as complete, no hole is passed over and none is made up**
> (`firstHole?_exact`),

and this for every tree that was put together node by node, under whatever bounds.
-/

set_option autoImplicit false

namespace Synthesis

namespace Tree

variable {t : Tree} {h : Hole} {path : Path}

/-! ## No hole is none found -/

theorem isComplete_iff_holeFree (ht : Assembled t) : t.isComplete = true ↔ t.HoleFree := by
  refine ⟨holeFree_of_complete ht, fun hfree => ?_⟩
  rw [← Bool.not_eq_false]
  intro hpartial
  obtain ⟨h, hh⟩ := exists_firstHole? ht hpartial
  obtain ⟨s, hat⟩ := at?_firstHole? hh
  exact hfree h.path h.category s hat

theorem isComplete_iff_firstHole? (ht : Assembled t) :
    t.isComplete = true ↔ t.firstHole? = none := by
  refine ⟨firstHole?_eq_none_of_complete ht, fun hnone => ?_⟩
  exact (isComplete_iff_holeFree ht).2 (holeFree_of_firstHole?_eq_none ht hnone)

/-- A tree has at most one first hole. -/
theorem IsFirstHole.unique {h' : Hole} (hh : t.IsFirstHole h) (hh' : t.IsFirstHole h') :
    h = h' := by
  obtain ⟨⟨s, hat⟩, hlater⟩ := hh
  obtain ⟨⟨s', hat'⟩, hlater'⟩ := hh'
  have hpath : h.path = h'.path := by
    refine Decidable.byContradiction fun hne => ?_
    have hlt := hlater h'.path h'.category s' hat' (Ne.symm hne)
    have hgt := hlater' h.path h.category s hat hne
    exact List.lt_irrefl _ (List.lt_trans hlt hgt)
  rw [hpath, hat'] at hat
  obtain ⟨hcategory, -⟩ := hole.inj (Option.some.inj hat)
  cases h
  cases h'
  simp_all

theorem firstHole?_eq_some_iff (ht : Assembled t) :
    t.firstHole? = some h ↔ t.IsFirstHole h := by
  refine ⟨isFirstHole_of_firstHole? ht, fun hh => ?_⟩
  cases hfirst : t.firstHole? with
  | none =>
    obtain ⟨s, hat⟩ := hh.1
    exact absurd hat (holeFree_of_firstHole?_eq_none ht hfirst _ _ _)
  | some h' => rw [hh.unique (isFirstHole_of_firstHole? ht hfirst)]

/-! ## Walking over all nodes -/

/-- The hole that a node is, if it is one. -/
def holeAt? : Path × Tree → Option Hole
  | (path, hole c _) => some ⟨path, c⟩
  | _ => none

/-- The first hole among all nodes. -/
def scan? (t : Tree) : Option Hole := t.nodes.findSome? holeAt?

theorem findSome?_nodeUnder (i : Nat) (l : List (Path × Tree)) :
    (l.map (nodeUnder i)).findSome? holeAt? = (l.findSome? holeAt?).map (.under i) := by
  rw [List.findSome?_map, List.map_findSome?]
  refine congrArg (List.findSome? · l) (funext fun x => ?_)
  obtain ⟨path, u⟩ := x
  cases u <;> rfl

theorem firstHole?_eq_scan? (ht : Assembled t) : t.firstHole? = t.scan? := by
  induction ht with
  | hole | leaf => rfl
  | @not b c hc ih =>
    have hscan : (mkNot b c).scan? = (c.nodes.map (nodeUnder 0)).findSome? holeAt? := rfl
    rw [firstHole?_mkNot b hc, ih, hscan, findSome?_nodeUnder]
    rfl
  | @binary b op l r hl hr ihl ihr =>
    have hscan : (mkBinary b op l r).scan? = (l.nodes.map (nodeUnder 0) ++
        r.nodes.map (nodeUnder 1)).findSome? holeAt? := rfl
    rw [firstHole?_mkBinary b op hl hr, ihl, ihr, hscan, List.findSome?_append,
      findSome?_nodeUnder, findSome?_nodeUnder]
    simp only [scan?, Option.orElse_eq_orElse, Option.orElse_eq_or]
  | @ite c p n hc hp hn ihc ihp ihn =>
    have hscan : (mkIte c p n).scan? = (c.nodes.map (nodeUnder 0) ++ p.nodes.map (nodeUnder 1) ++
        n.nodes.map (nodeUnder 2)).findSome? holeAt? := rfl
    rw [firstHole?_mkIte hc hp hn, ihc, ihp, ihn, hscan, List.findSome?_append,
      List.findSome?_append, findSome?_nodeUnder, findSome?_nodeUnder, findSome?_nodeUnder]
    simp only [scan?, Option.orElse_eq_orElse, Option.orElse_eq_or, Option.or_assoc]

/-! ## Searching with a single path -/

/-- Enters a child with its index at the end of the path. If nothing is found there, the index is
taken off what the child has left of the path, and the rest is searched. -/
def tryChild (i : Nat) (child rest : Path → Bool × Path) (path : Path) : Bool × Path :=
  match child (path ++ [i]) with
  | (true, found) => (true, found)
  | (false, back) => rest back.dropLast

/-- Searches a tree for a hole, from a path that leads to the tree. Says whether there is one, and
what the path has become. -/
def seek : Tree → Path → Bool × Path
  | hole _ s, path => (!s.complete, path)
  | leaf _ _, path => (false, path)
  | not c s, path => if s.complete then (false, path) else tryChild 0 c.seek (false, ·) path
  | binary _ l r s, path =>
    if s.complete then (false, path) else tryChild 0 l.seek (tryChild 1 r.seek (false, ·)) path
  | ite c p n s, path =>
    if s.complete then (false, path)
    else tryChild 0 c.seek (tryChild 1 p.seek (tryChild 2 n.seek (false, ·))) path

/-- What a search should say: the path goes on to the hole, or it is what it was. -/
def outcome : Option Hole → Path → Bool × Path
  | none, path => (false, path)
  | some h, path => (true, path ++ h.path)

/-- Nothing of a search in vain is left on the path. -/
theorem tryChild_outcome (i : Nat) (h h' : Option Hole) :
    tryChild i (outcome h) (outcome h') = outcome (h.map (.under i) <|> h') := by
  funext path
  cases h with
  | none => exact congrArg (outcome h') List.dropLast_concat
  | some h => exact congrArg (Prod.mk true) (List.append_assoc path [i] h.path)

/-- Where nothing is to be found, a search may as well not be started. -/
theorem skip_eq_outcome (ht : Assembled t) {search : Path → Bool × Path}
    (hsearch : search = outcome t.firstHole?) :
    (fun path => if t.isComplete then (false, path) else search path) = outcome t.firstHole? := by
  funext path
  split
  next hcomplete =>
    rw [firstHole?_eq_none_of_complete ht hcomplete]
    rfl
  next => rw [hsearch]

theorem seek_eq_outcome (ht : Assembled t) : t.seek = outcome t.firstHole? := by
  have hnone : (fun path : Path => (false, path)) = outcome none := rfl
  induction ht with
  | hole | leaf =>
    funext path
    simp [mkHole, mkLeaf, seek, firstHole?, outcome]
  | @not b c hc ih =>
    refine skip_eq_outcome (.not b hc) ?_
    rw [ih, hnone, tryChild_outcome, firstHole?_mkNot b hc]
    simp
  | @binary b op l r hl hr ihl ihr =>
    refine skip_eq_outcome (.binary b op hl hr) ?_
    rw [ihl, ihr, hnone, tryChild_outcome, tryChild_outcome, firstHole?_mkBinary b op hl hr]
    simp
  | @ite c p n hc hp hn ihc ihp ihn =>
    refine skip_eq_outcome (.ite hc hp hn) ?_
    rw [ihc, ihp, ihn, hnone, tryChild_outcome, tryChild_outcome, tryChild_outcome,
      firstHole?_mkIte hc hp hn]
    simp

/-! ## All ways to look -/

/-- **The search for the first hole is exact.** A tree is marked as complete exactly if it has no
hole, and exactly then none is found. A hole that is found is there, and every other one is at a
later path. The same hole is found by a walk over all nodes, and by a search that keeps track of its
place on a single path. -/
theorem firstHole?_exact (ht : Assembled t) :
    (t.isComplete = true ↔ ∀ path c s, t.at? path ≠ some (.hole c s)) ∧
      (t.isComplete = true ↔ t.firstHole? = none) ∧
      (∀ h, t.firstHole? = some h → (∃ s, t.at? h.path = some (.hole h.category s)) ∧
        ∀ path c s, t.at? path = some (.hole c s) → path ≠ h.path → h.path < path) ∧
      t.firstHole? = t.nodes.findSome? holeAt? ∧
      ∀ path, t.seek path = outcome t.firstHole? path := by
  refine ⟨isComplete_iff_holeFree ht, isComplete_iff_firstHole? ht, ?_, firstHole?_eq_scan? ht, ?_⟩
  · intro h hh
    exact isFirstHole_of_firstHole? ht hh
  · intro path
    rw [seek_eq_outcome ht]

/-- The condition is complete and passed over, and so is the first factor. The nodes of the tree are
under different bounds, and its first hole takes a truth value where a number is called for. -/
theorem firstHole?_exact_passedOver : ∃ t : Tree,
    t.text = "Ite(Lt(x, 1), Multiply(y, B), E)" ∧ t.isComplete = false ∧
      t.at? [1, 1] = some (.mkHole .zero .boolean) ∧
      (∀ path c s, t.at? path = some (.hole c s) → path ≠ [1, 1] → [1, 1] < path) ∧
      t.nodes.findSome? holeAt? = some ⟨[1, 1], .boolean⟩ ∧ t.seek [7] = (true, [7, 1, 1]) := by
  let b : Bounds := ⟨100, ⟨1, 2, 3⟩⟩
  let condition : Tree := .mkBinary b .lt (.mkLeaf .zero (.var .x)) (.mkLeaf b (.lit .one))
  let product : Tree := .mkBinary .zero .multiply (.mkLeaf b (.var .y)) (.mkHole .zero .boolean)
  have hcondition : condition.Assembled := .binary b .lt (.leaf _ _) (.leaf _ _)
  have hproduct : product.Assembled := .binary _ .multiply (.leaf _ _) (.hole _ _)
  let t : Tree := .mkIte condition product (.mkHole b .numeric)
  obtain ⟨-, -, hfirst, hscan, hseek⟩ := firstHole?_exact (t := t)
    (.ite hcondition hproduct (.hole _ _))
  refine ⟨t, by decide +kernel, rfl, rfl, ?_, hscan.symm.trans rfl, (hseek [7]).trans rfl⟩
  exact (hfirst ⟨[1, 1], .boolean⟩ rfl).2

end Tree

end Synthesis

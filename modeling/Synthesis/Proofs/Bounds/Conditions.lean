import Synthesis.Proofs.Enumerator.Expansion
import Synthesis.Proofs.Tree.Substitution

/-!
# Conditions have no say in bounds

A truth value has no magnitude, and a node that stands for one is given the target as its bound,
whatever is below it. So the subtrees of a condition may be exchanged as one likes, and nothing that
is above the condition takes notice:

> **inside a condition a replacement leaves the bound of the root as it is**
> (`bound_of_substitute?_of_inCondition`).

On the way from the condition to the root every node is built anew, and works its bound out anew. It
does so from the bounds of its children and from nothing else (`bound_of_build?`), and those are
what they were. A tree that was good enough to stay in line therefore has no growth that is pruned,
as long as its first hole is inside a condition.
-/

set_option autoImplicit false

namespace Synthesis

namespace Tree

variable {b : Bounds} {t u s : Tree} {path : Path} {i : Nat} {g : Regrowth}

/-! ## Places inside conditions -/

/-- The node at the path, or some node on the way to it, stands for a truth value. -/
def InCondition (t : Tree) (path : Path) : Prop :=
  ∃ q u, q <+: path ∧ t.at? q = some u ∧ u.symbol.category = .boolean

theorem inCondition_nil_iff : t.InCondition [] ↔ t.symbol.category = .boolean := by
  constructor
  · rintro ⟨q, u, hq, hat, hu⟩
    rw [List.prefix_nil.1 hq, at?_nil] at hat
    rwa [Option.some.inj hat]
  · intro ht
    exact ⟨[], t, List.nil_prefix, at?_nil t, ht⟩

theorem inCondition_cons_iff {c : Tree} (hc : t.children[i]? = some c) :
    t.InCondition (i :: path) ↔ t.symbol.category = .boolean ∨ c.InCondition path := by
  constructor
  · rintro ⟨q, u, hq, hat, hu⟩
    cases q with
    | nil => exact .inl (inCondition_nil_iff.1 ⟨[], u, List.nil_prefix, hat, hu⟩)
    | cons j q =>
      obtain ⟨rfl, hbelow⟩ := List.cons_prefix_cons.1 hq
      rw [at?_cons, hc, Option.bind_some] at hat
      exact .inr ⟨q, u, hbelow, hat, hu⟩
  · rintro (ht | ⟨q, u, hq, hat, hu⟩)
    · exact ⟨[], t, List.nil_prefix, at?_nil t, ht⟩
    · refine ⟨i :: q, u, List.cons_prefix_cons.2 ⟨rfl, hq⟩, ?_, hu⟩
      rw [at?_cons, hc, Option.bind_some, hat]

/-! ## Where bounds come from -/

/-- A truth value counts as large enough. -/
theorem Built.bound_eq_target (ht : Built b t) (hboolean : t.symbol.category = .boolean) :
    t.bound = b.target := by
  cases ht with
  | hole c => rfl
  | leaf a => cases hboolean
  | not _ => rfl
  | @binary op l r _ _ =>
    cases op with
    | add | multiply => cases hboolean
    | lt | eq | and | or => rfl
  | ite _ _ _ => cases hboolean

/-- Of its children a node needs to know no more than their bounds. -/
theorem bound_of_build? {symbol : Symbol} {cs cs' : List Tree} {t' : Tree}
    (h : build? b symbol cs = some t) (h' : build? b symbol cs' = some t')
    (hcs : cs.map bound = cs'.map bound) : t.bound = t'.bound := by
  unfold build? at h
  split at h
  case h_1 c =>
    obtain rfl := List.map_eq_nil_iff.1 hcs.symm
    exact congrArg bound (Option.some.inj (h.symm.trans h'))
  case h_2 a =>
    obtain rfl := List.map_eq_nil_iff.1 hcs.symm
    exact congrArg bound (Option.some.inj (h.symm.trans h'))
  case h_3 c =>
    obtain ⟨c', rfl⟩ := List.length_eq_one_iff.1 (by simpa using congrArg List.length hcs.symm)
    rw [← Option.some.inj h, ← Option.some.inj h']
    rfl
  case h_4 op l r =>
    obtain ⟨l', r', rfl⟩ := List.length_eq_two.1 (by simpa using congrArg List.length hcs.symm)
    obtain ⟨hl, hr⟩ : l.bound = l'.bound ∧ r.bound = r'.bound := by simpa using hcs
    rw [← Option.some.inj h, ← Option.some.inj h']
    exact congrArg₂ (b.ofBinary op) hl hr
  case h_5 c p n =>
    obtain ⟨c', p', n', rfl⟩ :=
      List.length_eq_three.1 (by simpa using congrArg List.length hcs.symm)
    obtain ⟨-, hp, hn⟩ : c.bound = c'.bound ∧ p.bound = p'.bound ∧ n.bound = n'.bound := by
      simpa using hcs
    rw [← Option.some.inj h, ← Option.some.inj h']
    exact congrArg₂ max hp hn
  case h_6 => exact absurd h (by simp)

/-! ## Replacing inside a condition -/

theorem bound_of_substitute?_of_inCondition (ht : Built b t) (hs : Built b s)
    (hat : t.at? path = some u) (hin : t.InCondition path)
    (hcategory : s.symbol.category = u.symbol.category) (h : t.substitute? b path s = some g) :
    g.tree.bound = t.bound := by
  induction path generalizing t g with
  | nil =>
    rw [at?_nil] at hat
    rw [substitute?_nil] at h
    have hboolean := inCondition_nil_iff.1 hin
    rw [← Option.some.inj hat, hboolean] at hcategory
    rw [← Option.some.inj h, hs.bound_eq_target hcategory, ht.bound_eq_target hboolean]
  | cons i path ih =>
    obtain ⟨c, r, hc, hr, hbuild, -⟩ := substitute?_cons_eq_some_iff.1 h
    rcases (inCondition_cons_iff hc).1 hin with hboolean | hin
    · -- The root keeps its symbol, and so it is given the target again.
      have hsymbol := (root_of_build? hbuild).1
      rw [(built_of_substitute? ht hs h).bound_eq_target (hsymbol ▸ hboolean),
        ht.bound_eq_target hboolean]
    · -- The child that is exchanged has the bound of the one before, whatever the root is.
      rw [at?_cons, hc, Option.bind_some] at hat
      obtain ⟨hi, hget⟩ := List.getElem?_eq_some_iff.1 hc
      have hbound := ih (ht.of_mem_children (List.mem_of_getElem? hc)) hat hin hr
      refine bound_of_build? hbuild ht.build?_eq ?_
      rw [List.map_set, hbound, ← hget, ← List.map_set, List.set_getElem_self]

/-- What is put into a hole has the category of the hole, so growing is a case of it. -/
theorem bound_of_mem_growths {grammar : Grammar} {h : Hole} (ht : Built b t)
    (hh : t.firstHole? = some h) (hin : t.InCondition h.path) (hu : u ∈ t.growths grammar b) :
    u.bound = t.bound := by
  obtain ⟨h', op, r, hh', hop, hr, rfl⟩ := mem_growths_iff.1 hu
  obtain rfl := Option.some.inj (hh'.symm.trans hh)
  obtain ⟨sum, hat⟩ := at?_firstHole? hh
  refine bound_of_substitute?_of_inCondition ht (built_sprout b op) hat hin ?_ hr
  rw [symbol_sprout]
  exact Grammar.category_of_mem_operators hop

/-- **Nothing inside a condition is ever pruned.** In a tree that was built under some bounds, a
subtree at or below a node that stands for a truth value may be replaced by any other tree of its
category that was built under them, and the bound of the root is what it was. So if the bound of the
tree is not below the target, and its first hole is such a place, then an expansion under these
bounds keeps a tree for each operator that the grammar lists, and prunes none. -/
theorem nothing_pruned_inCondition {b : Bounds} {t : Tree} (ht : Built b t) :
    (∀ path u s, t.at? path = some u → t.InCondition path → Built b s →
      s.symbol.category = u.symbol.category →
        ∃ g, t.substitute? b path s = some g ∧ g.tree.bound = t.bound) ∧
    ∀ (e : Enumerator) hole, e.bounds = b → b.target ≤ t.bound → t.firstHole? = some hole →
      t.InCondition hole.path →
        (e.expand t).1 = ⟨(e.grammar.operators hole.category).length, 0⟩ ∧
          (e.expand t).2.stats.pruned = e.stats.pruned := by
  constructor
  · intro path u s hat hin hs hcategory
    obtain ⟨g, hg⟩ := exists_substitute? hat b s
    exact ⟨g, hg, bound_of_substitute?_of_inCondition ht hs hat hin hcategory hg⟩
  · rintro e hole rfl htarget hh hin
    have hkept : e.kept t = t.growths e.grammar e.bounds := by
      refine List.filter_eq_self.2 ?_
      intro u hu
      rw [bound_of_mem_growths ht hh hin hu]
      exact decide_eq_true htarget
    rw [Enumerator.expand_fst, Enumerator.stats_expand, Enumerator.tally, hkept, Nat.sub_self,
      Enumerator.length_growths hh]
    exact ⟨rfl, rfl⟩

/-- A conditional is the second factor of a product. No literal and no variable that is always zero
reaches the target, and yet every one of them may be compared with two. -/
theorem nothing_pruned_inCondition_comparison : ∃ (t r : Tree) (e : Enumerator),
    t.text = "Multiply(x, Ite(Lt(E, 2), E, y))" ∧ t.bound = 1000 ∧
      t.substitute? e.bounds [1, 0] (.mkHole e.bounds .boolean) = some ⟨r, 2⟩ ∧
      r.text = "Multiply(x, Ite(B, E, y))" ∧ r.bound = 1000 ∧
      (e.expand t).1 = ⟨9, 0⟩ ∧ (e.expand t).2.stats.pruned = 0 := by
  let b : Bounds := ⟨100, ⟨10, 0, 0⟩⟩
  let condition : Tree := .mkBinary b .lt (.mkHole b .numeric) (.mkLeaf b (.lit .two))
  let t : Tree := .mkBinary b .multiply (.mkLeaf b (.var .x))
    (.mkIte condition (.mkHole b .numeric) (.mkLeaf b (.var .y)))
  have ht : Built b t := by decide +kernel
  have hcondition : t.at? [1, 0] = some condition := rfl
  obtain ⟨hreplace, hexpand⟩ := nothing_pruned_inCondition ht
  obtain ⟨⟨r, n⟩, hr, hbound⟩ := hreplace [1, 0] condition (.mkHole b .boolean) hcondition
    ⟨[1, 0], condition, List.prefix_rfl, hcondition, rfl⟩ (.hole _) rfl
  obtain ⟨hkept, hpruned⟩ := hexpand (.new .arithmetic b) ⟨[1, 0, 0], .numeric⟩ rfl
    (by decide +kernel) rfl ⟨[1, 0], condition, ⟨[0], rfl⟩, hcondition, rfl⟩
  obtain rfl : n = 2 := rebuilt_of_substitute? hr
  have htext : (t.substitute? b [1, 0] (.mkHole b .boolean)).map (·.tree.text) =
      some "Multiply(x, Ite(B, E, y))" := by decide +kernel
  rw [hr] at htext
  have hthousand : t.bound = 1000 := by decide +kernel
  exact ⟨t, r, .new .arithmetic b, by decide +kernel, hthousand, hr, Option.some.inj htext,
    hbound.trans hthousand, hkept, hpruned⟩

end Tree

end Synthesis

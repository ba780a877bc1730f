import Synthesis.Proofs.Tree.Checked
import Synthesis.Proofs.Tree.FirstHole

/-!
# Replacing is a lawful update

A path and the subtree at it are like a field of a record and its value, and one expects of
replacing a subtree what one expects of setting a field: what was put in is found there and nothing
else has changed, putting in what is there already changes nothing, the last of two replacements
counts, and replacements in different places do not mind each other.

None of this is obvious, because a replacement does change something else. The nodes on the way are
built anew, with summaries of their own, and the nodes beside the path keep the summaries that they
have. Both come out right:

> **the result is the tree that one would get by deriving every summary from scratch**
> (`annotate_of_graft?`),

if the two trees were built under the same bounds. One lemma (`substitute?_cons_eq_some_iff`) says
what is done at a node on the way, whatever its symbol, and all laws follow from it by induction on
the path.
-/

set_option autoImplicit false

namespace Synthesis

namespace Tree

variable {b : Bounds} {t u s s' : Tree} {p q path : Path} {i : Nat} {g g' : Regrowth}

/-! ## At a node on the way -/

/-- Below the root, the replacement goes on in a child, and the node is built anew on top of its
children with that one exchanged. -/
theorem substitute?_cons_eq_some_iff : t.substitute? b (i :: path) s = some g ↔
    ∃ c r, t.children[i]? = some c ∧ c.substitute? b path s = some r ∧
      build? b t.symbol (t.children.set i r.tree) = some g.tree ∧ g.rebuilt = r.rebuilt + 1 := by
  rw [← regrow?_eq, regrow?]
  simp only [regrow?_eq, assemble?_eq, Option.bind_eq_bind, Option.bind_eq_some_iff,
    Option.pure_def, Option.some.injEq]
  constructor
  · rintro ⟨c, hc, r, hr, u, hu, rfl⟩
    exact ⟨c, r, hc, hr, hu, rfl⟩
  · rintro ⟨c, r, hc, hr, hu, hrebuilt⟩
    exact ⟨c, hc, r, hr, g.tree, hu, by rw [← hrebuilt]⟩

/-- The node on the way keeps its symbol, and its children but for one. -/
theorem exists_of_substitute?_cons (h : t.substitute? b (i :: path) s = some g) :
    ∃ c r, t.children[i]? = some c ∧ c.substitute? b path s = some r ∧
      g.tree.symbol = t.symbol ∧ g.tree.children = t.children.set i r.tree := by
  obtain ⟨c, r, hc, hr, hbuild, -⟩ := substitute?_cons_eq_some_iff.1 h
  obtain ⟨hsymbol, hchildren⟩ := root_of_build? hbuild
  exact ⟨c, r, hc, hr, hsymbol, hchildren⟩

/-! ## Reading after replacing -/

theorem rebuilt_of_substitute? (h : t.substitute? b path s = some g) :
    g.rebuilt = path.length := by
  induction path generalizing t g with
  | nil =>
    rw [substitute?_nil] at h
    exact Option.some.inj h ▸ rfl
  | cons i path ih =>
    obtain ⟨c, r, -, hr, -, hrebuilt⟩ := substitute?_cons_eq_some_iff.1 h
    rw [hrebuilt, ih hr, List.length_cons]

theorem at?_of_substitute? (h : t.substitute? b path s = some g) : g.tree.at? path = some s := by
  induction path generalizing t g with
  | nil =>
    rw [substitute?_nil] at h
    rw [at?_nil, ← Option.some.inj h]
  | cons i path ih =>
    obtain ⟨c, r, hc, hr, -, hchildren⟩ := exists_of_substitute?_cons h
    have hi : i < t.children.length := (List.getElem?_eq_some_iff.1 hc).1
    rw [at?_cons, hchildren, List.getElem?_set_self hi, Option.bind_some, ih hr]

/-- Away from the path everything is what it was. -/
theorem at?_of_substitute?_of_apart (h : t.substitute? b p s = some g) (hqp : ¬ q <+: p)
    (hpq : ¬ p <+: q) : g.tree.at? q = t.at? q := by
  induction p generalizing t q g with
  | nil => exact absurd List.nil_prefix hpq
  | cons i p ih =>
    obtain ⟨c, r, hc, hr, -, hchildren⟩ := exists_of_substitute?_cons h
    cases q with
    | nil => exact absurd List.nil_prefix hqp
    | cons j q =>
      rw [at?_cons, at?_cons, hchildren]
      by_cases hij : i = j
      · subst hij
        rw [List.cons_prefix_cons] at hqp hpq
        have hi : i < t.children.length := (List.getElem?_eq_some_iff.1 hc).1
        rw [List.getElem?_set_self hi, hc, Option.bind_some, Option.bind_some]
        exact ih hr (fun h => hqp ⟨rfl, h⟩) (fun h => hpq ⟨rfl, h⟩)
      · rw [List.getElem?_set_ne hij]

/-! ## Replacing after replacing -/

/-- Putting in what is there already changes nothing. -/
theorem substitute?_of_at? (ht : Built b t) (hat : t.at? path = some u) :
    t.substitute? b path u = some ⟨t, path.length⟩ := by
  induction path generalizing t with
  | nil =>
    rw [at?_nil] at hat
    rw [substitute?_nil, Option.some.inj hat]
    rfl
  | cons i path ih =>
    rw [at?_cons] at hat
    obtain ⟨c, hc, hat⟩ := Option.bind_eq_some_iff.1 hat
    obtain ⟨hi, hget⟩ := List.getElem?_eq_some_iff.1 hc
    have hset : t.children.set i c = t.children := hget ▸ List.set_getElem_self hi
    refine substitute?_cons_eq_some_iff.2 ⟨c, ⟨c, path.length⟩, hc, ?_, ?_, rfl⟩
    · exact ih (ht.of_mem_children (List.mem_of_getElem? hc)) hat
    · rw [hset]
      exact ht.build?_eq

/-- Of two replacements at one path the second counts. -/
theorem substitute?_of_substitute? (h : t.substitute? b path s = some g) :
    g.tree.substitute? b path s' = t.substitute? b path s' := by
  induction path generalizing t g with
  | nil => rw [substitute?_nil, substitute?_nil]
  | cons i path ih =>
    obtain ⟨c, r, hc, hr, hsymbol, hchildren⟩ := exists_of_substitute?_cons h
    have hi : i < t.children.length := (List.getElem?_eq_some_iff.1 hc).1
    refine Option.ext fun x => ?_
    rw [substitute?_cons_eq_some_iff, substitute?_cons_eq_some_iff, hsymbol, hchildren,
      List.getElem?_set_self hi, hc]
    simp only [Option.some.injEq, ↓existsAndEq, true_and, ih hr, List.set_set]

/-- Replacements away from each other may be done in any order. -/
theorem substitute?_comm {x y : Regrowth} (hqp : ¬ q <+: p) (hpq : ¬ p <+: q)
    (hp : t.substitute? b p s = some g) (hq : t.substitute? b q s' = some g')
    (hx : g.tree.substitute? b q s' = some x) (hy : g'.tree.substitute? b p s = some y) :
    x.tree = y.tree := by
  induction p generalizing t q g g' x y with
  | nil => exact absurd List.nil_prefix hpq
  | cons i p ih =>
    cases q with
    | nil => exact absurd List.nil_prefix hqp
    | cons j q =>
      obtain ⟨c, r, hc, hr, hsymbol, hchildren⟩ := exists_of_substitute?_cons hp
      obtain ⟨c', r', hc', hr', hsymbol', hchildren'⟩ := exists_of_substitute?_cons hq
      obtain ⟨d, rx, hd, hrx, hbuild, -⟩ := substitute?_cons_eq_some_iff.1 hx
      obtain ⟨d', ry, hd', hry, hbuild', -⟩ := substitute?_cons_eq_some_iff.1 hy
      have hi : i < t.children.length := (List.getElem?_eq_some_iff.1 hc).1
      have hj : j < t.children.length := (List.getElem?_eq_some_iff.1 hc').1
      rw [hchildren] at hd
      rw [hchildren'] at hd'
      rw [hsymbol, hchildren] at hbuild
      rw [hsymbol', hchildren'] at hbuild'
      -- Both orders exchange the same children of the same node.
      suffices hsame : (t.children.set i r.tree).set j rx.tree =
          (t.children.set j r'.tree).set i ry.tree by
        rw [hsame] at hbuild
        exact Option.some.inj (hbuild.symm.trans hbuild')
      by_cases hij : i = j
      · subst hij
        rw [List.cons_prefix_cons] at hqp hpq
        rw [List.getElem?_set_self hi] at hd hd'
        obtain rfl := Option.some.inj hd
        obtain rfl := Option.some.inj hd'
        obtain rfl := Option.some.inj (hc.symm.trans hc')
        rw [List.set_set, List.set_set,
          ih (fun h => hqp ⟨rfl, h⟩) (fun h => hpq ⟨rfl, h⟩) hr hr' hrx hry]
      · rw [List.getElem?_set_ne hij] at hd
        rw [List.getElem?_set_ne (Ne.symm hij)] at hd'
        obtain rfl := Option.some.inj (hc'.symm.trans hd)
        obtain rfl := Option.some.inj (hc.symm.trans hd')
        obtain rfl := Option.some.inj (hr'.symm.trans hrx)
        obtain rfl := Option.some.inj (hr.symm.trans hry)
        exact List.set_comm _ _ hij

/-! ## Sizes -/

/-- As many nodes as are put in join, and as many as were there are gone. -/
theorem size_of_substitute? (hat : t.at? path = some u) (h : t.substitute? b path s = some g) :
    g.tree.size + u.size = t.size + s.size := by
  fun_induction substitute? b t path s generalizing g with
  | case1 t s =>
    rw [at?_nil] at hat
    obtain rfl := Option.some.inj hat
    obtain rfl := Option.some.inj h
    exact Nat.add_comm _ _
  | case2 c sum path s ih | case3 op l r sum path s ih | case4 op l r sum path s ih
  | case5 c p n sum path s ih | case6 c p n sum path s ih | case7 c p n sum path s ih =>
    obtain ⟨r', hr', rfl⟩ := Option.map_eq_some_iff.1 h
    have hchild := ih hat hr'
    simp only [Regrowth.under, mkNot, mkBinary, mkIte, size]
    omega
  | case8 => exact absurd h (by simp)

/-! ## From scratch -/

/-- The tree with the subtree at a path exchanged and nothing else touched. The summaries on the way
are what they were. -/
def graft? (t : Tree) : Path → Tree → Option Tree
  | [], s => some s
  | i :: path, s => do
    let c ← t.children[i]?
    let x ← c.graft? path s
    ofRoot? t.symbol (t.children.set i x) t.summary

theorem map_annotate_ofRoot? (b : Bounds) (symbol : Symbol) (cs : List Tree) (sum : Summary) :
    (ofRoot? symbol cs sum).map (annotate b) = build? b symbol (cs.map (annotate b)) := by
  rcases symbol with op | c
  · cases op <;> rcases cs with _ | ⟨_, _ | ⟨_, _ | ⟨_, _ | _⟩⟩⟩ <;> rfl
  · cases cs <;> rfl

/-- **Only the nodes on the way need new summaries.** -/
theorem annotate_of_graft? (ht : Built b t) (hs : Built b s)
    (h : t.substitute? b path s = some g) : (t.graft? path s).map (annotate b) = some g.tree := by
  induction path generalizing t g with
  | nil =>
    rw [substitute?_nil] at h
    rw [graft?, Option.map_some, hs.annotate_eq, ← Option.some.inj h]
  | cons i path ih =>
    obtain ⟨c, r, hc, hr, hbuild, -⟩ := substitute?_cons_eq_some_iff.1 h
    have hchildren : t.children.map (annotate b) = t.children.map id :=
      List.map_congr_left fun c hc => (ht.of_mem_children hc).annotate_eq
    obtain ⟨x, hx, hr'⟩ := Option.map_eq_some_iff.1
      (ih (ht.of_mem_children (List.mem_of_getElem? hc)) hr)
    simp only [graft?, hc, hx, Option.bind_eq_bind, Option.bind_some]
    rw [map_annotate_ofRoot?, List.map_set, hchildren, List.map_id, hr', hbuild]

/-! ## All laws -/

/-- **Replacing a subtree is a lawful update.** For trees that were built under the same bounds and
paths that lead somewhere, as many nodes are built anew as there are steps on the way; the new
subtree is at the path, and what is neither above nor below it is what it was; the result is the
tree with all summaries derived anew; its size is what it should be; of two replacements at one path
the second counts; putting in what is there already changes nothing; and replacements of which
neither is above the other may be done in any order. -/
theorem substitute?_lawful {v : Tree} (ht : Built b t) (hs : Built b s)
    (hp : t.at? p = some u) (hq : t.at? q = some v) (s' : Tree) :
    ∃ r, t.substitute? b p s = some ⟨r, p.length⟩ ∧
      r.at? p = some s ∧
      (∀ path, ¬ path <+: p → ¬ p <+: path → r.at? path = t.at? path) ∧
      (t.graft? p s).map (annotate b) = some r ∧
      (r.size : Int) = t.size - u.size + s.size ∧
      r.substitute? b p s' = t.substitute? b p s' ∧
      t.substitute? b p u = some ⟨t, p.length⟩ ∧
      (¬ q <+: p → ¬ p <+: q → ∃ r' both, t.substitute? b q s' = some ⟨r', q.length⟩ ∧
        r.substitute? b q s' = some ⟨both, q.length⟩ ∧
        r'.substitute? b p s = some ⟨both, p.length⟩) := by
  -- Along a path that leads somewhere, a replacement has a result with the right number.
  have hreplaced {t u : Tree} {path : Path} (hat : t.at? path = some u) (s : Tree) :
      ∃ r, t.substitute? b path s = some ⟨r, path.length⟩ := by
    obtain ⟨g, hg⟩ := exists_substitute? hat b s
    exact ⟨g.tree, by rw [hg, ← rebuilt_of_substitute? hg]⟩
  obtain ⟨r, hr⟩ := hreplaced hp s
  have hsize : r.size + u.size = t.size + s.size := size_of_substitute? hp hr
  refine ⟨r, hr, at?_of_substitute? hr, ?_, annotate_of_graft? ht hs hr, by omega,
    substitute?_of_substitute? hr, substitute?_of_at? ht hp, ?_⟩
  · intro path hqp hpq
    exact at?_of_substitute?_of_apart hr hqp hpq
  · intro hqp hpq
    obtain ⟨r', hr'⟩ := hreplaced hq s'
    obtain ⟨x, hx⟩ := hreplaced ((at?_of_substitute?_of_apart hr hqp hpq).trans hq) s'
    obtain ⟨y, hy⟩ := hreplaced ((at?_of_substitute?_of_apart hr' hpq hqp).trans hp) s
    have hxy : x = y := substitute?_comm hqp hpq hr hr' hx hy
    exact ⟨r', x, hr', hx, hxy ▸ hy⟩

/-- The condition of one factor is filled in, and the other factor is replaced by a literal. The
branches of the conditional are not touched, and neither is the bound of the conditional. -/
theorem substitute?_lawful_product : ∃ (b : Bounds) (t r r' both : Tree),
    t.text = "Multiply(Ite(Lt(E, 2), x, E), Add(1, y))" ∧
      t.substitute? b [0, 0, 0] (.mkLeaf b (.var .z)) = some ⟨r, 3⟩ ∧
      r.text = "Multiply(Ite(Lt(z, 2), x, E), Add(1, y))" ∧ r.size = 10 ∧
      r.at? [0, 2] = some (.mkHole b .numeric) ∧
      (t.graft? [0, 0, 0] (.mkLeaf b (.var .z))).map (annotate b) = some r ∧
      t.substitute? b [1] (.mkLeaf b (.lit .three)) = some ⟨r', 1⟩ ∧
      r.substitute? b [1] (.mkLeaf b (.lit .three)) = some ⟨both, 1⟩ ∧
      r'.substitute? b [0, 0, 0] (.mkLeaf b (.var .z)) = some ⟨both, 3⟩ ∧
      both.text = "Multiply(Ite(Lt(z, 2), x, E), 3)" ∧ t.bound = 600 ∧ both.bound = 300 := by
  let b : Bounds := ⟨100, ⟨4, 5, 6⟩⟩
  let z : Tree := .mkLeaf b (.var .z)
  let three : Tree := .mkLeaf b (.lit .three)
  let condition : Tree := .mkBinary b .lt (.mkHole b .numeric) (.mkLeaf b (.lit .two))
  let t : Tree := .mkBinary b .multiply
    (.mkIte condition (.mkLeaf b (.var .x)) (.mkHole b .numeric))
    (.mkBinary b .add (.mkLeaf b (.lit .one)) (.mkLeaf b (.var .y)))
  have ht : Built b t := by decide +kernel
  have hz : Built b z := .leaf _
  obtain ⟨r, hr, -, haway, hscratch, hsize, -, -, hcomm⟩ :=
    substitute?_lawful (p := [0, 0, 0]) (q := [1]) ht hz rfl rfl three
  obtain ⟨r', both, hr', hboth, hboth'⟩ := hcomm (by decide) (by decide)
  have hrtext : (t.substitute? b [0, 0, 0] z).map (·.tree.text) =
      some "Multiply(Ite(Lt(z, 2), x, E), Add(1, y))" := by decide +kernel
  have hview : ((t.substitute? b [1] three).bind fun g => g.tree.substitute? b [0, 0, 0] z).map
      (fun g => (g.tree.text, g.tree.bound)) = some ("Multiply(Ite(Lt(z, 2), x, E), 3)", 300) := by
    decide +kernel
  rw [hr] at hrtext
  rw [hr', Option.bind_some, hboth'] at hview
  obtain ⟨htext, hbound⟩ := Prod.mk.inj (Option.some.inj hview)
  have hten : r.size = 10 := by
    have hrest : (t.size : Int) - 1 + 1 = 10 := by decide +kernel
    exact Int.ofNat.inj (hsize.trans hrest)
  exact ⟨b, t, r, r', both, by decide +kernel, hr, Option.some.inj hrtext, hten,
    (haway [0, 2] (by decide) (by decide)).trans rfl, hscratch, hr', hboth, hboth', htext,
    by decide +kernel, hbound⟩

end Tree

end Synthesis

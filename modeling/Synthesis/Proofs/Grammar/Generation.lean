import Synthesis.Grammar.Basic
import Synthesis.Proofs.Tree.FirstHole

/-!
# What a grammar generates, and what one expansion makes of it

`g.Generates c t` is the meaning of a grammar: every operator in `t` is one that `g` lists for the
category of its place, and every hole has the category of its place. Trees with holes are
included, so the same judgment covers the trees in line and the programs that are wanted in the
end; a program of the grammar is a complete tree that is generated from the start.

`t.growths g b` is what expanding `t` tries: the first hole filled with each production in turn.
It is the enumerator's list of candidates without its bookkeeping. The main statement is that it
misses nothing,

> **every program within `t` is within some growth of `t`** (`exists_mem_growths_covers`),

although only one hole is filled and the others wait. That holds because the program has *some*
operator at the first hole, the grammar lists it for the hole's category, and its operands are again
behind holes.
-/

set_option autoImplicit false

namespace Synthesis

/-- The trees, partial ones included, that a grammar generates from a hole of a category. -/
inductive Grammar.Generates (g : Grammar) : Category → Tree → Prop where
  | hole (c : Category) (s : Summary) : Generates g c (.hole c s)
  | leaf {c : Category} {a : Atom} (s : Summary) :
      .atom a ∈ g.operators c → Generates g c (.leaf a s)
  | not {c : Category} {t : Tree} (s : Summary) :
      .not ∈ g.operators c → Generates g .boolean t → Generates g c (.not t s)
  | binary {c : Category} {op : BinaryOperator} {l r : Tree} (s : Summary) :
      .binary op ∈ g.operators c → Generates g op.operands l → Generates g op.operands r →
        Generates g c (.binary op l r s)
  | ite {c : Category} {t p n : Tree} (s : Summary) :
      .ite ∈ g.operators c → Generates g .boolean t → Generates g .numeric p →
        Generates g .numeric n → Generates g c (.ite t p n s)

namespace Grammar

variable {g : Grammar} {b b' : Bounds} {c k : Category} {t q s : Tree} {h : Hole} {path : Path}

/-! ## Generation is kept by filling holes -/

theorem generates_sprout {op : Operator} (hop : op ∈ g.operators c) (b : Bounds) :
    g.Generates c (.sprout b op) := by
  cases op with
  | atom a => exact .leaf _ hop
  | not => exact .not _ hop (.hole _ _)
  | binary op => exact .binary _ hop (.hole _ _) (.hole _ _)
  | ite => exact .ite _ hop (.hole _ _) (.hole _ _) (.hole _ _)

/-- What fills a hole has to be generated from the hole's category, and nothing else. -/
theorem generates_of_substitute? {sum : Summary} {r : Regrowth} (ht : g.Generates c t)
    (hat : t.at? path = some (.hole k sum)) (hs : g.Generates k s)
    (hr : t.substitute? b path s = some r) : g.Generates c r.tree := by
  fun_induction Tree.substitute? b t path s generalizing c r with
  | case1 t s =>
    rw [Tree.at?_nil] at hat
    obtain rfl := Option.some.inj hat
    obtain rfl := Option.some.inj hr
    cases ht
    exact hs
  | case2 t sum' path s ih =>
    obtain ⟨r', hr', rfl⟩ := Option.map_eq_some_iff.1 hr
    cases ht with
    | not _ hop ht => exact .not _ hop (ih ht hat hs hr')
  | case3 op l r sum' path s ih =>
    obtain ⟨r', hr', rfl⟩ := Option.map_eq_some_iff.1 hr
    cases ht with
    | binary _ hop hl hr => exact .binary _ hop (ih hl hat hs hr') hr
  | case4 op l r sum' path s ih =>
    obtain ⟨r', hr', rfl⟩ := Option.map_eq_some_iff.1 hr
    cases ht with
    | binary _ hop hl hr => exact .binary _ hop hl (ih hr hat hs hr')
  | case5 t p n sum' path s ih =>
    obtain ⟨r', hr', rfl⟩ := Option.map_eq_some_iff.1 hr
    cases ht with
    | ite _ hop ht hp hn => exact .ite _ hop (ih ht hat hs hr') hp hn
  | case6 t p n sum' path s ih =>
    obtain ⟨r', hr', rfl⟩ := Option.map_eq_some_iff.1 hr
    cases ht with
    | ite _ hop ht hp hn => exact .ite _ hop ht (ih hp hat hs hr') hn
  | case7 t p n sum' path s ih =>
    obtain ⟨r', hr', rfl⟩ := Option.map_eq_some_iff.1 hr
    cases ht with
    | ite _ hop ht hp hn => exact .ite _ hop ht hp (ih hn hat hs hr')
  | case8 => exact absurd hr (by simp)

/-! ## A program has an operator at every hole -/

theorem exists_sprout_covers (hq : g.Generates c q) (hqb : Tree.Built b' q)
    (hqc : q.isComplete = true) (b : Bounds) :
    ∃ op ∈ g.operators c, (Tree.sprout b op).Covers q := by
  cases hq with
  | hole c s =>
    rw [Tree.built_hole_iff.1 hqb] at hqc
    exact absurd hqc Bool.false_ne_true
  | leaf s hop => exact ⟨_, hop, .leaf _ _ _⟩
  | not s hop _ => exact ⟨_, hop, .not _ _ (.hole _ _ _)⟩
  | binary s hop _ _ => exact ⟨_, hop, .binary _ _ _ (.hole _ _ _) (.hole _ _ _)⟩
  | ite s hop _ _ _ => exact ⟨_, hop, .ite _ _ (.hole _ _ _) (.hole _ _ _) (.hole _ _ _)⟩

/-- A program within a tree is still within it after the right operator was put into the first
hole. -/
theorem exists_substitute?_covers (hcov : t.Covers q) (ht : g.Generates c t) (hq : g.Generates c q)
    (hqb : Tree.Built b' q) (hqc : q.isComplete = true) (hh : t.firstHole? = some h) (b : Bounds) :
    ∃ op ∈ g.operators h.category, ∃ r,
      t.substitute? b h.path (.sprout b op) = some r ∧ r.tree.Covers q := by
  -- The covering leads down to the hole in the tree and to the operator in the program at once.
  induction hcov generalizing c h with
  | hole k s q =>
    obtain rfl := Option.some.inj hh
    cases ht
    obtain ⟨op, hop, hcov⟩ := exists_sprout_covers hq hqb hqc b
    exact ⟨op, hop, _, rfl, hcov⟩
  | leaf a s s' => exact absurd hh (by simp [Tree.firstHole?])
  | not s s' hcov ih =>
    obtain ⟨h', hh', rfl⟩ := Tree.child_of_firstHole?_not hh
    obtain ⟨hqb, hmk⟩ := Tree.built_not_iff.1 hqb
    rw [hmk] at hqc
    cases ht with
    | not _ _ ht =>
      cases hq with
      | not _ _ hq =>
        obtain ⟨op, hop, r, hr, hcov'⟩ := ih ht hq hqb hqc hh'
        exact ⟨op, hop, _, by rw [Tree.path_under, Tree.substitute?, hr]; rfl, .not _ _ hcov'⟩
  | @binary op l r l' r' s s' hcovl hcovr ihl ihr =>
    obtain ⟨hlb, hrb, hmk⟩ := Tree.built_binary_iff.1 hqb
    rw [hmk] at hqc
    have hboth : (l'.isComplete && r'.isComplete) = true := hqc
    rw [Bool.and_eq_true] at hboth
    cases ht with
    | binary _ _ htl htr =>
      cases hq with
      | binary _ _ hql hqr =>
        rcases Tree.child_of_firstHole?_binary hh with ⟨h', hh', rfl⟩ | ⟨-, h', hh', rfl⟩
        · obtain ⟨op', hop, x, hx, hcov'⟩ := ihl htl hql hlb hboth.1 hh'
          exact ⟨op', hop, _, by rw [Tree.path_under, Tree.substitute?, hx]; rfl,
            .binary op _ _ hcov' hcovr⟩
        · obtain ⟨op', hop, x, hx, hcov'⟩ := ihr htr hqr hrb hboth.2 hh'
          exact ⟨op', hop, _, by rw [Tree.path_under, Tree.substitute?, hx]; rfl,
            .binary op _ _ hcovl hcov'⟩
  | @ite t p n t' p' n' s s' hcovt hcovp hcovn iht ihp ihn =>
    obtain ⟨htb, hpb, hnb, hmk⟩ := Tree.built_ite_iff.1 hqb
    rw [hmk] at hqc
    have hall : (t'.isComplete && p'.isComplete && n'.isComplete) = true := hqc
    rw [Bool.and_eq_true, Bool.and_eq_true] at hall
    cases ht with
    | ite _ _ htt htp htn =>
      cases hq with
      | ite _ _ hqt hqp hqn =>
        rcases Tree.child_of_firstHole?_ite hh with
          ⟨h', hh', rfl⟩ | ⟨-, h', hh', rfl⟩ | ⟨-, -, h', hh', rfl⟩
        · obtain ⟨op, hop, x, hx, hcov'⟩ := iht htt hqt htb hall.1.1 hh'
          exact ⟨op, hop, _, by rw [Tree.path_under, Tree.substitute?, hx]; rfl,
            .ite _ _ hcov' hcovp hcovn⟩
        · obtain ⟨op, hop, x, hx, hcov'⟩ := ihp htp hqp hpb hall.1.2 hh'
          exact ⟨op, hop, _, by rw [Tree.path_under, Tree.substitute?, hx]; rfl,
            .ite _ _ hcovt hcov' hcovn⟩
        · obtain ⟨op, hop, x, hx, hcov'⟩ := ihn htn hqn hnb hall.2 hh'
          exact ⟨op, hop, _, by rw [Tree.path_under, Tree.substitute?, hx]; rfl,
            .ite _ _ hcovt hcovp hcov'⟩

end Grammar

/-! ## What expanding a tree tries -/

namespace Tree

variable {g : Grammar} {b b' : Bounds} {c : Category} {t u q : Tree}

/-- The tree with its first hole filled by each production in turn; none if there is no hole. -/
def growths (g : Grammar) (b : Bounds) (t : Tree) : List Tree :=
  match t.firstHole? with
  | none => []
  | some h => (g.operators h.category).filterMap fun op =>
      (t.substitute? b h.path (.sprout b op)).map (·.tree)

theorem mem_growths_iff : u ∈ t.growths g b ↔ ∃ h op r, t.firstHole? = some h ∧
    op ∈ g.operators h.category ∧ t.substitute? b h.path (.sprout b op) = some r ∧ r.tree = u := by
  unfold growths
  cases hh : t.firstHole? with
  | none => simp
  | some h => simp [List.mem_filterMap]

theorem covers_of_mem_growths (hu : u ∈ t.growths g b) : t.Covers u := by
  obtain ⟨h, op, r, hh, -, hr, rfl⟩ := mem_growths_iff.1 hu
  obtain ⟨sum, hat⟩ := at?_firstHole? hh
  exact covers_of_substitute? hat hr

theorem built_of_mem_growths (ht : Built b t) (hu : u ∈ t.growths g b) : Built b u := by
  obtain ⟨h, op, r, -, -, hr, rfl⟩ := mem_growths_iff.1 hu
  exact built_of_substitute? ht (built_sprout b op) hr

/-- Growing never makes a tree cheaper. -/
theorem cost_le_of_mem_growths (ht : Built b t) (hu : u ∈ t.growths g b) : t.cost ≤ u.cost :=
  (covers_of_mem_growths hu).cost_le ht (built_of_mem_growths ht hu)

theorem generates_of_mem_growths (ht : g.Generates c t) (hu : u ∈ t.growths g b) :
    g.Generates c u := by
  obtain ⟨h, op, r, hh, hop, hr, rfl⟩ := mem_growths_iff.1 hu
  obtain ⟨sum, hat⟩ := at?_firstHole? hh
  exact Grammar.generates_of_substitute? ht hat (Grammar.generates_sprout hop b) hr

/-- **No program is lost by an expansion.** -/
theorem exists_mem_growths_covers (hcov : t.Covers q) (htb : Built b t) (htc : t.isComplete = false)
    (ht : g.Generates c t) (hq : g.Generates c q) (hqb : Built b' q) (hqc : q.isComplete = true) :
    ∃ u ∈ t.growths g b, u.Covers q := by
  obtain ⟨h, hh⟩ := exists_firstHole? htb.assembled htc
  obtain ⟨op, hop, r, hr, hcov'⟩ := Grammar.exists_substitute?_covers hcov ht hq hqb hqc hh b
  exact ⟨r.tree, mem_growths_iff.2 ⟨h, op, r, hh, hop, hr, rfl⟩, hcov'⟩

/-- Growing under other bounds gives the same trees with other summaries. -/
theorem growths_annotate (ht : Built b t) (b' : Bounds) :
    (t.annotate b').growths g b' = (t.growths g b).map (annotate b') := by
  unfold growths
  rw [firstHole?_annotate ht]
  cases hh : t.firstHole? with
  | none => rfl
  | some h =>
    obtain ⟨sum, hat⟩ := at?_firstHole? hh
    rw [List.map_filterMap]
    refine congrArg (List.filterMap · (g.operators h.category)) (funext fun op => ?_)
    obtain ⟨r, hr⟩ := exists_substitute? hat b (.sprout b op)
    have hr' := substitute?_annotate hr b'
    rw [annotate_sprout] at hr'
    rw [hr, hr']
    rfl

end Tree

end Synthesis

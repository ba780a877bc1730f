import Synthesis.Proofs.Cost.Rounding
import Synthesis.Proofs.Tree.Built

/-!
# How trees grow

A partial tree stands for everything that its holes may still become. `t.Covers u` says that `u` is
`t` with *something* in place of each hole, and it is the one relation behind every argument about
growing trees: filling a hole is an instance of it (`covers_of_substitute?`), it composes, and what
the summaries promise about the future is a statement about it. Here that is

> **growing never makes a tree cheaper** (`Covers.cost_le`), whatever hole is filled and however the
> rounded sums on the way to the root come out,

and for bounds it is said where pruning is. Summaries play no part in the relation itself, so the
two trees may even have been built under different bounds.
-/

set_option autoImplicit false

namespace Synthesis

namespace Tree

/-- The second tree is the first one with some tree in place of each hole. -/
inductive Covers : Tree → Tree → Prop where
  | hole (c : Category) (s : Summary) (u : Tree) : Covers (.hole c s) u
  | leaf (a : Atom) (s s' : Summary) : Covers (.leaf a s) (.leaf a s')
  | not {c c' : Tree} (s s' : Summary) : Covers c c' → Covers (.not c s) (.not c' s')
  | binary (op : BinaryOperator) {l r l' r' : Tree} (s s' : Summary) :
      Covers l l' → Covers r r' → Covers (.binary op l r s) (.binary op l' r' s')
  | ite {c p n c' p' n' : Tree} (s s' : Summary) :
      Covers c c' → Covers p p' → Covers n n' → Covers (.ite c p n s) (.ite c' p' n' s')

variable {b b' : Bounds} {t u v : Tree}

/-! ## The relation -/

theorem Covers.refl (t : Tree) : t.Covers t := by
  induction t with
  | hole c s => exact .hole c s _
  | leaf a s => exact .leaf a s s
  | not c s ih => exact .not s s ih
  | binary op l r s ihl ihr => exact .binary op s s ihl ihr
  | ite c p n s ihc ihp ihn => exact .ite s s ihc ihp ihn

theorem Covers.trans (h : t.Covers u) : ∀ {v : Tree}, u.Covers v → t.Covers v := by
  induction h with
  | hole c s u => exact fun _ => .hole c s _
  | leaf a s s' =>
    intro v h'
    cases h' with
    | leaf _ _ s'' => exact .leaf a s s''
  | not s s' _ ih =>
    intro v h'
    cases h' with
    | not _ s'' hc => exact .not s s'' (ih hc)
  | binary op s s' _ _ ihl ihr =>
    intro v h'
    cases h' with
    | binary _ _ s'' hl hr => exact .binary op s s'' (ihl hl) (ihr hr)
  | ite s s' _ _ _ ihc ihp ihn =>
    intro v h'
    cases h' with
    | ite _ s'' hc hp hn => exact .ite s s'' (ihc hc) (ihp hp) (ihn hn)

/-- Summaries are not looked at. -/
theorem Covers.annotate (h : t.Covers u) (b b' : Bounds) :
    (t.annotate b).Covers (u.annotate b') := by
  induction h with
  | hole c s u => exact .hole c _ _
  | leaf a s s' => exact .leaf a _ _
  | not s s' _ ih => exact .not _ _ ih
  | binary op s s' _ _ ihl ihr => exact .binary op _ _ ihl ihr
  | ite s s' _ _ _ ihc ihp ihn => exact .ite _ _ ihc ihp ihn

theorem annotate_covers (b : Bounds) (t : Tree) : (t.annotate b).Covers t := by
  induction t with
  | hole c s => exact .hole c _ _
  | leaf a s => exact .leaf a _ _
  | not c s ih => exact .not _ _ ih
  | binary op l r s ihl ihr => exact .binary op _ _ ihl ihr
  | ite c p n s ihc ihp ihn => exact .ite _ _ ihc ihp ihn

theorem covers_annotate (b : Bounds) (t : Tree) : t.Covers (t.annotate b) := by
  induction t with
  | hole c s => exact .hole c _ _
  | leaf a s => exact .leaf a _ _
  | not c s ih => exact .not _ _ ih
  | binary op l r s ihl ihr => exact .binary op _ _ ihl ihr
  | ite c p n s ihc ihp ihn => exact .ite _ _ ihc ihp ihn

/-! ## What growing does to a summary -/

theorem Covers.cost_le (h : t.Covers u) : Built b t → Built b' u → t.cost ≤ u.cost := by
  induction h with
  | hole c s u =>
    intro ht _
    rw [built_hole_iff.1 ht]
    exact Cost.zero_le _
  | leaf a s s' =>
    intro ht hu
    rw [built_leaf_iff.1 ht, built_leaf_iff.1 hu]
    exact Cost.le_refl _
  | not s s' _ ih =>
    intro ht hu
    obtain ⟨hc, ht⟩ := built_not_iff.1 ht
    obtain ⟨hc', hu⟩ := built_not_iff.1 hu
    rw [ht, hu]
    exact Cost.add_le_add (Cost.le_refl _) (ih hc hc')
  | binary op s s' _ _ ihl ihr =>
    intro ht hu
    obtain ⟨hl, hr, ht⟩ := built_binary_iff.1 ht
    obtain ⟨hl', hr', hu⟩ := built_binary_iff.1 hu
    rw [ht, hu]
    exact Cost.add_le_add (Cost.le_refl _) (Cost.add_le_add (ihl hl hl') (ihr hr hr'))
  | ite s s' _ _ _ ihc ihp ihn =>
    intro ht hu
    obtain ⟨hc, hp, hn, ht⟩ := built_ite_iff.1 ht
    obtain ⟨hc', hp', hn', hu⟩ := built_ite_iff.1 hu
    rw [ht, hu]
    exact Cost.add_le_add (Cost.le_refl _)
      (Cost.add_le_add (Cost.add_le_add (ihc hc hc') (ihp hp hp')) (ihn hn hn'))

/-- A complete tree has no holes to grow at: it covers only itself. -/
theorem Covers.annotate_eq_of_complete (h : t.Covers u) :
    Built b t → t.isComplete = true → u.annotate b = t := by
  induction h with
  | hole c s u =>
    intro ht hcomplete
    rw [built_hole_iff.1 ht] at hcomplete
    exact absurd hcomplete Bool.false_ne_true
  | leaf a s s' =>
    intro ht _
    exact (built_leaf_iff.1 ht).symm
  | @not c c' s s' _ ih =>
    intro ht hcomplete
    obtain ⟨hc, ht⟩ := built_not_iff.1 ht
    rw [ht] at hcomplete ⊢
    exact congrArg (mkNot b) (ih hc hcomplete)
  | @binary op l r l' r' s s' _ _ ihl ihr =>
    intro ht hcomplete
    obtain ⟨hl, hr, ht⟩ := built_binary_iff.1 ht
    rw [ht] at hcomplete ⊢
    have hboth : (l.isComplete && r.isComplete) = true := hcomplete
    rw [Bool.and_eq_true] at hboth
    show mkBinary b op (l'.annotate b) (r'.annotate b) = _
    rw [ihl hl hboth.1, ihr hr hboth.2]
  | @ite c p n c' p' n' s s' _ _ _ ihc ihp ihn =>
    intro ht hcomplete
    obtain ⟨hc, hp, hn, ht⟩ := built_ite_iff.1 ht
    rw [ht] at hcomplete ⊢
    have hall : (c.isComplete && p.isComplete && n.isComplete) = true := hcomplete
    rw [Bool.and_eq_true, Bool.and_eq_true] at hall
    show mkIte (c'.annotate b) (p'.annotate b) (n'.annotate b) = _
    rw [ihc hc hall.1.1, ihp hp hall.1.2, ihn hn hall.2]

/-! ## Replacing a subtree -/

variable {path : Path} {s : Tree} {g : Regrowth}

theorem built_of_substitute? (ht : Built b t) (hs : Built b s)
    (h : t.substitute? b path s = some g) : Built b g.tree := by
  fun_induction substitute? b t path s generalizing g with
  | case1 => exact Option.some.inj h ▸ hs
  | case2 c _ path s ih =>
    obtain ⟨g', hg', rfl⟩ := Option.map_eq_some_iff.1 h
    exact .not (ih (built_not_iff.1 ht).1 hs hg')
  | case3 op l r _ path s ih =>
    obtain ⟨g', hg', rfl⟩ := Option.map_eq_some_iff.1 h
    obtain ⟨hl, hr, -⟩ := built_binary_iff.1 ht
    exact .binary op (ih hl hs hg') hr
  | case4 op l r _ path s ih =>
    obtain ⟨g', hg', rfl⟩ := Option.map_eq_some_iff.1 h
    obtain ⟨hl, hr, -⟩ := built_binary_iff.1 ht
    exact .binary op hl (ih hr hs hg')
  | case5 c p n _ path s ih =>
    obtain ⟨g', hg', rfl⟩ := Option.map_eq_some_iff.1 h
    obtain ⟨hc, hp, hn, -⟩ := built_ite_iff.1 ht
    exact .ite (ih hc hs hg') hp hn
  | case6 c p n _ path s ih =>
    obtain ⟨g', hg', rfl⟩ := Option.map_eq_some_iff.1 h
    obtain ⟨hc, hp, hn, -⟩ := built_ite_iff.1 ht
    exact .ite hc (ih hp hs hg') hn
  | case7 c p n _ path s ih =>
    obtain ⟨g', hg', rfl⟩ := Option.map_eq_some_iff.1 h
    obtain ⟨hc, hp, hn, -⟩ := built_ite_iff.1 ht
    exact .ite hc hp (ih hn hs hg')
  | case8 => exact absurd h (by simp)

/-- Filling a hole is growing. -/
theorem covers_of_substitute? {c : Category} {sum : Summary}
    (hat : t.at? path = some (.hole c sum)) (h : t.substitute? b path s = some g) :
    t.Covers g.tree := by
  fun_induction substitute? b t path s generalizing g with
  | case1 t s =>
    rw [at?_nil] at hat
    exact Option.some.inj hat ▸ .hole c sum _
  | case2 t sum' path s ih =>
    obtain ⟨g', hg', rfl⟩ := Option.map_eq_some_iff.1 h
    exact .not _ _ (ih hat hg')
  | case3 op l r sum' path s ih =>
    obtain ⟨g', hg', rfl⟩ := Option.map_eq_some_iff.1 h
    exact .binary op _ _ (ih hat hg') (.refl r)
  | case4 op l r sum' path s ih =>
    obtain ⟨g', hg', rfl⟩ := Option.map_eq_some_iff.1 h
    exact .binary op _ _ (.refl l) (ih hat hg')
  | case5 t p n sum' path s ih =>
    obtain ⟨g', hg', rfl⟩ := Option.map_eq_some_iff.1 h
    exact .ite _ _ (ih hat hg') (.refl p) (.refl n)
  | case6 t p n sum' path s ih =>
    obtain ⟨g', hg', rfl⟩ := Option.map_eq_some_iff.1 h
    exact .ite _ _ (.refl t) (ih hat hg') (.refl n)
  | case7 t p n sum' path s ih =>
    obtain ⟨g', hg', rfl⟩ := Option.map_eq_some_iff.1 h
    exact .ite _ _ (.refl t) (.refl p) (ih hat hg')
  | case8 => exact absurd h (by simp)

end Tree

end Synthesis

import Synthesis.Proofs.Grammar.Generation

/-!
# Growing is progress

A growth has one more node that is no hole than the tree that it was made from, and no completion
ever takes one back. So `filled`, the number of these nodes, tells a tree from everything that it
becomes later on; and as the other trees in line have their own operators somewhere, a tree that
was looked at once is not seen again.
-/

set_option autoImplicit false

namespace Synthesis

namespace Tree

variable {g : Grammar} {b : Bounds} {c : Category} {t u s : Tree} {path : Path} {r : Regrowth}

/-- The number of nodes that are no holes. -/
def filled : Tree → Nat
  | hole _ _ => 0
  | leaf _ _ => 1
  | not c _ => c.filled + 1
  | binary _ l r _ => l.filled + r.filled + 1
  | ite c p n _ => c.filled + p.filled + n.filled + 1

@[simp] theorem filled_annotate (b : Bounds) (t : Tree) : (t.annotate b).filled = t.filled := by
  induction t with
  | hole | leaf => rfl
  | not c s ih => simp [annotate, mkNot, filled, ih]
  | binary op l r s ihl ihr => simp [annotate, mkBinary, filled, ihl, ihr]
  | ite c p n s ihc ihp ihn => simp [annotate, mkIte, filled, ihc, ihp, ihn]

@[simp] theorem filled_sprout (b : Bounds) (op : Operator) : (sprout b op).filled = 1 := by
  cases op <;> rfl

theorem Covers.filled_le (h : t.Covers u) : t.filled ≤ u.filled := by
  induction h with
  | hole c s u => exact Nat.zero_le _
  | leaf a s s' => exact Nat.le_refl 1
  | not s s' _ ih =>
    simp only [filled]
    omega
  | binary op s s' _ _ ihl ihr =>
    simp only [filled]
    omega
  | ite s s' _ _ _ ihc ihp ihn =>
    simp only [filled]
    omega

/-- Filling a hole adds what it is filled with. -/
theorem filled_of_substitute? {sum : Summary} (hat : t.at? path = some (.hole c sum))
    (h : t.substitute? b path s = some r) : r.tree.filled = t.filled + s.filled := by
  fun_induction substitute? b t path s generalizing r with
  | case1 t s =>
    rw [at?_nil] at hat
    obtain rfl := Option.some.inj hat
    obtain rfl := Option.some.inj h
    exact (Nat.zero_add _).symm
  | case2 c sum path s ih | case3 op l r sum path s ih | case4 op l r sum path s ih
  | case5 c p n sum path s ih | case6 c p n sum path s ih | case7 c p n sum path s ih =>
    obtain ⟨r', hr', rfl⟩ := Option.map_eq_some_iff.1 h
    have hchild := ih hat hr'
    simp only [Regrowth.under, mkNot, mkBinary, mkIte, filled]
    omega
  | case8 => exact absurd h (by simp)

theorem filled_of_mem_growths (hu : u ∈ t.growths g b) : u.filled = t.filled + 1 := by
  obtain ⟨h, op, r, hh, -, hr, rfl⟩ := mem_growths_iff.1 hu
  obtain ⟨sum, hat⟩ := at?_firstHole? hh
  rw [filled_of_substitute? hat hr, filled_sprout]

end Tree

end Synthesis

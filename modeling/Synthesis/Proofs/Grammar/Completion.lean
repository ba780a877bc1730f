import Synthesis.Proofs.Grammar.Generation

/-!
# Completions

A completion of a partial tree has in place of each hole a complete tree that the grammar generates
for the hole's category. This is what a tree in line stands for, and it is stated without any
reference to how a search fills holes: all of them at once, and with anything.

Proofs prefer `Covers`, which asks nothing of what is put into a hole. A completion is covered, and
on trees of a grammar there is no more to it:

> **a generated tree is completed to every complete tree that it covers and the grammar generates**
> (`completes_of_covers`).
-/

set_option autoImplicit false

namespace Synthesis

namespace Grammar

/-- The second tree is the first one with a complete tree of the grammar in place of each hole. -/
inductive Completes (g : Grammar) : Tree → Tree → Prop where
  | hole {c : Category} {u : Tree} (s : Summary) :
      g.Generates c u → u.isComplete = true → Completes g (.hole c s) u
  | leaf (a : Atom) (s s' : Summary) : Completes g (.leaf a s) (.leaf a s')
  | not {t t' : Tree} (s s' : Summary) : Completes g t t' → Completes g (.not t s) (.not t' s')
  | binary (op : BinaryOperator) {l r l' r' : Tree} (s s' : Summary) :
      Completes g l l' → Completes g r r' → Completes g (.binary op l r s) (.binary op l' r' s')
  | ite {t p n t' p' n' : Tree} (s s' : Summary) :
      Completes g t t' → Completes g p p' → Completes g n n' →
        Completes g (.ite t p n s) (.ite t' p' n' s')

variable {g : Grammar} {b : Bounds} {c : Category} {t q : Tree}

theorem Completes.covers (h : g.Completes t q) : t.Covers q := by
  induction h with
  | hole s _ _ => exact .hole _ s _
  | leaf a s s' => exact .leaf a s s'
  | not s s' _ ih => exact .not s s' ih
  | binary op s s' _ _ ihl ihr => exact .binary op s s' ihl ihr
  | ite s s' _ _ _ iht ihp ihn => exact .ite s s' iht ihp ihn

/-- A tree of the grammar was grown into another one by filling its holes with such trees. -/
theorem completes_of_covers (h : t.Covers q) : g.Generates c t → g.Generates c q →
    Tree.Built b q → q.isComplete = true → g.Completes t q := by
  induction h generalizing c with
  | hole k s u =>
    intro ht hq _ hcomplete
    cases ht
    exact .hole s hq hcomplete
  | leaf a s s' => exact fun _ _ _ _ => .leaf a s s'
  | not s s' _ ih =>
    intro ht hq hb hcomplete
    rw [Tree.isComplete_not hb] at hcomplete
    cases ht with
    | not _ _ ht =>
      cases hq with
      | not _ _ hq => exact .not s s' (ih ht hq (Tree.built_not_iff.1 hb).1 hcomplete)
  | binary op s s' _ _ ihl ihr =>
    intro ht hq hb hcomplete
    rw [Tree.isComplete_binary hb, Bool.and_eq_true] at hcomplete
    obtain ⟨hlb, hrb, -⟩ := Tree.built_binary_iff.1 hb
    cases ht with
    | binary _ _ hl hr =>
      cases hq with
      | binary _ _ hql hqr =>
        exact .binary op s s' (ihl hl hql hlb hcomplete.1) (ihr hr hqr hrb hcomplete.2)
  | ite s s' _ _ _ iht ihp ihn =>
    intro ht hq hb hcomplete
    rw [Tree.isComplete_ite hb, Bool.and_eq_true, Bool.and_eq_true] at hcomplete
    obtain ⟨htb, hpb, hnb, -⟩ := Tree.built_ite_iff.1 hb
    cases ht with
    | ite _ _ ht hp hn =>
      cases hq with
      | ite _ _ hqt hqp hqn =>
        exact .ite s s' (iht ht hqt htb hcomplete.1.1) (ihp hp hqp hpb hcomplete.1.2)
          (ihn hn hqn hnb hcomplete.2)

end Grammar

end Synthesis

import Synthesis.Proofs.Evaluation.Inversion
import Synthesis.Proofs.Text.Spacing

/-!
# Reading one thing after another

A reader of a list reads the things in it from left to right and gives up at the first that is
faulty. So it succeeds exactly where each of them can be read (`mapM_eq_ok_iff`), and otherwise its
fault is that of the first that cannot, whatever comes after it (`mapM_eq_error_iff`).

Where the things are the pieces of a text between separators, and each piece is trimmed before it is
read, the reader of the list reads spaced tokens as soon as the reader of one thing does
(`read_pieces_eq_ok_iff`).
-/

set_option autoImplicit false

namespace Synthesis

variable {ε α β : Type}

theorem bind_eq_ok_iff {x : Except ε α} {f : α → Except ε β} {b : β} :
    x >>= f = .ok b ↔ ∃ a, x = .ok a ∧ f a = .ok b := by
  constructor
  · exact ok_of_bind_eq_ok
  · rintro ⟨a, rfl, h⟩
    exact h

theorem bind_eq_error_iff {x : Except ε α} {f : α → Except ε β} {e : ε} :
    x >>= f = .error e ↔ x = .error e ∨ ∃ a, x = .ok a ∧ f a = .error e := by
  constructor
  · exact error_of_bind_eq_error
  · rintro (rfl | ⟨a, rfl, h⟩)
    · rfl
    · exact h

theorem mapError_eq_ok_iff {ε' : Type} {x : Except ε α} {f : ε → ε'} {a : α} :
    x.mapError f = .ok a ↔ x = .ok a := by
  cases x <;> simp [Except.mapError]

theorem mapError_eq_error_iff {ε' : Type} {x : Except ε α} {f : ε → ε'} {e : ε'} :
    x.mapError f = .error e ↔ ∃ e', x = .error e' ∧ f e' = e := by
  cases x <;> simp [Except.mapError]

variable {f : α → Except ε β} {xs : List α} {ys : List β} {e : ε}

theorem mapM_eq_ok_iff : xs.mapM f = .ok ys ↔ List.Forall₂ (fun x y => f x = .ok y) xs ys := by
  induction xs generalizing ys with
  | nil => simp [pure, Except.pure, eq_comm]
  | cons x xs ih =>
    rw [List.mapM_cons, bind_eq_ok_iff, List.forall₂_cons_left_iff]
    simp only [bind_eq_ok_iff, ih]
    constructor
    · rintro ⟨y, hy, ys', hys', h⟩
      exact ⟨y, ys', hy, hys', (Except.ok.inj h).symm⟩
    · rintro ⟨y, ys', hy, hys', rfl⟩
      exact ⟨y, hy, ys', hys', rfl⟩

/-- The fault of a list is that of the first thing in it that has one. -/
theorem mapM_eq_error_iff : xs.mapM f = .error e ↔ ∃ before x after, xs = before ++ x :: after ∧
    (∀ y ∈ before, ∃ b, f y = .ok b) ∧ f x = .error e := by
  induction xs with
  | nil => simp [pure, Except.pure]
  | cons x xs ih =>
    rw [List.mapM_cons, bind_eq_error_iff]
    constructor
    · rintro (herror | ⟨y, hy, h⟩)
      · exact ⟨[], x, xs, rfl, by simp, herror⟩
      · rcases bind_eq_error_iff.1 h with herror | ⟨_, _, h⟩
        · obtain ⟨before, z, after, rfl, hbefore, hz⟩ := ih.1 herror
          exact ⟨x :: before, z, after, rfl, List.forall_mem_cons.2 ⟨⟨y, hy⟩, hbefore⟩, hz⟩
        · cases h
    · rintro ⟨before, z, after, heq, hbefore, hz⟩
      cases before with
      | nil =>
        obtain ⟨rfl, rfl⟩ := List.cons.inj heq
        exact .inl hz
      | cons y before =>
        obtain ⟨rfl, rfl⟩ := List.cons.inj heq
        obtain ⟨⟨b, hb⟩, hbefore⟩ := List.forall_mem_cons.1 hbefore
        refine .inr ⟨b, hb, bind_eq_error_iff.2 (.inl ?_)⟩
        exact ih.2 ⟨before, z, after, rfl, hbefore, hz⟩

/-- What goes wrong while things are gathered goes wrong with one of them. -/
theorem exists_of_foldlM_eq_error {g : β → α → Except ε β} {b : β}
    (h : xs.foldlM g b = .error e) : ∃ x ∈ xs, ∃ b', g b' x = .error e := by
  induction xs generalizing b with
  | nil => cases h
  | cons x xs ih =>
    rw [List.foldlM_cons] at h
    rcases bind_eq_error_iff.1 h with h | ⟨b', -, h⟩
    · exact ⟨x, List.mem_cons_self, b, h⟩
    · obtain ⟨y, hy, hfault⟩ := ih h
      exact ⟨y, List.mem_cons_of_mem x hy, hfault⟩

namespace Text

/-- A reader that reads the trimmed pieces of a text one after the other reads the tokens of each,
with separators between them. There is always a piece, if only an empty one. -/
theorem read_pieces_eq_ok_iff {read : List Char → Except ε α} {tokens : α → List (List Char)}
    {separator : Char} {text : List Char} {things : List α} (hseparator : isBlank separator = false)
    (htokens : ∀ thing, ∀ token ∈ tokens thing, separator ∉ token)
    (hread : ∀ piece thing, read (trim piece) = .ok thing ↔ Spaced (tokens thing) piece) :
    ((splitOn separator text).map trim).mapM read = .ok things ↔
      things ≠ [] ∧ Spaced ([[separator]].intercalate (things.map tokens)) text := by
  have hpieces : ((splitOn separator text).map trim).mapM read = .ok things ↔
      List.Forall₂ Spaced (things.map tokens) (splitOn separator text) := by
    rw [mapM_eq_ok_iff, List.forall₂_map_left_iff, List.forall₂_map_left_iff]
    simp only [hread]
    exact ⟨List.Forall₂.flip, List.Forall₂.flip⟩
  have hgroups : ∀ group ∈ things.map tokens, ∀ token ∈ group, separator ∉ token := by
    rw [List.forall_mem_map]
    exact fun thing _ => htokens thing
  rw [hpieces, forall₂_spaced_splitOn_iff hseparator hgroups, ne_eq, List.map_eq_nil_iff]

end Text

end Synthesis

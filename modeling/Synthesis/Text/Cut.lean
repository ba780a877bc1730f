/-!
# Cutting texts

The readers take a text apart in two ways: into all the pieces between the occurrences of a
separator, or into the two sides of the first occurrence of a mark. Neither loses a character, and
each has the matching way to put the parts together again.
-/

set_option autoImplicit false

namespace Synthesis.Text

/-- Puts a character in front of the first piece. -/
def consFirst (c : Char) : List (List Char) → List (List Char)
  | [] => [[c]]
  | piece :: pieces => (c :: piece) :: pieces

/-- The pieces between the separators: one more than there are separators. -/
def splitOn (separator : Char) : List Char → List (List Char)
  | [] => [[]]
  | c :: text =>
    if c = separator then [] :: splitOn separator text
    else consFirst c (splitOn separator text)

/-- What stands before and what stands after the first occurrence of a mark. -/
def cut? (mark : List Char) : List Char → Option (List Char × List Char)
  | [] => if mark.isEmpty then some ([], []) else none
  | c :: text =>
    if mark.isPrefixOf (c :: text) then some ([], (c :: text).drop mark.length)
    else (cut? mark text).map fun (before, after) => (c :: before, after)

/-- The mark between the sides of a rule, and between those of an example. -/
def arrow : List Char := ['-', '>']

/-! ## First facts -/

theorem splitOn_ne_nil (separator : Char) (text : List Char) : splitOn separator text ≠ [] := by
  cases text with
  | nil => simp [splitOn]
  | cons c text =>
    rw [splitOn]
    split
    · simp
    · cases splitOn separator text <;> simp [consFirst]

/-- Joining the pieces gives back the text. -/
theorem intercalate_splitOn (separator : Char) (text : List Char) :
    [separator].intercalate (splitOn separator text) = text := by
  induction text with
  | nil => rfl
  | cons c text ih =>
    rw [splitOn]
    split
    · rename_i h
      cases hs : splitOn separator text with
      | nil => exact absurd hs (splitOn_ne_nil separator text)
      | cons piece pieces =>
        rw [hs] at ih
        rw [h, ← ih]
        simp [List.intercalate]
    · cases hs : splitOn separator text with
      | nil => exact absurd hs (splitOn_ne_nil separator text)
      | cons piece pieces =>
        rw [hs] at ih
        rw [← ih]
        cases pieces <;> simp [consFirst, List.intercalate]

/-- A text is its two sides with the mark between them. -/
theorem eq_append_of_cut? {mark text before after : List Char}
    (h : cut? mark text = some (before, after)) : text = before ++ mark ++ after := by
  induction text generalizing before with
  | nil =>
    unfold cut? at h
    split at h
    · rename_i hm
      simp only [Option.some.injEq, Prod.mk.injEq] at h
      obtain ⟨rfl, rfl⟩ := h
      simpa using hm
    · simp at h
  | cons c text ih =>
    unfold cut? at h
    split at h
    · rename_i hm
      simp only [Option.some.injEq, Prod.mk.injEq] at h
      obtain ⟨rfl, rfl⟩ := h
      obtain ⟨rest, hr⟩ := List.isPrefixOf_iff_prefix.1 hm
      rw [← hr]
      simp
    · obtain ⟨⟨left, right⟩, hs, hp⟩ := Option.map_eq_some_iff.1 h
      simp only [Prod.mk.injEq] at hp
      obtain ⟨rfl, rfl⟩ := hp
      rw [ih hs]
      simp

end Synthesis.Text

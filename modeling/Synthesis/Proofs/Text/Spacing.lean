import Mathlib.Data.List.DropRight
import Mathlib.Data.List.Forall2
import Synthesis.Text.Blank
import Synthesis.Text.Cut

/-!
# Tokens and the white space around them

Both text formats are said in two steps: which tokens a thing is written with, and that there may be
any white space around each of them. `Spaced tokens text` is the second step. The readers go the
other way. They cut a text at its marks, `->` or `(` or a comma, and trim what stands between them,
again and again at every level. What makes this come out right at all levels is that

> **a text cut at a mark is the tokens before it, spaced, and the tokens after it, spaced**
> (`spaced_mark_iff`, `spaced_join_iff`),

and that trimming takes away nothing but what belongs to no token (`spaced_trim_iff`). A cut finds
the right mark because no token holds a character of it (`Spaced.notMem`).
-/

set_option autoImplicit false

namespace Synthesis.Text

variable {text before after token mark : List Char} {tokens others : List (List Char)}
  {separator : Char}

/-! ## Blank texts and trimming -/

/-- White space and nothing else. -/
def Blank (text : List Char) : Prop := ∀ c ∈ text, isBlank c = true

theorem blank_nil : Blank [] := by
  simp [Blank]

theorem blank_space : Blank [' '] := by
  intro c hc
  obtain rfl := List.mem_singleton.1 hc
  decide

theorem blank_append_iff : Blank (before ++ after) ↔ Blank before ∧ Blank after := by
  simp [Blank, or_imp, forall_and]

theorem Blank.notMem (h : Blank text) {c : Char} (hc : isBlank c = false) : c ∉ text := by
  intro hmem
  exact absurd ((h c hmem).symm.trans hc) (by simp)

theorem trimEnd_append_of_blank (h : Blank after) : trimEnd (before ++ after) = trimEnd before := by
  unfold trimEnd
  rw [List.reverse_append, List.dropWhile_append_of_pos]
  intro c hc
  exact h c (List.mem_reverse.1 hc)

/-- The end of a text is trimmed behind what has nothing to be trimmed at its own end. -/
theorem trimEnd_append (h : trimEnd before = before) :
    trimEnd (before ++ after) = before ++ trimEnd after := by
  unfold trimEnd at h ⊢
  rw [List.reverse_append, List.dropWhile_append]
  split
  next hempty =>
    rw [List.isEmpty_iff.1 hempty, h]
    simp
  next => simp

theorem trimEnd_of_blank (h : Blank text) : trimEnd text = [] := by
  have hempty : trimEnd ([] ++ text) = [] := trimEnd_append_of_blank h
  exact hempty

/-- What trimming takes away at the two ends is white space. -/
theorem exists_trim (text : List Char) :
    ∃ before after, Blank before ∧ Blank after ∧ text = before ++ trim text ++ after := by
  obtain ⟨after, heq, hafter⟩ := trimEnd_append_blank (text.dropWhile isBlank)
  refine ⟨text.takeWhile isBlank, after, ?_, hafter, ?_⟩
  · intro c hc
    exact List.all_eq_true.1 List.all_takeWhile c hc
  · rw [List.append_assoc, trim, ← heq, List.takeWhile_append_dropWhile]

theorem trimEnd_trim (text : List Char) : trimEnd (trim text) = trim text :=
  List.rdropWhile_idempotent isBlank (text.dropWhile isBlank)

/-- White space around a text is trimmed away, in front of it as well as behind it. -/
theorem trim_blank_append (h : Blank before) : trim (before ++ text) = trim text := by
  rw [trim, List.dropWhile_append_of_pos h, trim]

theorem trim_append_blank (h : Blank after) : trim (text ++ after) = trim text := by
  rw [trim, trim, List.dropWhile_append]
  split
  next hempty => rw [List.isEmpty_iff.1 hempty, List.dropWhile_eq_nil_iff.2 h]
  next => exact trimEnd_append_of_blank h

/-! ## Spaced tokens -/

/-- The text is the tokens in their order, with any white space around each. -/
inductive Spaced : List (List Char) → List Char → Prop where
  | blank {text : List Char} : Blank text → Spaced [] text
  | token {before token text : List Char} {tokens : List (List Char)} :
      Blank before → Spaced tokens text → Spaced (token :: tokens) (before ++ token ++ text)

theorem spaced_nil_iff : Spaced [] text ↔ Blank text := by
  constructor
  · rintro ⟨h⟩
    exact h
  · exact .blank

theorem spaced_cons_iff : Spaced (token :: tokens) text ↔
    ∃ before rest, Blank before ∧ Spaced tokens rest ∧ text = before ++ token ++ rest := by
  constructor
  · intro h
    cases h with
    | token hbefore hrest => exact ⟨_, _, hbefore, hrest, rfl⟩
  · rintro ⟨before, rest, hbefore, hrest, rfl⟩
    exact .token hbefore hrest

theorem Spaced.blank_append (hbefore : Blank before) (h : Spaced tokens text) :
    Spaced tokens (before ++ text) := by
  cases h with
  | blank htext => exact .blank (blank_append_iff.2 ⟨hbefore, htext⟩)
  | token hblank hrest =>
    rw [← List.append_assoc, ← List.append_assoc]
    exact .token (blank_append_iff.2 ⟨hbefore, hblank⟩) hrest

theorem Spaced.append_blank (h : Spaced tokens text) (hafter : Blank after) :
    Spaced tokens (text ++ after) := by
  induction h with
  | blank htext => exact .blank (blank_append_iff.2 ⟨htext, hafter⟩)
  | token hblank _ ih =>
    rw [List.append_assoc]
    exact .token hblank ih

theorem Spaced.append (h : Spaced tokens before) (h' : Spaced others after) :
    Spaced (tokens ++ others) (before ++ after) := by
  induction h with
  | blank hblank => exact h'.blank_append hblank
  | token hblank _ ih =>
    rw [List.append_assoc]
    exact .token hblank ih

theorem Spaced.append_mark (h : Spaced tokens before) (mark : List Char)
    (h' : Spaced others after) : Spaced (tokens ++ mark :: others) (before ++ mark ++ after) := by
  rw [List.append_assoc]
  exact h.append (.token blank_nil h')

/-- A text is told apart at a token: what stands before the token spaces those before it, and what
stands after it those after it. -/
theorem spaced_mark_iff : Spaced (tokens ++ mark :: others) text ↔ ∃ before after,
    text = before ++ mark ++ after ∧ Spaced tokens before ∧ Spaced others after := by
  constructor
  · intro h
    induction tokens generalizing text with
    | nil =>
      obtain ⟨blank, rest, hblank, hrest, rfl⟩ := spaced_cons_iff.1 h
      exact ⟨blank, rest, rfl, .blank hblank, hrest⟩
    | cons token tokens ih =>
      obtain ⟨blank, rest, hblank, hrest, rfl⟩ := spaced_cons_iff.1 h
      obtain ⟨before, after, rfl, hbefore, hafter⟩ := ih hrest
      exact ⟨blank ++ token ++ before, after, by simp, .token hblank hbefore, hafter⟩
  · rintro ⟨before, after, rfl, hbefore, hafter⟩
    exact hbefore.append_mark mark hafter

theorem spaced_singleton_iff : Spaced [token] text ↔
    ∃ before after, Blank before ∧ Blank after ∧ text = before ++ token ++ after := by
  simp [spaced_cons_iff, spaced_nil_iff]

theorem spaced_self (token : List Char) : Spaced [token] token :=
  spaced_singleton_iff.2 ⟨[], [], blank_nil, blank_nil, by simp⟩

/-- A character that is neither white space nor in a token is nowhere. -/
theorem Spaced.notMem {c : Char} (h : Spaced tokens text) (hc : isBlank c = false)
    (htokens : ∀ token ∈ tokens, c ∉ token) : c ∉ text := by
  induction h with
  | blank hblank => exact hblank.notMem hc
  | token hblank _ ih =>
    simp only [List.forall_mem_cons] at htokens
    simp only [List.mem_append, not_or]
    exact ⟨⟨hblank.notMem hc, htokens.1⟩, ih htokens.2⟩

/-! ## Trimming spaced tokens -/

/-- There is something in the token, and no white space. -/
def Solid (token : List Char) : Prop := token ≠ [] ∧ ∀ c ∈ token, isBlank c = false

theorem solid_singleton {c : Char} (h : isBlank c = false) : Solid [c] := by
  simp [Solid, h]

/-- Letters and digits are not white space. -/
theorem isBlank_of_isAlphanum {c : Char} (h : c.isAlphanum = true) : isBlank c = false := by
  have hranges : (decide (c.val ≥ 'A'.val ∧ c.val ≤ 'Z'.val) ||
      (c.val ≥ 'a'.val && c.val ≤ 'z'.val) || (c.val ≥ '0'.val && c.val ≤ '9'.val)) = true := h
  simp only [Bool.or_eq_true, Bool.and_eq_true, decide_eq_true_eq, ge_iff_le,
    UInt32.le_iff_toNat_le] at hranges
  simp only [isBlank, blankRanges, List.any_eq_false, Bool.and_eq_true, decide_eq_true_eq,
    List.forall_mem_cons, Char.toNat]
  simp at hranges ⊢
  omega

/-- A token made of letters and digits, as names are. -/
def Word (token : List Char) : Prop := token ≠ [] ∧ ∀ c ∈ token, c.isAlphanum = true

theorem Word.solid (h : Word token) : Solid token :=
  ⟨h.1, fun c hc => isBlank_of_isAlphanum (h.2 c hc)⟩

theorem Word.notMem {c : Char} (h : Word token) (hc : c.isAlphanum = false) : c ∉ token := by
  intro hmem
  exact absurd ((h.2 c hmem).symm.trans hc) (by simp)

theorem dropWhile_solid_append (h : Solid token) :
    (token ++ text).dropWhile isBlank = token ++ text := by
  obtain ⟨hne, hsolid⟩ := h
  cases token with
  | nil => exact absurd rfl hne
  | cons c token => simp [hsolid c List.mem_cons_self]

theorem trimEnd_append_solid (h : Solid token) : trimEnd (before ++ token) = before ++ token := by
  have hreverse : Solid token.reverse := by simpa [Solid] using h
  unfold trimEnd
  rw [List.reverse_append, dropWhile_solid_append hreverse]
  simp

theorem Spaced.dropWhile (h : Spaced tokens text) (hsolid : ∀ token ∈ tokens, Solid token) :
    Spaced tokens (text.dropWhile isBlank) := by
  cases h with
  | blank hblank => exact .blank fun c hc => hblank c ((List.dropWhile_sublist _).subset hc)
  | token hblank hrest =>
    rw [List.append_assoc, List.dropWhile_append_of_pos hblank,
      dropWhile_solid_append (hsolid _ List.mem_cons_self)]
    exact .token blank_nil hrest

theorem Spaced.trimEnd (h : Spaced tokens text) (hsolid : ∀ token ∈ tokens, Solid token) :
    Spaced tokens (trimEnd text) := by
  induction h with
  | blank hblank =>
    rw [trimEnd_of_blank hblank]
    exact .blank blank_nil
  | token hblank _ ih =>
    rw [List.forall_mem_cons] at hsolid
    rw [trimEnd_append (trimEnd_append_solid hsolid.1)]
    exact .token hblank (ih hsolid.2)

/-- Trimming neither adds nor takes away a token. -/
theorem spaced_trim_iff (hsolid : ∀ token ∈ tokens, Solid token) :
    Spaced tokens (trim text) ↔ Spaced tokens text := by
  constructor
  · intro h
    obtain ⟨before, after, hbefore, hafter, heq⟩ := exists_trim text
    rw [heq]
    exact (h.blank_append hbefore).append_blank hafter
  · intro h
    exact (h.dropWhile hsolid).trimEnd hsolid

theorem trim_eq_nil_iff : trim text = [] ↔ Spaced [] text := by
  constructor
  · intro h
    obtain ⟨before, after, hbefore, hafter, heq⟩ := exists_trim text
    rw [heq, h, List.append_nil]
    exact .blank (blank_append_iff.2 ⟨hbefore, hafter⟩)
  · intro h
    have htrim : Spaced [] (trim text) := (spaced_trim_iff (by simp)).2 h
    rw [← trimEnd_trim, trimEnd_of_blank (spaced_nil_iff.1 htrim)]

/-- A piece holds just one token if that is what is left of it when trimmed. -/
theorem trim_eq_iff (hsolid : Solid token) : trim text = token ↔ Spaced [token] text := by
  constructor
  · rintro rfl
    obtain ⟨before, after, hbefore, hafter, heq⟩ := exists_trim text
    exact spaced_singleton_iff.2 ⟨before, after, hbefore, hafter, heq⟩
  · intro h
    obtain ⟨before, after, hbefore, hafter, rfl⟩ := spaced_singleton_iff.1 h
    rw [trim, List.append_assoc, List.dropWhile_append_of_pos hbefore,
      dropWhile_solid_append hsolid, trimEnd_append_of_blank hafter]
    show Text.trimEnd ([] ++ token) = [] ++ token
    exact trimEnd_append_solid hsolid

/-- Where nothing is left to be trimmed at the end, the last token ends the text. -/
theorem Spaced.exists_append_of_trimEnd (h : Spaced (tokens ++ [mark]) text)
    (hsolid : Solid mark) (htrim : Text.trimEnd text = text) :
    ∃ before, text = before ++ mark ∧ Spaced tokens before := by
  obtain ⟨before, after, rfl, hbefore, hafter⟩ := spaced_mark_iff.1 h
  rw [trimEnd_append_of_blank (spaced_nil_iff.1 hafter), trimEnd_append_solid hsolid] at htrim
  exact ⟨before, htrim.symm, hbefore⟩

/-! ## Cutting spaced tokens -/

theorem cut?_eq_none_of_notMem {c : Char} (hmark : c ∈ mark) (h : c ∉ text) :
    cut? mark text = none := by
  cases hcut : cut? mark text with
  | none => rfl
  | some sides =>
    rw [eq_append_of_cut? hcut] at h
    simp [hmark] at h

/-- A cut finds a mark whose last character is nowhere before it. -/
theorem cut?_append (start : List Char) {last : Char} (h : last ∉ before ++ start) :
    cut? (start ++ [last]) (before ++ (start ++ [last]) ++ after) = some (before, after) := by
  induction before with
  | nil => cases start <;> simp [cut?]
  | cons c before ih =>
    have hnot : ¬ (start ++ [last]).isPrefixOf (c :: before ++ (start ++ [last]) ++ after) := by
      intro hprefix
      -- A mark that began here would be complete before the one that is meant is.
      have hinside : start ++ [last] <+: c :: before ++ start :=
        List.prefix_of_prefix_length_le (List.isPrefixOf_iff_prefix.1 hprefix)
          ⟨[last] ++ after, by simp⟩ (by simp)
      exact h (hinside.subset (by simp))
    have hrest : last ∉ before ++ start := by
      intro hmem
      exact h (List.mem_cons_of_mem c hmem)
    simp only [List.cons_append] at hnot ⊢
    rw [cut?, if_neg hnot, ih hrest]
    rfl

/-- A text is cut at a token if the last character of that token is in none before it. -/
theorem Spaced.exists_cut? {last : Char} (h : Spaced (tokens ++ mark :: others) text)
    (hmark : mark.getLast? = some last) (hfirst : last ∉ mark.dropLast)
    (hblank : isBlank last = false) (htokens : ∀ token ∈ tokens, last ∉ token) :
    ∃ before after, cut? mark text = some (before, after) ∧ Spaced tokens before ∧
      Spaced others after := by
  obtain ⟨before, after, rfl, hbefore, hafter⟩ := spaced_mark_iff.1 h
  obtain ⟨start, rfl⟩ := List.getLast?_eq_some_iff.1 hmark
  rw [List.dropLast_concat] at hfirst
  have hlast : last ∉ before ++ start := by
    simpa [hfirst] using hbefore.notMem hblank htokens
  exact ⟨before, after, cut?_append start hlast, hbefore, hafter⟩

/-- A mark without white space does not begin in the white space before a text. -/
theorem cut?_blank_append (hmark : Solid mark) (h : Blank before) :
    cut? mark (before ++ text) = (cut? mark text).map (Prod.map (before ++ ·) id) := by
  induction before with
  | nil => exact Option.map_id_apply.symm
  | cons c before ih =>
    have hnot : ¬ mark.isPrefixOf (c :: (before ++ text)) := by
      intro hprefix
      obtain ⟨d, mark', rfl⟩ := List.exists_cons_of_ne_nil hmark.1
      obtain ⟨rfl, -⟩ := List.cons_prefix_cons.1 (List.isPrefixOf_iff_prefix.1 hprefix)
      exact h.notMem (hmark.2 d List.mem_cons_self) List.mem_cons_self
    rw [List.cons_append, cut?, if_neg hnot, ih (List.forall_mem_cons.1 h).2, Option.map_map]
    rfl

/-- It does not reach into the white space after a text either. -/
theorem Solid.prefix_append_blank (hmark : Solid mark) (h : Blank after) :
    mark <+: text ++ after ↔ mark <+: text := by
  constructor
  · intro hprefix
    rcases Nat.le_total mark.length text.length with hle | hle
    · exact List.prefix_of_prefix_length_le hprefix (List.prefix_append text after) hle
    · obtain ⟨rest, rfl⟩ :=
        List.prefix_of_prefix_length_le (List.prefix_append text after) hprefix hle
      have hrest := (List.prefix_append_right_inj text).1 hprefix
      cases rest with
      | nil => simp
      | cons c rest =>
        exact absurd (hrest.subset List.mem_cons_self) (h.notMem (hmark.2 c (by simp)))
  · intro hprefix
    exact hprefix.trans (List.prefix_append text after)

theorem cut?_append_blank (hmark : Solid mark) (h : Blank after) :
    cut? mark (text ++ after) = (cut? mark text).map (Prod.map id (· ++ after)) := by
  induction text with
  | nil =>
    obtain ⟨c, hc⟩ := List.exists_mem_of_ne_nil mark hmark.1
    rw [List.nil_append, cut?_eq_none_of_notMem hc (h.notMem (hmark.2 c hc)),
      cut?_eq_none_of_notMem hc List.not_mem_nil]
    rfl
  | cons c text ih =>
    have hhere : mark.isPrefixOf (c :: text ++ after) = mark.isPrefixOf (c :: text) := by
      rw [Bool.eq_iff_iff, List.isPrefixOf_iff_prefix, List.isPrefixOf_iff_prefix,
        hmark.prefix_append_blank h]
    rw [List.cons_append, cut?, cut?, ← List.cons_append, hhere]
    split
    next hprefix =>
      rw [List.drop_append_of_le_length (List.isPrefixOf_iff_prefix.1 hprefix).length_le]
      rfl
    next =>
      rw [ih, Option.map_map, Option.map_map]
      rfl

/-- Where a text is cut does not depend on the white space around it. -/
theorem exists_cut?_trim (hmark : Solid mark) (text : List Char) : ∃ before after,
    Blank before ∧ Blank after ∧
      cut? mark text = (cut? mark (trim text)).map (Prod.map (before ++ ·) (· ++ after)) := by
  obtain ⟨before, after, hbefore, hafter, heq⟩ := exists_trim text
  refine ⟨before, after, hbefore, hafter, ?_⟩
  conv_lhs => rw [heq]
  rw [cut?_append_blank hmark hafter, cut?_blank_append hmark hbefore, Option.map_map]
  rfl

theorem splitOn_eq (separator : Char) (text : List Char) :
    splitOn separator text = text.splitOn separator := by
  induction text with
  | nil => rfl
  | cons c text ih =>
    rw [splitOn, List.splitOn_cons_eq_if_modifyHead, ih]
    have hne := List.splitOn_ne_nil separator text
    by_cases hc : c = separator
    · simp [hc]
    · cases hpieces : text.splitOn separator with
      | nil => exact absurd hpieces hne
      | cons piece pieces => simp [hc, consFirst]

theorem notMem_of_mem_splitOn {piece : List Char} (h : piece ∈ splitOn separator text) :
    separator ∉ piece := by
  induction text generalizing piece with
  | nil =>
    obtain rfl := List.mem_singleton.1 h
    simp
  | cons c text ih =>
    rw [splitOn] at h
    split at h
    next =>
      rcases List.mem_cons.1 h with rfl | h
      · simp
      · exact ih h
    next hc =>
      cases hpieces : splitOn separator text with
      | nil => exact absurd hpieces (splitOn_ne_nil separator text)
      | cons first pieces =>
        rw [hpieces, consFirst] at h
        rw [hpieces, List.forall_mem_cons] at ih
        rcases List.mem_cons.1 h with rfl | h
        · simp [Ne.symm hc, ih.1]
        · exact ih.2 piece h

/-- The pieces of a text are what stands between the separators. -/
theorem splitOn_eq_iff {pieces : List (List Char)} : splitOn separator text = pieces ↔
    pieces ≠ [] ∧ text = [separator].intercalate pieces ∧ ∀ piece ∈ pieces, separator ∉ piece := by
  constructor
  · rintro rfl
    exact ⟨splitOn_ne_nil separator text, (intercalate_splitOn separator text).symm,
      fun _ => notMem_of_mem_splitOn⟩
  · rintro ⟨hne, rfl, hpieces⟩
    rw [splitOn_eq, List.splitOn_intercalate separator hpieces hne]

theorem splitOn_append_separator : splitOn separator (before ++ separator :: after) =
    splitOn separator before ++ splitOn separator after := by
  rw [splitOn_eq, splitOn_eq, splitOn_eq, List.splitOn_append_cons_self]

theorem splitOn_of_notMem (h : separator ∉ text) : splitOn separator text = [text] :=
  splitOn_eq_iff.2 ⟨by simp, by simp, by simpa using h⟩

/-- White space before a text is white space before its first piece. -/
theorem map_trim_splitOn_blank_append (hseparator : isBlank separator = false)
    (h : Blank before) :
    (splitOn separator (before ++ text)).map trim = (splitOn separator text).map trim := by
  induction before with
  | nil => rfl
  | cons c before ih =>
    have hne : c ≠ separator := by
      rintro rfl
      exact h.notMem hseparator List.mem_cons_self
    obtain ⟨hc, hbefore⟩ := List.forall_mem_cons.1 h
    rw [← ih hbefore, List.cons_append, splitOn, if_neg hne]
    cases hpieces : splitOn separator (before ++ text) with
    | nil => exact absurd hpieces (splitOn_ne_nil separator _)
    | cons piece pieces =>
      have hfirst : trim ([c] ++ piece) = trim piece :=
        trim_blank_append (List.forall_mem_singleton.2 hc)
      exact congrArg (· :: pieces.map trim) hfirst

theorem length_splitOn : (splitOn separator text).length = text.count separator + 1 := by
  induction text with
  | nil => rfl
  | cons c text ih =>
    rw [splitOn]
    split
    next hc => rw [List.length_cons, ih, hc, List.count_cons_self]
    next hc =>
      rw [List.count_cons_of_ne hc, ← ih]
      cases hpieces : splitOn separator text with
      | nil => exact absurd hpieces (splitOn_ne_nil separator text)
      | cons piece pieces => rfl

/-! ## Groups of tokens between separators -/

/-- What holds of the separator and of all that is in the groups holds of all that is in the row. -/
theorem forall_mem_intercalate {α : Type} {P : α → Prop} {mark : α} {groups : List (List α)}
    (hmark : P mark) (hgroups : ∀ group ∈ groups, ∀ a ∈ group, P a) :
    ∀ a ∈ [mark].intercalate groups, P a := by
  induction groups with
  | nil => simp [List.intercalate_nil]
  | cons group groups ih =>
    rw [List.forall_mem_cons] at hgroups
    cases groups with
    | nil => simpa using hgroups.1
    | cons next groups =>
      rw [List.intercalate_cons_cons]
      simp only [List.forall_mem_append, List.forall_mem_singleton]
      exact ⟨⟨hgroups.1, hmark⟩, ih hgroups.2⟩

/-- Groups of tokens with a separator between them are spaced as each group is by itself. -/
theorem spaced_join_iff {groups : List (List (List Char))} (hne : groups ≠ []) :
    Spaced ([[separator]].intercalate groups) text ↔
      ∃ pieces, text = [separator].intercalate pieces ∧ List.Forall₂ Spaced groups pieces := by
  induction groups generalizing text with
  | nil => exact absurd rfl hne
  | cons group groups ih =>
    cases groups with
    | nil => simp [List.forall₂_cons_left_iff]
    | cons next groups =>
      rw [List.intercalate_cons_cons, List.append_assoc, List.singleton_append, spaced_mark_iff]
      constructor
      · rintro ⟨before, after, rfl, hbefore, hafter⟩
        obtain ⟨pieces, rfl, hpieces⟩ := (ih (by simp)).1 hafter
        refine ⟨before :: pieces, ?_, .cons hbefore hpieces⟩
        cases hpieces
        rw [List.intercalate_cons_cons]
      · rintro ⟨pieces, rfl, hpieces⟩
        cases hpieces with
        | cons hbefore hpieces =>
          have hafter := (ih (by simp)).2 ⟨_, rfl, hpieces⟩
          refine ⟨_, _, ?_, hbefore, hafter⟩
          cases hpieces
          rw [List.intercalate_cons_cons]

theorem notMem_of_forall₂_spaced {groups : List (List (List Char))} {pieces : List (List Char)}
    (h : List.Forall₂ Spaced groups pieces) (hseparator : isBlank separator = false)
    (hgroups : ∀ group ∈ groups, ∀ token ∈ group, separator ∉ token) :
    ∀ piece ∈ pieces, separator ∉ piece := by
  induction h with
  | nil => simp
  | cons hspaced _ ih =>
    rw [List.forall_mem_cons] at hgroups ⊢
    exact ⟨hspaced.notMem hseparator hgroups.1, ih hgroups.2⟩

/-- A text is split at a separator into a piece for each group of tokens. -/
theorem forall₂_spaced_splitOn_iff {groups : List (List (List Char))}
    (hseparator : isBlank separator = false)
    (hgroups : ∀ group ∈ groups, ∀ token ∈ group, separator ∉ token) :
    List.Forall₂ Spaced groups (splitOn separator text) ↔
      groups ≠ [] ∧ Spaced ([[separator]].intercalate groups) text := by
  constructor
  · intro h
    have hne : groups ≠ [] := by
      rintro rfl
      exact splitOn_ne_nil separator text (List.forall₂_nil_left_iff.1 h)
    exact ⟨hne, (spaced_join_iff hne).2 ⟨_, (intercalate_splitOn separator text).symm, h⟩⟩
  · rintro ⟨hne, h⟩
    obtain ⟨pieces, rfl, hpieces⟩ := (spaced_join_iff hne).1 h
    have hpieces_ne : pieces ≠ [] := by
      rintro rfl
      exact hne (List.forall₂_nil_right_iff.1 hpieces)
    rw [splitOn_eq_iff.2 ⟨hpieces_ne, rfl, notMem_of_forall₂_spaced hpieces hseparator hgroups⟩]
    exact hpieces

end Synthesis.Text

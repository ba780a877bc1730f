import Synthesis.Proofs.Text.Spacing
import Synthesis.Symbol

/-!
# Names as tokens

The names of the language are words, made of letters and digits. So they can be trimmed, and no mark
of either text format is in one. Each name is read back as what it names (`Operator.ofName?_name`),
and nothing else is read so.

In a text a name is over where the letters and digits end, and what it names can be told from the
text alone: no two symbols have one name (`Symbol.name_inj`), although one name may begin like
another.
-/

set_option autoImplicit false

namespace Synthesis

open Text

theorem Category.word_name (c : Category) : Word c.name.toList := by
  cases c <;> simp [Word, name]

theorem Variable.word_name (v : Variable) : Word v.name.toList := by
  cases v <;> simp [Word, name]

theorem Literal.word_name (l : Literal) : Word l.name.toList := by
  cases l <;> simp [Word, name]

theorem Operator.word_name (op : Operator) : Word op.name.toList := by
  cases op with
  | atom a =>
    cases a with
    | var v => exact v.word_name
    | lit l => exact l.word_name
  | binary op => cases op <;> simp [Word, name, BinaryOperator.name]
  | not | ite => simp [Word, name]

theorem Category.ofName?_eq_some_iff {name : String} {c : Category} :
    ofName? name = some c ↔ name = c.name := by
  constructor
  · intro h
    unfold ofName? at h
    split at h
    · exact Option.some.inj h ▸ rfl
    · exact Option.some.inj h ▸ rfl
    · cases h
  · rintro rfl
    exact ofName?_name c

theorem Variable.ofName?_eq_some_iff {name : String} {v : Variable} :
    ofName? name = some v ↔ name = v.name := by
  constructor
  · intro h
    unfold ofName? at h
    split at h
    · exact Option.some.inj h ▸ rfl
    · exact Option.some.inj h ▸ rfl
    · exact Option.some.inj h ▸ rfl
    · cases h
  · rintro rfl
    exact ofName?_name v

theorem Literal.ofName?_eq_some_iff {name : String} {l : Literal} :
    ofName? name = some l ↔ name = l.name := by
  constructor
  · intro h
    unfold ofName? at h
    split at h
    · exact Option.some.inj h ▸ rfl
    · exact Option.some.inj h ▸ rfl
    · exact Option.some.inj h ▸ rfl
    · cases h
  · rintro rfl
    exact ofName?_name l

theorem Operator.ofName?_eq_some_iff {name : String} {op : Operator} :
    ofName? name = some op ↔ name = op.name := by
  constructor
  · intro h
    unfold ofName? at h
    split at h
    -- No operator with operands has the name, so it is that of a variable or a literal.
    case h_9 =>
      rcases Option.or_eq_some_iff.1 h with h | ⟨-, h⟩
      · obtain ⟨v, hv, rfl⟩ := Option.map_eq_some_iff.1 h
        exact Variable.ofName?_eq_some_iff.1 hv
      · obtain ⟨l, hl, rfl⟩ := Option.map_eq_some_iff.1 h
        exact Literal.ofName?_eq_some_iff.1 hl
    all_goals exact Option.some.inj h ▸ rfl
  · rintro rfl
    exact ofName?_name op

/-! ## Symbols -/

namespace Symbol

theorem word_name (s : Symbol) : Word s.name.toList := by
  cases s with
  | op o => exact o.word_name
  | hole c => exact c.word_name

/-- No two symbols have one name. -/
theorem name_inj {s s' : Symbol} (h : s.name = s'.name) : s = s' := by
  -- An operator's name is read back as the operator, and no operator has the name of a category.
  have hapart (o : Operator) (c : Category) : o.name ≠ c.name := by
    intro heq
    have hnone : Operator.ofName? c.name = none := by cases c <;> rfl
    rw [← heq, Operator.ofName?_name] at hnone
    cases hnone
  cases s with
  | op o =>
    cases s' with
    | op o' =>
      have hread : some o = some o' :=
        (Operator.ofName?_name o).symm.trans (Operator.ofName?_eq_some_iff.2 h)
      exact congrArg op (Option.some.inj hread)
    | hole c' => exact absurd h (hapart o c')
  | hole c =>
    cases s' with
    | op o' => exact absurd h.symm (hapart o' c)
    | hole c' =>
      have hread : some c = some c' :=
        (Category.ofName?_name c).symm.trans (Category.ofName?_eq_some_iff.2 h)
      exact congrArg hole (Option.some.inj hread)

end Symbol

/-! ## Where a name is over -/

namespace Text

variable {word word' rest rest' : List Char}

/-- Nothing follows that a word could go on with. -/
def Stops (rest : List Char) : Prop := ∀ c, rest.head? = some c → c.isAlphanum = false

theorem stops_nil : Stops [] := by
  intro c hc
  cases hc

theorem stops_cons {c : Char} (h : c.isAlphanum = false) : Stops (c :: rest) := by
  intro c' hc'
  rw [← Option.some.inj hc']
  exact h

theorem takeWhile_word_append (hword : Word word) (hrest : Stops rest) :
    (word ++ rest).takeWhile Char.isAlphanum = word := by
  rw [List.takeWhile_append_of_pos hword.2]
  cases rest with
  | nil => simp
  | cons c rest => simp [hrest c rfl]

/-- Of two texts that are the same, the words at the beginning are the same. -/
theorem word_append_inj (hword : Word word) (hword' : Word word') (hrest : Stops rest)
    (hrest' : Stops rest') (h : word ++ rest = word' ++ rest') : word = word' ∧ rest = rest' := by
  have hsame : word = word' := by
    rw [← takeWhile_word_append hword hrest, h, takeWhile_word_append hword' hrest']
  subst hsame
  exact ⟨rfl, List.append_cancel_left h⟩

end Text

end Synthesis

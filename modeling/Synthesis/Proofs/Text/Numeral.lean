import Synthesis.Proofs.Text.Spacing
import Synthesis.Text.Integer
import Synthesis.Value

/-!
# Numerals

A number has many numerals: a sign in front of a number that is not negative may be there or not,
and any zeros may stand before the first digit. `Numeral text i` says that the text is one of those
of `i`, whatever the size of the number. The reader of 64-bit integers knows all the numerals of all
64-bit integers, and nothing else is a number to it (`readInt64?_eq_some_iff`); the decimal text of
a value is one of them (`Value.numeral_text`).
-/

set_option autoImplicit false

namespace Synthesis

namespace Text

variable {text : List Char} {n : Nat} {i : Int}

/-- The text is decimal digits, at least one, with the given value. -/
structure Digits (text : List Char) (n : Nat) : Prop where
  ne_nil : text ≠ []
  isDigit : ∀ c ∈ text, c.isDigit = true
  value : Nat.ofDigitChars 10 text 0 = n

/-- The text is a numeral of the integer: digits with at most one sign in front. -/
inductive Numeral : List Char → Int → Prop where
  | unsigned {text : List Char} {n : Nat} : Digits text n → Numeral text n
  | plus {text : List Char} {n : Nat} : Digits text n → Numeral ('+' :: text) n
  | minus {text : List Char} {n : Nat} : Digits text n → Numeral ('-' :: text) (-n)

theorem Digits.notMem (h : Digits text n) {c : Char} (hc : c.isDigit = false) : c ∉ text := by
  intro hmem
  exact absurd ((h.isDigit c hmem).symm.trans hc) (by simp)

theorem Digits.word (h : Digits text n) : Word text := by
  refine ⟨h.ne_nil, fun c hc => ?_⟩
  simp [Char.isAlphanum, h.isDigit c hc]

/-- There is nothing in a numeral but digits and signs. -/
theorem Numeral.notMem (h : Numeral text i) {c : Char} (hc : c.isDigit = false) (hplus : c ≠ '+')
    (hminus : c ≠ '-') : c ∉ text := by
  cases h with
  | unsigned h => exact h.notMem hc
  | plus h => simp [hplus, h.notMem hc]
  | minus h => simp [hminus, h.notMem hc]

theorem Numeral.solid (h : Numeral text i) : Solid text := by
  cases h with
  | unsigned h => exact h.word.solid
  | plus h =>
    refine ⟨by simp, List.forall_mem_cons.2 ⟨by decide, h.word.solid.2⟩⟩
  | minus h =>
    refine ⟨by simp, List.forall_mem_cons.2 ⟨by decide, h.word.solid.2⟩⟩

/-! ## Reading numerals -/

theorem readDigits?_eq_some_iff : readDigits? text = some n ↔ Digits text n := by
  have hvalue : text.foldl (fun n c => n * 10 + (c.toNat - '0'.toNat)) 0 =
      Nat.ofDigitChars 10 text 0 := by
    simp only [Nat.ofDigitChars_eq_foldl, Nat.mul_comm 10]
  unfold readDigits?
  rw [hvalue]
  split
  next hbad =>
    simp only [reduceCtorEq, false_iff]
    intro h
    simp only [Bool.or_eq_true, List.isEmpty_iff, h.ne_nil, Bool.not_eq_true', List.all_eq_false,
      false_or] at hbad
    obtain ⟨c, hc, hdigit⟩ := hbad
    exact hdigit (h.isDigit c hc)
  next hgood =>
    simp only [Bool.or_eq_true, List.isEmpty_iff, Bool.not_eq_true', not_or, Bool.not_eq_false,
      List.all_eq_true] at hgood
    rw [Option.some.injEq]
    constructor
    · intro h
      exact ⟨hgood.1, hgood.2, h⟩
    · intro h
      exact h.value

theorem readNat?_eq_some_iff :
    readNat? text = some n ↔ Digits text n ∨ ∃ digits, text = '+' :: digits ∧ Digits digits n := by
  unfold readNat?
  split
  next digits =>
    rw [readDigits?_eq_some_iff]
    constructor
    · intro h
      exact .inr ⟨digits, rfl, h⟩
    · rintro (h | ⟨_, heq, h⟩)
      · exact absurd List.mem_cons_self (h.notMem (by decide))
      · exact (List.cons.inj heq).2 ▸ h
  next hplus =>
    rw [readDigits?_eq_some_iff]
    constructor
    · exact .inl
    · rintro (h | ⟨digits, rfl, -⟩)
      · exact h
      · exact absurd rfl (hplus digits)

theorem readInt?_eq_some_iff : readInt? text = some i ↔ Numeral text i := by
  unfold readInt?
  split
  next digits =>
    simp only [Option.map_eq_some_iff, Option.bind_eq_bind, Option.bind_eq_some_iff,
      Option.pure_def, Option.some.injEq, readDigits?_eq_some_iff]
    constructor
    · rintro ⟨_, ⟨n, h, rfl⟩, rfl⟩
      exact .minus h
    · intro h
      cases h with
      | unsigned h => exact absurd List.mem_cons_self (h.notMem (by decide))
      | minus h => exact ⟨_, ⟨_, h, rfl⟩, rfl⟩
  next hminus =>
    simp only [Option.map_eq_some_iff, Option.bind_eq_bind, Option.bind_eq_some_iff,
      Option.pure_def, Option.some.injEq, readNat?_eq_some_iff]
    constructor
    · rintro ⟨_, ⟨n, h | ⟨digits, rfl, h⟩, rfl⟩, rfl⟩
      · exact .unsigned h
      · exact .plus h
    · intro h
      cases h with
      | unsigned h => exact ⟨_, ⟨_, .inl h, rfl⟩, rfl⟩
      | plus h => exact ⟨_, ⟨_, .inr ⟨_, rfl, h⟩, rfl⟩, rfl⟩
      | minus h => exact absurd rfl (hminus _)

/-- The reader accepts the numerals of the integers that fit. -/
theorem readInt64?_eq_some_iff {a : Int64} : readInt64? text = some a ↔ Numeral text a.toInt := by
  have hlow : Int64.minValue.toInt = -2 ^ 63 := Int64.toInt_minValue
  have hhigh : Int64.maxValue.toInt = 2 ^ 63 - 1 := Int64.toInt_maxValue
  rw [← readInt?_eq_some_iff]
  unfold readInt64?
  constructor
  · intro h
    split at h
    next i hi =>
      split at h
      next hfits =>
        obtain rfl := Option.some.inj h
        rw [hi, Int64.toInt_ofInt_of_le (by omega) (by omega)]
      next => cases h
    next => cases h
  · intro h
    rw [h]
    dsimp only
    rw [if_pos ⟨a.minValue_le_toInt, a.toInt_le⟩, Int64.ofInt_toInt]

/-! ## Writing numerals -/

theorem digits_toDigits (n : Nat) : Digits (Nat.toDigits 10 n) n :=
  ⟨Nat.toDigits_ne_nil, fun _ => Nat.isDigit_of_mem_toDigits (by decide) (by decide),
    Nat.ofDigitChars_ten_toDigits⟩

end Text

open Text

/-- The text of a value is a numeral of it, that of the smallest value included. -/
theorem Value.numeral_text (a : Value) : Numeral a.text.toList a.toInt := by
  rw [Value.text, Int.toString_eq_repr, Int.repr_eq_if]
  split
  next hnonneg =>
    rw [Nat.toList_repr]
    have h := Numeral.unsigned (digits_toDigits a.toInt.toNat)
    rwa [Int.toNat_of_nonneg hnonneg] at h
  next hneg =>
    rw [String.toList_append, Nat.toList_repr]
    have h := Numeral.minus (digits_toDigits (-a.toInt).toNat)
    rwa [Int.toNat_of_nonneg (by omega), Int.neg_neg] at h

end Synthesis

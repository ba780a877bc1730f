import Synthesis.Example.Parser
import Synthesis.Proofs.Text.Names
import Synthesis.Proofs.Text.Numeral
import Synthesis.Proofs.Text.Sequence

/-!
# The format of examples

An example is pieces between commas, an arrow, and the output. A piece may hold a binding or be
blank, and `Bind` lists the bindings of the pieces in their order; a text is an example as written
(`IsWritten`) if these bind every variable once. The reader accepts this and nothing else,

> **a text is read as an example exactly if it is that example as written** (`parse_iff_isWritten`),

which holds of texts with numerals of any form. That there is such a text for every example, in
every order of the variables, is seen from the usual form of examples (`usualText`).
-/

set_option autoImplicit false

namespace Synthesis

open Text

namespace Example

/-! ## What is written -/

/-- The pieces hold the bindings, in this order, each a variable and a numeral with an equals sign
between them, and the other pieces are blank. -/
inductive Bind : List (List Char) → List (Variable × Value) → Prop where
  | nil : Bind [] []
  | blank {piece : List Char} {pieces : List (List Char)} {bindings : List (Variable × Value)} :
      Blank piece → Bind pieces bindings → Bind (piece :: pieces) bindings
  | binding {piece numeral : List Char} {v : Variable} {n : Value} {pieces : List (List Char)}
      {bindings : List (Variable × Value)} :
      Numeral numeral n.toInt → Spaced [v.name.toList, ['='], numeral] piece →
        Bind pieces bindings → Bind (piece :: pieces) ((v, n) :: bindings)

/-- The text is the example as written: before the arrow are pieces that bind every variable just
once, to its value in the input, and after it is a numeral of the output. -/
inductive IsWritten : List Char → Example → Prop where
  | intro {pieces : List (List Char)} {bindings : List (Variable × Value)}
      {output numeral : List Char} {e : Example} :
      Bind pieces bindings → (bindings.map Prod.fst).Perm Variable.all →
        (∀ v n, (v, n) ∈ bindings → e.input.get v = some n) →
        Numeral numeral e.output.toInt → Spaced [numeral] output →
        IsWritten ([','].intercalate pieces ++ arrow ++ output) e

variable {v : Variable} {n : Value} {piece text : List Char} {pieces : List (List Char)}
  {bindings : List (Variable × Value)} {input input' : Bindings} {e : Example}

/-! ## One binding -/

theorem readValue_eq_ok_iff :
    readValue text = .ok n ↔ ∃ numeral, Numeral numeral n.toInt ∧ Spaced [numeral] text := by
  have hread : readValue text = .ok n ↔ readInt64? (trim text) = some n := by
    unfold readValue
    split
    next hsome => rw [hsome, Except.ok.injEq, Option.some.injEq]
    next hnone => simp [hnone]
  rw [hread, readInt64?_eq_some_iff]
  constructor
  · intro h
    exact ⟨_, h, (trim_eq_iff h.solid).1 rfl⟩
  · rintro ⟨numeral, h, hspaced⟩
    rwa [(trim_eq_iff h.solid).2 hspaced]

theorem readBinding_trim_eq_ok_iff : readBinding (trim piece) = .ok (v, n) ↔
    ∃ numeral, Numeral numeral n.toInt ∧ Spaced [v.name.toList, ['='], numeral] piece := by
  have hsolid {numeral : List Char} (h : Numeral numeral n.toInt) :
      ∀ token ∈ [v.name.toList, ['='], numeral], Solid token := by
    simp [v.word_name.solid, h.solid, solid_singleton (c := '=') (by decide)]
  unfold readBinding
  constructor
  · intro h
    split at h
    next name value hcut =>
      split at h
      next w hw =>
        obtain ⟨m, hm, h⟩ := bind_eq_ok_iff.1 h
        obtain ⟨rfl, rfl⟩ := Prod.mk.inj (Except.ok.inj h)
        obtain ⟨numeral, hnumeral, hvalue⟩ := readValue_eq_ok_iff.1 hm
        have htrim : trim name = w.name.toList := by
          rw [← Variable.ofName?_eq_some_iff.1 hw, String.toList_ofList]
        have hname := (trim_eq_iff w.word_name.solid).1 htrim
        refine ⟨numeral, hnumeral, (spaced_trim_iff (hsolid hnumeral)).1 ?_⟩
        rw [eq_append_of_cut? hcut]
        exact hname.append_mark ['='] hvalue
      next => cases h
    next => cases h
  · rintro ⟨numeral, hnumeral, hspaced⟩
    have htokens : Spaced ([v.name.toList] ++ ['='] :: [numeral]) (trim piece) :=
      (spaced_trim_iff (hsolid hnumeral)).2 hspaced
    have hmark : '=' ∉ v.name.toList := v.word_name.notMem (by decide)
    obtain ⟨name, value, hcut, hname, hvalue⟩ :=
      htokens.exists_cut? rfl (by decide) (by decide) (by simpa using hmark)
    have hv : Variable.ofName? (.ofList (trim name)) = some v := by
      rw [(trim_eq_iff v.word_name.solid).2 hname, Variable.ofName?_eq_some_iff,
        String.ofList_toList]
    rw [hcut]
    dsimp only
    rw [hv]
    exact bind_eq_ok_iff.2 ⟨n, readValue_eq_ok_iff.2 ⟨numeral, hnumeral, hvalue⟩, rfl⟩

/-! ## All bindings -/

/-- Adds a binding, if its variable has none yet. -/
def assign (input : Bindings) : Variable × Value → Except ExampleError Bindings
  | (v, n) => if (input.get v).isSome then .error (.rebound v) else .ok (input.set v (some n))

theorem addBinding_eq_ok_iff : addBinding input piece = .ok input' ↔
    ∃ binding, readBinding piece = .ok binding ∧ assign input binding = .ok input' :=
  bind_eq_ok_iff

theorem foldlM_addBinding_eq_ok_iff :
    ((pieces.map trim).filter (!·.isEmpty)).foldlM addBinding input = .ok input' ↔
      ∃ bindings, Bind pieces bindings ∧ bindings.foldlM assign input = .ok input' := by
  induction pieces generalizing input with
  | nil =>
    constructor
    · intro h
      exact ⟨[], .nil, h⟩
    · rintro ⟨bindings, ⟨⟩, h⟩
      exact h
  | cons piece pieces ih =>
    rw [List.map_cons, List.filter_cons]
    by_cases hblank : Spaced [] piece
    · have hnil := trim_eq_nil_iff.2 hblank
      rw [hnil]
      simp only [List.isEmpty_nil, Bool.not_true, Bool.false_eq_true, if_false, ih]
      constructor
      · rintro ⟨bindings, hbind, hfold⟩
        exact ⟨bindings, .blank (spaced_nil_iff.1 hblank) hbind, hfold⟩
      · rintro ⟨_, hbind, hfold⟩
        cases hbind with
        | blank _ hbind => exact ⟨_, hbind, hfold⟩
        | binding hnumeral hspaced _ =>
          -- There is an equals sign in a binding.
          have hread := readBinding_trim_eq_ok_iff.2 ⟨_, hnumeral, hspaced⟩
          rw [hnil] at hread
          cases hread
    · have hne : (trim piece).isEmpty = false := by
        simpa using mt trim_eq_nil_iff.1 hblank
      simp only [hne, Bool.not_false, if_true, List.foldlM_cons, bind_eq_ok_iff,
        addBinding_eq_ok_iff, ih]
      constructor
      · rintro ⟨input₁, ⟨⟨v, n⟩, hread, hassign⟩, bindings, hbind, hfold⟩
        obtain ⟨numeral, hnumeral, hspaced⟩ := readBinding_trim_eq_ok_iff.1 hread
        refine ⟨(v, n) :: bindings, .binding hnumeral hspaced hbind, ?_⟩
        rw [List.foldlM_cons]
        exact bind_eq_ok_iff.2 ⟨_, hassign, hfold⟩
      · rintro ⟨_, hbind, hfold⟩
        cases hbind with
        | blank hpiece => exact absurd (.blank hpiece) hblank
        | binding hnumeral hspaced hbind =>
          rw [List.foldlM_cons] at hfold
          obtain ⟨input₁, hassign, hfold⟩ := bind_eq_ok_iff.1 hfold
          have hread := readBinding_trim_eq_ok_iff.2 ⟨_, hnumeral, hspaced⟩
          exact ⟨input₁, ⟨_, hread, hassign⟩, _, hbind, hfold⟩

/-- What an input gains from bindings of variables that are unbound in it, each given once. -/
structure Extends (input : Bindings) (bindings : List (Variable × Value)) (input' : Bindings) :
    Prop where
  nodup : (bindings.map Prod.fst).Nodup
  fresh : ∀ v ∈ bindings.map Prod.fst, input.get v = none
  bound : ∀ v n, (v, n) ∈ bindings → input'.get v = some n
  kept : ∀ v, v ∉ bindings.map Prod.fst → input'.get v = input.get v

theorem extends_nil_iff : Extends input [] input' ↔ input' = input := by
  constructor
  · intro h
    refine PerVariable.ext_get fun v => ?_
    simpa using h.kept v
  · rintro rfl
    refine ⟨?_, ?_, ?_, ?_⟩
    all_goals simp

theorem extends_cons_iff : Extends input ((v, n) :: bindings) input' ↔
    input.get v = none ∧ Extends (input.set v (some n)) bindings input' := by
  constructor
  · rintro ⟨hnodup, hfresh, hbound, hkept⟩
    rw [List.map_cons, List.nodup_cons] at hnodup
    rw [List.map_cons, List.forall_mem_cons] at hfresh
    refine ⟨hfresh.1, hnodup.2, ?_, ?_, ?_⟩
    · intro w hw
      have hne : w ≠ v := ne_of_mem_of_not_mem hw hnodup.1
      rw [PerVariable.get_set_of_ne _ hne]
      exact hfresh.2 w hw
    · intro w m hmem
      exact hbound w m (List.mem_cons_of_mem _ hmem)
    · intro w hw
      by_cases hwv : w = v
      · rw [hwv, PerVariable.get_set_self]
        exact hbound v n List.mem_cons_self
      · rw [PerVariable.get_set_of_ne _ hwv]
        exact hkept w (by simpa [hwv] using hw)
  · rintro ⟨hv, hnodup, hfresh, hbound, hkept⟩
    have hnew : v ∉ bindings.map Prod.fst := by
      intro hmem
      simpa using hfresh v hmem
    refine ⟨List.nodup_cons.2 ⟨hnew, hnodup⟩, List.forall_mem_cons.2 ⟨hv, ?_⟩, ?_, ?_⟩
    · intro w hw
      rw [← PerVariable.get_set_of_ne input (ne_of_mem_of_not_mem hw hnew) (some n)]
      exact hfresh w hw
    · intro w m hmem
      rcases List.mem_cons.1 hmem with heq | hmem
      · obtain ⟨rfl, rfl⟩ := Prod.mk.inj heq
        rw [hkept w hnew, PerVariable.get_set_self]
      · exact hbound w m hmem
    · intro w hw
      rw [List.map_cons, List.mem_cons, not_or] at hw
      rw [hkept w hw.2, PerVariable.get_set_of_ne _ hw.1]

theorem foldlM_assign_eq_ok_iff :
    bindings.foldlM assign input = .ok input' ↔ Extends input bindings input' := by
  induction bindings generalizing input with
  | nil => simp [extends_nil_iff, pure, Except.pure, eq_comm]
  | cons binding bindings ih =>
    obtain ⟨v, n⟩ := binding
    rw [List.foldlM_cons, bind_eq_ok_iff, extends_cons_iff]
    simp only [ih, assign]
    cases hv : input.get v with
    | none => simp
    | some m => simp

/-- From no bindings at all an input comes about in which every variable is bound. -/
theorem extends_const_none_iff :
    (Extends (.const none) bindings input ∧ ∀ v, input.get v ≠ none) ↔
      (bindings.map Prod.fst).Perm Variable.all ∧
        ∀ v n, (v, n) ∈ bindings → input.get v = some n := by
  constructor
  · rintro ⟨h, hall⟩
    have hmem (v : Variable) : v ∈ bindings.map Prod.fst := by
      by_contra hv
      exact hall v ((h.kept v hv).trans (PerVariable.get_const none v))
    refine ⟨(List.perm_ext_iff_of_nodup h.nodup (by decide)).2 fun v => ?_, h.bound⟩
    simp [hmem v, Variable.mem_all]
  · rintro ⟨hperm, hbound⟩
    have hmem (v : Variable) : v ∈ bindings.map Prod.fst :=
      hperm.mem_iff.2 (Variable.mem_all v)
    refine ⟨⟨hperm.nodup_iff.2 (by decide), ?_, hbound, ?_⟩, ?_⟩
    · intro v _
      exact PerVariable.get_const none v
    · intro v hv
      exact absurd (hmem v) hv
    · intro v
      obtain ⟨⟨w, n⟩, hw, rfl⟩ := List.mem_map.1 (hmem v)
      simp [hbound w n hw]

theorem Bind.notMem (h : Bind pieces bindings) {c : Char} (hword : c.isAlphanum = false)
    (hblank : isBlank c = false) (hmark : c ∉ ['=', '+', '-']) : ∀ piece ∈ pieces, c ∉ piece := by
  have hdigit : c.isDigit = false := by
    simp [Char.isAlphanum] at hword
    exact hword.2
  simp only [List.mem_cons, List.not_mem_nil, or_false, not_or] at hmark
  induction h with
  | nil => simp
  | blank hpiece _ ih =>
    exact List.forall_mem_cons.2 ⟨(Spaced.blank hpiece).notMem hblank (by simp), ih⟩
  | @binding _ _ v _ _ _ hnumeral hspaced _ ih =>
    refine List.forall_mem_cons.2 ⟨hspaced.notMem hblank ?_, ih⟩
    simp [v.word_name.notMem hword, hnumeral.notMem hdigit hmark.2.1 hmark.2.2, hmark.1]

theorem readInput_eq_ok_iff : readInput text = .ok input ↔ ∃ pieces bindings,
    text = [','].intercalate pieces ∧ Bind pieces bindings ∧
      (bindings.map Prod.fst).Perm Variable.all ∧
        ∀ v n, (v, n) ∈ bindings → input.get v = some n := by
  have hread : readInput text = .ok input ↔
      (bindingTexts text).foldlM addBinding (.const none) = .ok input ∧
        ∀ v, input.get v ≠ none := by
    unfold readInput
    rw [bind_eq_ok_iff]
    constructor
    · rintro ⟨i, hfold, h⟩
      split at h
      next => cases h
      next hnone =>
        obtain rfl := Except.ok.inj h
        refine ⟨hfold, fun v hv => ?_⟩
        simpa [hv] using List.find?_eq_none.1 hnone v (Variable.mem_all v)
    · rintro ⟨hfold, hall⟩
      have hnone : (Variable.all.find? fun v => (input.get v).isNone) = none :=
        List.find?_eq_none.2 fun v _ => by simp [hall v]
      exact ⟨input, hfold, by rw [hnone]; rfl⟩
  rw [hread, bindingTexts, foldlM_addBinding_eq_ok_iff]
  simp only [foldlM_assign_eq_ok_iff]
  constructor
  · rintro ⟨⟨bindings, hbind, hextends⟩, hall⟩
    exact ⟨_, bindings, (intercalate_splitOn ',' text).symm, hbind,
      extends_const_none_iff.1 ⟨hextends, hall⟩⟩
  · rintro ⟨pieces, bindings, htext, hbind, hbound⟩
    have hne : pieces ≠ [] := by
      rintro rfl
      cases hbind
      cases hbound.1.length_eq
    have hcomma := hbind.notMem (c := ',') (by decide) (by decide) (by decide)
    obtain ⟨hextends, hall⟩ := extends_const_none_iff.2 hbound
    rw [splitOn_eq_iff.2 ⟨hne, htext, hcomma⟩]
    exact ⟨⟨bindings, hbind, hextends⟩, hall⟩

/-! ## The whole example -/

theorem ofChars_eq_ok_iff : ofChars text = .ok e ↔ IsWritten text e := by
  unfold ofChars
  constructor
  · intro h
    split at h
    next bindings output hcut =>
      obtain ⟨input, hinput, h⟩ := bind_eq_ok_iff.1 h
      obtain ⟨n, hn, h⟩ := bind_eq_ok_iff.1 h
      obtain rfl := Except.ok.inj h
      obtain ⟨pieces, bindings, rfl, hbind, hperm, hbound⟩ := readInput_eq_ok_iff.1 hinput
      obtain ⟨numeral, hnumeral, houtput⟩ := readValue_eq_ok_iff.1 hn
      rw [eq_append_of_cut? hcut]
      exact .intro hbind hperm hbound hnumeral houtput
    next => cases h
  · intro h
    cases h with
    | @intro pieces _ output _ _ hbind hperm hbound hnumeral houtput =>
      have hangle : ∀ c ∈ [','].intercalate pieces, c ≠ '>' := by
        refine forall_mem_intercalate (by decide) fun piece hpiece c hc => ?_
        exact ne_of_mem_of_not_mem hc
          (hbind.notMem (by decide) (by decide) (by decide) piece hpiece)
      have hlast : '>' ∉ [','].intercalate pieces ++ ['-'] := by
        simpa using fun hmem => hangle '>' hmem rfl
      have hcut : cut? arrow ([','].intercalate pieces ++ arrow ++ output) =
          some ([','].intercalate pieces, output) := cut?_append ['-'] hlast
      rw [hcut]
      refine bind_eq_ok_iff.2 ⟨_, readInput_eq_ok_iff.2 ⟨_, _, rfl, hbind, hperm, hbound⟩, ?_⟩
      exact bind_eq_ok_iff.2 ⟨_, readValue_eq_ok_iff.2 ⟨_, hnumeral, houtput⟩, rfl⟩

/-! ## The usual form -/

/-- The binding of a variable. -/
def bindingText (values : PerVariable Value) (v : Variable) : String :=
  v.name ++ "=" ++ (values.get v).text

/-- The example in its usual form, with the variables in the given order. -/
def usualText (order : List Variable) (values : PerVariable Value) (output : Value) : String :=
  ", ".intercalate (order.map (bindingText values)) ++ " -> " ++ output.text

theorem spaced_bindingText (values : PerVariable Value) (v : Variable) :
    Spaced [v.name.toList, ['='], (values.get v).text.toList] (bindingText values v).toList := by
  have h := (spaced_self v.name.toList).append_mark ['='] (spaced_self (values.get v).text.toList)
  simpa [bindingText] using h

theorem Bind.blank_append {blank : List Char} (hblank : Blank blank)
    (h : Bind (piece :: pieces) bindings) : Bind ((blank ++ piece) :: pieces) bindings := by
  cases h with
  | blank hpiece h => exact .blank (blank_append_iff.2 ⟨hblank, hpiece⟩) h
  | binding hnumeral hspaced h => exact .binding hnumeral (hspaced.blank_append hblank) h

/-- The space behind a comma belongs to the next piece, and that before the arrow to the last. -/
theorem exists_bind_intercalate (values : PerVariable Value) (v : Variable)
    (order : List Variable) : ∃ piece pieces,
      (", ".intercalate ((v :: order).map (bindingText values))).toList ++ [' '] =
        [','].intercalate (piece :: pieces) ∧
      Bind (piece :: pieces) ((v :: order).map fun w => (w, values.get w)) := by
  have hv := spaced_bindingText values v
  induction order generalizing v with
  | nil =>
    refine ⟨(bindingText values v).toList ++ [' '], [], by simp, ?_⟩
    exact .binding (values.get v).numeral_text (hv.append_blank blank_space) .nil
  | cons w order ih =>
    obtain ⟨piece, pieces, htext, hbind⟩ := ih w (spaced_bindingText values w)
    refine ⟨(bindingText values v).toList, ([' '] ++ piece) :: pieces, ?_, ?_⟩
    · rw [List.map_cons, List.map_cons, String.intercalate_cons_cons, ← List.map_cons,
        String.toList_append, String.toList_append, List.append_assoc, htext]
      cases pieces <;> simp [List.intercalate_cons_cons]
    · exact .binding (values.get v).numeral_text hv (hbind.blank_append blank_space)

theorem isWritten_usualText {order : List Variable} (h : order.Perm Variable.all)
    (values : PerVariable Value) (output : Value) :
    IsWritten (usualText order values output).toList
      (ofValues values.x values.y values.z output) := by
  cases order with
  | nil => cases h.length_eq
  | cons v order =>
    obtain ⟨piece, pieces, htext, hbind⟩ := exists_bind_intercalate values v order
    have hwritten : (usualText (v :: order) values output).toList =
        [','].intercalate (piece :: pieces) ++ arrow ++ ([' '] ++ output.text.toList) := by
      rw [← htext]
      simp [usualText, arrow]
    rw [hwritten]
    refine .intro hbind ?_ ?_ output.numeral_text ((spaced_self _).blank_append blank_space)
    · rwa [List.map_map, Function.comp_def, List.map_id']
    · intro w n hmem
      obtain ⟨u, -, hu⟩ := List.mem_map.1 hmem
      obtain ⟨rfl, rfl⟩ := Prod.mk.inj hu
      cases u <;> rfl

/-- **A text is read as an example exactly if it is that example as written**, and there is such a
text for every example, with the variables in any order. -/
theorem parse_iff_isWritten :
    (∀ (text : String) (e : Example), parse text = .ok e ↔ IsWritten text.toList e) ∧
      ∀ (order : List Variable) (values : PerVariable Value) (output : Value),
        order.Perm Variable.all → parse (usualText order values output) =
          .ok (ofValues values.x values.y values.z output) := by
  refine ⟨fun _ _ => ofChars_eq_ok_iff, fun order values output h => ?_⟩
  exact ofChars_eq_ok_iff.2 (isWritten_usualText h values output)

theorem parse_usualText_smallest :
    parse (usualText [.z, .x, .y] ⟨Int64.minValue, 0, Int64.maxValue⟩ Int64.minValue) =
      .ok (ofValues Int64.minValue 0 Int64.maxValue Int64.minValue) :=
  parse_iff_isWritten.2 _ _ _ (by decide)

example : parse ",z=+7,, x = -1 ,y=007->-0" = .ok (ofValues (-1) 7 7 0) := rfl

end Example

end Synthesis

import Synthesis.Proofs.Grammar.Reading
import Synthesis.Proofs.Text.Names
import Synthesis.Proofs.Text.Sequence

/-!
# The format of grammars

What a grammar is written with is said here by printing it: `tokens` lists the tokens of an operator
and of a rule, and a text is in the format if each of its lines, without the comment, is either
blank or the tokens of a rule with any white space around them (`Hold`). The rules are that of the
numeric expressions and, after it, that of the boolean ones, which may be missing if no operator
takes a truth value.

The loader knows nothing of tokens. That it accepts this format and no other,

> **a text loads as a grammar exactly if it is that grammar as written** (`parse_eq_ok_iff`),

comes level by level from what is known about cutting and trimming: each reader is shown to read the
spaced tokens of its thing, and the next level has only that to use.
-/

set_option autoImplicit false

namespace Synthesis

open Text

/-! ## What is written -/

/-- A name alone, or a name and what it is applied to, in parentheses and between commas. -/
def application (name : List Char) : List Category → List (List Char)
  | [] => [name]
  | operands =>
    name :: ['('] :: [[',']].intercalate (operands.map fun c => [c.name.toList]) ++ [[')']]

/-- The tokens of an operator, which is listed with the categories of its operands. -/
def Operator.tokens (op : Operator) : List (List Char) := application op.name.toList op.signature

namespace Grammar

/-- The tokens of a rule. -/
def Rule.tokens (r : Rule) : List (List Char) :=
  r.category.name.toList :: arrow :: [['|']].intercalate (r.productions.map (·.val.tokens))

/-- A line without its comment. -/
def uncommented (line : List Char) : List Char := line.takeWhile (· ≠ '#')

/-- The lines hold the rules, in this order, each on a line of its own and with at least one
alternative, and beside them only blanks and comments. -/
inductive Hold : List (List Char) → List Rule → Prop where
  | nil : Hold [] []
  | blank {line : List Char} {lines : List (List Char)} {rules : List Rule} :
      Blank (uncommented line) → Hold lines rules → Hold (line :: lines) rules
  | rule {line : List Char} {lines : List (List Char)} {r : Rule} {rules : List Rule} :
      Spaced r.tokens (uncommented line) → r.productions ≠ [] → Hold lines rules →
        Hold (line :: lines) (r :: rules)

/-- The rules of a grammar: that of its start, and that of the boolean expressions if it has any. -/
def rules (g : Grammar) : List Rule :=
  ⟨start, g.productions start⟩ :: if g.boolean = [] then [] else [⟨.boolean, g.boolean⟩]

/-- The text is the grammar as written: its lines hold the rules of the grammar, and the one of the
boolean expressions is there if an operator takes a truth value. -/
structure IsWritten (text : List Char) (g : Grammar) : Prop where
  lines : ∃ lines, text = ['\n'].intercalate lines ∧ (∀ line ∈ lines, '\n' ∉ line) ∧
    Hold lines g.rules
  defined : g.boolean = [] → ∀ op ∈ g.operators .numeric, .boolean ∉ op.signature

variable {n : Nat} {c : Category} {piece text name : List Char} {operands : List Category}

/-! ## One rule -/

theorem readCategory_trim_eq_ok_iff :
    readCategory n (trim piece) = .ok c ↔ Spaced [c.name.toList] piece := by
  rw [← trim_eq_iff c.word_name.solid]
  unfold readCategory
  constructor
  · intro h
    split at h
    next c' hc =>
      obtain rfl := Except.ok.inj h
      rw [← Category.ofName?_eq_some_iff.1 hc, String.toList_ofList]
    next => cases h
  · intro h
    rw [h, String.ofList_toList, Category.ofName?_name]

/-- Categories between commas are read one by one. -/
theorem readCategories_eq_ok_iff :
    ((splitOn ',' text).map trim).mapM (readCategory n) = .ok operands ↔ operands ≠ [] ∧
      Spaced ([[',']].intercalate (operands.map fun c => [c.name.toList])) text := by
  refine read_pieces_eq_ok_iff (by decide) ?_ fun _ _ => readCategory_trim_eq_ok_iff
  intro c
  simpa using c.word_name.notMem (c := ',') (by decide)

theorem application_of_ne_nil (name : List Char) (h : operands ≠ []) :
    application name operands = [name] ++
      ['('] :: [[',']].intercalate (operands.map fun c => [c.name.toList]) ++ [[')']] := by
  cases operands with
  | nil => exact absurd rfl h
  | cons c operands => rfl

theorem forall_mem_application {P : List Char → Prop} (hname : P name) (hopen : P ['('])
    (hcomma : P [',']) (hclose : P [')']) (hcategory : ∀ c : Category, P c.name.toList) :
    ∀ token ∈ application name operands, P token := by
  by_cases hne : operands = []
  · subst hne
    simpa [application] using hname
  · rw [application_of_ne_nil name hne]
    have hoperands : ∀ token ∈
        [[',']].intercalate (operands.map fun c => [c.name.toList]), P token :=
      forall_mem_intercalate hcomma (by simp [hcategory])
    simp only [List.forall_mem_append, List.forall_mem_cons, List.not_mem_nil, false_implies,
      implies_true, and_true]
    exact ⟨⟨hname, hopen, hoperands⟩, hclose⟩

theorem solid_of_mem_application (hname : Word name) :
    ∀ token ∈ application name operands, Solid token :=
  forall_mem_application hname.solid (solid_singleton (by decide)) (solid_singleton (by decide))
    (solid_singleton (by decide)) fun c => c.word_name.solid

/-- The opening parenthesis is found by the reader, and the closing one must be the last character
of what is left when the alternative is trimmed. -/
theorem readApplication_trim_eq_ok_iff (hname : Word name) :
    readApplication n (trim piece) = .ok (name, operands) ↔
      Spaced (application name operands) piece := by
  have hopen : '(' ∉ name := hname.notMem (by decide)
  unfold readApplication
  constructor
  · intro h
    split at h
    next =>
      obtain ⟨hpiece, rfl⟩ := Prod.mk.inj (Except.ok.inj h)
      exact (trim_eq_iff hname.solid).1 hpiece
    next before rest hcut =>
      split at h
      next hlast =>
        obtain ⟨_, hoperands, h⟩ := bind_eq_ok_iff.1 h
        obtain ⟨hbefore, rfl⟩ := Prod.mk.inj (Except.ok.inj h)
        obtain ⟨hne, hinner⟩ := readCategories_eq_ok_iff.1 hoperands
        have hstart := ((trim_eq_iff hname.solid).1 hbefore).append_mark ['('] hinner
        rw [← spaced_trim_iff (solid_of_mem_application hname), eq_append_of_cut? hcut,
          application_of_ne_nil name hne]
        refine spaced_mark_iff.2 ⟨_, [], ?_, hstart, .blank blank_nil⟩
        simp [List.dropLast_append_getLast? _ hlast]
      next => cases h
  · intro h
    by_cases hne : operands = []
    · subst hne
      rw [(trim_eq_iff hname.solid).2 h, cut?_eq_none_of_notMem List.mem_cons_self hopen]
    · have htrim := (spaced_trim_iff (solid_of_mem_application hname)).2 h
      rw [application_of_ne_nil name hne] at htrim
      obtain ⟨start, heq, hstart⟩ :=
        htrim.exists_append_of_trimEnd (solid_singleton (by decide)) (trimEnd_trim piece)
      obtain ⟨before, inner, rfl, hbefore, hinner⟩ := spaced_mark_iff.1 hstart
      have hbefore' : '(' ∉ before := hbefore.notMem (by decide) (by simpa using hopen)
      have hcut : cut? ['('] (trim piece) = some (before, inner ++ [')']) := by
        rw [heq, List.append_assoc]
        exact cut?_append [] (by simpa using hbefore')
      rw [hcut]
      simp only [List.getLast?_concat, if_true, List.dropLast_concat]
      exact bind_eq_ok_iff.2 ⟨operands, readCategories_eq_ok_iff.2 ⟨hne, hinner⟩,
        by rw [(trim_eq_iff hname.solid).2 hbefore]; rfl⟩

theorem readProduction_trim_eq_ok_iff {p : Production c} :
    readProduction n c (trim piece) = .ok p ↔ Spaced p.val.tokens piece := by
  have hword := p.val.word_name
  rw [Operator.tokens, ← readApplication_trim_eq_ok_iff (n := n) hword, readProduction_eq_ok_iff]
  simp only [Operator.ofName?_eq_some_iff]
  constructor
  · rintro ⟨name, hread, -, hname⟩
    rw [← hname, String.toList_ofList]
    exact hread
  · intro hread
    exact ⟨_, hread, hword.1, String.ofList_toList⟩

/-! ## Rules -/

theorem notMem_of_mem_tokens (op : Operator) {mark : Char} (hmark : mark.isAlphanum = false)
    (h : mark ∉ ['(', ',', ')']) : ∀ token ∈ op.tokens, mark ∉ token := by
  simp only [List.mem_cons, List.not_mem_nil, or_false, not_or] at h
  refine forall_mem_application (op.word_name.notMem hmark) ?_ ?_ ?_
    fun c => c.word_name.notMem hmark
  all_goals simp [h]

theorem readProductions_eq_ok_iff {ps : List (Production c)} :
    ((splitOn '|' text).map trim).mapM (readProduction n c) = .ok ps ↔
      ps ≠ [] ∧ Spaced ([['|']].intercalate (ps.map (·.val.tokens))) text := by
  refine read_pieces_eq_ok_iff (by decide) ?_ fun _ _ => readProduction_trim_eq_ok_iff
  exact fun p => notMem_of_mem_tokens p.val (by decide) (by decide)

theorem solid_of_mem_tokens (r : Rule) : ∀ token ∈ r.tokens, Solid token := by
  have hproductions : ∀ token ∈ [['|']].intercalate (r.productions.map (·.val.tokens)),
      Solid token := by
    refine forall_mem_intercalate (solid_singleton (by decide)) ?_
    rw [List.forall_mem_map]
    exact fun p _ => solid_of_mem_application p.val.word_name
  rw [Rule.tokens, List.forall_mem_cons, List.forall_mem_cons]
  exact ⟨r.category.word_name.solid, by simp [Solid, arrow]; decide, hproductions⟩

/-- No bar or parenthesis stands before the arrow, and no second arrow: a category is a name. -/
theorem readRule_trim_eq_ok_iff {r : Rule} :
    readRule n (trim text) = .ok r ↔ r.productions ≠ [] ∧ Spaced r.tokens text := by
  rw [← spaced_trim_iff (solid_of_mem_tokens r), Rule.tokens]
  generalize trim text = line
  unfold readRule
  constructor
  · intro h
    split at h
    next name alternatives hcut =>
      obtain ⟨c, hc, h⟩ := bind_eq_ok_iff.1 h
      obtain ⟨ps, hps, h⟩ := bind_eq_ok_iff.1 h
      obtain rfl := Except.ok.inj h
      obtain ⟨hne, hps⟩ := readProductions_eq_ok_iff.1 hps
      rw [eq_append_of_cut? hcut]
      exact ⟨hne, (readCategory_trim_eq_ok_iff.1 hc).append_mark arrow hps⟩
    next => cases h
  · rintro ⟨hne, h⟩
    have hmark : Spaced ([r.category.name.toList] ++
        arrow :: [['|']].intercalate (r.productions.map (·.val.tokens))) line := h
    have hcategory : '>' ∉ r.category.name.toList := r.category.word_name.notMem (by decide)
    obtain ⟨name, alternatives, hcut, hname, hps⟩ :=
      hmark.exists_cut? rfl (by decide) (by decide) (by simpa using hcategory)
    rw [hcut]
    exact bind_eq_ok_iff.2 ⟨_, readCategory_trim_eq_ok_iff.2 hname,
      bind_eq_ok_iff.2 ⟨_, readProductions_eq_ok_iff.2 ⟨hne, hps⟩, rfl⟩⟩

/-! ## All lines -/

variable {line : List Char} {lines : List (List Char)} {rs : List Rule} {d d' : Draft} {g : Grammar}

theorem addLine_eq : d.addLine n line =
    if (trim (uncommented line)).isEmpty = true then .ok d
    else readRule n (trim (uncommented line)) >>= d.addRule :=
  rfl

theorem addLine_eq_ok_iff : d.addLine n line = .ok d' ↔
    (Blank (uncommented line) ∧ d' = d) ∨
      ∃ r : Rule, Spaced r.tokens (uncommented line) ∧ r.productions ≠ [] ∧
        d.addRule r = .ok d' := by
  have hblank : (trim (uncommented line)).isEmpty = true ↔ Blank (uncommented line) := by
    rw [List.isEmpty_iff, trim_eq_nil_iff, spaced_nil_iff]
  rw [addLine_eq]
  split
  next hempty =>
    have hidle := hblank.1 hempty
    constructor
    · intro h
      exact .inl ⟨hidle, (Except.ok.inj h).symm⟩
    · rintro (⟨-, rfl⟩ | ⟨r, hr, hne, -⟩)
      · rfl
      · -- A line that is read as a rule has an arrow in it.
        have hread := readRule_trim_eq_ok_iff (n := n).2 ⟨hne, hr⟩
        rw [List.isEmpty_iff.1 hempty] at hread
        cases hread
  next hempty =>
    simp only [mt hblank.2 hempty, false_and, false_or]
    rw [bind_eq_ok_iff]
    simp only [readRule_trim_eq_ok_iff, and_assoc, and_left_comm]

theorem addLines_eq_ok_iff : d.addLines n lines = .ok d' ↔
    ∃ rs, Hold lines rs ∧ rs.foldlM Draft.addRule d = .ok d' := by
  induction lines generalizing n d with
  | nil =>
    constructor
    · intro h
      exact ⟨[], .nil, h⟩
    · rintro ⟨rs, ⟨⟩, h⟩
      exact h
  | cons line lines ih =>
    rw [Draft.addLines, bind_eq_ok_iff]
    simp only [ih, addLine_eq_ok_iff]
    constructor
    · rintro ⟨_, ⟨hblank, rfl⟩ | ⟨r, hr, hne, hadd⟩, rs, hrs, hfold⟩
      · exact ⟨rs, .blank hblank hrs, hfold⟩
      · refine ⟨r :: rs, .rule hr hne hrs, ?_⟩
        rw [List.foldlM_cons]
        exact bind_eq_ok_iff.2 ⟨_, hadd, hfold⟩
    · rintro ⟨_, hhold, hfold⟩
      cases hhold with
      | blank hblank hrs => exact ⟨d, .inl ⟨hblank, rfl⟩, _, hrs, hfold⟩
      | rule hr hne hrs =>
        rw [List.foldlM_cons] at hfold
        obtain ⟨d₁, hadd, hfold⟩ := bind_eq_ok_iff.1 hfold
        exact ⟨d₁, .inr ⟨_, hr, hne, hadd⟩, _, hrs, hfold⟩

theorem Hold.productions_ne_nil (h : Hold lines rs) : ∀ r ∈ rs, r.productions ≠ [] := by
  induction h with
  | nil => simp
  | blank _ _ ih => exact ih
  | rule _ hne _ ih => exact List.forall_mem_cons.2 ⟨hne, ih⟩

/-! ## The whole grammar -/

theorem isEmpty_operators_iff : (g.operators c).isEmpty = true ↔ g.productions c = [] := by
  rw [List.isEmpty_iff, operators, List.map_eq_nil_iff]

/-- The start is always used, and if it has productions, only the boolean expressions may be
missing. -/
theorem undefined?_eq_none_iff (h : g.numeric ≠ []) : g.undefined? = none ↔
    (g.boolean = [] → ∀ op ∈ g.operators .numeric, .boolean ∉ op.signature) := by
  rw [undefined?, List.find?_eq_none]
  simp only [isEmpty_operators_iff]
  constructor
  · intro hused hempty op hop hmem
    refine hused .boolean ?_ hempty
    exact List.mem_cons_of_mem _ (List.mem_flatMap.2 ⟨op, List.mem_append_left _ hop, hmem⟩)
  · intro hdefined c hc hundefined
    cases c with
    | numeric => exact h hundefined
    | boolean =>
      -- So no operator of the boolean category uses it, only numeric ones can.
      have hnone : g.operators .boolean = [] :=
        List.isEmpty_iff.1 (isEmpty_operators_iff.2 hundefined)
      rw [used, List.mem_cons, hnone, List.append_nil] at hc
      rcases hc with hstart | hc
      · cases hstart
      · obtain ⟨op, hop, hmem⟩ := List.mem_flatMap.1 hc
        exact hdefined hundefined op hop hmem

variable {ns : List (Production .numeric)} {bs : List (Production .boolean)}
  {boolean : Option (List (Production .boolean))}

theorem finish_eq_ok_iff (h : ns ≠ []) :
    (⟨some .numeric, some ns, boolean⟩ : Draft).finish = .ok g ↔
      g = ⟨ns, boolean.getD []⟩ ∧
        (g.boolean = [] → ∀ op ∈ g.operators .numeric, .boolean ∉ op.signature) := by
  have hdefined := undefined?_eq_none_iff (g := ⟨ns, boolean.getD []⟩) h
  simp only [Draft.finish, Option.getD_some]
  split
  next hsome =>
    simp only [reduceCtorEq, false_iff, not_and]
    rintro rfl hg
    exact absurd (hsome.symm.trans (hdefined.2 hg)) (by simp)
  next hnone =>
    rw [Except.ok.injEq]
    constructor
    · rintro rfl
      exact ⟨rfl, hdefined.1 hnone⟩
    · rintro ⟨rfl, -⟩
      rfl

/-- What was read first stays first. -/
theorem first_eq_of_foldlM {first : Category} (hfirst : d.first = some first)
    (h : rs.foldlM Draft.addRule d = .ok d') : d'.first = some first := by
  induction rs generalizing d with
  | nil => exact (Except.ok.inj h) ▸ hfirst
  | cons r rs ih =>
    rw [List.foldlM_cons] at h
    obtain ⟨d₁, hadd, h⟩ := bind_eq_ok_iff.1 h
    refine ih ?_ h
    obtain ⟨_ | _, ps⟩ := r
    all_goals
      rw [Draft.addRule] at hadd
      split at hadd
      next => cases hadd
      next =>
        obtain rfl := Except.ok.inj hadd
        simp [hfirst]

/-- No rule fits in once there is one of each category. -/
theorem foldlM_full_eq_ok_iff {first : Option Category} :
    rs.foldlM Draft.addRule ⟨first, some ns, some bs⟩ = .ok d' ↔
      rs = [] ∧ d' = ⟨first, some ns, some bs⟩ := by
  cases rs with
  | nil => simp [pure, Except.pure, eq_comm]
  | cons r rs =>
    obtain ⟨_ | _, ps⟩ := r
    all_goals simp [List.foldlM_cons, Draft.addRule, bind, Except.bind]

theorem foldlM_numeric_eq_ok_iff {first : Category} :
    rs.foldlM Draft.addRule ⟨some first, some ns, none⟩ = .ok d' ↔
      (rs = [] ∧ d' = ⟨some first, some ns, none⟩) ∨
        ∃ bs, rs = [⟨.boolean, bs⟩] ∧ d' = ⟨some first, some ns, some bs⟩ := by
  cases rs with
  | nil => simp [pure, Except.pure, eq_comm]
  | cons r rs =>
    obtain ⟨_ | _, ps⟩ := r
    · simp [List.foldlM_cons, Draft.addRule, bind, Except.bind]
    · have hadd : Draft.addRule ⟨some first, some ns, none⟩ ⟨.boolean, ps⟩ =
          .ok ⟨some first, some ns, some ps⟩ := rfl
      rw [List.foldlM_cons, hadd]
      show rs.foldlM Draft.addRule _ = _ ↔ _
      rw [foldlM_full_eq_ok_iff]
      simp

/-- Rules with alternatives make up a grammar if they are the rules of that grammar. -/
theorem finish_foldlM_eq_ok_iff (h : ∀ r ∈ rs, r.productions ≠ []) :
    (∃ d, rs.foldlM Draft.addRule .empty = .ok d ∧ d.finish = .ok g) ↔
      rs = g.rules ∧ (g.boolean = [] → ∀ op ∈ g.operators .numeric, .boolean ∉ op.signature) := by
  -- The first rule decides: there may be none, one of the start, or one that is out of place.
  rcases rs with _ | ⟨⟨_ | _, ps⟩, rs⟩
  · constructor
    · rintro ⟨d, hd, hfinish⟩
      obtain rfl := Except.ok.inj hd
      cases hfinish
    · rintro ⟨hrules, -⟩
      cases hrules
  · obtain ⟨hps, hrs⟩ := List.forall_mem_cons.1 h
    have hadd : Draft.addRule .empty ⟨.numeric, ps⟩ = .ok ⟨some .numeric, some ps, none⟩ := rfl
    rw [List.foldlM_cons, hadd]
    show (∃ d, rs.foldlM Draft.addRule _ = _ ∧ _) ↔ _
    simp only [foldlM_numeric_eq_ok_iff]
    constructor
    · rintro ⟨d, ⟨rfl, rfl⟩ | ⟨bs, rfl, rfl⟩, hfinish⟩
      · obtain ⟨rfl, hdefined⟩ := (finish_eq_ok_iff hps).1 hfinish
        exact ⟨rfl, hdefined⟩
      · obtain ⟨rfl, hdefined⟩ := (finish_eq_ok_iff hps).1 hfinish
        have hbs : bs ≠ [] := hrs _ List.mem_cons_self
        exact ⟨by simp [rules, start, productions, hbs], hdefined⟩
    · rintro ⟨hrules, hdefined⟩
      obtain ⟨hnumeric, hboolean⟩ := List.cons.inj hrules
      obtain rfl : ps = g.numeric := eq_of_heq (Rule.mk.inj hnumeric).2
      split at hboolean
      next hempty =>
        refine ⟨_, .inl ⟨hboolean, rfl⟩, (finish_eq_ok_iff hps).2 ⟨?_, hdefined⟩⟩
        rw [Option.getD_none, ← hempty]
      next =>
        exact ⟨_, .inr ⟨_, hboolean, rfl⟩, (finish_eq_ok_iff hps).2 ⟨rfl, hdefined⟩⟩
  · constructor
    · rintro ⟨d, hd, hfinish⟩
      rw [List.foldlM_cons] at hd
      obtain ⟨d₁, hadd, hd⟩ := bind_eq_ok_iff.1 hd
      obtain rfl := Except.ok.inj hadd
      have hfirst : d.first = some .boolean := first_eq_of_foldlM rfl hd
      simp [Draft.finish, hfirst] at hfinish
    · rintro ⟨hrules, -⟩
      cases hrules

/-- **A text loads as a grammar exactly if it is that grammar as written.** -/
theorem parse_eq_ok_iff (text : String) (g : Grammar) :
    parse text = .ok g ↔ IsWritten text.toList g := by
  rw [parse, ofChars, bind_eq_ok_iff]
  simp only [addLines_eq_ok_iff]
  constructor
  · rintro ⟨d, ⟨rs, hhold, hfold⟩, hfinish⟩
    obtain ⟨rfl, hdefined⟩ :=
      (finish_foldlM_eq_ok_iff hhold.productions_ne_nil).1 ⟨d, hfold, hfinish⟩
    exact ⟨⟨_, (intercalate_splitOn '\n' _).symm, fun _ => notMem_of_mem_splitOn, hhold⟩, hdefined⟩
  · rintro ⟨⟨lines, htext, hlines, hhold⟩, hdefined⟩
    obtain ⟨d, hfold, hfinish⟩ :=
      (finish_foldlM_eq_ok_iff hhold.productions_ne_nil).2 ⟨rfl, hdefined⟩
    have hne : lines ≠ [] := by
      rintro rfl
      cases hhold
    rw [splitOn_eq_iff.2 ⟨hne, htext, hlines⟩]
    exact ⟨d, ⟨_, hhold, hfold⟩, hfinish⟩

example : parse "\n E->x|Add ( E,E ) # | y" =
    .ok ⟨[⟨.atom (.var .x), rfl⟩, ⟨.binary .add, rfl⟩], []⟩ := rfl

end Grammar

end Synthesis

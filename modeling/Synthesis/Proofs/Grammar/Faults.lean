import Synthesis.Proofs.Grammar.Format

/-!
# Where a grammar is faulty

A grammar has faults of two kinds. Those in its lines, a line that is no rule or a second rule of a
category, are found while the lines are read from top to bottom. So they are decided by what has
been read so far, and nothing that follows can mend or replace them. Those of the grammar as a
whole, no rule at all, a wrong start or a category that is used and has no rule, are found at the
end and say that each line is fine by itself.

A fault in a line carries the number of the line. What is read does not depend on that number
(`Numbered`), which only counts the lines above, blank ones and comments included. Together,

> **the first faulty line decides what is reported, and lines above it move it down**
> (`parse_decided_by_lines`).
-/

set_option autoImplicit false

namespace Synthesis

open Text

namespace GrammarError

/-- The number of the line that the fault is in. -/
def line? : GrammarError → Option Nat
  | missingArrow line => some line
  | unknownCategory line _ => some line
  | unknownOperator line _ => some line
  | malformed line _ => some line
  | wrongCategory line _ _ => some line
  | wrongOperands line _ => some line
  | empty | redefined _ | undefined _ | wrongStart _ => none

/-- The fault when there are `k` more lines above. -/
def later (k : Nat) : GrammarError → GrammarError
  | missingArrow line => missingArrow (line + k)
  | unknownCategory line name => unknownCategory (line + k) name
  | unknownOperator line name => unknownOperator (line + k) name
  | malformed line alternative => malformed (line + k) alternative
  | wrongCategory line op category => wrongCategory (line + k) op category
  | wrongOperands line op => wrongOperands (line + k) op
  | e => e

/-- The fault is in a line, by itself or after the lines before it. -/
def OfLines (e : GrammarError) : Prop := e.line?.isSome = true ∨ ∃ c, e = redefined c

/-- The fault is in the grammar that the lines make up. -/
def OfWhole (e : GrammarError) : Prop :=
  e = empty ∨ (∃ c, e = wrongStart c) ∨ ∃ c, e = undefined c

variable {e : GrammarError}

theorem ofWhole_iff_not_ofLines : e.OfWhole ↔ ¬ e.OfLines := by
  cases e <;> simp [OfWhole, OfLines, line?]

theorem OfWhole.not_ofLines (h : e.OfWhole) : ¬ e.OfLines :=
  ofWhole_iff_not_ofLines.1 h

theorem later_of_line?_eq_none (h : e.line? = none) (k : Nat) : e.later k = e := by
  cases e <;> first | rfl | cases h

end GrammarError

namespace Grammar

variable {α β : Type}

/-! ## What is read of a line does not depend on its number -/

/-- The faults of the reader carry the number of the line, and nothing else depends on it. -/
structure Numbered (read : Nat → Except GrammarError α) : Prop where
  line : ∀ {n e}, read n = .error e → e.line? = some n
  shift : ∀ n k, read (n + k) = (read n).mapError (.later k)

theorem numbered_ok (a : α) : Numbered fun _ => .ok a := by
  refine ⟨?_, fun _ _ => rfl⟩
  intro n e h
  cases h

theorem numbered_error {fault : Nat → GrammarError} (hline : ∀ n, (fault n).line? = some n)
    (hshift : ∀ n k, fault (n + k) = (fault n).later k) :
    Numbered fun n => (.error (fault n) : Except GrammarError α) := by
  constructor
  · intro n e h
    obtain rfl := Except.error.inj h
    exact hline n
  · intro n k
    exact congrArg _ (hshift n k)

theorem Numbered.bind {read : Nat → Except GrammarError α}
    {next : Nat → α → Except GrammarError β} (h : Numbered read)
    (hnext : ∀ a, Numbered fun n => next n a) : Numbered fun n => read n >>= next n := by
  constructor
  · intro n e he
    rcases bind_eq_error_iff.1 he with he | ⟨a, -, he⟩
    · exact h.line he
    · exact (hnext a).line he
  · intro n k
    rw [h.shift]
    cases read n with
    | error e => rfl
    | ok a => exact (hnext a).shift n k

theorem Numbered.mapM {read : Nat → α → Except GrammarError β}
    (h : ∀ a, Numbered fun n => read n a) (as : List α) :
    Numbered fun n => as.mapM (read n) := by
  induction as with
  | nil => exact numbered_ok []
  | cons a as ih =>
    simp only [List.mapM_cons]
    exact (h a).bind fun b => ih.bind fun bs => numbered_ok (b :: bs)

theorem numbered_readCategory (name : List Char) : Numbered fun n => readCategory n name := by
  unfold readCategory
  split
  next c _ => exact numbered_ok c
  next => exact numbered_error (fun _ => rfl) fun _ _ => rfl

theorem numbered_readApplication (alternative : List Char) :
    Numbered fun n => readApplication n alternative := by
  unfold readApplication
  split
  next => exact numbered_ok (alternative, [])
  next name rest _ =>
    split
    next => exact (Numbered.mapM numbered_readCategory _).bind fun _ => numbered_ok _
    next => exact numbered_error (fun _ => rfl) fun _ _ => rfl

theorem numbered_readProduction (c : Category) (alternative : List Char) :
    Numbered fun n => readProduction n c alternative := by
  unfold readProduction
  refine (numbered_readApplication alternative).bind fun application => ?_
  obtain ⟨name, operands⟩ := application
  dsimp only
  split
  next => exact numbered_error (fun _ => rfl) fun _ _ => rfl
  next =>
    split
    next op _ =>
      split
      next hcategory =>
        split
        next => exact numbered_ok (⟨op, hcategory⟩ : Production c)
        next => exact numbered_error (fun _ => rfl) fun _ _ => rfl
      next => exact numbered_error (fun _ => rfl) fun _ _ => rfl
    next => exact numbered_error (fun _ => rfl) fun _ _ => rfl

theorem numbered_readRule (text : List Char) : Numbered fun n => readRule n text := by
  unfold readRule
  split
  next name alternatives _ =>
    refine (numbered_readCategory (trim name)).bind fun c => ?_
    refine (Numbered.mapM (numbered_readProduction c) _).bind fun ps => ?_
    exact numbered_ok (⟨c, ps⟩ : Rule)
  next => exact numbered_error (fun _ => rfl) fun _ _ => rfl

/-! ## Line after line -/

variable {n : Nat} {line text : List Char} {lines others : List (List Char)} {r : Rule}
  {d d' : Draft} {e : GrammarError}

theorem eq_redefined_of_addRule (h : d.addRule r = .error e) : ∃ c, e = .redefined c := by
  obtain ⟨_ | _, ps⟩ := r
  all_goals
    rw [Draft.addRule] at h
    split at h
    next => exact ⟨_, (Except.error.inj h).symm⟩
    next => cases h

theorem addLine_eq_error (h : d.addLine n line = .error e) :
    e.line? = some n ∨ ∃ c, e = .redefined c := by
  rw [addLine_eq] at h
  split at h
  next => cases h
  next =>
    rcases bind_eq_error_iff.1 h with h | ⟨r, -, h⟩
    · exact .inl ((numbered_readRule _).line h)
    · exact .inr (eq_redefined_of_addRule h)

theorem addLine_add (k : Nat) :
    d.addLine (n + k) line = (d.addLine n line).mapError (.later k) := by
  rw [addLine_eq, addLine_eq]
  split
  next => rfl
  next =>
    rw [(numbered_readRule _).shift]
    cases readRule n (trim (uncommented line)) with
    | error e => rfl
    | ok r =>
      show d.addRule r = (d.addRule r).mapError (.later k)
      cases hadd : d.addRule r with
      | ok d' => rfl
      | error e =>
        obtain ⟨c, rfl⟩ := eq_redefined_of_addRule hadd
        rfl

theorem addLines_append : d.addLines n (lines ++ others) =
    d.addLines n lines >>= fun d' => d'.addLines (n + lines.length) others := by
  induction lines generalizing n d with
  | nil => rfl
  | cons line lines ih =>
    rw [List.cons_append, Draft.addLines, Draft.addLines]
    cases d.addLine n line with
    | error e => rfl
    | ok d' =>
      show d'.addLines (n + 1) (lines ++ others) = _
      rw [ih, List.length_cons, Nat.add_assoc, Nat.add_comm 1]
      rfl

/-- A fault among the lines is one of lines, and no line above them has it. -/
theorem addLines_eq_error (h : d.addLines n lines = .error e) :
    e.OfLines ∧ ∀ l, e.line? = some l → n ≤ l := by
  induction lines generalizing n d with
  | nil => cases h
  | cons line lines ih =>
    -- The fault is in this line, or else in a later one.
    rcases bind_eq_error_iff.1 h with h | ⟨d', -, h⟩
    · rcases addLine_eq_error h with hline | ⟨c, rfl⟩
      · refine ⟨.inl (by simp [hline]), fun l hl => ?_⟩
        exact Nat.le_of_eq (Option.some.inj (hline.symm.trans hl))
      · exact ⟨.inr ⟨c, rfl⟩, fun l hl => by cases hl⟩
    · obtain ⟨hlines, hl⟩ := ih h
      exact ⟨hlines, fun l h => Nat.le_of_succ_le (hl l h)⟩

theorem addLines_add (k : Nat) :
    d.addLines (n + k) lines = (d.addLines n lines).mapError (.later k) := by
  induction lines generalizing n d with
  | nil => rfl
  | cons line lines ih =>
    rw [Draft.addLines, Draft.addLines, addLine_add, Nat.add_right_comm]
    cases d.addLine n line with
    | error e => rfl
    | ok d' => exact ih

theorem addLines_of_blank (h : ∀ line ∈ lines, Blank (uncommented line)) :
    d.addLines n lines = .ok d := by
  induction lines generalizing n with
  | nil => rfl
  | cons line lines ih =>
    rw [List.forall_mem_cons] at h
    rw [Draft.addLines, addLine_eq_ok_iff.2 (.inl ⟨h.1, rfl⟩)]
    exact ih h.2

/-- A line that can be read after others can be read alone. -/
theorem addLine_empty_of_addLines_eq_ok (h : d.addLines n lines = .ok d') :
    ∀ line ∈ lines, ∃ d₁, Draft.empty.addLine 1 line = .ok d₁ := by
  induction lines generalizing n d with
  | nil => simp
  | cons line lines ih =>
    obtain ⟨d₂, hline, h⟩ := bind_eq_ok_iff.1 h
    refine List.forall_mem_cons.2 ⟨?_, ih h⟩
    rcases addLine_eq_ok_iff.1 hline with ⟨hblank, -⟩ | ⟨r, hr, hne, -⟩
    · exact ⟨_, addLine_eq_ok_iff.2 (.inl ⟨hblank, rfl⟩)⟩
    · obtain ⟨_ | _, ps⟩ := r
      all_goals exact ⟨_, addLine_eq_ok_iff.2 (.inr ⟨_, hr, hne, rfl⟩)⟩

/-! ## The end -/

theorem finish_eq_error (h : d.finish = .error e) : e.OfWhole := by
  unfold Draft.finish at h
  split at h
  next => exact .inl (Except.error.inj h).symm
  next => exact .inr (.inl ⟨_, (Except.error.inj h).symm⟩)
  next =>
    dsimp only at h
    split at h
    next => exact .inr (.inr ⟨_, (Except.error.inj h).symm⟩)
    next => cases h

theorem finish_mapError (k : Nat) : d.finish.mapError (.later k) = d.finish := by
  cases h : d.finish with
  | ok g => rfl
  | error e =>
    have hnone : e.line? = none := by
      obtain rfl | ⟨c, rfl⟩ | ⟨c, rfl⟩ := finish_eq_error h
      all_goals rfl
    exact congrArg _ (GrammarError.later_of_line?_eq_none hnone k)

/-! ## Texts -/

/-- The text is made of whole lines. -/
def WholeLines (text : String) : Prop := text = "" ∨ text.toList.getLast? = some '\n'

/-- The line is blank or a comment. -/
def Idle (line : String) : Prop := '\n' ∉ line.toList ∧ Blank (uncommented line.toList)

/-- A text below whole lines adds its lines to theirs. -/
theorem WholeLines.exists_splitOn {above : String} (h : WholeLines above) :
    ∃ lines, lines.length = above.toList.count '\n' ∧
      ∀ below, splitOn '\n' (above.toList ++ below) = lines ++ splitOn '\n' below := by
  rcases h with rfl | h
  · exact ⟨[], by simp, fun _ => by simp⟩
  · obtain ⟨text, htext⟩ := List.getLast?_eq_some_iff.1 h
    refine ⟨splitOn '\n' text, ?_, fun below => ?_⟩
    · rw [length_splitOn, htext, List.count_append, List.count_singleton_self]
    · rw [htext, List.append_assoc, List.singleton_append, splitOn_append_separator]

theorem splitOn_idle {idle : List String} (h : ∀ line ∈ idle, Idle line) (below : List Char) :
    splitOn '\n' ((String.join (idle.map (· ++ "\n"))).toList ++ below) =
      idle.map String.toList ++ splitOn '\n' below := by
  rw [String.toList_join]
  induction idle with
  | nil => rfl
  | cons line idle ih =>
    obtain ⟨hline, hidle⟩ := List.forall_mem_cons.1 h
    rw [List.map_cons, List.flatMap_cons, String.toList_append, List.append_assoc,
      List.append_assoc]
    show splitOn '\n' (line.toList ++ '\n' :: (_ ++ below)) = _
    rw [splitOn_append_separator, splitOn_of_notMem hline.1, ih hidle]
    rfl

theorem ofChars_eq (text : List Char) :
    ofChars text = Draft.empty.addLines 1 (splitOn '\n' text) >>= Draft.finish :=
  rfl

theorem ofChars_append (h : splitOn '\n' text = lines ++ others) :
    ofChars text = Draft.empty.addLines 1 lines >>= fun d =>
      d.addLines (1 + lines.length) others >>= Draft.finish := by
  rw [ofChars_eq, h, addLines_append]
  cases Draft.empty.addLines 1 lines with
  | ok d => rfl
  | error e => rfl

variable {above below : String} {idle : List String}

/-- Whole lines are read first, and what they leave is what the text below them is added to. -/
theorem WholeLines.exists_parse (h : WholeLines above) :
    ∃ lines, lines.length = above.toList.count '\n' ∧
      parse above = Draft.empty.addLines 1 lines >>= Draft.finish ∧
      ∀ below : String, parse (above ++ below) = Draft.empty.addLines 1 lines >>= fun d =>
        d.addLines (1 + lines.length) (splitOn '\n' below.toList) >>= Draft.finish := by
  obtain ⟨lines, hlength, hsplit⟩ := h.exists_splitOn
  refine ⟨lines, hlength, ?_, fun below => ?_⟩
  · have hnil := hsplit []
    rw [List.append_nil] at hnil
    exact ofChars_append hnil
  · rw [parse, String.toList_append]
    exact ofChars_append (hsplit below.toList)

theorem parse_append_of_ofLines (h : WholeLines above) (he : parse above = .error e)
    (hlines : e.OfLines) (below : String) : parse (above ++ below) = .error e := by
  obtain ⟨lines, -, habove, hbelow⟩ := h.exists_parse
  rw [habove] at he
  rw [hbelow]
  rcases bind_eq_error_iff.1 he with he | ⟨d, -, he⟩
  · exact bind_eq_error_iff.2 (.inl he)
  · exact absurd hlines (finish_eq_error he).not_ofLines

theorem lt_line_of_parse_append (h : WholeLines above)
    (hfine : ∀ e, parse above = .error e → ¬ e.OfLines) {line : Nat}
    (he : parse (above ++ below) = .error e) (hline : e.line? = some line) :
    above.toList.count '\n' < line := by
  obtain ⟨lines, hlength, habove, hbelow⟩ := h.exists_parse
  rw [hbelow] at he
  rw [← hlength]
  rcases bind_eq_error_iff.1 he with he | ⟨d, -, he⟩
  · -- A fault in the lines above would be the fault of those lines alone.
    have hparse : parse above = .error e := by
      rw [habove]
      exact bind_eq_error_iff.2 (.inl he)
    exact absurd (addLines_eq_error he).1 (hfine e hparse)
  · rcases bind_eq_error_iff.1 he with he | ⟨d', -, he⟩
    · have hle := (addLines_eq_error he).2 line hline
      omega
    · exact absurd (.inl (by simp [hline])) (finish_eq_error he).not_ofLines

theorem parse_idle_append (h : ∀ line ∈ idle, Idle line) (below : String) :
    parse (String.join (idle.map (· ++ "\n")) ++ below) =
      (parse below).mapError (.later idle.length) := by
  have hblank : ∀ line ∈ idle.map String.toList, Blank (uncommented line) := by
    rw [List.forall_mem_map]
    exact fun line hline => (h line hline).2
  rw [parse, String.toList_append, ofChars_append (splitOn_idle h below.toList),
    addLines_of_blank hblank, List.length_map]
  show Draft.empty.addLines (1 + idle.length) _ >>= Draft.finish = _
  rw [addLines_add, parse, ofChars_eq]
  cases Draft.empty.addLines 1 (splitOn '\n' below.toList) with
  | error e => rfl
  | ok d => exact (finish_mapError _).symm

/-- Where the fault is in the whole, each line can be read alone. -/
theorem not_ofLines_of_parse_line {e' : GrammarError} (he : parse below = .error e)
    (hwhole : e.OfWhole) (hline : line ∈ splitOn '\n' below.toList)
    (he' : parse (.ofList line) = .error e') : ¬ e'.OfLines := by
  have hone : splitOn '\n' line = [line] := splitOn_of_notMem (notMem_of_mem_splitOn hline)
  rcases bind_eq_error_iff.1 he with he | ⟨d, hd, -⟩
  · exact absurd (addLines_eq_error he).1 hwhole.not_ofLines
  · obtain ⟨d₁, hd₁⟩ := addLine_empty_of_addLines_eq_ok hd line hline
    rw [parse, String.toList_ofList, ofChars_eq, hone, Draft.addLines, hd₁] at he'
    exact (finish_eq_error he').not_ofLines

/-- **The first faulty line decides what is reported, and lines above it move it down.** -/
theorem parse_decided_by_lines (habove : WholeLines above) (hidle : ∀ line ∈ idle, Idle line)
    (below : String) :
    (∀ e, parse above = .error e → e.OfLines → parse (above ++ below) = .error e) ∧
    ((∀ e, parse above = .error e → ¬ e.OfLines) →
      ∀ e line, parse (above ++ below) = .error e → e.line? = some line →
        above.toList.count '\n' < line) ∧
    parse (String.join (idle.map (· ++ "\n")) ++ below) =
      (parse below).mapError (.later idle.length) ∧
    ∀ e, parse below = .error e → e.OfWhole → ∀ line ∈ splitOn '\n' below.toList,
      ∀ e', parse (.ofList line) = .error e' → ¬ e'.OfLines := by
  refine ⟨?_, ?_, parse_idle_append hidle below, ?_⟩
  · intro e he hlines
    exact parse_append_of_ofLines habove he hlines below
  · intro hfine e line he hline
    exact lt_line_of_parse_append habove hfine he hline
  · intro e he hwhole line hline e' he'
    exact not_ofLines_of_parse_line he hwhole hline he'

theorem parse_decided_by_lines_unknownOperator :
    parse ("E -> q\n" ++ "B -> Not(B)") = .error (.unknownOperator 1 "q") ∧
    "E -> x\n".toList.count '\n' < 2 ∧
    parse (String.join (["", "# no rule"].map (· ++ "\n")) ++ "E -> x | q") =
      .error (.unknownOperator 3 "q") ∧
    ¬ (GrammarError.wrongStart .boolean).OfLines := by
  have hfaulty : WholeLines "E -> q\n" := .inr (by decide)
  have hfine : WholeLines "E -> x\n" := .inr (by decide)
  have hidle : ∀ line ∈ ["", "# no rule"], Idle line := by
    simp [Idle, uncommented, Blank]
  refine ⟨?_, ?_, ?_, ?_⟩
  · exact (parse_decided_by_lines hfaulty hidle "B -> Not(B)").1 _ rfl (.inl rfl)
  · refine (parse_decided_by_lines hfine hidle "B").2.1 ?_ (.missingArrow 2) 2 rfl rfl
    intro e he
    cases he
  · exact (parse_decided_by_lines hfine hidle "E -> x | q").2.2.1
  · exact (parse_decided_by_lines hfine hidle "B -> Not(B)").2.2.2 (.wrongStart .boolean) rfl
      (.inr (.inl ⟨_, rfl⟩)) "B -> Not(B)".toList (by decide) _ rfl

end Grammar

end Synthesis

import Synthesis.Example.Parser
import Synthesis.Proofs.Text.Sequence

/-!
# Examples one by one and in a list

Examples can be given one at a time, each as a text of its own, or all in one text with one on each
line. The reader of a list trims its lines before it reads them, and the reader of one example is
handed whatever was written. That makes no difference, because

> **white space around an example is of no account** (`ofChars_trim`),

except to the one fault that quotes the whole text, the missing arrow. Every other fault is found
behind a cut at a mark, and what stands there is trimmed before it is looked at or quoted.

`Listed` says which texts list which strings: each on a line of its own, among any lines that are
blank or comments. Such a text is read as the strings are read in turn
(`list_agrees_with_examples`).
-/

set_option autoImplicit false

namespace Synthesis

open Text

namespace ExampleError

/-- The fault as it is found when the text is trimmed first. -/
def trimmed : ExampleError → ExampleError
  | missingArrow text => missingArrow (.ofList (trim text.toList))
  | err => err

/-- The fault is in a part of the text, on one of the sides of the arrow. -/
def OfPart : ExampleError → Prop
  | missingArrow _ => False
  | badBinding _ | unknownVariable _ | rebound _ | unbound _ | badInteger _ => True

theorem OfPart.trimmed_eq {err : ExampleError} (h : err.OfPart) : err.trimmed = err := by
  cases err with
  | missingArrow text => exact False.elim h
  | _ => rfl

end ExampleError

namespace Example

variable {before after text line : List Char} {here strings : List String} {input : Bindings}
  {err : ExampleError} {sides : List Char × List Char}

/-! ## Faults on one side of the arrow -/

theorem ofPart_of_readValue (h : readValue text = .error err) : err.OfPart := by
  unfold readValue at h
  split at h
  next => cases h
  next => exact Except.error.inj h ▸ trivial

theorem ofPart_of_readBinding (h : readBinding text = .error err) : err.OfPart := by
  unfold readBinding at h
  split at h
  next =>
    split at h
    next =>
      rcases bind_eq_error_iff.1 h with h | ⟨n, -, h⟩
      · exact ofPart_of_readValue h
      · cases h
    next => exact Except.error.inj h ▸ trivial
  next => exact Except.error.inj h ▸ trivial

theorem ofPart_of_addBinding (h : addBinding input text = .error err) : err.OfPart := by
  rcases bind_eq_error_iff.1 h with h | ⟨⟨v, n⟩, -, h⟩
  · exact ofPart_of_readBinding h
  · dsimp only at h
    split at h
    next => exact Except.error.inj h ▸ trivial
    next => cases h

theorem ofPart_of_readInput (h : readInput text = .error err) : err.OfPart := by
  rcases bind_eq_error_iff.1 h with h | ⟨input, -, h⟩
  · obtain ⟨binding, -, input, h⟩ := exists_of_foldlM_eq_error h
    exact ofPart_of_addBinding h
  · split at h
    next => exact Except.error.inj h ▸ trivial
    next => cases h

/-- The example written by the two sides of an arrow. -/
def readSides (sides : List Char × List Char) : Except ExampleError Example := do
  let input ← readInput sides.1
  return ⟨input, ← readValue sides.2⟩

theorem ofPart_of_readSides (h : readSides sides = .error err) : err.OfPart := by
  rcases bind_eq_error_iff.1 h with h | ⟨input, -, h⟩
  · exact ofPart_of_readInput h
  · rcases bind_eq_error_iff.1 h with h | ⟨n, -, h⟩
    · exact ofPart_of_readValue h
    · cases h

theorem ofChars_of_noArrow (h : cut? arrow text = none) :
    ofChars text = .error (.missingArrow (.ofList text)) := by
  unfold ofChars
  rw [h]
  rfl

theorem ofChars_of_arrow (h : cut? arrow text = some sides) : ofChars text = readSides sides := by
  unfold ofChars
  rw [h]
  rfl

/-- Where no arrow is found, the text is quoted as it was given. -/
theorem eq_of_parse_eq_missingArrow {s t : String} (h : parse s = .error (.missingArrow t)) :
    t = s := by
  rw [parse] at h
  cases hcut : cut? arrow s.toList with
  | none =>
    rw [ofChars_of_noArrow hcut, String.ofList_toList] at h
    exact (ExampleError.missingArrow.inj (Except.error.inj h)).symm
  | some sides =>
    rw [ofChars_of_arrow hcut] at h
    exact False.elim (ofPart_of_readSides h)

/-! ## White space around an example -/

theorem readValue_append_blank (h : Blank after) :
    readValue (text ++ after) = readValue text := by
  rw [readValue, readValue, trim_append_blank h]

theorem readInput_blank_append (h : Blank before) :
    readInput (before ++ text) = readInput text := by
  rw [readInput, readInput, bindingTexts, bindingTexts,
    map_trim_splitOn_blank_append (by decide) h]

/-- **White space around an example is of no account.** -/
theorem ofChars_trim (text : List Char) :
    ofChars (trim text) = (ofChars text).mapError .trimmed := by
  have harrow : Solid arrow := by simp [Solid, arrow]; decide
  obtain ⟨before, after, hbefore, hafter, hcut⟩ := exists_cut?_trim harrow text
  cases htrim : cut? arrow (trim text) with
  | none =>
    rw [htrim] at hcut
    rw [ofChars_of_noArrow htrim, ofChars_of_noArrow hcut, Except.mapError, ExampleError.trimmed,
      String.toList_ofList]
  | some sides =>
    rw [htrim] at hcut
    have hsides : readSides (Prod.map (before ++ ·) (· ++ after) sides) = readSides sides := by
      rw [readSides, readSides, Prod.map_fst, Prod.map_snd, readInput_blank_append hbefore,
        readValue_append_blank hafter]
    rw [ofChars_of_arrow htrim, ofChars_of_arrow hcut, hsides]
    cases hread : readSides sides with
    | ok e => rfl
    | error err => rw [Except.mapError, (ofPart_of_readSides hread).trimmed_eq]

/-! ## Lists of examples -/

/-- The line is blank or a comment. -/
def Idle (line : List Char) : Prop :=
  Blank line ∨ ∃ before comment, Blank before ∧ line = before ++ '#' :: comment

/-- The line holds the strings, of which there is one or, if the line is idle, none. -/
inductive Row : List String → List Char → Prop where
  | idle {line : List Char} : '\n' ∉ line → Idle line → Row [] line
  | entry {s : String} : '\n' ∉ s.toList → ¬ Idle s.toList → Row [s] s.toList

/-- The ends that a line may have. -/
def lineEnds : List (List Char) := [['\n'], ['\r', '\n']]

/-- The text has the strings on lines of their own, in this order, and all other lines are idle. The
last line needs no end. -/
inductive Listed : List String → List Char → Prop where
  | last {here : List String} {line : List Char} : Row here line → Listed here line
  | line {here strings : List String} {line lineEnd text : List Char} :
      Row here line → lineEnd ∈ lineEnds → Listed strings text →
        Listed (here ++ strings) (line ++ lineEnd ++ text)

/-- Trimming tells idle lines from others. -/
theorem idle_iff : Idle line ↔ trim line = [] ∨ (trim line).head? = some '#' := by
  have hmark : Solid ['#'] := solid_singleton (by decide)
  have hend : trimEnd ['#'] = ['#'] := rfl
  refine or_congr (spaced_nil_iff.symm.trans trim_eq_nil_iff.symm) ?_
  constructor
  · rintro ⟨before, comment, hbefore, rfl⟩
    rw [trim_blank_append hbefore, ← List.singleton_append, trim, dropWhile_solid_append hmark,
      trimEnd_append hend]
    rfl
  · intro h
    obtain ⟨before, after, hbefore, -, heq⟩ := exists_trim line
    obtain ⟨comment, hcomment⟩ := List.head?_eq_some_iff.1 h
    rw [hcomment] at heq
    exact ⟨before, comment ++ after, hbefore, by simpa using heq⟩

theorem lines_of_row (h : Row here line) : lines line = here.map fun s => trim s.toList := by
  cases h with
  | idle hline hidle =>
    rw [lines, splitOn_of_notMem hline]
    rcases idle_iff.1 hidle with hnil | hhead
    · simp [hnil]
    · simp [hhead]
  | entry hline hidle =>
    obtain ⟨hnil, hhead⟩ := not_or.1 (idle_iff.not.1 hidle)
    rw [lines, splitOn_of_notMem hline]
    simp [hnil, hhead]

theorem Row.notMem (h : Row here line) : '\n' ∉ line := by
  cases h with
  | idle hline _ | entry hline _ => exact hline

/-- A carriage return at the end of a line is white space. -/
theorem lines_append_return (h : '\n' ∉ line) : lines (line ++ ['\r']) = lines line := by
  have hreturn : Blank ['\r'] := List.forall_mem_singleton.2 (by decide)
  have hline : '\n' ∉ line ++ ['\r'] := by simp [h]
  rw [lines, lines, splitOn_of_notMem h, splitOn_of_notMem hline, List.map_singleton,
    List.map_singleton, trim_append_blank hreturn]

/-- The first line of a text is read before the others, whichever end it has. -/
theorem lines_append (h : '\n' ∉ line) {lineEnd : List Char} (hend : lineEnd ∈ lineEnds) :
    lines (line ++ lineEnd ++ text) = lines line ++ lines text := by
  have hcut (line : List Char) : lines (line ++ '\n' :: text) = lines line ++ lines text := by
    simp only [lines, splitOn_append_separator, List.map_append, List.filter_append]
  rw [lineEnds, List.mem_pair] at hend
  rcases hend with rfl | rfl
  · rw [List.append_assoc]
    exact hcut line
  · rw [← lines_append_return h, ← hcut, List.append_assoc, List.append_assoc]
    rfl

/-- The lines that are read are the strings listed, trimmed. -/
theorem lines_of_listed (h : Listed strings text) :
    lines text = strings.map fun s => trim s.toList := by
  induction h with
  | last hrow => exact lines_of_row hrow
  | line hrow hend _ ih =>
    rw [lines_append hrow.notMem hend, lines_of_row hrow, ih, List.map_append]

theorem parseAll_of_listed {text : String} (h : Listed strings text.toList) :
    parseAll text = strings.mapM fun s => (parse s).mapError .trimmed := by
  rw [parseAll, lines_of_listed h, List.mapM_map]
  exact congrArg (strings.mapM ·) (funext fun s => ofChars_trim s.toList)

/-- **Examples given one by one and in a list agree.** A text with strings on lines of their own,
and blank lines and comments among them, is read as a list of examples exactly if each of the
strings is read as one of them, in this order. Otherwise the fault is that of the first string that
is no example. Only a missing arrow is reported differently, as missing in the trimmed string. -/
theorem list_agrees_with_examples {text : String} (h : Listed strings text.toList) :
    (∀ es, parseAll text = .ok es ↔ List.Forall₂ (fun s e => parse s = .ok e) strings es) ∧
    (∀ err, parseAll text = .error err ↔ ∃ earlier s later, strings = earlier ++ s :: later ∧
      (∀ t ∈ earlier, ∃ e, parse t = .ok e) ∧
        ∃ fault, parse s = .error fault ∧ fault.trimmed = err) ∧
    ∀ s t, parse s = .error (.missingArrow t) → t = s := by
  rw [parseAll_of_listed h]
  refine ⟨?_, ?_, fun s t => eq_of_parse_eq_missingArrow⟩
  · intro es
    simp only [mapM_eq_ok_iff, mapError_eq_ok_iff]
  · intro err
    simp only [mapM_eq_error_iff, mapError_eq_ok_iff, mapError_eq_error_iff]

/-- The second string has no arrow, and among the lines are a comment and a blank line. -/
theorem list_agrees_with_examples_noArrow : ∃ first second text : String,
    text = "# two\r\n  x=1, y=0, z=0 -> 2\n\n\tx=1 \r\n # end" ∧
    Listed [first, second] text.toList ∧ parse first = .ok (ofValues 1 0 0 2) ∧
    parse second = .error (.missingArrow "\tx=1 ") ∧
    parseAll text = .error (.missingArrow "x=1") := by
  let first := "  x=1, y=0, z=0 -> 2"
  let second := "\tx=1 "
  let text := "# two\r\n  x=1, y=0, z=0 -> 2\n\n\tx=1 \r\n # end"
  have hidle {line : List Char} (hline : '\n' ∉ line)
      (htrim : trim line = [] ∨ (trim line).head? = some '#') : Row [] line :=
    .idle hline (idle_iff.2 htrim)
  have hfirst : Row [first] first.toList := .entry (by decide) (idle_iff.not.2 (by decide))
  have hsecond : Row [second] second.toList := .entry (by decide) (idle_iff.not.2 (by decide))
  have htext : text.toList = "# two".toList ++ ['\r', '\n'] ++ (first.toList ++ ['\n'] ++
      ([] ++ ['\n'] ++ (second.toList ++ ['\r', '\n'] ++ " # end".toList))) := by
    decide +kernel
  have hlisted : Listed [first, second] text.toList := by
    rw [htext]
    exact .line (hidle (by decide) (by decide)) (by decide) (.line hfirst (by decide)
      (.line (hidle (by decide) (by decide)) (by decide) (.line hsecond (by decide)
        (.last (hidle (by decide) (by decide))))))
  have hread : parse first = .ok (ofValues 1 0 0 2) := by decide +kernel
  have hfault : parse second = .error (.missingArrow second) := by decide +kernel
  have htrimmed : (ExampleError.missingArrow second).trimmed = .missingArrow "x=1" := by
    decide +kernel
  have hearlier : ∀ t ∈ [first], ∃ e, parse t = .ok e := List.forall_mem_singleton.2 ⟨_, hread⟩
  obtain ⟨-, herror, -⟩ := list_agrees_with_examples hlisted
  exact ⟨first, second, text, rfl, hlisted, hread, hfault,
    (herror _).2 ⟨[first], second, [], rfl, hearlier, _, hfault, htrimmed⟩⟩

end Example

end Synthesis

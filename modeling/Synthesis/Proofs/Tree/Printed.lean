import Synthesis.Proofs.Text.Names
import Synthesis.Proofs.Tree.Built

/-!
# Printed trees can be told apart

A printed tree is the name at its root, and behind it the operands, if there are any, in parentheses
and with commas in between. This file is about what such a text says of the tree:

> **all of its symbols, and where they are** (`text_eq_iff`).

Read from the left, a text can be taken for only one tree. A name is over where the letters and
digits end, so `E` is not taken for the beginning of `Eq`. The name tells the symbol, the symbol how
many operands are to follow, and each of them is over where it is over, whatever stands behind it
(`annotate_eq_of_text_append`). Summaries are not printed. They need not be, for they follow from
the symbols if the bounds are known.
-/

set_option autoImplicit false

namespace Synthesis

open Text

namespace Tree

variable {b : Bounds} {t u : Tree} {rest rest' : List Char}

/-! ## Reading from the left -/

/-- The operands as they are printed behind the name at the root, and what follows on them. -/
def operandsText (rest : List Char) : Tree → List Char
  | hole _ _ | leaf _ _ => rest
  | not c _ => '(' :: (c.text.toList ++ ')' :: rest)
  | binary _ l r _ => '(' :: (l.text.toList ++ ',' :: ' ' :: (r.text.toList ++ ')' :: rest))
  | ite c p n _ =>
    '(' :: (c.text.toList ++ ',' :: ' ' :: (p.text.toList ++ ',' :: ' ' ::
      (n.text.toList ++ ')' :: rest)))

theorem text_append (t : Tree) (rest : List Char) :
    t.text.toList ++ rest = t.symbol.name.toList ++ t.operandsText rest := by
  cases t <;> simp [text, symbol, Symbol.name, Operator.name, operandsText]

theorem stops_operandsText (t : Tree) (h : Stops rest) : Stops (t.operandsText rest) := by
  cases t with
  | hole | leaf => exact h
  | not | binary | ite => exact stops_cons (by decide)

/-- Of two texts that are the same, the trees at the beginning have the same root. -/
theorem root_of_text_append (hrest : Stops rest) (hrest' : Stops rest')
    (h : t.text.toList ++ rest = u.text.toList ++ rest') :
    t.symbol = u.symbol ∧ t.operandsText rest = u.operandsText rest' := by
  rw [text_append, text_append] at h
  obtain ⟨hname, hoperands⟩ := word_append_inj t.symbol.word_name u.symbol.word_name
    (stops_operandsText t hrest) (stops_operandsText u hrest') h
  exact ⟨Symbol.name_inj (String.toList_inj.1 hname), hoperands⟩

/-- **A text begins with the text of one tree only**, up to summaries. -/
theorem annotate_eq_of_text_append (b : Bounds) (hrest : Stops rest) (hrest' : Stops rest')
    (h : t.text.toList ++ rest = u.text.toList ++ rest') :
    t.annotate b = u.annotate b ∧ rest = rest' := by
  have hcomma (text : List Char) : Stops (',' :: text) := stops_cons (by decide)
  have hclosing (text : List Char) : Stops (')' :: text) := stops_cons (by decide)
  -- What stands between two operands is the same, so it can be left out on both sides.
  have hbetween {text text' : List Char} (h : ',' :: ' ' :: text = ',' :: ' ' :: text') :
      text = text' := (List.cons.inj (List.cons.inj h).2).2
  induction t generalizing u rest rest' with
  | hole c s | leaf a s =>
    obtain ⟨hsymbol, hoperands⟩ := root_of_text_append hrest hrest' h
    -- Here and below, one constructor is left for the other tree: the one of that symbol.
    cases u <;> cases hsymbol
    exact ⟨rfl, hoperands⟩
  | not c s ih =>
    obtain ⟨hsymbol, hoperands⟩ := root_of_text_append hrest hrest' h
    cases u <;> cases hsymbol
    obtain ⟨hc, hend⟩ := ih (hclosing _) (hclosing _) (List.cons.inj hoperands).2
    exact ⟨congrArg (mkNot b) hc, (List.cons.inj hend).2⟩
  | binary op l r s ihl ihr =>
    obtain ⟨hsymbol, hoperands⟩ := root_of_text_append hrest hrest' h
    cases u <;> cases hsymbol
    obtain ⟨hl, hright⟩ := ihl (hcomma _) (hcomma _) (List.cons.inj hoperands).2
    obtain ⟨hr, hend⟩ := ihr (hclosing _) (hclosing _) (hbetween hright)
    exact ⟨congrArg₂ (mkBinary b op) hl hr, (List.cons.inj hend).2⟩
  | ite c p n s ihc ihp ihn =>
    obtain ⟨hsymbol, hoperands⟩ := root_of_text_append hrest hrest' h
    cases u <;> cases hsymbol
    obtain ⟨hc, hbranches⟩ := ihc (hcomma _) (hcomma _) (List.cons.inj hoperands).2
    obtain ⟨hp, hnegative⟩ := ihp (hcomma _) (hcomma _) (hbetween hbranches)
    obtain ⟨hn, hend⟩ := ihn (hclosing _) (hclosing _) (hbetween hnegative)
    refine ⟨?_, (List.cons.inj hend).2⟩
    show mkIte (c.annotate b) (p.annotate b) (n.annotate b) = mkIte _ _ _
    rw [hc, hp, hn]

/-! ## Symbols and their places -/

/-- At every place the two trees have the same symbol, or neither has a node there. -/
def SameSymbols (t u : Tree) : Prop :=
  ∀ path, (t.at? path).map symbol = (u.at? path).map symbol

theorem at?_annotate (b : Bounds) (t : Tree) (path : Path) :
    (t.annotate b).at? path = (t.at? path).map (annotate b) := by
  induction path generalizing t with
  | nil => rw [at?_nil, at?_nil, Option.map_some]
  | cons i path ih =>
    have hchildren : (t.annotate b).children = t.children.map (annotate b) := by cases t <;> rfl
    rw [at?_cons, at?_cons, hchildren, List.getElem?_map, Option.bind_map, Option.map_bind]
    exact congrArg _ (funext ih)

/-- Deriving summaries anew leaves the symbols where they are. -/
theorem sameSymbols_annotate (b : Bounds) (t : Tree) : (t.annotate b).SameSymbols t := by
  intro path
  have hsymbol : symbol ∘ annotate b = symbol := funext fun u => by cases u <;> rfl
  rw [at?_annotate, Option.map_map, hsymbol]

/-- What is said of all places is said of those below each child. -/
theorem SameSymbols.child {c c' : Tree} (h : t.SameSymbols u) (i : Nat)
    (hc : t.children[i]? = some c) (hc' : u.children[i]? = some c') : c.SameSymbols c' := by
  intro path
  have hbelow := h (i :: path)
  rwa [at?_cons, at?_cons, hc, hc', Option.bind_some, Option.bind_some] at hbelow

/-- A tree is made of its symbols. -/
theorem SameSymbols.annotate_eq (h : t.SameSymbols u) (b : Bounds) :
    t.annotate b = u.annotate b := by
  induction t generalizing u with
  | hole c s | leaf a s =>
    have hroot := h []
    cases u <;> cases hroot
    rfl
  | not c s ih =>
    have hroot := h []
    cases u <;> cases hroot
    exact congrArg (mkNot b) (ih (h.child 0 rfl rfl))
  | binary op l r s ihl ihr =>
    have hroot := h []
    cases u <;> cases hroot
    exact congrArg₂ (mkBinary b op) (ihl (h.child 0 rfl rfl)) (ihr (h.child 1 rfl rfl))
  | ite c p n s ihc ihp ihn =>
    have hroot := h []
    cases u <;> cases hroot
    show mkIte (c.annotate b) (p.annotate b) (n.annotate b) = mkIte _ _ _
    rw [ihc (h.child 0 rfl rfl), ihp (h.child 1 rfl rfl),
      ihn (h.child 2 rfl rfl)]

/-- **A printed tree says which symbols it has and where**, no more and no less. -/
theorem text_eq_iff : t.text = u.text ↔ t.SameSymbols u := by
  constructor
  · intro h path
    have happend : t.text.toList ++ [] = u.text.toList ++ [] := by rw [h]
    obtain ⟨hannotate, -⟩ := annotate_eq_of_text_append .zero stops_nil stops_nil happend
    rw [← sameSymbols_annotate .zero t, hannotate, sameSymbols_annotate .zero u]
  · intro h
    rw [← text_annotate .zero t, h.annotate_eq, text_annotate]

/-- **Printed trees are unambiguous.** Two trees of whatever categories, complete or not, and built
under whatever bounds, print the same just if they have the same symbols at the same places. If they
were built under the same bounds, they are then the same in everything, costs and bounds
included. -/
theorem text_unambiguous (t u : Tree) :
    (t.text = u.text ↔ ∀ path, (t.at? path).map symbol = (u.at? path).map symbol) ∧
      ∀ b, Built b t → Built b u → t.text = u.text → t = u := by
  refine ⟨text_eq_iff, ?_⟩
  intro b ht hu h
  rw [← ht.annotate_eq, (text_eq_iff.1 h).annotate_eq, hu.annotate_eq]

/-- Two trees print the same that were built under different bounds, and so their own bounds differ.
Their symbols are the same, and with summaries for the other bounds the second tree is the first.
That `E` begins like `Eq` and that one operand is of the wrong category makes no difference. -/
theorem text_unambiguous_hole : ∃ (b b' : Bounds) (t u : Tree),
    t.text = "Ite(Eq(E, Not(B)), E, x)" ∧ u.text = "Ite(Eq(E, Not(B)), E, x)" ∧
      Built b t ∧ Built b' u ∧ t.bound = 7 ∧ u.bound = 9 ∧
      (∀ path, (t.at? path).map symbol = (u.at? path).map symbol) ∧ u.annotate b = t := by
  let make (b : Bounds) : Tree :=
    .mkIte (.mkBinary b .eq (.mkHole b .numeric) (.mkNot b (.mkHole b .boolean)))
      (.mkHole b .numeric) (.mkLeaf b (.var .x))
  let b : Bounds := ⟨7, .const 3⟩
  let b' : Bounds := ⟨5, .const 9⟩
  have hbuilt (b : Bounds) : Built b (make b) :=
    .ite (.binary _ (.hole _) (.not (.hole _))) (.hole _) (.leaf _)
  have ht : (make b).text = "Ite(Eq(E, Not(B)), E, x)" := by decide +kernel
  have hu : (make b').text = "Ite(Eq(E, Not(B)), E, x)" := by decide +kernel
  have hsymbols := (text_unambiguous (make b) (make b')).1.1 (ht.trans hu.symm)
  have hsame : (make b').annotate b = make b :=
    (text_unambiguous _ _).2 b (built_annotate b _) (hbuilt b)
      ((text_annotate b _).trans (hu.trans ht.symm))
  exact ⟨b, b', make b, make b', ht, hu, hbuilt b, hbuilt b', by decide +kernel,
    by decide +kernel, hsymbols, hsame⟩

end Tree

end Synthesis

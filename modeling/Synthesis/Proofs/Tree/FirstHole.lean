import Synthesis.Proofs.Tree.Growth

/-!
# Finding the first hole and filling it

A step of the search looks for the first hole and replaces it. That this can never fail is not
visible in the code, where both halves answer with an `Option`. This file closes the gap: an
incomplete tree has a first hole (`exists_firstHole?`), what is found there is a hole
(`at?_firstHole?`), and whatever can be read can be replaced (`exists_substitute?`).

The last section says that neither half depends on the bounds. A tree and its `annotate` have their
first hole at the same place, and replacing commutes with annotating: two enumerations that differ
only in their bounds grow the same trees.
-/

set_option autoImplicit false

namespace Synthesis

namespace Tree

variable {b b' : Bounds} {t u s : Tree} {h : Hole} {path : Path}

/-! ## Where the first hole is looked for -/

theorem child_of_firstHole?_not {c : Tree} {sum : Summary} (hh : (not c sum).firstHole? = some h) :
    ∃ h', c.firstHole? = some h' ∧ h'.under 0 = h := by
  unfold firstHole? at hh
  split at hh
  · exact absurd hh (by simp)
  · exact Option.map_eq_some_iff.1 hh

theorem child_of_firstHole?_binary {op : BinaryOperator} {l r : Tree} {sum : Summary}
    (hh : (binary op l r sum).firstHole? = some h) :
    (∃ h', l.firstHole? = some h' ∧ h'.under 0 = h) ∨
      l.firstHole? = none ∧ ∃ h', r.firstHole? = some h' ∧ h'.under 1 = h := by
  unfold firstHole? at hh
  split at hh
  · exact absurd hh (by simp)
  · simpa [Option.or_eq_some_iff] using hh

theorem child_of_firstHole?_ite {c p n : Tree} {sum : Summary}
    (hh : (ite c p n sum).firstHole? = some h) :
    (∃ h', c.firstHole? = some h' ∧ h'.under 0 = h) ∨
      c.firstHole? = none ∧ (∃ h', p.firstHole? = some h' ∧ h'.under 1 = h) ∨
      c.firstHole? = none ∧ p.firstHole? = none ∧
        ∃ h', n.firstHole? = some h' ∧ h'.under 2 = h := by
  unfold firstHole? at hh
  split at hh
  · exact absurd hh (by simp)
  · simp only [Option.orElse_eq_orElse, Option.orElse_eq_or, Option.or_eq_some_iff,
      Option.map_eq_some_iff, Option.map_eq_none_iff] at hh
    rcases hh with hh | ⟨hc, hh | ⟨hp, hh⟩⟩
    · exact .inl hh
    · exact .inr (.inl ⟨hc, hh⟩)
    · exact .inr (.inr ⟨hc, hp, hh⟩)

/-! ## The first hole is a hole -/

@[simp] theorem path_under (i : Nat) (h : Hole) : (h.under i).path = i :: h.path := rfl

/-- A hole found below a child is found below the node, one level further up. -/
theorem at?_under {c : Tree} {i : Nat} (hc : t.children[i]? = some c) (h : Hole) :
    t.at? (h.under i).path = c.at? h.path := by
  rw [path_under, at?_cons, hc]
  rfl

theorem at?_firstHole? (hh : t.firstHole? = some h) :
    ∃ sum, t.at? h.path = some (.hole h.category sum) := by
  induction t generalizing h with
  | hole c sum =>
    obtain rfl := Option.some.inj hh
    exact ⟨sum, rfl⟩
  | leaf a sum => exact absurd hh (by simp [firstHole?])
  | not c sum ih =>
    obtain ⟨h', hh', rfl⟩ := child_of_firstHole?_not hh
    rw [at?_under rfl]
    exact ih hh'
  | binary op l r sum ihl ihr =>
    rcases child_of_firstHole?_binary hh with ⟨h', hh', rfl⟩ | ⟨-, h', hh', rfl⟩
    · rw [at?_under rfl]
      exact ihl hh'
    · rw [at?_under rfl]
      exact ihr hh'
  | ite c p n sum ihc ihp ihn =>
    rcases child_of_firstHole?_ite hh with
      ⟨h', hh', rfl⟩ | ⟨-, h', hh', rfl⟩ | ⟨-, -, h', hh', rfl⟩
    · rw [at?_under rfl]
      exact ihc hh'
    · rw [at?_under rfl]
      exact ihp hh'
    · rw [at?_under rfl]
      exact ihn hh'

theorem firstHole?_eq_none_of_complete (ht : Assembled t) (hc : t.isComplete = true) :
    t.firstHole? = none := by
  cases ht with
  | hole b c => exact absurd hc Bool.false_ne_true
  | leaf b a => rfl
  | not _ _ => exact if_pos hc
  | binary _ _ _ _ => exact if_pos hc
  | ite _ _ _ => exact if_pos hc

/-! ## Turning back early makes no difference

A complete subtree is not entered, and there is nothing to be found in it. So the search gives what
it would give if it entered everything. -/

theorem firstHole?_mkNot {c : Tree} (b : Bounds) (hc : Assembled c) :
    (mkNot b c).firstHole? = c.firstHole?.map (.under 0) := by
  cases hcomplete : c.isComplete with
  | false => exact if_neg (Bool.eq_false_iff.1 hcomplete)
  | true =>
    rw [firstHole?_eq_none_of_complete (.not b hc) hcomplete,
      firstHole?_eq_none_of_complete hc hcomplete]
    rfl

theorem firstHole?_mkBinary {l r : Tree} (b : Bounds) (op : BinaryOperator) (hl : Assembled l)
    (hr : Assembled r) : (mkBinary b op l r).firstHole? =
      (l.firstHole?.map (.under 0) <|> r.firstHole?.map (.under 1)) := by
  cases hcomplete : (mkBinary b op l r).isComplete with
  | false => exact if_neg (Bool.eq_false_iff.1 hcomplete)
  | true =>
    obtain ⟨hlc, hrc⟩ := (Bool.and_eq_true _ _).mp hcomplete
    rw [firstHole?_eq_none_of_complete (.binary b op hl hr) hcomplete,
      firstHole?_eq_none_of_complete hl hlc, firstHole?_eq_none_of_complete hr hrc]
    rfl

theorem firstHole?_mkIte {c p n : Tree} (hc : Assembled c) (hp : Assembled p) (hn : Assembled n) :
    (mkIte c p n).firstHole? = (c.firstHole?.map (.under 0) <|>
      p.firstHole?.map (.under 1) <|> n.firstHole?.map (.under 2)) := by
  cases hcomplete : (mkIte c p n).isComplete with
  | false => exact if_neg (Bool.eq_false_iff.1 hcomplete)
  | true =>
    obtain ⟨hboth, hnc⟩ := (Bool.and_eq_true _ _).mp hcomplete
    obtain ⟨hcc, hpc⟩ := (Bool.and_eq_true _ _).mp hboth
    rw [firstHole?_eq_none_of_complete (.ite hc hp hn) hcomplete,
      firstHole?_eq_none_of_complete hc hcc, firstHole?_eq_none_of_complete hp hpc,
      firstHole?_eq_none_of_complete hn hnc]
    rfl

theorem exists_firstHole? (ht : Assembled t) (hc : t.isComplete = false) :
    ∃ h, t.firstHole? = some h := by
  induction ht with
  | hole b c => exact ⟨_, rfl⟩
  | leaf b a => exact absurd hc.symm Bool.false_ne_true
  | not b hc' ih =>
    obtain ⟨h, hh⟩ := ih hc
    exact ⟨h.under 0, by rw [firstHole?_mkNot b hc', hh]; rfl⟩
  | @binary b op l r hl hr ihl ihr =>
    rw [firstHole?_mkBinary b op hl hr]
    have hsome : l.isComplete = false ∨ r.isComplete = false := Bool.and_eq_false_iff.1 hc
    cases hlc : l.isComplete with
    | false =>
      obtain ⟨h, hh⟩ := ihl hlc
      exact ⟨h.under 0, by rw [hh]; rfl⟩
    | true =>
      obtain ⟨h, hh⟩ := ihr (hsome.resolve_left (by simp [hlc]))
      exact ⟨h.under 1, by rw [firstHole?_eq_none_of_complete hl hlc, hh]; rfl⟩
  | @ite c p n hc' hp hn ihc ihp ihn =>
    rw [firstHole?_mkIte hc' hp hn]
    have hsome : (c.isComplete && p.isComplete && n.isComplete) = false := hc
    cases hcc : c.isComplete with
    | false =>
      obtain ⟨h, hh⟩ := ihc hcc
      exact ⟨h.under 0, by rw [hh]; rfl⟩
    | true =>
      rw [firstHole?_eq_none_of_complete hc' hcc]
      cases hpc : p.isComplete with
      | false =>
        obtain ⟨h, hh⟩ := ihp hpc
        exact ⟨h.under 1, by rw [hh]; rfl⟩
      | true =>
        obtain ⟨h, hh⟩ := ihn (by simpa [hcc, hpc] using hsome)
        exact ⟨h.under 2, by rw [firstHole?_eq_none_of_complete hp hpc, hh]; rfl⟩

/-! ## What can be read can be replaced -/

theorem exists_substitute? (hat : t.at? path = some u) (b : Bounds) (s : Tree) :
    ∃ g, t.substitute? b path s = some g := by
  fun_induction substitute? b t path s with
  | case1 t s => exact ⟨_, rfl⟩
  | case2 c sum path s ih | case3 op l r sum path s ih | case4 op l r sum path s ih
  | case5 c p n sum path s ih | case6 c p n sum path s ih | case7 c p n sum path s ih =>
    obtain ⟨g, hg⟩ := ih hat
    exact ⟨_, by rw [hg]; rfl⟩
  | case8 t i path s hnot hl hr hc hp hn =>
    -- The remaining indices lead nowhere.
    rw [at?_cons] at hat
    cases t with
    | hole | leaf => exact absurd hat (by simp [children])
    | not c sum =>
      cases i with
      | zero => exact absurd rfl (hnot c sum rfl)
      | succ i => exact absurd hat (by simp [children])
    | binary op l r sum =>
      rcases i with _ | _ | i
      · exact absurd rfl (hl op l r sum rfl)
      · exact absurd rfl (hr op l r sum rfl)
      · exact absurd hat (by simp [children])
    | ite c p n sum =>
      rcases i with _ | _ | _ | i
      · exact absurd rfl (hc c p n sum rfl)
      · exact absurd rfl (hp c p n sum rfl)
      · exact absurd rfl (hn c p n sum rfl)
      · exact absurd hat (by simp [children])

/-! ## Under other bounds -/

theorem firstHole?_annotate (ht : Built b t) (b' : Bounds) :
    (t.annotate b').firstHole? = t.firstHole? := by
  have hanew (u : Tree) : Assembled (u.annotate b') := (built_annotate b' u).assembled
  induction ht with
  | hole | leaf => rfl
  | @not c hc ih =>
    show (mkNot b' (c.annotate b')).firstHole? = _
    rw [firstHole?_mkNot b' (hanew c), ih, firstHole?_mkNot b hc.assembled]
  | @binary op l r hl hr ihl ihr =>
    show (mkBinary b' op (l.annotate b') (r.annotate b')).firstHole? = _
    rw [firstHole?_mkBinary b' op (hanew l) (hanew r), ihl, ihr,
      firstHole?_mkBinary b op hl.assembled hr.assembled]
  | @ite c p n hc hp hn ihc ihp ihn =>
    show (mkIte (c.annotate b') (p.annotate b') (n.annotate b')).firstHole? = _
    rw [firstHole?_mkIte (hanew c) (hanew p) (hanew n), ihc, ihp, ihn,
      firstHole?_mkIte hc.assembled hp.assembled hn.assembled]

@[simp] theorem annotate_sprout (b b' : Bounds) (op : Operator) :
    (sprout b op).annotate b' = sprout b' op := by
  cases op <;> rfl

theorem substitute?_annotate {g : Regrowth} (hg : t.substitute? b path s = some g) (b' : Bounds) :
    (t.annotate b').substitute? b' path (s.annotate b') = some ⟨g.tree.annotate b', g.rebuilt⟩ := by
  fun_induction substitute? b t path s generalizing g with
  | case1 t s =>
    obtain rfl := Option.some.inj hg
    rw [substitute?_nil]
  | case2 c sum path s ih | case3 op l r sum path s ih | case4 op l r sum path s ih
  | case5 c p n sum path s ih | case6 c p n sum path s ih | case7 c p n sum path s ih =>
    obtain ⟨g', hg', rfl⟩ := Option.map_eq_some_iff.1 hg
    show (substitute? b' _ path (s.annotate b')).map _ = _
    rw [ih hg']
    rfl
  | case8 => exact absurd hg (by simp)

end Tree

end Synthesis

import Mathlib.Data.List.Basic
import Synthesis.Tree.Path

/-!
# Trees as symbols over lists of children

The constructors of `Tree` give each operator its own number of children, so no tree can have too
few of them. That is a choice of representation. One may as well put a symbol on top of a list of
children, look at the children by their positions, and hope that the list is long enough.

Here building a node and replacing a subtree are written that way, with one recipe for all symbols.
Everything that is hoped for is checked, and there is no result where a check fails. Then

> **the recipe builds the node that the symbol's own constructor builds** (`assemble?_eq`), and
> **it replaces what is replaced case by case** (`regrow?_eq`),

so that along a path that leads somewhere no check fails.
-/

set_option autoImplicit false

namespace Synthesis

namespace Symbol

/-- The number of children that a node of the symbol has; a hole has none. -/
def arity : Symbol → Nat
  | op o => o.arity
  | hole _ => 0

end Symbol

namespace Tree

variable {b : Bounds} {symbol : Symbol} {cs : List Tree}

/-! ## Building a node -/

/-- The bound of a node, taken from the children at the positions where its symbol needs them. -/
def boundOf? (b : Bounds) (cs : List Tree) : Symbol → Option Value
  | .hole _ | .op .not => some b.target
  | .op (.atom a) => some (b.ofAtom a)
  | .op (.binary op) =>
    match op with
    | .add | .multiply => do
      let l ← cs[0]?
      let r ← cs[1]?
      return b.ofBinary op l.bound r.bound
    | .lt | .eq | .and | .or => some b.target
  | .op .ite => do
    let p ← cs[1]?
    let n ← cs[2]?
    return max p.bound n.bound

/-- The tree with the given symbol, children and summary at its root, if there is one. -/
def ofRoot? : Symbol → List Tree → Summary → Option Tree
  | .hole c, [], s => some (hole c s)
  | .op (.atom a), [], s => some (leaf a s)
  | .op .not, [c], s => some (not c s)
  | .op (.binary op), [l, r], s => some (binary op l r s)
  | .op .ite, [c, p, n], s => some (ite c p n s)
  | _, _, _ => none

/-- A symbol on top of children. Their number is checked before anything is derived from them. -/
def assemble? (b : Bounds) (symbol : Symbol) (cs : List Tree) : Option Tree := do
  guard (cs.length = symbol.arity)
  let bound ← boundOf? b cs symbol
  let cost := symbol.weight + cs.foldl (fun sum c => sum + c.cost) 0
  ofRoot? symbol cs ⟨cost, symbol.isTerminal && cs.all (·.isComplete), bound⟩

theorem assemble?_of_length (h : cs.length = symbol.arity) : assemble? b symbol cs =
    (boundOf? b cs symbol).bind fun bound => ofRoot? symbol cs
      ⟨symbol.weight + cs.foldl (fun sum c => sum + c.cost) 0,
        symbol.isTerminal && cs.all (·.isComplete), bound⟩ := by
  rw [assemble?, guard, if_pos h]
  rfl

/-- **One recipe for all nodes.** -/
theorem assemble?_eq (b : Bounds) (symbol : Symbol) (cs : List Tree) :
    assemble? b symbol cs = build? b symbol cs := by
  rcases symbol with op | c
  · by_cases hlength : cs.length = op.arity
    · rw [assemble?_of_length hlength]
      cases op with
      | atom a =>
        obtain rfl := List.length_eq_zero_iff.1 hlength
        simp [boundOf?, ofRoot?, build?, mkLeaf, Symbol.weight, Symbol.isTerminal]
      | not =>
        obtain ⟨c, rfl⟩ := List.length_eq_one_iff.1 hlength
        simp [boundOf?, ofRoot?, build?, mkNot, Symbol.weight, Symbol.isTerminal]
      | binary op =>
        obtain ⟨l, r, rfl⟩ := List.length_eq_two.1 hlength
        cases op <;>
          simp [boundOf?, ofRoot?, build?, mkBinary, Symbol.weight, Symbol.isTerminal,
            Bounds.ofBinary]
      | ite =>
        obtain ⟨c, p, n, rfl⟩ := List.length_eq_three.1 hlength
        simp [boundOf?, ofRoot?, build?, mkIte, Symbol.weight, Symbol.isTerminal, Bool.and_assoc]
    · have hnone := Option.not_isSome_iff_eq_none.1 (mt (isSome_build?_op b op cs).1 hlength)
      rw [hnone, assemble?, Symbol.arity, guard, if_neg hlength]
      rfl
  · cases cs with
    | nil =>
      rw [assemble?_of_length rfl]
      simp [boundOf?, ofRoot?, build?, mkHole, Symbol.weight, Symbol.isTerminal]
    | cons c cs => rfl

/-! ## Replacing a subtree -/

/-- The tree with the subtree at a path replaced. The child to go on with is read from the list of
children, and the node is assembled anew from that list with the child exchanged. -/
def regrow? (b : Bounds) (t : Tree) : Path → Tree → Option Regrowth
  | [], s => some ⟨s, 0⟩
  | i :: path, s => do
    let c ← t.children[i]?
    let r ← c.regrow? b path s
    let root ← assemble? b t.symbol (t.children.set i r.tree)
    return ⟨root, r.rebuilt + 1⟩

theorem regrow?_eq (b : Bounds) (t : Tree) (path : Path) (s : Tree) :
    t.regrow? b path s = t.substitute? b path s := by
  induction path generalizing t with
  | nil => rw [regrow?, substitute?_nil]
  | cons i path ih =>
    rw [regrow?]
    simp only [ih, assemble?_eq]
    -- Every position below the number of children has a case of its own in the replacement.
    cases t with
    | hole | leaf => simp [substitute?, children]
    | not c sum =>
      rcases i with _ | i <;> simp [substitute?, children, symbol, build?, Option.map_eq_bind,
        Function.comp_def, Regrowth.under]
    | binary op l r sum =>
      rcases i with _ | _ | i <;> simp [substitute?, children, symbol, build?, Option.map_eq_bind,
        Function.comp_def, Regrowth.under]
    | ite c p n sum =>
      rcases i with _ | _ | _ | i <;> simp [substitute?, children, symbol, build?,
        Option.map_eq_bind, Function.comp_def, Regrowth.under]

end Tree

end Synthesis

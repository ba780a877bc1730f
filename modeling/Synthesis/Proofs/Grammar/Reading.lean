import Synthesis.Grammar.Parser
import Synthesis.Proofs.Evaluation.Inversion

/-!
# What a written alternative says

An alternative is the name of an operator and a list of categories. The reader accepts it if the
operator produces values of the category that it is an alternative of, and takes exactly the
operands that are listed, in that order. So a production needs to keep no list of its own: what was
written is the operator's signature.
-/

set_option autoImplicit false

namespace Synthesis

namespace Grammar

variable {line : Nat} {c : Category} {alternative : List Char} {p : Production c}

/-- **An alternative lists what its operator takes.** -/
theorem readProduction_eq_ok_iff : readProduction line c alternative = .ok p ↔
    ∃ name, readApplication line alternative = .ok (name, p.val.signature) ∧ name ≠ [] ∧
      Operator.ofName? (.ofList name) = some p.val := by
  unfold readProduction
  constructor
  · intro h
    obtain ⟨⟨name, operands⟩, happlication, h⟩ := ok_of_bind_eq_ok h
    dsimp only at h
    by_cases hempty : name.isEmpty = true
    · rw [if_pos hempty] at h
      cases h
    · rw [if_neg hempty] at h
      split at h
      case h_2 => cases h
      case h_1 op hop =>
        split at h
        case isFalse => cases h
        case isTrue hcategory =>
          split at h
          case isFalse => cases h
          case isTrue hoperands =>
            obtain rfl := Except.ok.inj h
            exact ⟨name, hoperands ▸ happlication, mt List.isEmpty_iff.2 hempty, hop⟩
  · rintro ⟨name, happlication, hname, hop⟩
    rw [happlication]
    show (if name.isEmpty = true then _ else _) = _
    rw [if_neg (mt List.isEmpty_iff.1 hname), hop]
    dsimp only
    rw [dif_pos p.property, if_pos rfl]
    rfl

end Grammar

end Synthesis

import BindingTypes.Text.Basic

namespace BindingTypes

/-- A text with its length at hand. -/
structure MeasuredText where
  text : Text
  length : Nat
  length_eq : length = text.length
deriving DecidableEq, Repr

def Text.measured (t : Text) : MeasuredText := ⟨t, t.length, rfl⟩

namespace MeasuredText

@[simp] theorem text_measured (t : Text) : t.measured.text = t := rfl

/-- The texts are equal; those of different lengths are told apart at once. -/
def same (a b : MeasuredText) : Bool := a.length = b.length && a.text = b.text

theorem same_iff {a b : MeasuredText} : a.same b = true ↔ a.text = b.text := by
  simp only [same, Bool.and_eq_true, decide_eq_true_eq, and_iff_right_iff_imp]
  intro h
  rw [a.length_eq, b.length_eq, h]

end MeasuredText

end BindingTypes

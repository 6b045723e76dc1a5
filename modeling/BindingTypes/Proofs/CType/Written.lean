import BindingTypes.CType.Constructor
import BindingTypes.Proofs.CType.Composed

namespace BindingTypes.CType

variable {c : Char} {x t e : Text}

theorem dotted_written {c : Char} (hc : c ≠ '.' ∧ c ≠ '(' ∧ c ≠ ')' ∧ c ≠ '<' ∧ c ≠ '>')
    (hx : Balanced x) : Dotted (written c x) := by
  refine ⟨c :: '(' :: (x ++ [')']), by simp [written], ?_⟩
  have hstep : Depth.zero.pastStep c = some .zero := by
    simp [Depth.pastStep, Depth.step, Depth.zero, hc]
  rw [past_cons, hstep]
  exact past_group hx

theorem group?_written (hc : c ≠ '(') (hx : Balanced x) :
    group? (written c x) = .ok (some x) := by
  have hopen : ∀ u : Text, Text.cut? ('(' :: u) ['('] = some ([], u) := by simp [Text.cut?, Text.after?]
  have hcut : (written c x).cut? ['('] = some ([c], x ++ ").".toList) := by
    have hafter : Text.after? (written c x) ['('] = none := by
      simp [written, Text.after?, Ne.symm hc]
    unfold written at hafter ⊢
    unfold Text.cut?
    rw [hafter, hopen]
    rfl
  have hclose : closeGroup 0 (x ++ ").".toList) = some (x, ['.']) := closeGroup_of_parensAfter hx _
  unfold group?
  rw [hcut]
  simp only [hclose]

theorem arguments_written (hc : c ≠ '(') (hx : Balanced x) :
    arguments (written c x) = .ok (listed x) := by
  unfold arguments
  rw [group?_written hc hx]
  rfl

theorem simpleFrom_append_of_dot (hdot : '.' ∈ t) (hless : '<' ∉ t) (u : Text) :
    simpleFrom 0 (t ++ u) = false := by
  induction t with
  | nil => cases hdot
  | cons d t ih =>
    have hd : d ≠ '<' := fun hd => hless (hd ▸ List.mem_cons_self)
    have ht : '<' ∉ t := fun ht => hless (List.mem_cons_of_mem d ht)
    rw [List.cons_append]
    unfold simpleFrom
    rw [if_neg hd]
    by_cases hgreater : d = '>'
    · rw [if_pos hgreater]
      subst hgreater
      exact ih ((List.mem_cons.mp hdot).resolve_left (by decide)) ht
    · rw [if_neg hgreater]
      by_cases hdd : d = '.'
      · rw [if_pos ⟨hdd, rfl⟩]
      · rw [if_neg fun hand => hdd hand.1]
        exact ih ((List.mem_cons.mp hdot).resolve_left (Ne.symm hdd)) ht

theorem simpleFrom_of_dot (hdot : '.' ∈ t) (hless : '<' ∉ t) : simpleFrom 0 t = false := by
  have h := simpleFrom_append_of_dot hdot hless []
  rwa [List.append_nil] at h

theorem push_of_dot (h : e.getLast? = some '.') (t : CType) : push t e = e ++ t := by
  obtain ⟨x, rfl⟩ := List.getLast?_eq_some_iff.mp h
  have hne : x ++ ['.'] ≠ [] := by simp
  have hdot : Text.endsWith (x ++ ['.']) ['.'] = true := Text.endsWith_iff.mpr ⟨x, rfl⟩
  rw [push, if_neg hne, hdot]
  simp

theorem getLast?_written (letter : Char) (argument : Text) :
    (written letter argument).getLast? = some '.' := by
  have hlast : written letter argument = (letter :: '(' :: (argument ++ [')'])) ++ ['.'] := by
    simp [written]
  rw [hlast, List.getLast?_concat]

theorem push_written (t : CType) (letter : Char) (argument : Text) :
    push t (written letter argument) = written letter argument ++ t :=
  push_of_dot (getLast?_written letter argument) t

theorem text_getLast? (d : Constructor) : d.text.getLast? = some '.' := by
  cases d with
  | pointer => rfl
  | reference => rfl
  | array d => exact getLast?_written 'a' d
  | function ps => exact getLast?_written 'f' _
  | qualifier w => exact getLast?_written 'q' w
  | memberPointer owner => exact getLast?_written 'm' owner

theorem push_chain_text (cs : List Constructor) (t : CType) :
    push t (cs.map Constructor.text).flatten = (cs.map Constructor.text).flatten ++ t := by
  rcases List.eq_nil_or_concat cs with rfl | ⟨init, d, rfl⟩
  · rfl
  · refine push_of_dot ?_ t
    simp [List.getLast?_append, text_getLast?]

end BindingTypes.CType

import Mathlib.Data.List.Infix
import BindingTypes.Proofs.CType.Marks
import BindingTypes.Proofs.CType.Partition

namespace BindingTypes.CType

/-- The type is one element, and that is no constructor. -/
def IsName (t : CType) : Prop := ∃ e, elements t = .ok [e] ∧ Kind.of e = .base

/-- In front of each dot stands a text of this kind. -/
def DotsBehind (p : Text → Prop) (t : Text) : Prop := ∀ front rest, t = front ++ '.' :: rest → p front

/-- An angle bracket is open behind the text, wherever it stands: from some place on more of them
open than close. -/
def AngleOpen (front : Text) : Prop := ∃ b, b <:+ front ∧ b.count '>' < b.count '<'

/-- A bracket is open behind the text as elements are read. -/
def ElementOpen (front : Text) : Prop := Depth.zero.after front ≠ some .zero

def anglesStep (k : Nat) (c : Char) : Nat :=
  if c = '<' then k + 1 else if c = '>' then k - 1 else k

/-- The number of angle brackets open behind a text; one that closes none is passed over. -/
def anglesAfter (k : Nat) (t : Text) : Nat := t.foldl anglesStep k

variable {p : Text → Prop} {c : Char} {t : Text} {d d' : Depth}

section Dots

theorem dotsBehind_nil : DotsBehind p [] := by
  intro front rest h
  simp at h

theorem dotsBehind_cons :
    DotsBehind p (c :: t) ↔ (c = '.' → p []) ∧ DotsBehind (fun front => p (c :: front)) t := by
  constructor
  · intro h
    refine ⟨?_, fun front rest ht => h (c :: front) rest (by rw [ht]; rfl)⟩
    rintro rfl
    exact h [] t rfl
  · rintro ⟨hhead, htail⟩ front rest ht
    cases front with
    | nil => exact hhead (List.cons.inj ht).1
    | cons e front =>
      obtain ⟨rfl, hrest⟩ := List.cons.inj ht
      exact htail front rest hrest

theorem dotsBehind_congr {q : Text → Prop} (h : ∀ front, p front ↔ q front) :
    DotsBehind p t ↔ DotsBehind q t := by
  simp only [DotsBehind, h]

theorem simpleFrom_step (k : Nat) (c : Char) (t : Text) :
    simpleFrom k (c :: t) = (!decide (c = '.' ∧ k = 0) && simpleFrom (anglesStep k c) t) := by
  rw [simpleFrom, anglesStep]
  by_cases hless : c = '<'
  · simp [hless]
  · by_cases hgreater : c = '>'
    · simp [hgreater]
    · by_cases hdot : c = '.' ∧ k = 0 <;> simp [hless, hgreater, hdot]

theorem simpleFrom_iff (k : Nat) (t : Text) :
    simpleFrom k t = true ↔ DotsBehind (fun front => 0 < anglesAfter k front) t := by
  induction t generalizing k with
  | nil => exact iff_of_true rfl dotsBehind_nil
  | cons c t ih =>
    rw [simpleFrom_step, Bool.and_eq_true_iff, ih, dotsBehind_cons]
    refine and_congr ?_ Iff.rfl
    rw [Bool.not_eq_true', decide_eq_false_iff_not, not_and]
    exact imp_congr_right fun _ => Nat.pos_iff_ne_zero.symm

/-- What is open is open since the text that it stands at the beginning of. -/
theorem lt_anglesAfter_iff (j : Nat) (u : Text) :
    j < anglesAfter 0 u ↔ ∃ b, b <:+ u ∧ b.count '>' + j < b.count '<' := by
  induction u using List.reverseRecOn generalizing j with
  | nil => simp [anglesAfter]
  | append_singleton u c ih =>
    have hbehind : (∃ b, b <:+ u ++ [c] ∧ b.count '>' + j < b.count '<') ↔
        ∃ b, b <:+ u ∧ (b ++ [c]).count '>' + j < (b ++ [c]).count '<' := by
      constructor
      · rintro ⟨b, hb, hlt⟩
        rcases List.suffix_concat_iff.mp hb with rfl | ⟨b, rfl, hbefore⟩
        · simp at hlt
        · exact ⟨b, hbefore, hlt⟩
      · rintro ⟨b, hb, hlt⟩
        exact ⟨b ++ [c], List.suffix_concat_iff.mpr (Or.inr ⟨b, rfl, hb⟩), hlt⟩
    have hlast : anglesAfter 0 (u ++ [c]) = anglesStep (anglesAfter 0 u) c := List.foldl_concat ..
    simp only [hbehind, hlast, anglesStep, List.count_append, List.count_singleton]
    by_cases hless : c = '<'
    · subst hless
      cases j with
      | zero => exact iff_of_true (Nat.succ_pos _) ⟨[], List.nil_suffix, by simp⟩
      | succ j => simpa [← Nat.add_assoc] using ih j
    by_cases hgreater : c = '>'
    · subst hgreater
      have hnext := ih (j + 1)
      simpa [Nat.lt_sub_iff_add_lt, Nat.add_comm, Nat.add_left_comm, Nat.add_assoc] using hnext
    · simpa [hless, hgreater, Ne.symm hless, Ne.symm hgreater] using ih j

theorem isSimple_iff : isSimple t = true ↔ DotsBehind AngleOpen t := by
  rw [isSimple, simpleFrom_iff]
  exact dotsBehind_congr fun front => by rw [lt_anglesAfter_iff]; rfl

end Dots

section Elements

theorem past_eq_some_iff : d.past t = some d' ↔
    d.after t = some d' ∧ DotsBehind (fun front => d.after front ≠ some .zero) t := by
  induction t generalizing d with
  | nil => exact (and_iff_left dotsBehind_nil).symm
  | cons c t ih =>
    have hafter : ∀ front, d.after (c :: front) = (d.step c).bind (Depth.after · front) :=
      fun front => List.foldlM_cons
    rw [past_cons, dotsBehind_cons, Depth.pastStep]
    simp only [hafter]
    have hnow : (c = '.' → d.after [] ≠ some .zero) ↔ ¬ (c = '.' ∧ d = .zero) := by
      simp [Depth.after]
    rw [hnow]
    split
    · simp [*]
    · cases hd : d.step c with
      | none => simp
      | some n => simp [*]

theorem parens_after (d : Depth) (t : Text) :
    (d.after t).map (·.parens) = parensAfter d.parens t := by
  induction t generalizing d with
  | nil => rfl
  | cons c t ih =>
    have hafter : d.after (c :: t) = (d.step c).bind (Depth.after · t) := List.foldlM_cons
    rw [hafter, parensAfter_cons, ← parens_step]
    cases d.step c with
    | none => rfl
    | some n => exact ih n

theorem balanced_iff_after : Balanced t ↔ ∃ d, Depth.zero.after t = some d ∧ d.parens = 0 := by
  rw [← Option.map_eq_some_iff, parens_after]
  rfl

/-- A text that ends with no dot is one element where no element ends inside it. -/
theorem elements_singleton_iff (hne : t ≠ []) (hdot : t.getLast? ≠ some '.') :
    elements t = .ok [t] ↔ Balanced t ∧ DotsBehind ElementOpen t := by
  have hclosed : (Balanced t ∧ DotsBehind ElementOpen t) ↔
      ∃ d, Depth.zero.past t = some d ∧ d.parens = 0 := by
    simp only [past_eq_some_iff, balanced_iff_after, DotsBehind, ElementOpen]
    exact ⟨fun ⟨⟨d, hafter, hd⟩, hdots⟩ => ⟨d, ⟨hafter, hdots⟩, hd⟩,
      fun ⟨d, ⟨hafter, hdots⟩, hd⟩ => ⟨⟨d, hafter, hd⟩, hdots⟩⟩
  rw [hclosed]
  constructor
  · intro h
    rcases cutElement_cases (cutElement_of_single h hne) with ⟨x, rfl, -⟩ | ⟨-, hpast⟩
    · exact absurd List.getLast?_concat hdot
    · exact hpast
  · rintro ⟨d, hd, hparens⟩
    rw [elements_of_next (next_of_past hd hparens) hne, elements_nil]
    rfl

/-- What ends with no dot is no constructor. -/
theorem isName_iff (hne : t ≠ []) (hdot : t.getLast? ≠ some '.') :
    IsName t ↔ Balanced t ∧ DotsBehind ElementOpen t := by
  rw [← elements_singleton_iff hne hdot]
  constructor
  · rintro ⟨e, he, -⟩
    have hwhole : e = t := by simpa using flatten_of_elements he
    rwa [hwhole] at he
  · exact fun h => ⟨t, h, kind_base hdot⟩

end Elements

end BindingTypes.CType

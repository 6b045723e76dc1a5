import BindingTypes.Proofs.CType.Words
import BindingTypes.Proofs.CType.Written
import BindingTypes.Template.Engine
import Mathlib.Data.Nat.Digits.Defs

namespace BindingTypes

open Text TemplateEngine

variable {rep t u w x y : Text} {c : Char} {cs : List CType.Constructor} {m n : Nat}
  {ts ts' : List Text}

theorem isIdentifier_ofNat (n : Nat) : IsIdentifier (Text.ofNat n) := by
  refine ⟨Nat.toDigits_ne_nil, fun c hc => ?_⟩
  have hdigit := Nat.isDigit_of_mem_toDigits (by decide) (by decide) hc
  simp [isIdentChar, Char.isAlphanum, hdigit]

theorem ofNat_inj : Text.ofNat m = Text.ofNat n ↔ m = n := by
  constructor
  · intro h
    have hread := congrArg (Nat.ofDigitChars 10 · 0) h
    simpa only [Text.ofNat, Nat.ofDigitChars_ten_toDigits] using hread
  · exact congrArg _

namespace Text

/-- Placeholders are found only at dollar signs. -/
theorem afterWhole?_unmarked (hc : c ≠ '$') (u : Text) :
    afterWhole? (c :: u) (placeholder n) = none := by
  simp [afterWhole?, after?, placeholder, Ne.symm hc]

/-- Of the placeholders none is found in another, as `$1` is not in `$10`. -/
theorem afterWhole?_placeholder (hu : ∀ c ∈ u.head?, isIdentChar c = false) :
    (afterWhole? (placeholder m ++ u) (placeholder n)).isSome = decide (m = n) := by
  have hdigits : afterWhole? (placeholder m ++ u) (placeholder n) =
      afterWhole? (Text.ofNat m ++ u) (Text.ofNat n) := by
    simp [afterWhole?, after?, placeholder]
  rw [hdigits, afterWhole?_word (isIdentifier_ofNat n) (isIdentifier_ofNat m).2 hu]
  simp only [ofNat_inj]
  split <;> simp [*]

section Replacing

theorem replaceWholeFrom_unmarked (hx : '$' ∉ x) (hc : c ≠ '$') (hbreak : isIdentChar c = false)
    (glued : Bool) (u : Text) :
    replaceWholeFrom (placeholder n) rep glued 0 (x ++ c :: u) =
      x ++ c :: replaceWholeFrom (placeholder n) rep false 0 u := by
  induction x generalizing glued with
  | nil =>
    rw [List.nil_append, replaceWholeFrom, afterWhole?_unmarked hc, hbreak]
    simp
  | cons d x ih =>
    have hd : d ≠ '$' := fun hd => hx (hd ▸ List.mem_cons_self)
    have hrest : '$' ∉ x := fun hm => hx (List.mem_cons_of_mem d hm)
    rw [List.cons_append, replaceWholeFrom, afterWhole?_unmarked hd, ih hrest]
    simp

theorem replaceWholeFrom_placeholder (hu : ∀ c ∈ u.head?, isIdentChar c = false) :
    replaceWholeFrom (placeholder n) rep false 0 (placeholder m ++ u) =
      (if m = n then rep else placeholder m) ++ replaceWholeFrom (placeholder n) rep true 0 u := by
  have hafter := afterWhole?_placeholder (m := m) (n := n) hu
  obtain ⟨d, ds, hds⟩ := List.exists_cons_of_ne_nil (isIdentifier_ofNat m).1
  have hletters : ∀ c ∈ d :: ds, isIdentChar c = true := hds ▸ (isIdentifier_ofNat m).2
  obtain ⟨hd, hrest⟩ := List.forall_mem_cons.mp hletters
  have hdollar : d ≠ '$' := by
    rintro rfl
    cases hd
  have hkept : replaceWholeFrom (placeholder n) rep true 0 (ds ++ u) =
      ds ++ replaceWholeFrom (placeholder n) rep true 0 u := (replaceWholeFrom_inside hrest).1
  have hpassed : replaceWholeFrom (placeholder n) rep true ds.length (ds ++ u) =
      replaceWholeFrom (placeholder n) rep true 0 u := (replaceWholeFrom_inside hrest).2
  have hplaceholder : placeholder m ++ u = '$' :: d :: (ds ++ u) := by simp [placeholder, hds]
  rw [hplaceholder] at hafter ⊢
  rw [replaceWholeFrom, hafter]
  by_cases hmn : m = n
  · have hlength : (placeholder n).length - 1 = ds.length + 1 := by
      simp [placeholder, ← hmn, hds]
    have hfirst : isIdentChar '$' = false := by decide
    rw [hlength, hfirst, replaceWholeFrom, hd, hpassed, if_pos hmn]
    simp [hmn]
  · rw [replaceWholeFrom, afterWhole?_unmarked hdollar, hd, hkept, if_neg hmn]
    simp [hmn, placeholder, hds]

end Replacing

section Searching

theorem cutWhole?_unmarked (hx : '$' ∉ x) (hc : c ≠ '$') (hbreak : isIdentChar c = false)
    (glued : Bool) (u : Text) :
    cutWhole? (placeholder n) glued (x ++ c :: u) =
      (cutWhole? (placeholder n) false u).map fun r => (x ++ c :: r.1, r.2) := by
  induction x generalizing glued with
  | nil =>
    rw [List.nil_append, cutWhole?, afterWhole?_unmarked hc, hbreak, ite_self]
    rfl
  | cons d x ih =>
    have hd : d ≠ '$' := fun hd => hx (hd ▸ List.mem_cons_self)
    have hrest : '$' ∉ x := fun hm => hx (List.mem_cons_of_mem d hm)
    rw [List.cons_append, cutWhole?, afterWhole?_unmarked hd, ite_self, ih hrest]
    cases cutWhole? (placeholder n) false u <;> rfl

theorem cutWhole?_of_notMem (hx : '$' ∉ x) (glued : Bool) :
    cutWhole? (placeholder n) glued x = none := by
  induction x generalizing glued with
  | nil => rfl
  | cons d x ih =>
    have hd : d ≠ '$' := fun hd => hx (hd ▸ List.mem_cons_self)
    rw [cutWhole?, afterWhole?_unmarked hd, ite_self, ih fun hm => hx (List.mem_cons_of_mem d hm)]
    rfl

theorem hasWhole_of_notMem (hx : '$' ∉ x) : x.hasWhole (placeholder n) = false := by
  rw [hasWhole, cutWhole?_of_notMem hx]
  simp

end Searching

/-- A placeholder is found where it stands alone behind a dot, or at the start. -/
theorem hasWhole_placeholder (hx : '$' ∉ x) (hdot : x = [] ∨ x.getLast? = some '.') :
    (x ++ placeholder m).hasWhole (placeholder n) = decide (m = n) := by
  have hne : placeholder n ≠ [] := by simp [placeholder]
  have hself : (cutWhole? (placeholder n) false (placeholder m)).isSome = decide (m = n) := by
    have hafter := afterWhole?_placeholder (m := m) (n := n) (u := []) (by simp)
    have hdigits : '$' ∉ Text.ofNat m := fun hm => by
      cases (isIdentifier_ofNat m).2 '$' hm
    rw [List.append_nil] at hafter
    unfold placeholder at hafter ⊢
    rw [cutWhole?, ← hafter]
    cases hcut : afterWhole? ('$' :: Text.ofNat m) ('$' :: Text.ofNat n) with
    | some r => rfl
    | none =>
      have hnone := cutWhole?_of_notMem (n := n) hdigits (isIdentChar '$')
      unfold placeholder at hnone
      simp [hnone]
  rw [hasWhole, decide_eq_true hne, Bool.true_and]
  rcases hdot with rfl | hlast
  · exact hself
  · obtain ⟨x, rfl⟩ := List.getLast?_eq_some_iff.mp hlast
    have hfront : '$' ∉ x := fun hm => hx (List.mem_append_left _ hm)
    rw [List.append_assoc, List.singleton_append,
      cutWhole?_unmarked hfront (by decide) (by decide), Option.isSome_map, hself]

end Text

/-- With `rep` in place of placeholder `n` the one text becomes the other, in front of whatever ends
it in a list. -/
def Fills (n : Nat) (rep t t' : Text) : Prop :=
  ∀ c u, c ≠ '$' → isIdentChar c = false →
    replaceWholeFrom (placeholder n) rep false 0 (t ++ c :: u) =
      t' ++ c :: replaceWholeFrom (placeholder n) rep false 0 u

namespace Fills

theorem of_notMem (ht : '$' ∉ t) : Fills n rep t t := fun _ u hc hbreak =>
  replaceWholeFrom_unmarked ht hc hbreak false u

theorem placeholder (hx : '$' ∉ x) (hdot : x = [] ∨ x.getLast? = some '.') :
    Fills n rep (x ++ TemplateEngine.placeholder m)
      (if m = n then x ++ rep else x ++ TemplateEngine.placeholder m) := by
  intro c u hc hbreak
  have hend : ∀ d ∈ (c :: u).head?, isIdentChar d = false := by
    intro d hd
    cases hd
    exact hbreak
  have hself : replaceWholeFrom (TemplateEngine.placeholder n) rep false 0
      (TemplateEngine.placeholder m ++ c :: u) =
        (if m = n then rep else TemplateEngine.placeholder m) ++
          c :: replaceWholeFrom (TemplateEngine.placeholder n) rep false 0 u := by
    rw [replaceWholeFrom_placeholder hend]
    exact congrArg _ (replaceWholeFrom_unmarked (x := []) (by simp) hc hbreak true u)
  rcases hdot with rfl | hlast
  · exact hself
  · obtain ⟨x, rfl⟩ := List.getLast?_eq_some_iff.mp hlast
    have hfront : '$' ∉ x := fun hm => hx (List.mem_append_left _ hm)
    rw [List.append_assoc, List.append_assoc, List.singleton_append,
      replaceWholeFrom_unmarked hfront (by decide) (by decide), hself]
    split <;> simp

theorem commaJoin (h : List.Forall₂ (Fills n rep) ts ts') :
    Fills n rep (Text.commaJoin ts) (Text.commaJoin ts') := by
  induction h with
  | nil => exact of_notMem (t := []) (by simp)
  | @cons t t' ts ts' ht hts ih =>
    cases hts with
    | nil => simpa [Text.commaJoin] using ht
    | @cons s s' ts ts' hs hts =>
      intro c u hc hbreak
      have hrest := ih c u hc hbreak
      have hcons : ∀ (a b : Text) (l : List Text), Text.commaJoin (a :: b :: l) =
          a ++ ',' :: Text.commaJoin (b :: l) := fun a b l => by
        rw [Text.commaJoin, List.intercalate_cons_cons, List.append_assoc]
        rfl
      rw [hcons, hcons, List.append_assoc, List.cons_append, ht ',' _ (by decide) (by decide),
        hrest]
      simp

end Fills

theorem replaceWhole_angled (hname : '$' ∉ x) (h : List.Forall₂ (Fills n rep) ts ts') :
    Text.replaceWhole (x ++ CType.angled ts) (placeholder n) rep = x ++ CType.angled ts' := by
  have hshape : ∀ ts, x ++ CType.angled ts =
      (x ++ ['<']) ++ '(' :: (Text.commaJoin ts ++ ')' :: ['>']) := fun ts => by
    simp [CType.angled]
  have hfront : '$' ∉ x ++ ['<'] := by simp [hname]
  have hend : replaceWholeFrom (placeholder n) rep false 0 ['>'] = ['>'] :=
    replaceWholeFrom_unmarked (x := []) (c := '>') (by simp) (by decide) (by decide) false []
  rw [Text.replaceWhole, if_neg (by simp [placeholder]), hshape, hshape,
    replaceWholeFrom_unmarked hfront (by decide) (by decide),
    Fills.commaJoin h ')' _ (by decide) (by decide), hend]

end BindingTypes

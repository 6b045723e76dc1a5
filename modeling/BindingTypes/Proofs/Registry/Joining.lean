import Mathlib.Data.List.Induction
import BindingTypes.Proofs.Registry.Fold
import BindingTypes.Proofs.Registry.Records

namespace BindingTypes

namespace CType

theorem constructorChar_ne_plus (c : Char) : constructorChar c ≠ '+' := by
  intro hc
  unfold constructorChar at hc
  split at hc
  · rename_i ha
    rw [hc] at ha
    cases ha
  · cases hc

theorem nameChar_ne_plus (c : Char) : nameChar c ≠ '+' := by
  intro hc
  unfold nameChar at hc
  split at hc <;> try cases hc
  split at hc
  · rename_i ha
    rw [hc] at ha
    cases ha
  · cases hc

theorem plus_notMem_runtimeName {r : Resolver} {t : CType} {name : Text}
    (h : runtimeName r t = .ok name) : '+' ∉ name := by
  have hall : ∀ f n : Text, '+' ∉ '_' :: (f.map constructorChar ++ n.map nameChar) := by
    intro f n hmem
    rcases List.mem_cons.mp hmem with hmem | hmem
    · cases hmem
    · rcases List.mem_append.mp hmem with hmem | hmem
      · obtain ⟨c, -, hc⟩ := List.mem_map.mp hmem
        exact constructorChar_ne_plus c hc
      · obtain ⟨c, -, hc⟩ := List.mem_map.mp hmem
        exact nameChar_ne_plus c hc
  unfold runtimeName at h
  obtain ⟨resolved, -, h⟩ := bind_eq_ok h
  obtain ⟨localType, -, h⟩ := bind_eq_ok h
  obtain ⟨⟨front, base⟩, -, h⟩ := bind_eq_ok h
  dsimp only at h
  split at h
  · obtain ⟨spelled, -, h⟩ := bind_eq_ok h
    cases h
    exact hall _ _
  · cases h
    exact hall _ _

end CType

namespace Environment

/-- The names in a key can be read back where the first has no separator in it. -/
theorem conversionKey_inj {q e q' e' : Text} (hq : '+' ∉ q) (hq' : '+' ∉ q') :
    conversionKey q e = conversionKey q' e' ↔ q = q' ∧ e = e' := by
  constructor
  · intro h
    unfold conversionKey at h
    induction q generalizing q' with
    | nil =>
      cases q' with
      | nil => simpa using h
      | cons c cs =>
        obtain ⟨hc, -⟩ := List.cons_eq_cons.mp h
        exact absurd (hc ▸ List.mem_cons_self) hq'
    | cons c cs ih =>
      cases q' with
      | nil =>
        obtain ⟨hc, -⟩ := List.cons_eq_cons.mp h
        exact absurd (hc ▸ List.mem_cons_self) hq
      | cons c' cs' =>
        obtain ⟨hc, htail⟩ := List.cons_eq_cons.mp h
        have htails := ih (fun hm => hq (List.mem_cons_of_mem _ hm))
          (fun hm => hq' (List.mem_cons_of_mem _ hm)) htail
        exact ⟨by rw [hc, htails.1], htails.2⟩
  · rintro ⟨rfl, rfl⟩
    rfl

end Environment

/-- One conversion that folding generated: the two types, and the names it was written under. -/
structure Folding where
  base : CType
  derived : CType
  target : Text
  source : Text
  /-- The names listed for the base at that time. -/
  known : List Text
  /-- The names that stood for the derived type at that time. -/
  aliases : List Text
  converter : Converter

namespace Folding

/-- The conversion was written for a pointer of the name `q` where one of the name `e` is
expected. -/
def Joins (F : Folding) (q e : Text) : Prop :=
  (q = F.source ∧ e = F.target) ∨ (q ∈ F.aliases ∧ (e = F.target ∨ e ∈ F.known))

/-- What the conversion leaves of an earlier one for the same names: for the target the first one
stays, for the other names of the base the last one. -/
def inPlaceOf (F : Folding) (q e : Text) (earlier : Option Folding) : Option Folding :=
  if q ∈ F.aliases ∧ e ∈ F.known then some F
  else if (q = F.source ∨ q ∈ F.aliases) ∧ e = F.target then earlier.or (some F)
  else earlier

/-- The conversion that a sequence of foldings ends up with for two names. -/
def inForce (log : List Folding) (q e : Text) : Option Folding :=
  log.foldl (fun earlier F => F.inPlaceOf q e earlier) none

variable {F : Folding} {log : List Folding} {q e : Text}

theorem inForce_concat : inForce (log ++ [F]) q e = F.inPlaceOf q e (inForce log q e) := by
  simp [inForce]

theorem inPlaceOf_of_not_joins (h : ¬ F.Joins q e) (earlier : Option Folding) :
    F.inPlaceOf q e earlier = earlier := by
  unfold inPlaceOf
  rw [if_neg, if_neg]
  · rintro ⟨hq | hq, he⟩
    · exact h (Or.inl ⟨hq, he⟩)
    · exact h (Or.inr ⟨hq, Or.inl he⟩)
  · rintro ⟨hq, he⟩
    exact h (Or.inr ⟨hq, Or.inr he⟩)

theorem inPlaceOf_of_joins (h : F.Joins q e) (earlier : Option Folding) :
    F.inPlaceOf q e earlier = some F ∨ ∃ G, earlier = some G ∧ F.inPlaceOf q e earlier = some G := by
  unfold inPlaceOf
  split
  · exact Or.inl rfl
  · rename_i hlast
    have hfirst : (q = F.source ∨ q ∈ F.aliases) ∧ e = F.target := by
      rcases h with ⟨hq, he⟩ | ⟨hq, he | he⟩
      · exact ⟨Or.inl hq, he⟩
      · exact ⟨Or.inr hq, he⟩
      · exact absurd ⟨hq, he⟩ hlast
    rw [if_pos hfirst]
    cases earlier with
    | none => exact Or.inl rfl
    | some G => exact Or.inr ⟨G, rfl, rfl⟩

theorem inForce_eq_none_iff : inForce log q e = none ↔ ∀ F ∈ log, ¬ F.Joins q e := by
  induction log using List.reverseRecOn with
  | nil => simp [inForce]
  | append_singleton log F ih =>
    have hsplit : (∀ G ∈ log ++ [F], ¬ G.Joins q e) ↔
        (∀ G ∈ log, ¬ G.Joins q e) ∧ ¬ F.Joins q e := by
      simp [or_imp, forall_and]
    rw [inForce_concat, hsplit, ← ih]
    by_cases hj : F.Joins q e
    · refine ⟨fun h => ?_, fun h => absurd hj h.2⟩
      rcases inPlaceOf_of_joins hj (inForce log q e) with ho | ⟨G, -, ho⟩
      · rw [ho] at h
        cases h
      · rw [ho] at h
        cases h
    · rw [inPlaceOf_of_not_joins hj]
      exact ⟨fun h => ⟨h, hj⟩, fun h => h.1⟩

theorem joins_of_inForce (h : inForce log q e = some F) : F ∈ log ∧ F.Joins q e := by
  induction log using List.reverseRecOn with
  | nil => cases h
  | append_singleton log G ih =>
    rw [inForce_concat] at h
    have hearlier : inForce log q e = some F → F ∈ log ++ [G] ∧ F.Joins q e :=
      fun h => ⟨List.mem_append_left _ (ih h).1, (ih h).2⟩
    by_cases hj : G.Joins q e
    · rcases inPlaceOf_of_joins hj (inForce log q e) with ho | ⟨G', hG', ho⟩
      · rw [ho] at h
        cases h
        exact ⟨List.mem_append_right _ List.mem_cons_self, hj⟩
      · rw [ho] at h
        cases h
        exact hearlier hG'
    · rw [inPlaceOf_of_not_joins hj] at h
      exact hearlier h

end Folding

namespace Registry

variable {r : Registry} {canonical c t : CType} {name target n q e : Text} {known : List Text}
variable {others : List (Text × CType)}

theorem namesOf_addName (c' : CType) :
    (r.addName c n t).namesOf c' = if c' = c then (r.namesOf c).insert n t else r.namesOf c' := by
  simp only [namesOf, addName, Table.get?_insert]
  by_cases h : c' = c <;> simp [h]

theorem contains_namesOf_addName {c' : CType} {n' : Text}
    (h : (r.namesOf c').contains n' = true) : ((r.addName c n t).namesOf c').contains n' = true := by
  rw [namesOf_addName]
  by_cases hc : c' = c
  · subst hc
    rw [if_pos rfl]
    exact Table.contains_insert.mpr (Or.inr h)
  · rw [if_neg hc]
    exact h

theorem get?_namesOf_addName {c' t' : CType} {n' : Text}
    (h : ((r.addName c n t).namesOf c').get? n' = some t') :
    (c' = c ∧ n' = n ∧ t' = t) ∨ (r.namesOf c').get? n' = some t' := by
  rw [namesOf_addName] at h
  by_cases hc : c' = c
  · subst hc
    rw [if_pos rfl, Table.get?_insert] at h
    by_cases hn : n' = n
    · rw [if_pos hn] at h
      cases h
      exact Or.inl ⟨rfl, hn, rfl⟩
    · rw [if_neg hn] at h
      exact Or.inr h
  · rw [if_neg hc] at h
    exact Or.inr h

theorem contains_namesOf_shareAll (h : (r.namesOf c).contains n = true) :
    ((others.foldl (Environment.shareConverter canonical name target known) r).namesOf c).contains
      n = true := by
  induction others generalizing r with
  | nil => exact h
  | cons other others ih => exact ih (contains_namesOf_addName h)

theorem get?_namesOf_shareAll
    (h : ((others.foldl (Environment.shareConverter canonical name target known) r).namesOf c).get?
      n = some t) : (c = canonical ∧ (n, t) ∈ others) ∨ (r.namesOf c).get? n = some t := by
  induction others generalizing r with
  | nil => exact Or.inr h
  | cons other others ih =>
    rcases ih h with ⟨hc, hm⟩ | h
    · exact Or.inl ⟨hc, List.mem_cons_of_mem _ hm⟩
    · rcases get?_namesOf_addName h with ⟨hc, rfl, rfl⟩ | h
      · exact Or.inl ⟨hc, List.mem_cons_self⟩
      · exact Or.inr h

theorem converters_shareAll :
    (others.foldl (Environment.shareConverter canonical name target known) r).converters =
      r.converters := by
  induction others generalizing r with
  | nil => rfl
  | cons other others ih =>
    rw [List.foldl_cons, ih]
    rfl

theorem get?_shareKnown {conversions : Table Text} {a : Text} (hq : '+' ∉ q) (ha : '+' ∉ a) :
    (known.foldl (fun t k => t.insert (Environment.conversionKey a k) name) conversions).get?
        (Environment.conversionKey q e) =
      if q = a ∧ e ∈ known then some name
      else conversions.get? (Environment.conversionKey q e) := by
  induction known generalizing conversions with
  | nil => simp
  | cons k known ih =>
    rw [List.foldl_cons, ih, Table.get?_insert]
    simp only [Environment.conversionKey_inj hq ha, List.mem_cons]
    by_cases hqa : q = a <;> by_cases hk : e = k <;> by_cases hm : e ∈ known <;>
      simp [hqa, hk, hm]

theorem get?_shareConverter {other : Text × CType} (hq : '+' ∉ q) (ha : '+' ∉ other.1) :
    (Environment.shareConverter canonical name target known r other).conversions.get?
        (Environment.conversionKey q e) =
      if q = other.1 ∧ e ∈ known then some name
      else if q = other.1 ∧ e = target then
        (r.conversions.get? (Environment.conversionKey q e)).or (some name)
      else r.conversions.get? (Environment.conversionKey q e) := by
  show Table.get? (known.foldl _ _) _ = _
  rw [get?_shareKnown hq ha]
  by_cases hk : q = other.1 ∧ e ∈ known
  · rw [if_pos hk, if_pos hk]
  · rw [if_neg hk, if_neg hk]
    have hkey : Environment.conversionKey q e = Environment.conversionKey other.1 target ↔
        q = other.1 ∧ e = target := Environment.conversionKey_inj hq ha
    by_cases ht : q = other.1 ∧ e = target
    · rw [if_pos ht, hkey.mpr ht]
      by_cases hc : r.conversions.contains (Environment.conversionKey other.1 target) = true
      · obtain ⟨x, hx⟩ := Table.contains_iff.mp hc
        rw [if_pos hc, hx]
        rfl
      · have hnone : r.conversions.get? (Environment.conversionKey other.1 target) = none := by
          simpa [Table.contains] using hc
        rw [if_neg hc, Table.get?_insert, if_pos rfl, hnone]
        rfl
    · rw [if_neg ht]
      split
      · rfl
      · rw [Table.get?_insert, if_neg (mt hkey.mp ht)]

theorem get?_shareAll (hq : '+' ∉ q) (hfree : ∀ other ∈ others, '+' ∉ other.1) :
    (others.foldl (Environment.shareConverter canonical name target known) r).conversions.get?
        (Environment.conversionKey q e) =
      if q ∈ others.map (·.1) ∧ e ∈ known then some name
      else if q ∈ others.map (·.1) ∧ e = target then
        (r.conversions.get? (Environment.conversionKey q e)).or (some name)
      else r.conversions.get? (Environment.conversionKey q e) := by
  induction others generalizing r with
  | nil => simp
  | cons other others ih =>
    have ha : '+' ∉ other.1 := hfree other List.mem_cons_self
    have htail : ∀ o ∈ others, '+' ∉ o.1 := fun o ho => hfree o (List.mem_cons_of_mem _ ho)
    rw [List.foldl_cons, ih htail, get?_shareConverter hq ha]
    simp only [List.map_cons, List.mem_cons]
    by_cases hk : e ∈ known
    · by_cases hm : q ∈ others.map (·.1)
      · rw [if_pos ⟨hm, hk⟩, if_pos ⟨Or.inr hm, hk⟩]
      · simp only [hm, hk, and_true, or_false, false_and, if_false]
    · simp only [hk, and_false, if_false]
      by_cases ht : e = target
      · by_cases hm : q ∈ others.map (·.1)
        · simp only [hm, ht, and_true, or_true, if_true]
          split
          · rw [Option.or_assoc, Option.or_self]
          · rfl
        · simp only [hm, ht, and_true, or_false, if_false]
      · simp only [ht, and_false, if_false]

end Registry

end BindingTypes

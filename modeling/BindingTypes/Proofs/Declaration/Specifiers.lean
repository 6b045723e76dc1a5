import BindingTypes.Proofs.CType.Written
import BindingTypes.Proofs.Declaration.Names

namespace BindingTypes.Declaration

/-- At most one qualifier. -/
def IsQualifiers (q : List Text) : Prop := q = [] ∨ ∃ w ∈ qualifierWords, q = [w]

/-- The base with its qualifiers. -/
def qualified (q : List Text) (b : CType) : CType := (q.map (CType.written 'q')).flatten ++ b

/-- The tokens of a base. -/
structure ReadsBase (source : Text) (ws : List Text) (b : CType) : Prop where
  reads : ∀ ts T q, Spells ts (ws ++ q) → IsQualifiers q → EndsSpecifiers T →
    ∀ n, 8 * ws.length + q.length + 3 ≤ n →
      specifiers source n {} (ts ++ T) = .ok (qualified q b, T)
  noOperator : ∀ ts T, Spells ts ws → nextIs "::".toList T = false → memberPointer? (ts ++ T) = none
  starts : ∃ w vs, ws = w :: vs ∧ startsName w = true

variable {source w tag : Text} {ws vs q : List Text} {wss : List (List Text)} {texts : List CType}
  {ts T R : List Token} {b c : CType} {s : Specifiers} {offset k n : Nat}

theorem notQualifier_of_builtin (hw : w ∈ builtinWords) : qualifierWords.contains w = false := by
  have hall : (builtinWords.all fun w => !qualifierWords.contains w) = true := by decide
  simpa using List.all_eq_true.mp hall w hw

/-- What follows a base ends its name. -/
theorem qualifiers_end (hq : IsQualifiers q) (hts : Spells ts q) (hT : EndsSpecifiers T) :
    nextIs ['<'] (ts ++ T) = false ∧ nextIs "::".toList (ts ++ T) = false := by
  rcases hq with rfl | ⟨w, hw, rfl⟩
  · rw [hts.nil, List.nil_append]
    cases T with
    | nil => exact ⟨rfl, rfl⟩
    | cons token rest =>
      obtain ⟨-, -, hangle, hcolons⟩ := hT token rfl
      exact ⟨decide_eq_false hangle, decide_eq_false hcolons⟩
  · obtain ⟨offset, ts', rfl, -⟩ := hts.cons
    have hall : (qualifierWords.any fun w => w = ['<'] || w = "::".toList) = false := by decide
    have hcase := List.any_eq_false.mp hall w hw
    simpa [nextIs] using hcase

theorem specifiers_builtin (hw : w ∈ builtinWords) (hs : s.name = none) :
    specifiers source (k + 1) s (⟨w, offset⟩ :: T) =
      specifiers source k { s with builtin := s.builtin ++ [w] } T := by
  have hcond : (s.name.isNone && builtinWords.contains w) = true := by
    rw [hs, List.contains_iff_mem.mpr hw]
    rfl
  rw [specifiers]
  simp only [notQualifier_of_builtin hw, Bool.false_eq_true, if_false, hcond, if_true]

theorem specifiers_builtins (hws : ∀ w ∈ ws, w ∈ builtinWords) (hts : Spells ts ws)
    (hs : s.name = none) (k : Nat) (T : List Token) :
    specifiers source (k + ws.length) s (ts ++ T) =
      specifiers source k { s with builtin := s.builtin ++ ws } T := by
  induction ws generalizing ts s with
  | nil =>
    rw [hts.nil]
    simp
  | cons w ws ih =>
    obtain ⟨hw, hws⟩ := List.forall_mem_cons.mp hws
    obtain ⟨offset, ts', rfl, hts'⟩ := hts.cons
    have hlength : k + (w :: ws).length = k + ws.length + 1 := by
      simp only [List.length_cons]
      omega
    have hrest := ih (s := ⟨s.qualifiers, s.builtin ++ [w], s.name⟩) hws hts' hs
    rw [hlength, List.cons_append, specifiers_builtin hw hs, hrest]
    simp

theorem specifiers_qualifier (hw : w ∈ qualifierWords) :
    specifiers source (k + 1) s (⟨w, offset⟩ :: T) =
      specifiers source k { s with qualifiers := s.qualifiers ++ [w] } T := by
  rw [specifiers]
  simp only [List.contains_iff_mem.mpr hw, if_true]

theorem specifiers_ends (hT : EndsSpecifiers T)
    (hs : (s.name.isNone && s.builtin.isEmpty) = false) :
    specifiers source (k + 1) s T = (s.type source).map (·, T) := by
  cases T with
  | nil => rw [specifiers]
  | cons token rest =>
    obtain ⟨hqualifier, hbuiltin, -, -⟩ := hT token rfl
    rw [specifiers]
    simp only [hqualifier, hbuiltin, hs, Bool.and_false, Bool.false_and, Bool.false_eq_true,
      if_false]

theorem type_qualified (hb : s.type source = .ok b) (hnone : s.qualifiers = []) (q : List Text) :
    Specifiers.type source { s with qualifiers := q } = .ok (qualified q b) := by
  have haround : ∀ b, q.foldr (fun w t => CType.addQualifier t w) b = qualified q b := by
    intro b
    induction q with
    | nil => rfl
    | cons w q ih =>
      rw [List.foldr_cons, ih]
      show CType.push (qualified q b) (CType.written 'q' w) = _
      rw [CType.push_written]
      simp [qualified]
  unfold Specifiers.type at hb ⊢
  rw [hnone] at hb
  by_cases hbuiltin : s.builtin = []
  · rw [if_pos hbuiltin] at hb ⊢
    cases hname : s.name with
    | none =>
      rw [hname] at hb
      cases hb
    | some name =>
      rw [hname] at hb
      cases hb
      exact congrArg Except.ok (haround _)
  · rw [if_neg hbuiltin] at hb ⊢
    cases hb
    exact congrArg Except.ok (haround _)

/-- Behind what names the type stand its qualifiers. -/
theorem specifiers_named (hq : IsQualifiers q) (hts : Spells ts q) (hT : EndsSpecifiers T)
    (hs : (s.name.isNone && s.builtin.isEmpty) = false) (hnone : s.qualifiers = [])
    (hb : s.type source = .ok b) (hk : q.length + 1 ≤ k) :
    specifiers source k s (ts ++ T) = .ok (qualified q b, T) := by
  obtain ⟨k, rfl⟩ : ∃ j, k = j + 1 := ⟨k - 1, by omega⟩
  rcases hq with rfl | ⟨w, hw, rfl⟩
  · rw [hts.nil, List.nil_append, specifiers_ends hT hs, hb]
    rfl
  · obtain ⟨offset, ts', rfl, hts'⟩ := hts.cons
    simp only [List.length_cons] at hk
    obtain ⟨k, rfl⟩ : ∃ j, k = j + 1 := ⟨k - 1, by omega⟩
    rw [hts'.nil, List.cons_append, List.nil_append, specifiers_qualifier hw,
      hnone, List.nil_append]
    have hend : specifiers source (k + 1) { s with qualifiers := [w] } T =
        (Specifiers.type source { s with qualifiers := [w] }).map (·, T) := specifiers_ends hT hs
    rw [hend, type_qualified hb hnone]
    rfl

theorem readsBase_builtin (hws : ∀ w ∈ ws, w ∈ builtinWords) (hne : ws ≠ []) :
    ReadsBase source ws (canonicalBuiltin ws) where
  reads ts T q hts hq hT n hn := by
    obtain ⟨ts₁, ts₂, rfl, h₁, h₂⟩ := hts.append
    obtain ⟨k, rfl⟩ : ∃ k, n = k + ws.length := ⟨n - ws.length, by omega⟩
    rw [List.append_assoc, specifiers_builtins hws h₁ rfl]
    have hnamed : ((none : Option Text).isNone && ws.isEmpty) = false := by simpa using hne
    have htype : Specifiers.type source ⟨[], ws, none⟩ = .ok (canonicalBuiltin ws) := by
      simp [Specifiers.type, hne, bind, Except.bind, pure, Except.pure]
    exact specifiers_named hq h₂ hT hnamed rfl htype (by omega)
  noOperator ts T hts hT := by
    obtain ⟨w, ws, rfl⟩ := List.exists_cons_of_ne_nil hne
    obtain ⟨hw, hws⟩ := List.forall_mem_cons.mp hws
    obtain ⟨offset, ts', rfl, hts'⟩ := hts.cons
    have hname : ∀ w ∈ builtinWords, startsName w = true := fun w hw =>
      startsName_of_keyword (by simp [keywords, hw])
    refine memberPointer?_of_name (hname w hw) ?_
    cases ws with
    | nil =>
      rw [hts'.nil]
      exact hT
    | cons v ws =>
      obtain ⟨offset', ts'', rfl, -⟩ := hts'.cons
      refine decide_eq_false ?_
      rintro rfl
      cases hname _ (hws _ List.mem_cons_self)
  starts := by
    obtain ⟨w, ws, rfl⟩ := List.exists_cons_of_ne_nil hne
    have hw := hws w List.mem_cons_self
    exact ⟨w, ws, rfl, startsName_of_keyword (by simp [keywords, hw])⟩

section Named

variable (hcs : List.Forall₂ (ReadsComponent source) wss texts) (hne : wss ≠ [])
include hcs hne

theorem firstName (hts : Spells ts (nameWords wss)) :
    ∃ n offset ts', ts = ⟨n, offset⟩ :: ts' ∧ IsFreeName n := by
  cases hcs with
  | nil => exact absurd rfl hne
  | cons hc hcs =>
    obtain ⟨n, vs, rfl, hn⟩ := hc.starts
    obtain ⟨offset, ts', rfl, -⟩ := hts.firstComponent
    exact ⟨n, offset, ts', rfl, hn⟩

theorem qualifiedName_reads (hts : Spells ts (nameWords wss))
    (hT : nextIs ['<'] T = false ∧ nextIs "::".toList T = false) (hk : 8 * ts.length + 2 ≤ k) :
    qualifiedName source k (ts ++ T) = .ok (pathText texts, T) := by
  obtain ⟨k, rfl⟩ : ∃ j, k = j + 1 := ⟨k - 1, by omega⟩
  have hread := nameComponents_reads hcs hne hts hT (k := k) (by omega)
  obtain ⟨n, offset, ts', rfl, hn⟩ := firstName hcs hne hts
  have hcolons : nextIs "::".toList (⟨n, offset⟩ :: ts' ++ T) = false :=
    decide_eq_false (hn.ne (by decide))
  rw [qualifiedName, hcolons]
  exact hread

theorem readsBase_name : ReadsBase source (nameWords wss) (pathText texts) where
  reads ts T q hts hq hT n hn := by
    obtain ⟨ts₁, ts₂, rfl, h₁, h₂⟩ := hts.append
    have hlength := h₁.length
    obtain ⟨n, rfl⟩ : ∃ j, n = j + 1 := ⟨n - 1, by omega⟩
    have hread := qualifiedName_reads hcs hne h₁ (qualifiers_end hq h₂ hT) (k := n) (by omega)
    obtain ⟨name, offset, ts', rfl, hname⟩ := firstName hcs hne h₁
    obtain ⟨hqualifier, hbuiltin, htag⟩ := hname.notKeyword
    rw [List.append_assoc, List.cons_append, specifiers]
    rw [List.cons_append] at hread
    simp only [hqualifier, hbuiltin, htag, hname.1, Bool.and_false, Bool.false_eq_true, if_false,
      Option.isNone_none, List.isEmpty_nil, Bool.and_true, Bool.true_or, if_true, hread, bind,
      Except.bind]
    exact specifiers_named hq h₂ hT rfl rfl rfl (by omega)
  noOperator ts T hts hT := by
    have hpath := memberPath_name hcs hne hts hT
    obtain ⟨n, offset, ts', rfl, hn⟩ := firstName hcs hne hts
    have hcolons : n ≠ "::".toList := hn.ne (by decide)
    rw [List.cons_append] at hpath ⊢
    rw [memberPointer?, if_neg hcolons, hpath]
  starts := by
    cases hcs with
    | nil => exact absurd rfl hne
    | @cons ws text wss texts hc hcs =>
      obtain ⟨n, vs, rfl, hn⟩ := hc.starts
      by_cases hlast : wss = []
      · subst hlast
        exact ⟨n, vs, by simp [nameWords], hn.1⟩
      · exact ⟨n, vs ++ "::".toList :: nameWords wss, by rw [nameWords_cons _ hlast]; rfl, hn.1⟩

theorem readsBase_tagged (htag : tag ∈ tagKeywords) (htypename : tag ≠ "typename".toList) :
    ReadsBase source (tag :: nameWords wss) (tag ++ ' ' :: pathText texts) where
  reads ts T q hts hq hT n hn := by
    obtain ⟨offset, ts', rfl, hts'⟩ := hts.cons
    obtain ⟨ts₁, ts₂, rfl, h₁, h₂⟩ := hts'.append
    have hlength := h₁.length
    simp only [List.length_cons] at hn
    obtain ⟨n, rfl⟩ : ∃ j, n = j + 1 := ⟨n - 1, by omega⟩
    have hread := qualifiedName_reads hcs hne h₁ (qualifiers_end hq h₂ hT) (k := n) (by omega)
    have hall : (tagKeywords.any fun w => qualifierWords.contains w || builtinWords.contains w) =
        false := by decide
    have hother := List.any_eq_false.mp hall tag htag
    simp only [Bool.not_eq_true, Bool.or_eq_false_iff] at hother
    rw [List.cons_append, List.append_assoc, specifiers]
    simp only [hother.1, hother.2, List.contains_iff_mem.mpr htag, Bool.and_false,
      Bool.false_eq_true, if_false, Option.isNone_none, List.isEmpty_nil, Bool.and_true, if_true,
      hread, bind, Except.bind, if_neg htypename]
    exact specifiers_named hq h₂ hT rfl rfl rfl (by omega)
  noOperator ts T hts hT := by
    obtain ⟨offset, ts', rfl, hts'⟩ := hts.cons
    have hname : startsName tag = true := startsName_of_keyword (by simp [keywords, htag])
    obtain ⟨n, offset', ts'', rfl, hn⟩ := firstName hcs hne hts'
    exact memberPointer?_of_name hname (decide_eq_false (hn.ne (by decide)))
  starts := ⟨tag, nameWords wss, rfl, startsName_of_keyword (by simp [keywords, htag])⟩

end Named

/-- A base, its qualifiers and a declarator. -/
theorem ReadsBase.declaration (hb : ReadsBase source ws b) (hq : IsQualifiers q)
    (hd : Declares source vs c)
    (hends : ∀ ts R, Spells ts vs → Closes R → EndsSpecifiers (ts ++ R))
    (hc : c = [] ∨ c.getLast? = some '.') :
    ReadsDeclaration source (ws ++ q ++ vs) (c ++ qualified q b) where
  reads ts R hts hR n hn := by
    obtain ⟨ts₁, ts₂, rfl, h₁, h₂⟩ := hts.append
    simp only [List.length_append] at hn
    obtain ⟨n, rfl⟩ : ∃ j, n = j + 1 := ⟨n - 1, by omega⟩
    have hspec := hb.reads ts₁ (ts₂ ++ R) q h₁ hq (hends ts₂ R h₂ hR) n (by omega)
    have hdecl := hd.declarator h₂ hR (n := n) (by omega)
    have hpush : CType.push (qualified q b) c = c ++ qualified q b := by
      rcases hc with rfl | hc
      · rfl
      · exact CType.push_of_dot hc _
    have hdots : nextIs "...".toList (ts₁ ++ (ts₂ ++ R)) = false := by
      obtain ⟨w, us, rfl, hw⟩ := hb.starts
      obtain ⟨offset, ts', rfl, -⟩ := h₁.cons
      refine decide_eq_false ?_
      rintro rfl
      cases hw
    rw [List.append_assoc, Declaration.declaration, hdots]
    simp only [Bool.false_eq_true, if_false, hspec, hdecl, hpush, bind, Except.bind, pure,
      Except.pure]
  noOperator ts R hts hR := by
    rw [List.append_assoc] at hts
    obtain ⟨ts₁, ts₂, rfl, h₁, h₂⟩ := hts.append
    obtain ⟨tsq, ts₃, rfl, hq', h₃⟩ := h₂.append
    have hcolons := (qualifiers_end hq hq' (hends ts₃ R h₃ hR)).2
    have hmember := hb.noOperator ts₁ (tsq ++ (ts₃ ++ R)) h₁ hcolons
    obtain ⟨w, us, rfl, hw⟩ := hb.starts
    obtain ⟨offset, ts', rfl, -⟩ := h₁.cons
    refine ⟨decide_eq_false ?_, decide_eq_false ?_, by simpa using hmember⟩ <;>
    · rintro rfl
      cases hw
  starts := by
    obtain ⟨w, us, rfl, hw⟩ := hb.starts
    refine ⟨w, us ++ q ++ vs, by simp, ?_, ?_⟩ <;>
    · rintro rfl
      cases hw

theorem readsDeclaration_varargs : ReadsDeclaration source ["...".toList] CType.varargs where
  reads ts R hts _ n hn := by
    obtain ⟨offset, ts', rfl, hts'⟩ := hts.cons
    obtain ⟨n, rfl⟩ : ∃ j, n = j + 1 := ⟨n - 1, by omega⟩
    have hdots : nextIs "...".toList (⟨"...".toList, offset⟩ :: R) = true := by simp [nextIs]
    rw [hts'.nil, List.cons_append, List.nil_append, declaration, hdots]
    rfl
  noOperator ts R hts _ := by
    obtain ⟨offset, ts', rfl, -⟩ := hts.cons
    have hmember : ∀ rest, memberPointer? (⟨"...".toList, offset⟩ :: rest) = none :=
      fun rest => memberPointer?_of_not_name (by decide) (by decide)
    exact ⟨by simp [nextIs], by simp [nextIs], hmember _⟩
  starts := ⟨_, [], rfl, by decide, by decide⟩

end BindingTypes.Declaration

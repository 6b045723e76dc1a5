import BindingTypes.Declaration.Parser

namespace BindingTypes.Declaration

/-- The words that the parser reads for themselves. -/
def keywords : List Text := qualifierWords ++ builtinWords ++ tagKeywords

/-- An identifier that is no keyword. -/
def IsFreeName (n : Text) : Prop :=
  startsName n = true ∧ n.all isIdentChar = true ∧ keywords.contains n = false

instance (n : Text) : Decidable (IsFreeName n) := inferInstanceAs (Decidable (_ ∧ _))

def pathText (ns : List Text) : Text := List.intercalate "::".toList ns

def pathWords (ns : List Text) : List Text := ns.intersperse "::".toList

/-- The tokens have these texts. -/
abbrev Spells (ts : List Token) (ws : List Text) : Prop := ts.map (·.text) = ws

/-- No constructor is written here. -/
def NoOperator (ts : List Token) : Prop := ∀ m acc, pointers m acc ts = (acc, ts)

variable {n w : Text} {ns ws vs : List Text} {ts rest : List Token} {offset m : Nat} {acc : CType}

namespace Spells

theorem cons (h : Spells ts (w :: ws)) :
    ∃ offset ts', ts = ⟨w, offset⟩ :: ts' ∧ Spells ts' ws := by
  obtain ⟨⟨text, offset⟩, ts', rfl, rfl, hts'⟩ := List.map_eq_cons_iff.mp h
  exact ⟨offset, ts', rfl, hts'⟩

theorem append (h : Spells ts (ws ++ vs)) :
    ∃ ts₁ ts₂, ts = ts₁ ++ ts₂ ∧ Spells ts₁ ws ∧ Spells ts₂ vs := List.map_eq_append_iff.mp h

theorem nil (h : Spells ts []) : ts = [] := List.map_eq_nil_iff.mp h

theorem length (h : Spells ts ws) : ts.length = ws.length := by
  rw [← h, List.length_map]

end Spells

theorem startsName_of_keyword (hw : w ∈ keywords) : startsName w = true := by
  have hall : (keywords.all startsName) = true := by decide
  exact List.all_eq_true.mp hall w hw

theorem notKeyword_parts (h : keywords.contains w = false) :
    qualifierWords.contains w = false ∧ builtinWords.contains w = false ∧
      tagKeywords.contains w = false := by
  simp only [keywords, List.contains_eq_mem, List.mem_append, decide_eq_false_iff_not,
    not_or] at h ⊢
  exact ⟨h.1.1, h.1.2, h.2⟩

theorem notKeyword_of_not_name (h : startsName w = false) :
    qualifierWords.contains w = false ∧ builtinWords.contains w = false ∧
      tagKeywords.contains w = false := by
  refine notKeyword_parts ?_
  cases hcontains : keywords.contains w with
  | false => rfl
  | true =>
    rw [startsName_of_keyword (List.contains_iff_mem.mp hcontains)] at h
    cases h

namespace IsFreeName

theorem chars (h : IsFreeName n) : ∀ c ∈ n, isIdentChar c = true := List.all_eq_true.mp h.2.1

theorem ne_nil (h : IsFreeName n) : n ≠ [] := by
  rintro rfl
  cases h.1

theorem ne (h : IsFreeName n) (hw : startsName w = false) : n ≠ w := by
  rintro rfl
  rw [h.1] at hw
  cases hw

theorem notKeyword (h : IsFreeName n) :
    qualifierWords.contains n = false ∧ builtinWords.contains n = false ∧
      tagKeywords.contains n = false := notKeyword_parts h.2.2

end IsFreeName

theorem memberPath_of_not_name (h : startsName w = false) :
    memberPath (⟨w, offset⟩ :: rest) = none := by
  cases rest with
  | nil => rfl
  | cons colons rest =>
    rw [memberPath.eq_def]
    simp [h]

theorem memberPath_of_not_colons (h : nextIs "::".toList rest = false) :
    memberPath (⟨w, offset⟩ :: rest) = none := by
  cases rest with
  | nil => rfl
  | cons colons rest =>
    have hcolons : decide (colons.text = "::".toList) = false := h
    rw [memberPath.eq_def]
    show (if (startsName w && decide (colons.text = "::".toList)) = true then _ else none) = none
    rw [hcolons, Bool.and_false]
    rfl

/-- The class in front of `::*`. -/
theorem memberPath_owner (hns : ∀ n ∈ ns, IsFreeName n) (hne : ns ≠ [])
    (hts : Spells ts (pathWords ns ++ ["::".toList, ['*']])) (T : List Token) :
    memberPath (ts ++ T) = some (pathText ns, T) := by
  induction ns generalizing ts with
  | nil => exact absurd rfl hne
  | cons n ns ih =>
    obtain ⟨hn, hns⟩ := List.forall_mem_cons.mp hns
    cases ns with
    | nil =>
      obtain ⟨o₁, ts₁, rfl, h₁⟩ := hts.cons
      obtain ⟨o₂, ts₂, rfl, h₂⟩ := h₁.cons
      obtain ⟨o₃, ts₃, rfl, h₃⟩ := h₂.cons
      rw [h₃.nil]
      show memberPath (⟨n, o₁⟩ :: ⟨"::".toList, o₂⟩ :: ⟨['*'], o₃⟩ :: T) = _
      simp [memberPath, hn.1, pathText]
    | cons n' ns =>
      obtain ⟨o₁, ts₁, rfl, h₁⟩ := hts.cons
      obtain ⟨o₂, ts₂, rfl, h₂⟩ := h₁.cons
      have hrest := ih hns (by simp) h₂
      obtain ⟨o₃, ts₃, rfl⟩ : ∃ o₃ ts₃, ts₂ = ⟨n', o₃⟩ :: ts₃ := by
        cases ns with
        | nil =>
          obtain ⟨o₃, ts₃, h₃, -⟩ := h₂.cons
          exact ⟨o₃, ts₃, h₃⟩
        | cons n'' ns =>
          obtain ⟨o₃, ts₃, h₃, -⟩ := h₂.cons
          exact ⟨o₃, ts₃, h₃⟩
      have hstar : n' ≠ ['*'] := (hns n' List.mem_cons_self).ne (by decide)
      show memberPath (⟨n, o₁⟩ :: ⟨"::".toList, o₂⟩ :: ⟨n', o₃⟩ :: (ts₃ ++ T)) = _
      change memberPath (⟨n', o₃⟩ :: (ts₃ ++ T)) = _ at hrest
      simp [memberPath, hn.1, hstar, hrest, pathText]

theorem memberPointer?_of_not_name (h : startsName w = false) (hw : w ≠ "::".toList) :
    memberPointer? (⟨w, offset⟩ :: rest) = none := by
  rw [memberPointer?, if_neg hw, memberPath_of_not_name h]

theorem memberPointer?_of_name (hw : startsName w = true) (h : nextIs "::".toList rest = false) :
    memberPointer? (⟨w, offset⟩ :: rest) = none := by
  have hne : w ≠ "::".toList := by
    rintro rfl
    cases hw
  rw [memberPointer?, if_neg hne, memberPath_of_not_colons h]

/-- What the tokens of a member-pointer operator start with. -/
theorem owner_cons (hne : ns ≠ []) (hts : Spells ts (pathWords ns ++ ["::".toList, ['*']])) :
    ∃ n ∈ ns, ∃ offset ts', ts = ⟨n, offset⟩ :: ts' := by
  obtain ⟨n, ns, rfl⟩ := List.exists_cons_of_ne_nil hne
  refine ⟨n, List.mem_cons_self, ?_⟩
  cases ns with
  | nil =>
    obtain ⟨offset, ts', rfl, -⟩ := hts.cons
    exact ⟨offset, ts', rfl⟩
  | cons n' ns =>
    obtain ⟨offset, ts', rfl, -⟩ := hts.cons
    exact ⟨offset, ts', rfl⟩

theorem memberPointer?_owner (hns : ∀ n ∈ ns, IsFreeName n) (hne : ns ≠ [])
    (hts : Spells ts (pathWords ns ++ ["::".toList, ['*']])) (T : List Token) :
    memberPointer? (ts ++ T) = some (pathText ns, T) := by
  have hpath := memberPath_owner hns hne hts T
  obtain ⟨n, hn, offset, ts', rfl⟩ := owner_cons hne hts
  have hcolons : n ≠ "::".toList := (hns n hn).ne (by decide)
  rw [List.cons_append] at hpath ⊢
  rw [memberPointer?, if_neg hcolons, hpath]

theorem noOperator_nil : NoOperator [] := by
  intro m acc
  cases m <;> rfl

theorem noOperator_cons (hstar : w ≠ ['*']) (hamp : w ≠ ['&'])
    (hqualifier : qualifierWords.contains w = false)
    (hmember : memberPointer? (⟨w, offset⟩ :: rest) = none) : NoOperator (⟨w, offset⟩ :: rest) := by
  intro m acc
  cases m with
  | zero => rfl
  | succ m =>
    rw [pointers, if_neg hstar, if_neg hamp, hqualifier, hmember]
    rfl

/-- One operator, or one qualifier, at the start of a list. -/
def ReadsOperator (ws : List Text) (element : Text) : Prop :=
  ∀ ts T m acc, Spells ts ws → pointers (m + 1) acc (ts ++ T) = pointers m (element ++ acc) T

theorem reads_pointer : ReadsOperator [['*']] "p.".toList := by
  intro ts T m acc hts
  obtain ⟨offset, ts', rfl, hts'⟩ := hts.cons
  rw [hts'.nil, List.cons_append, pointers, if_pos rfl]
  rfl

theorem reads_reference : ReadsOperator [['&']] "r.".toList := by
  intro ts T m acc hts
  obtain ⟨offset, ts', rfl, hts'⟩ := hts.cons
  have hplain : (['&'] : Text) ≠ ['*'] := by decide
  rw [hts'.nil, List.cons_append, pointers, if_neg hplain, if_pos rfl]
  rfl

theorem reads_qualifier (hw : w ∈ qualifierWords) : ReadsOperator [w] (CType.written 'q' w) := by
  intro ts T m acc hts
  obtain ⟨offset, ts', rfl, hts'⟩ := hts.cons
  have hcontains : qualifierWords.contains w = true := List.contains_iff_mem.mpr hw
  have hplain : w ≠ ['*'] ∧ w ≠ ['&'] := by
    constructor <;> rintro rfl <;> revert hw <;> decide
  rw [hts'.nil, List.cons_append, pointers, if_neg hplain.1, if_neg hplain.2, if_pos hcontains]
  rfl

theorem reads_owner (hns : ∀ n ∈ ns, IsFreeName n) (hne : ns ≠ []) :
    ReadsOperator (pathWords ns ++ ["::".toList, ['*']]) (CType.written 'm' (pathText ns)) := by
  intro ts T m acc hts
  have hmember := memberPointer?_owner hns hne hts T
  obtain ⟨n, hn, offset, ts', rfl⟩ := owner_cons hne hts
  have hfree := hns n hn
  have hstar : n ≠ ['*'] := hfree.ne (by decide)
  have hamp : n ≠ ['&'] := hfree.ne (by decide)
  rw [List.cons_append] at hmember ⊢
  rw [pointers, if_neg hstar, if_neg hamp, hfree.notKeyword.1, hmember]
  rfl

end BindingTypes.Declaration

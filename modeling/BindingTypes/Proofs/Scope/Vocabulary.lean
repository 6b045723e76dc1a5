import BindingTypes.Proofs.CType.Chain

namespace BindingTypes

/-- Letters, digits, underscores and blanks, without the tag of an enumeration in front. -/
def IsWord (t : Text) : Prop :=
  t ≠ [] ∧ (∀ c ∈ t, isIdentChar c = true ∨ c = ' ') ∧ t.after? "enum ".toList = none

def IsIdentifier (t : Text) : Prop := t ≠ [] ∧ ∀ c ∈ t, isIdentChar c = true

instance (t : Text) : Decidable (IsWord t) :=
  decidable_of_iff (t ≠ [] ∧ (t.all fun c => isIdentChar c || c = ' ') = true ∧
    t.after? "enum ".toList = none) (by simp [IsWord])

instance (t : Text) : Decidable (IsIdentifier t) :=
  decidable_of_iff (t ≠ [] ∧ t.all isIdentChar = true) (by simp [IsIdentifier])

theorem IsIdentifier.isWord {t : Text} (h : IsIdentifier t) : IsWord t := by
  refine ⟨h.1, fun c hc => Or.inl (h.2 c hc), ?_⟩
  cases ha : t.after? "enum ".toList with
  | none => rfl
  | some r =>
    have ht := Text.after?_eq_some_iff.mp ha
    have hblank := h.2 ' ' (by rw [ht]; simp)
    cases hblank

/-- No letter of a name is a bracket or a dot. -/
theorem unbracketed_of_letters {t : Text} {d : Char} (hd : d ∉ ".()<>".toList)
    (h : ∀ c ∈ t, isIdentChar c = true ∨ c = d) : CType.Unbracketed t := by
  have hmarks : ∀ c ∈ ".()<>".toList, isIdentChar c = false := by decide
  intro c hc hm
  rcases h c hc with hi | rfl
  · rw [hmarks c hm] at hi
    cases hi
  · exact hd hm

theorem IsWord.unbracketed {t : Text} (h : IsWord t) : CType.Unbracketed t :=
  unbracketed_of_letters (by decide) h.2.1

theorem IsWord.colon_notMem {t : Text} (h : IsWord t) : ':' ∉ t := by
  intro hm
  rcases h.2.1 ':' hm with hi | hi <;> cases hi

theorem after?_colons_eq_none {t : Text} {c : Char} {cs : Text} (ht : t = c :: cs)
    (hc : c ≠ ':') : t.after? "::".toList = none := by
  subst ht
  have h : ¬ ':' = c := fun he => hc he.symm
  simp [Text.after?, h]

theorem IsWord.after?_colons {t : Text} (h : IsWord t) : t.after? "::".toList = none := by
  cases t with
  | nil => rfl
  | cons c cs =>
    refine after?_colons_eq_none rfl ?_
    rintro rfl
    exact h.colon_notMem List.mem_cons_self

namespace QualifiedName

variable {t n N : Text}

theorem within_right_inj {m : Text} : within N n = within N m ↔ n = m := by
  unfold within
  split
  · exact Iff.rfl
  · exact List.append_right_inj _

theorem depthAfter_unbracketed {c : Char} {cs : Text} (h : CType.Unbracketed (c :: cs)) :
    depthAfter 0 c = 0 := by
  obtain ⟨-, hopen, hclose, hless, hgreater⟩ := h.head
  simp [depthAfter, hopen, hclose, hless, hgreater]

theorem cutFirst?_cons {c : Char} {cs : Text} (h : CType.Unbracketed (c :: cs)) (hc : c ≠ ':') :
    cutFirst? 0 (c :: cs) = (cutFirst? 0 cs).map fun r => (c :: r.1, r.2) := by
  have hstep := cutFirst?.eq_3 0 c cs
  rw [depthAfter_unbracketed h] at hstep
  exact hstep fun cs' _ he => absurd he hc

theorem cutLast?_cons {c : Char} {cs : Text} (h : CType.Unbracketed (c :: cs)) (hc : c ≠ ':')
    (t : Text) : cutLast? 0 (c :: t) = (cutLast? 0 t).map fun r => (c :: r.1, r.2) := by
  have hstep := cutLast?.eq_3 0 c t
  rw [depthAfter_unbracketed h] at hstep
  exact hstep fun cs' _ he => absurd he hc

theorem cutFirst?_eq_none (h : CType.Unbracketed t) (hc : ':' ∉ t) : cutFirst? 0 t = none := by
  induction t with
  | nil => rfl
  | cons c cs ih =>
    have hne : c ≠ ':' := fun he => hc (he ▸ List.mem_cons_self)
    have htail := ih h.tail fun hm => hc (List.mem_cons_of_mem _ hm)
    rw [cutFirst?_cons h hne, htail]
    rfl

/-- Text without a separator is passed over. -/
theorem cutLast?_append (h : CType.Unbracketed n) (hc : ':' ∉ n) (t : Text) :
    cutLast? 0 (n ++ t) = (cutLast? 0 t).map fun r => (n ++ r.1, r.2) := by
  induction n with
  | nil => simp
  | cons c cs ih =>
    have hne : c ≠ ':' := fun he => hc (he ▸ List.mem_cons_self)
    have htail := ih h.tail fun hm => hc (List.mem_cons_of_mem _ hm)
    rw [List.cons_append, cutLast?_cons h hne, htail]
    cases cutLast? 0 t <;> rfl

theorem cutLast?_eq_none (h : CType.Unbracketed n) (hc : ':' ∉ n) : cutLast? 0 n = none := by
  have ha := cutLast?_append h hc []
  rw [List.append_nil] at ha
  rw [ha]
  rfl

theorem cutLast?_colons (t : Text) :
    cutLast? 0 ("::".toList ++ t) =
      some (((cutLast? 0 t).map fun r => "::".toList ++ r.1).getD [],
        ((cutLast? 0 t).map (·.2)).getD t) := by
  show cutLast? 0 (':' :: ':' :: t) = _
  rw [cutLast?]
  cases cutLast? 0 t <;> rfl

end QualifiedName

/-- The words for builtin types. -/
structure Vocabulary where
  builtins : List Text
  words : ∀ b ∈ builtins, IsWord b

namespace Vocabulary

variable {v : Vocabulary} {n N M : Text}

/-- What a program may declare. -/
def IsName (v : Vocabulary) (n : Text) : Prop := IsIdentifier n ∧ n ∉ v.builtins

instance (v : Vocabulary) (n : Text) : Decidable (v.IsName n) :=
  decidable_of_iff (IsIdentifier n ∧ v.builtins.contains n = false) (by simp [IsName])

/-- Names with separators between them. -/
inductive IsPath (v : Vocabulary) : Text → Prop
  | name {n : Text} (hn : v.IsName n) : v.IsPath n
  | inner {N n : Text} (hN : v.IsPath N) (hn : v.IsName n) : v.IsPath (N ++ "::".toList ++ n)

theorem IsName.isWord (h : v.IsName n) : IsWord n := h.1.isWord

theorem not_isName_text {c : CType.Constructor} : ¬ v.IsName c.text := by
  intro h
  have hc := h.1.2 '.' (CType.dot_mem_text c)
  cases hc

theorem IsPath.chars (h : v.IsPath N) : ∀ c ∈ N, isIdentChar c = true ∨ c = ':' := by
  induction h with
  | name hn => exact fun c hc => Or.inl (hn.1.2 c hc)
  | inner hN hn ih =>
    intro c hc
    rcases List.mem_append.mp hc with hc | hc
    · rcases List.mem_append.mp hc with hc | hc
      · exact ih c hc
      · have hcolon : c = ':' := by simpa using hc
        exact Or.inr hcolon
    · exact Or.inl (hn.1.2 c hc)

theorem IsPath.unbracketed (h : v.IsPath N) : CType.Unbracketed N :=
  unbracketed_of_letters (by decide) h.chars

/-- A path begins with a letter of its first name. -/
theorem IsPath.eq_cons (h : v.IsPath N) : ∃ c cs, N = c :: cs ∧ isIdentChar c = true := by
  induction h with
  | @name n hn =>
    cases n with
    | nil => exact absurd rfl hn.1.1
    | cons c cs => exact ⟨c, cs, rfl, hn.1.2 c List.mem_cons_self⟩
  | @inner N n hN hn ih =>
    obtain ⟨c, cs, rfl, hc⟩ := ih
    exact ⟨c, cs ++ "::".toList ++ n, rfl, hc⟩

theorem IsPath.ne_nil (h : v.IsPath N) : N ≠ [] := by
  obtain ⟨c, cs, rfl, -⟩ := h.eq_cons
  exact List.cons_ne_nil c cs

theorem IsPath.after?_colons (h : v.IsPath N) : N.after? "::".toList = none := by
  obtain ⟨c, cs, hN, hc⟩ := h.eq_cons
  refine after?_colons_eq_none hN ?_
  rintro rfl
  cases hc

theorem IsPath.after?_enum (h : v.IsPath N) : N.after? "enum ".toList = none := by
  cases ha : N.after? "enum ".toList with
  | none => rfl
  | some r =>
    have hN := Text.after?_eq_some_iff.mp ha
    have hblank := h.chars ' ' (by rw [hN]; simp)
    rcases hblank with h | h <;> cases h

theorem IsPath.cutLast?_append (h : v.IsPath N) {t f l : Text}
    (ht : QualifiedName.cutLast? 0 t = some (f, l)) :
    QualifiedName.cutLast? 0 (N ++ t) = some (N ++ f, l) := by
  induction h generalizing t f l with
  | name hn =>
    rw [QualifiedName.cutLast?_append hn.isWord.unbracketed hn.isWord.colon_notMem, ht]
    rfl
  | @inner N n hN hn ih =>
    have hinner : QualifiedName.cutLast? 0 (n ++ t) = some (n ++ f, l) := by
      rw [QualifiedName.cutLast?_append hn.isWord.unbracketed hn.isWord.colon_notMem, ht]
      rfl
    have hcolons := QualifiedName.cutLast?_colons (n ++ t)
    rw [hinner] at hcolons
    have hall := ih hcolons
    simpa [List.append_assoc] using hall

/-- The last separator of a path stands before its last name. -/
theorem IsPath.cutLast?_inner (hN : v.IsPath N) (hn : IsWord n) :
    QualifiedName.cutLast? 0 (N ++ "::".toList ++ n) = some (N, n) := by
  have hcolons := QualifiedName.cutLast?_colons n
  rw [QualifiedName.cutLast?_eq_none hn.unbracketed hn.colon_notMem] at hcolons
  have hall := hN.cutLast?_append hcolons
  simpa [List.append_assoc] using hall

theorem within_inj {m : Text} (hN : N = [] ∨ v.IsPath N) (hM : M = [] ∨ v.IsPath M)
    (hn : IsWord n) (hm : IsWord m)
    (h : QualifiedName.within N n = QualifiedName.within M m) : N = M ∧ n = m := by
  have hcut : ∀ {N n : Text}, N = [] ∨ v.IsPath N → IsWord n →
      QualifiedName.cutLast? 0 (QualifiedName.within N n) =
        if N = [] then none else some (N, n) := by
    intro N n hN hn
    rcases hN with rfl | hN
    · exact QualifiedName.cutLast?_eq_none hn.unbracketed hn.colon_notMem
    · rw [QualifiedName.within, if_neg hN.ne_nil, if_neg hN.ne_nil]
      exact hN.cutLast?_inner hn
  have hc := hcut hN hn
  rw [h, hcut hM hm] at hc
  by_cases hNe : N = []
  · by_cases hMe : M = []
    · subst hNe
      subst hMe
      exact ⟨rfl, h⟩
    · rw [if_neg hMe, if_pos hNe] at hc
      cases hc
  · by_cases hMe : M = []
    · rw [if_pos hMe, if_neg hNe] at hc
      cases hc
    · rw [if_neg hMe, if_neg hNe] at hc
      cases hc
      exact ⟨rfl, rfl⟩

theorem isPath_within (hN : N = [] ∨ v.IsPath N) (hn : v.IsName n) :
    v.IsPath (QualifiedName.within N n) := by
  rcases hN with rfl | hN
  · exact .name hn
  · rw [QualifiedName.within, if_neg hN.ne_nil]
    exact .inner hN hn

end Vocabulary

end BindingTypes

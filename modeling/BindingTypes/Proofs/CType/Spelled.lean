import BindingTypes.Proofs.CType.Marks

namespace BindingTypes

theorem mapM_returns_iff {α β : Type} {f : α → Except Fault β} {l : List α} :
    (∃ bs, l.mapM f = .ok bs) ↔ ∀ a ∈ l, ∃ b, f a = .ok b := by
  constructor
  · rintro ⟨bs, h⟩
    induction l generalizing bs with
    | nil => exact List.forall_mem_nil _
    | cons a l ih =>
      rw [List.mapM_cons] at h
      obtain ⟨b, hb, h⟩ := bind_eq_ok h
      obtain ⟨bs', hbs, -⟩ := bind_eq_ok h
      exact List.forall_mem_cons.mpr ⟨⟨b, hb⟩, ih bs' hbs⟩
  · intro h
    obtain ⟨bs, hbs⟩ := exists_forall₂ h
    exact ⟨bs, mapM_of_forall₂ hbs⟩

/-- A walk over bounded elements returns where one over the elements does. -/
theorem mapM_values_returns_iff {α β : Type} {P : α → Prop} {f : α → Except Fault β}
    {l : List { a : α // P a }} {as : List α} (hl : l.map (·.1) = as) :
    (∃ bs, (l.mapM fun a => f a.1) = .ok bs) ↔ ∀ a ∈ as, ∃ b, f a = .ok b := by
  rw [mapM_returns_iff, ← hl, List.forall_mem_map]

namespace CType

/-- The arguments behind the first `<(` of a name end at `)>`. -/
def TemplateCloses (e : Text) : Prop :=
  ∀ stem opened, e.cut? "<(".toList = some (stem, opened) →
    ∃ inside tail, opened = inside ++ ")>".toList ++ tail ∧ Balanced inside

/-- The types that are spelled in the course of spelling a type: itself, the parameters of its
functions and the template arguments of its names, and so on. -/
inductive Part : CType → CType → Prop
  | self {t : CType} : Part t t
  | parameter {t u p : CType} {e : Text} {es : List Text} {ps : List CType} (h : Part t u)
      (hes : elements u = .ok es) (he : e ∈ es) (hk : Kind.of e = .function)
      (hps : arguments e = .ok ps) (hp : p ∈ ps) : Part t p
  | argument {t u p : CType} {e : Text} {es : List Text} {parts : TemplateParts} (h : Part t u)
      (hes : elements u = .ok es) (he : e ∈ es) (hk : Kind.of e = .base)
      (hparts : templateParts e = .ok (some parts)) (hp : p ∈ parts.arguments) : Part t p

/-- Every name that is spelled on the way has its template arguments closed. -/
def TemplatesClose (t : CType) : Prop :=
  ∀ u es e, Part t u → elements u = .ok es → e ∈ es → Kind.of e = .base → TemplateCloses e

/-- The text nowhere reads `<(`. -/
def NoOpening (t : Text) : Prop := ¬ "<(".toList <:+: t

variable {t u v e w x : Text} {k : Nat} {es : List Text} {id : Text}

theorem Part.trans (h : Part t u) (h' : Part u v) : Part t v := by
  induction h' with
  | self => exact h
  | parameter _ hes he hk hps hp ih => exact ih.parameter hes he hk hps hp
  | argument _ hes he hk hparts hp ih => exact ih.argument hes he hk hparts hp

theorem closeGroup_of_closed (h : parensAfter (k + 1) t = some 0) :
    ∃ inside rest, closeGroup k t = some (inside, rest) := by
  induction t generalizing k with
  | nil => cases h
  | cons c cs ih =>
    rw [parensAfter_cons] at h
    unfold closeGroup
    by_cases hc : c = ')'
    · subst hc
      rw [if_pos rfl]
      cases k with
      | zero => exact ⟨[], cs, rfl⟩
      | succ k =>
        obtain ⟨inside, rest, hclose⟩ := ih h
        exact ⟨')' :: inside, rest, by simp [hclose]⟩
    · rw [if_neg hc]
      by_cases ho : c = '('
      · subst ho
        obtain ⟨inside, rest, hclose⟩ := ih h
        exact ⟨'(' :: inside, rest, by simp [hclose]⟩
      · rw [parensStep_other ho hc] at h
        obtain ⟨inside, rest, hclose⟩ := ih h
        exact ⟨c :: inside, rest, by simp [ho, hclose]⟩

/-- Where parentheses close, so does the group that an element opens. -/
theorem group?_of_balanced {c : Char} (hc : c ≠ '(') (hb : Balanced (c :: '(' :: x)) :
    ∃ inside, group? (c :: '(' :: x) = .ok (some inside) ∧ Balanced inside := by
  have hopened : parensAfter 1 x = some 0 := by
    unfold Balanced at hb
    rw [parensAfter_cons] at hb
    by_cases hclose : c = ')'
    · subst hclose
      cases hb
    · rw [parensStep_other hc hclose] at hb
      exact hb
  obtain ⟨inside, rest, hclose⟩ := closeGroup_of_closed hopened
  have hcut : Text.cut? (c :: '(' :: x) ['('] = some ([c], x) := by
    simp [Text.cut?, Text.after?, Ne.symm hc]
  refine ⟨inside, ?_, parensAfter_of_closeGroup hclose⟩
  unfold group?
  rw [hcut]
  simp only [hclose]

theorem opened_of_kind (hp : Kind.of e ≠ .pointer) (hr : Kind.of e ≠ .reference)
    (hb : Kind.of e ≠ .base) : ∃ c x, c ≠ '(' ∧ e = c :: '(' :: x := by
  have hopen : ∀ c, (e.startsWith [c, '('] && e.endsWith ").".toList) = true →
      ∃ x, e = c :: '(' :: x := by
    intro c h
    obtain ⟨x, hx⟩ := Text.startsWith_iff.mp (Bool.and_eq_true_iff.mp h).1
    exact ⟨x, hx⟩
  obtain ⟨k, hk⟩ : ∃ k, Kind.of e = k := ⟨_, rfl⟩
  rw [hk] at hp hr hb
  unfold Kind.of at hk
  dsimp only at hk
  split at hk
  · exact absurd hk.symm hp
  · split at hk
    · exact absurd hk.symm hr
    · split at hk
      · rename_i h
        obtain ⟨x, hx⟩ := hopen 'a' h
        exact ⟨'a', x, by decide, hx⟩
      · split at hk
        · rename_i h
          obtain ⟨x, hx⟩ := hopen 'f' h
          exact ⟨'f', x, by decide, hx⟩
        · split at hk
          · rename_i h
            obtain ⟨x, hx⟩ := hopen 'q' h
            exact ⟨'q', x, by decide, hx⟩
          · split at hk
            · rename_i h
              obtain ⟨x, hx⟩ := hopen 'm' h
              exact ⟨'m', x, by decide, hx⟩
            · exact absurd hk.symm hb

theorem templateParts_of_closed {stem inside tail : Text}
    (hcut : e.cut? "<(".toList = some (stem, inside ++ ")>".toList ++ tail))
    (hb : Balanced inside) : templateParts e = .ok (some ⟨stem, inside, tail⟩) := by
  have hclose := closeGroup_of_parensAfter hb ('>' :: tail)
  have hshape : inside ++ ")>".toList ++ tail = inside ++ ')' :: '>' :: tail := by simp
  exact templateParts_eq_ok_some_iff.mpr ⟨_, hcut, hshape ▸ hclose⟩

theorem templateCloses_iff : TemplateCloses e ↔ ∃ parts, templateParts e = .ok parts := by
  constructor
  · intro h
    cases hcut : e.cut? "<(".toList with
    | none => exact ⟨none, templateParts_eq_ok_iff.mpr (Or.inl ⟨hcut, rfl⟩)⟩
    | some r =>
      obtain ⟨stem, opened⟩ := r
      obtain ⟨inside, tail, rfl, hb⟩ := h stem opened hcut
      exact ⟨_, templateParts_of_closed hcut hb⟩
  · rintro ⟨parts, hparts⟩ stem opened hcut
    obtain ⟨hnone, -⟩ | ⟨own, opened', -, hcut', hclose⟩ := templateParts_eq_ok_iff.mp hparts
    · cases hcut.symm.trans hnone
    · cases hcut.symm.trans hcut'
      refine ⟨own.inside, own.tail, ?_, parensAfter_of_closeGroup hclose⟩
      rw [append_of_closeGroup hclose]
      simp

/-- A declaration of whatever name is put together where the marks of the elements are. -/
theorem declare_returns_iff (hes : elements t = .ok es) (id : Text) :
    (∃ out, declare t id = .ok out) ↔ ∀ e ∈ es, e ≠ varargs → ∃ m, mark e = .ok m := by
  obtain ⟨l, hl, hval⟩ := elementsWithin_of_elements hes
  have hmarks : (∃ ms, (l.mapM fun e => if e.1 = varargs then pure (.lead "...".toList)
      else markFrom e.1 fun p => declare p.1 []) = Except.ok ms) ↔
      ∀ e ∈ es, ∃ m, (if e = varargs then pure (.lead "...".toList) else mark e) = Except.ok m :=
    mapM_values_returns_iff (f := fun e =>
      if e = varargs then pure (.lead "...".toList) else mark e) hval
  have hone : ∀ e : Text, (∃ m, (if e = varargs then pure (.lead "...".toList) else mark e) =
      Except.ok m) ↔ (e ≠ varargs → ∃ m, mark e = .ok m) := by
    intro e
    by_cases he : e = varargs
    · rw [if_pos he]
      exact ⟨fun _ hne => absurd he hne, fun _ => ⟨_, rfl⟩⟩
    · rw [if_neg he]
      exact ⟨fun h _ => h, fun h => h he⟩
  simp only [hone] at hmarks
  rw [← hmarks, declare, hl]
  exact bind_pure_returns_iff (f := fun ms => (assemble ms id).trimEnd)

theorem balanced_of_declare (h : ∃ out, declare t id = .ok out) : Balanced t := by
  obtain ⟨out, h⟩ := h
  cases hes : elements t with
  | ok es => exact balanced_of_elements hes
  | error f =>
    rw [declare, elementsWithin_of_error hes] at h
    cases h

theorem argument_of_group? {inside : Text} (h : group? e = .ok (some inside)) :
    argument e = .ok inside := by
  rw [argument, h]
  rfl

theorem arguments_of_group? {inside : Text} (h : group? e = .ok (some inside)) :
    arguments e = .ok (listed inside) := by
  rw [arguments, h]
  rfl

theorem mark_function_returns_iff {ps : List CType} (hk : Kind.of e = .function)
    (hps : arguments e = .ok ps) :
    (∃ m, mark e = .ok m) ↔ ∀ p ∈ ps, ∃ s, spelling p = .ok s := by
  obtain ⟨l, hl, hval⟩ := argumentsWithin_of_arguments hps
  rw [← mapM_values_returns_iff (f := spelling) hval, mark, markFrom, hk]
  show (∃ m, (argumentsWithin e >>= _ : Except Fault Mark) = .ok m) ↔ _
  rw [hl]
  show (∃ m, (l.mapM (fun p => spelling p.1) >>= _ : Except Fault Mark) = .ok m) ↔ _
  exact bind_pure_returns_iff (f := fun ss => Mark.suffix ('(' :: Text.commaJoin ss ++ [')']))

theorem nameSpelling_returns_iff : (∃ s, nameSpelling e = .ok s) ↔
    ∃ parts, templateParts e = .ok parts ∧
      ∀ ps, parts = some ps → ∀ p ∈ ps.arguments, ∃ s, spelling p = .ok s := by
  cases hparts : templateParts e with
  | error f =>
    rw [nameSpelling, nameFrom, templateWithin_of_error hparts]
    constructor
    · rintro ⟨s, h⟩
      cases h
    · rintro ⟨parts, h, -⟩
      cases h
  | ok parts =>
    cases parts with
    | none =>
      rw [nameSpelling, nameFrom, templateWithin_of_none hparts]
      exact ⟨fun _ => ⟨none, rfl, fun ps hps => by cases hps⟩, fun _ => ⟨e, rfl⟩⟩
    | some ps =>
      obtain ⟨within, hwithin, -, hval, -⟩ := templateWithin_of_templateParts hparts
      have hargs := mapM_values_returns_iff (f := spelling) hval
      have hspelled : (∃ s, nameSpelling e = .ok s) ↔ ∀ p ∈ ps.arguments, ∃ s, spelling p = .ok s := by
        rw [← hargs, nameSpelling, nameFrom, hwithin]
        exact bind_pure_returns_iff
          (f := fun ss => within.stem.1 ++ '<' :: Text.commaJoin ss ++ " >".toList ++ within.tail)
      rw [hspelled]
      constructor
      · intro h
        refine ⟨some ps, rfl, fun ps' hps' => ?_⟩
        cases hps'
        exact h
      · rintro ⟨parts, hp, h⟩
        cases hp
        exact h ps rfl

theorem mark_base_returns_iff (hk : Kind.of e = .base) :
    (∃ m, mark e = .ok m) ↔ ∃ s, nameSpelling e = .ok s := by
  rw [mark, markFrom, hk]
  exact bind_pure_returns_iff (f := fun s => Mark.lead (s ++ [' ']))

/-- A constructor that lists no types has a mark where its parentheses close. -/
theorem mark_of_balanced (hb : Balanced e) (hf : Kind.of e ≠ .function) (hn : Kind.of e ≠ .base) :
    ∃ m, mark e = .ok m := by
  have hargument : Kind.of e ≠ .pointer → Kind.of e ≠ .reference → ∃ x, argument e = .ok x := by
    intro hp hr
    obtain ⟨c, x, hc, rfl⟩ := opened_of_kind hp hr hn
    obtain ⟨inside, hgroup, -⟩ := group?_of_balanced hc hb
    exact ⟨inside, argument_of_group? hgroup⟩
  rw [mark, markFrom]
  cases hk : Kind.of e with
  | pointer => exact ⟨_, rfl⟩
  | reference => exact ⟨_, rfl⟩
  | function => exact absurd hk hf
  | base => exact absurd hk hn
  | array =>
    obtain ⟨x, hx⟩ := hargument (by simp [hk]) (by simp [hk])
    simp only [hx]
    exact ⟨_, rfl⟩
  | qualifier =>
    obtain ⟨x, hx⟩ := hargument (by simp [hk]) (by simp [hk])
    simp only [hx]
    exact ⟨_, rfl⟩
  | memberPointer =>
    obtain ⟨x, hx⟩ := hargument (by simp [hk]) (by simp [hk])
    simp only [hx]
    exact ⟨_, rfl⟩

theorem balanced_of_mem_elements (h : elements t = .ok es) (he : e ∈ es) : Balanced e := by
  by_cases ht : t = []
  · subst ht
    rw [elements_nil] at h
    cases h
    cases he
  · obtain ⟨fs, b, rfl, hfs, hb, hne⟩ := elements_cases h ht
    rcases List.mem_append.mp he with he | he
    · exact (hfs e he).balanced
    · cases List.mem_singleton.mp he
      exact balanced_of_elements_singleton hb hne

/-- The types that a spelled type is made of are spelled. -/
theorem Part.spelled (h : Part t u) (ht : ∃ s, spelling t = .ok s) : ∃ s, spelling u = .ok s := by
  induction h with
  | self => exact ht
  | @parameter u p e es ps _ hes he hk hps hp ih =>
    have hne : e ≠ varargs := by
      rintro rfl
      cases hk
    have hmark := (declare_returns_iff hes []).mp ih e he hne
    exact (mark_function_returns_iff hk hps).mp hmark p hp
  | @argument u p e es parts _ hes he hk hparts hp ih =>
    have hne : e ≠ varargs := by
      rintro rfl
      cases hparts
    have hmark := (declare_returns_iff hes []).mp ih e he hne
    obtain ⟨parts', hparts', hargs⟩ := nameSpelling_returns_iff.mp ((mark_base_returns_iff hk).mp hmark)
    cases hparts.symm.trans hparts'
    exact hargs parts rfl p hp

theorem templateCloses_varargs : TemplateCloses varargs := templateCloses_iff.mpr ⟨none, rfl⟩

/-- A type is spelled where its parentheses close and the template arguments of all names do that
are spelled on the way. -/
theorem declare_returns_iff_closed (id : Text) :
    (∃ out, declare t id = .ok out) ↔ Balanced t ∧ TemplatesClose t := by
  constructor
  · intro h
    have hb := balanced_of_declare h
    obtain ⟨es, hes⟩ := elements_of_balanced hb
    have hspelled : ∃ s, spelling t = .ok s :=
      (declare_returns_iff hes []).mpr ((declare_returns_iff hes id).mp h)
    refine ⟨hb, fun u us e hu hus he hk => ?_⟩
    by_cases hvar : e = varargs
    · exact hvar ▸ templateCloses_varargs
    · have hmark := (declare_returns_iff hus []).mp (hu.spelled hspelled) e he hvar
      obtain ⟨parts, hparts, -⟩ := nameSpelling_returns_iff.mp ((mark_base_returns_iff hk).mp hmark)
      exact templateCloses_iff.mpr ⟨parts, hparts⟩
  · rintro ⟨hb, hclose⟩
    induction hn : t.length using Nat.strongRecOn generalizing t id with
    | ind n ih =>
      subst hn
      obtain ⟨es, hes⟩ := elements_of_balanced hb
      have hpart : ∀ p, Part t p → Balanced p → p.length < t.length → ∃ s, spelling p = .ok s :=
        fun p hp hbp hlt => ih p.length hlt [] hbp (fun u us e hu => hclose u us e (hp.trans hu)) rfl
      refine (declare_returns_iff hes id).mpr fun e he _ => ?_
      have hbe := balanced_of_mem_elements hes he
      have hle := length_le_of_mem_elements hes he
      by_cases hf : Kind.of e = .function
      · obtain ⟨c, x, hc, rfl⟩ := opened_of_kind (e := e) (by simp [hf]) (by simp [hf]) (by simp [hf])
        obtain ⟨inside, hgroup, hinside⟩ := group?_of_balanced hc hbe
        have hps := arguments_of_group? hgroup
        refine (mark_function_returns_iff hf hps).mpr fun p hp => ?_
        exact hpart p (.parameter .self hes he hf hps hp) (hinside.listed p hp)
          (Nat.lt_of_lt_of_le (length_lt_of_mem_arguments hps hp) hle)
      · by_cases hk : Kind.of e = .base
        · obtain ⟨parts, hparts⟩ := templateCloses_iff.mp (hclose t es e .self hes he hk)
          refine (mark_base_returns_iff hk).mpr (nameSpelling_returns_iff.mpr ⟨parts, hparts, ?_⟩)
          rintro ps rfl p hp
          have hlt := Nat.lt_of_le_of_lt (length_le_of_mem_listed hp) (lengths_of_templateParts hparts).2
          refine hpart p (.argument .self hes he hk hparts hp) ?_ (Nat.lt_of_lt_of_le hlt hle)
          exact (templateParts_cases hparts).2.listed p hp
        · exact mark_of_balanced hbe hf hk

theorem split_returns_iff : (∃ r, split t = .ok r) ↔ Balanced t := by
  constructor
  · rintro ⟨r, h⟩
    obtain ⟨es, hes, -⟩ := map_eq_ok h
    exact balanced_of_elements hes
  · intro h
    obtain ⟨es, hes⟩ := elements_of_balanced h
    exact ⟨_, by rw [split, hes]; rfl⟩

theorem NoOpening.of_within (h : NoOpening t) (hw : w <:+: t) : NoOpening w :=
  fun hm => h (hm.trans hw)

theorem noOpening_of_notMem (h : '<' ∉ t) : NoOpening t :=
  fun hm => h (hm.subset List.mem_cons_self)

/-- Text without angle brackets opens nothing in front of a text. -/
theorem NoOpening.append (h : NoOpening t) (hw : '<' ∉ w) : NoOpening (w ++ t) := by
  induction w with
  | nil => exact h
  | cons c w ih =>
    have hc : c ≠ '<' := fun he => hw (he ▸ List.mem_cons_self)
    have hrest := ih fun hm => hw (List.mem_cons_of_mem _ hm)
    intro hm
    rcases List.infix_cons_iff.mp hm with hpre | hm
    · obtain ⟨u, hu⟩ := hpre
      exact hc (List.cons.inj hu).1.symm
    · exact hrest hm

theorem NoOpening.cons_less (h : NoOpening t) (ht : t.head? ≠ some '(') : NoOpening ('<' :: t) := by
  intro hm
  rcases List.infix_cons_iff.mp hm with ⟨u, hu⟩ | hm
  · refine ht ?_
    rw [← (List.cons.inj hu).2]
    rfl
  · exact h hm

theorem infix_of_commaPieces (k : Nat) (t : Text) :
    (commaPieces k t).1 <+: t ∧ ∀ p ∈ (commaPieces k t).2, p <:+: t := by
  induction t generalizing k with
  | nil => exact ⟨List.prefix_rfl, List.forall_mem_nil _⟩
  | cons c cs ih =>
    unfold commaPieces
    split
    · obtain ⟨hfirst, hothers⟩ := ih 0
      refine ⟨List.nil_prefix, List.forall_mem_cons.mpr ⟨List.infix_cons hfirst.isInfix, ?_⟩⟩
      exact fun p hp => List.infix_cons (hothers p hp)
    · obtain ⟨hfirst, hothers⟩ := ih (if c = '(' then k + 1 else if c = ')' then k - 1 else k)
      exact ⟨(List.prefix_cons_inj c).mpr hfirst, fun p hp => List.infix_cons (hothers p hp)⟩

theorem infix_of_mem_listed {p : Text} (h : p ∈ listed t) : p <:+: t := by
  unfold listed at h
  split at h
  · cases h
  · obtain ⟨hfirst, hothers⟩ := infix_of_commaPieces 0 t
    rcases List.mem_cons.mp h with rfl | h
    · exact hfirst.isInfix
    · exact hothers p h

theorem infix_of_mem_arguments {p : Text} {ps : List CType} (h : arguments t = .ok ps)
    (hp : p ∈ ps) : p <:+: t := by
  obtain ⟨inside, hgroup, rfl⟩ := group?_of_arguments h
  obtain ⟨front, rest, rfl, -⟩ := group?_cases hgroup
  exact (infix_of_mem_listed hp).trans ⟨front ++ ['('], ')' :: rest, by simp⟩

theorem infix_of_mem_elements (h : elements t = .ok es) (he : e ∈ es) : e <:+: t := by
  obtain ⟨before, after, rfl⟩ := List.append_of_mem he
  refine ⟨before.flatten, after.flatten, ?_⟩
  rw [← flatten_of_elements h]
  simp

theorem templateParts_of_noOpening (h : NoOpening t) : templateParts t = .ok none := by
  unfold templateParts
  cases hcut : t.cut? "<(".toList with
  | none => rfl
  | some r => exact absurd ⟨r.1, r.2, (Text.eq_of_cut? hcut).symm⟩ h

/-- Text that opens no template arguments is spelled where its parentheses close. -/
theorem spelling_of_noOpening (hb : Balanced t) (h : NoOpening t) : ∃ s, spelling t = .ok s := by
  have hpart : ∀ {u}, Part t u → NoOpening u := by
    intro u hu
    induction hu with
    | self => exact h
    | parameter _ hes he _ hps hp ih =>
      exact (ih.of_within (infix_of_mem_elements hes he)).of_within (infix_of_mem_arguments hps hp)
    | argument _ hes he _ hparts _ ih =>
      cases (templateParts_of_noOpening (ih.of_within (infix_of_mem_elements hes he))).symm.trans hparts
  refine (declare_returns_iff_closed []).mpr ⟨hb, fun u es e hu hes he _ => ?_⟩
  have hnone := templateParts_of_noOpening ((hpart hu).of_within (infix_of_mem_elements hes he))
  exact templateCloses_iff.mpr ⟨none, hnone⟩

end CType

end BindingTypes

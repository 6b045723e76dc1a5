import BindingTypes.Proofs.Registry.FoldingLog

namespace BindingTypes

namespace Registry

variable {r r' r'' : Registry}

/-- The maps of a registry agree with each other. -/
structure Consistent (r : Registry) : Prop where
  denotes : ∀ name, r.denoted.contains name = true → ∃ t, (r.denotedBy name).contains t = true
  listed : ∀ name t, (r.denotedBy name).contains t = true → (r.namesOf t).contains name = true
  shown : ∀ name, r.locals.contains name = true ↔ r.denoted.contains name = true
  owned : ∀ t, r.clientData.contains t = true → r.names.contains t = true

/-- Nothing that was recorded, listed or generated is taken back, and client data that was given
once stays as it is. -/
structure Grows (r r' : Registry) : Prop where
  denoted : r.Extends r'
  types : ∀ t, r.names.contains t = true → r'.names.contains t = true
  listed : ∀ t name, (r.namesOf t).contains name = true → (r'.namesOf t).contains name = true
  shown : ∀ name, r.locals.contains name = true → r'.locals.contains name = true
  clientData : ∀ t data, r.clientData.get? t = some data → r'.clientData.get? t = some data
  conversions : ∀ key, r.conversions.contains key = true → r'.conversions.contains key = true
  converters : r.converters <+: r'.converters

theorem Grows.refl (r : Registry) : r.Grows r :=
  ⟨.refl r, fun _ h => h, fun _ _ h => h, fun _ h => h, fun _ _ h => h, fun _ h => h,
    List.prefix_rfl⟩

theorem Grows.trans (h : r.Grows r') (h' : r'.Grows r'') : r.Grows r'' where
  denoted := h.denoted.trans h'.denoted
  types t ht := h'.types t (h.types t ht)
  listed t name hn := h'.listed t name (h.listed t name hn)
  shown name hn := h'.shown name (h.shown name hn)
  clientData t data hd := h'.clientData t data (h.clientData t data hd)
  conversions key hk := h'.conversions key (h.conversions key hk)
  converters := h.converters.trans h'.converters

theorem consistent_empty : Consistent {} := by
  refine ⟨?_, ?_, fun name => Iff.rfl, ?_⟩
  · intro name h
    cases h
  · intro name t h
    cases h
  · intro t h
    cases h

/-- What only lists more names and generates more conversions keeps a registry consistent. -/
theorem Consistent.of_sameRecords (h : r.Consistent) (hs : r.SameRecords r') (hg : r.Grows r') :
    r'.Consistent := by
  have hdenoted : ∀ name, r'.denotedBy name = r.denotedBy name := fun name => by
    rw [denotedBy, hs.denoted, denotedBy]
  refine ⟨fun name hn => ?_, fun name t ht => ?_, fun name => ?_, fun t ht => ?_⟩
  · rw [hs.denoted] at hn
    rw [hdenoted]
    exact h.denotes name hn
  · rw [hdenoted] at ht
    exact hg.listed t name (h.listed name t ht)
  · rw [hs.locals, hs.denoted]
    exact h.shown name
  · rw [hs.clientData] at ht
    exact hg.types t (h.owned t ht)

theorem grows_addName (c t : CType) (n : Text) : r.Grows (r.addName c n t) where
  denoted := extends_of_denoted_eq rfl
  types _ ht := Table.contains_insert.mpr (Or.inr ht)
  listed _ _ hn := contains_namesOf_addName hn
  shown _ hn := hn
  clientData _ _ hd := hd
  conversions _ hk := hk
  converters := List.prefix_rfl

/-- Entries that are inserted one by one take no key away. -/
theorem contains_foldl_insert {α β : Type} {key : β → Text} {value : β → α} {l : List β}
    {t : Table α} {k : Text} (h : t.contains k = true) :
    (l.foldl (fun t b => t.insert (key b) (value b)) t).contains k = true := by
  induction l generalizing t with
  | nil => exact h
  | cons b l ih => exact ih (Table.contains_insert.mpr (Or.inr h))

theorem grows_shareConverter (canonical : CType) (name target : Text) (known : List Text)
    (other : Text × CType) :
    r.Grows (Environment.shareConverter canonical name target known r other) := by
  have hconversions : ∀ key, r.conversions.contains key = true →
      (Environment.shareConverter canonical name target known r other).conversions.contains key =
        true := by
    intro key hk
    refine contains_foldl_insert ?_
    split
    · exact hk
    · exact Table.contains_insert.mpr (Or.inr hk)
  exact { grows_addName canonical other.2 other.1 with
    denoted := extends_of_denoted_eq rfl
    conversions := hconversions }

theorem grows_shareAll (canonical : CType) (name target : Text) (known : List Text)
    (others : List (Text × CType)) :
    r.Grows (others.foldl (Environment.shareConverter canonical name target known) r) := by
  induction others generalizing r with
  | nil => exact .refl r
  | cons other others ih => exact (grows_shareConverter canonical name target known other).trans ih

end Registry

namespace Environment

variable {env env' : Environment}

theorem grows_fold (r : Registry) (F : Folding) : r.Grows (fold r F) := by
  have hnamed := Registry.grows_addName (r := r) F.base F.derived F.source
  have hgenerated : r.Grows { r.addName F.base F.source F.derived with
      converters := r.converters ++ [F.converter]
      conversions := r.conversions.insert (conversionKey F.source F.target) F.converter.name } :=
    { hnamed with
      denoted := Registry.extends_of_denoted_eq rfl
      conversions := fun key hk => Table.contains_insert.mpr (Or.inr hk)
      converters := List.prefix_append _ _ }
  exact hgenerated.trans (Registry.grows_shareAll F.base F.converter.name F.target F.known _)

theorem grows_foldSubtype {canonical : CType} {target : Text} {known : List Text} {s : Subtype}
    (h : env.foldSubtype canonical target known s = .ok env') :
    env.registry.Grows env'.registry := by
  obtain ⟨front, source, -, -, ⟨-, hadded⟩ | ⟨-, F, -, -, -, -, -, -, -, -, -, -, hfold⟩⟩ :=
    foldSubtype_cases h
  · rw [hadded]
    exact Registry.grows_addName canonical (front ++ s.derived) source
  · rw [hfold]
    exact grows_fold env.registry F

theorem grows_foldSubtypes (h : env.foldSubtypes = .ok env') :
    env.registry.Grows env'.registry :=
  foldSubtypes_keeps (P := fun e => env.registry.Grows e.registry)
    (fun _ _ _ _ _ _ hp h => hp.trans (grows_foldSubtype h)) (.refl _) h

theorem grows_addSubtype {derived base : Text} {cast : Option Text}
    (h : env.addSubtype derived base cast = .ok env') : env.registry.Grows env'.registry := by
  obtain ⟨subtypes, rfl⟩ := addSubtype_eq_ok h
  exact { Registry.Grows.refl env.registry with denoted := Registry.extends_of_denoted_eq rfl }

variable {t : CType} {clientData : Option Text} {r : Registry} {e : Except RememberError Unit}

theorem grows_record (h : env.record t clientData = .ok (e, r)) : env.registry.Grows r := by
  have hextends := extends_record h
  obtain ⟨name, canonical, shown, data, -, -, hdata, rfl⟩ := record_eq_ok h
  have hnamed := Registry.grows_addName (r := env.registry) canonical canonical name
  refine { hnamed with
    denoted := hextends
    shown := fun name' hn => Table.contains_insert.mpr (Or.inr hn)
    clientData := fun t' data' ht => ?_ }
  rcases hdata with rfl | ⟨hnone, given, rfl⟩
  · exact ht
  · have hne : t' ≠ canonical := by
      rintro rfl
      rw [hnone] at ht
      cases ht
    rw [Table.get?_insert, if_neg hne]
    exact ht

theorem consistent_record (hc : env.registry.Consistent)
    (h : env.record t clientData = .ok (e, r)) : r.Consistent := by
  have hgrows := grows_record h
  obtain ⟨name, canonical, shown, data, -, -, hdata, rfl⟩ := record_eq_ok h
  have hdenotedBy : ∀ name' t', ((env.registry.addDenoted name canonical).denotedBy
      name').contains t' = true ↔
        name' = name ∧ t' = canonical ∨ (env.registry.denotedBy name').contains t' = true := by
    intro name' t'
    rw [Registry.denotedBy_addDenoted]
    by_cases hn : name' = name
    · subst hn
      rw [if_pos rfl, Table.contains_insert]
      simp
    · simp [hn]
  have hself : ((env.registry.addName canonical name canonical).namesOf canonical).contains name =
      true := by
    rw [Registry.namesOf_addName, if_pos rfl]
    exact Table.contains_insert.mpr (Or.inl rfl)
  refine ⟨fun name' hn => ?_, fun name' t' ht => ?_, fun name' => ?_, fun t' ht => ?_⟩
  · rcases Table.contains_insert.mp hn with rfl | hn
    · exact ⟨canonical, (hdenotedBy _ _).mpr (Or.inl ⟨rfl, rfl⟩)⟩
    · obtain ⟨t', ht⟩ := hc.denotes name' hn
      exact ⟨t', (hdenotedBy _ _).mpr (Or.inr ht)⟩
  · rcases (hdenotedBy name' t').mp ht with ⟨rfl, rfl⟩ | ht
    · exact hself
    · exact hgrows.listed t' name' (hc.listed name' t' ht)
  · exact Table.contains_insert.trans
      ((or_congr_right (hc.shown name')).trans Table.contains_insert.symm)
  · have htypes : t' = canonical ∨ env.registry.names.contains t' = true := by
      rcases hdata with rfl | ⟨-, given, rfl⟩
      · exact Or.inr (hc.owned t' ht)
      · exact (Table.contains_insert.mp ht).imp_right (hc.owned t')
    exact Table.contains_insert.mpr htypes

variable {edit : RegistryEdit}

theorem grows_register (h : env.register edit = .ok env') : env.registry.Grows env'.registry :=
  register_keeps (P := fun e => env.registry.Grows e.registry)
    (fun _ _ _ _ _ hp h => hp.trans (grows_record h))
    (fun _ _ _ _ _ hp h => hp.trans (grows_addSubtype h))
    (fun _ _ hp h => hp.trans (grows_foldSubtypes h)) (.refl _) h

theorem consistent_register (hc : env.registry.Consistent) (h : env.register edit = .ok env') :
    env'.registry.Consistent := by
  refine register_keeps (P := fun e => e.registry.Consistent)
    (fun _ _ _ _ _ hp h => consistent_record hp h) (fun env _ _ _ env' hp h => ?_)
    (fun _ _ hp h => hp.of_sameRecords (sameRecords_foldSubtypes h) (grows_foldSubtypes h)) hc h
  obtain ⟨subtypes, rfl⟩ := addSubtype_eq_ok h
  exact { hp with }

end Environment

namespace Consulted

theorem consistent_run (budget : Nat) (ops : List Operation) :
    (run budget ops).env.registry.Consistent :=
  registry_run (P := fun _ r => r.Consistent) budget (fun _ => Registry.consistent_empty)
    (fun _ _ _ _ hc => hc) (fun _ _ _ _ _ hc h => Environment.consistent_register hc h) ops

theorem grows_run (budget : Nat) (ops more : List Operation) :
    (run budget ops).env.registry.Grows (run budget (ops ++ more)).env.registry := by
  induction more using List.reverseRecOn with
  | nil =>
    rw [List.append_nil]
    exact .refl _
  | append_singleton more op ih =>
    rw [← List.append_assoc, run_concat]
    rcases registry_apply (run budget (ops ++ more)) op with hs | ⟨e, -, -, he⟩
    · rw [hs]
      exact ih
    · exact ih.trans (Environment.grows_register he)

end Consulted

/-- Along every run each runtime name that is known denotes some type and is listed for all types
it denotes, a local type is shown for exactly the known names, and only listed types have client
data. Whatever the run goes on with, nothing of this is taken back, and client data stays as it was
given first. -/
theorem registry_consistent_and_append_only (budget : Nat) (ops more : List Operation) :
    (Consulted.run budget ops).env.registry.Consistent ∧
      (Consulted.run budget ops).env.registry.Grows
        (Consulted.run budget (ops ++ more)).env.registry :=
  ⟨Consulted.consistent_run budget ops, Consulted.grows_run budget ops more⟩

end BindingTypes

import BindingTypes.Registry.TypeTable
import BindingTypes.Proofs.Outcome

namespace BindingTypes

/-- Only equivalents, conversions and converters may differ. -/
structure Registry.SameRecords (r r' : Registry) : Prop where
  remembered : r'.remembered = r.remembered
  denoted : r'.denoted = r.denoted
  locals : r'.locals = r.locals
  clientData : r'.clientData = r.clientData
  subtypes : r'.subtypes = r.subtypes

namespace Registry.SameRecords

variable {r r' r'' : Registry}

theorem refl (r : Registry) : r.SameRecords r := ⟨rfl, rfl, rfl, rfl, rfl⟩

theorem trans (h : r.SameRecords r') (h' : r'.SameRecords r'') : r.SameRecords r'' :=
  ⟨h'.remembered.trans h.remembered, h'.denoted.trans h.denoted, h'.locals.trans h.locals,
    h'.clientData.trans h.clientData, h'.subtypes.trans h.subtypes⟩

theorem shareConverter (canonical : CType) (converter target : Text) (known : List Text)
    (other : Text × CType) :
    r.SameRecords (Environment.shareConverter canonical converter target known r other) :=
  ⟨rfl, rfl, rfl, rfl, rfl⟩

theorem shareAll (canonical : CType) (converter target : Text) (known : List Text)
    (others : List (Text × CType)) :
    r.SameRecords
      (others.foldl (Environment.shareConverter canonical converter target known) r) := by
  induction others generalizing r with
  | nil => exact refl r
  | cons other others ih =>
    exact (shareConverter canonical converter target known other).trans ih

end Registry.SameRecords

namespace Environment

variable {env env' : Environment}

/-- Folding a subtype touches neither the scopes nor what was remembered. -/
theorem foldSubtype_eq_ok {canonical : CType} {target : Text} {known : List Text}
    {s : Subtype} (h : env.foldSubtype canonical target known s = .ok env') :
    env.registry.SameRecords env'.registry ∧ env'.graph = env.graph := by
  unfold foldSubtype at h
  obtain ⟨front, -, h⟩ := bind_eq_ok h
  obtain ⟨source, -, h⟩ := bind_eq_ok h
  dsimp only at h
  split at h
  · cases h
    exact ⟨⟨rfl, rfl, rfl, rfl, rfl⟩, rfl⟩
  · obtain ⟨result, -, h⟩ := bind_eq_ok h
    obtain ⟨shown, -, h⟩ := bind_eq_ok h
    cases h
    refine ⟨?_, rfl⟩
    show env.registry.SameRecords (List.foldl _ _ _)
    refine Registry.SameRecords.trans ?_ (Registry.SameRecords.shareAll _ _ _ _ _)
    exact ⟨rfl, rfl, rfl, rfl, rfl⟩

theorem foldType_cases {canonical : CType} (h : env.foldType canonical = .ok env') :
    ∃ base, CType.base canonical = .ok base ∧
      (env.registry.subtypes.get? base = none ∧ env' = env ∨
        ∃ subtypes target, env.registry.subtypes.get? base = some subtypes ∧
          CType.runtimeName env.graph.resolver canonical = .ok target ∧
          subtypes.foldlM (fun e s => e.foldSubtype canonical target
            (env.registry.namesOf canonical).keys s) env = .ok env') := by
  unfold foldType at h
  obtain ⟨base, hbase, h⟩ := bind_eq_ok h
  refine ⟨base, hbase, ?_⟩
  cases hs : env.registry.subtypes.get? base with
  | none =>
    rw [hs] at h
    cases h
    exact Or.inl ⟨rfl, rfl⟩
  | some subtypes =>
    rw [hs] at h
    obtain ⟨target, htarget, h⟩ := bind_eq_ok h
    exact Or.inr ⟨subtypes, target, rfl, htarget, h⟩

section Keeps

variable {P : Environment → Prop}
variable (hfold : ∀ env canonical target known s env', P env →
  env.foldSubtype canonical target known s = .ok env' → P env')

include hfold in
theorem foldType_keeps {canonical : CType} (hp : P env)
    (h : env.foldType canonical = .ok env') : P env' := by
  obtain ⟨base, -, ⟨-, rfl⟩ | ⟨subtypes, target, -, -, h⟩⟩ := foldType_cases h
  · exact hp
  · exact foldlM_keeps (fun env s _ env' hp h => hfold env _ _ _ s env' hp h) hp h

include hfold in
theorem foldSubtypes_keeps (hp : P env) (h : env.foldSubtypes = .ok env') : P env' :=
  foldlM_keeps (fun _ _ _ _ hp h => foldType_keeps hfold hp h) hp h

end Keeps

theorem sameRecords_foldSubtypes (h : env.foldSubtypes = .ok env') :
    env.registry.SameRecords env'.registry :=
  foldSubtypes_keeps (P := fun e => env.registry.SameRecords e.registry)
    (fun _ _ _ _ _ _ hp h => hp.trans (foldSubtype_eq_ok h).1) (.refl _) h

theorem graph_foldSubtypes (h : env.foldSubtypes = .ok env') : env'.graph = env.graph :=
  foldSubtypes_keeps (P := fun e => e.graph = env.graph)
    (fun _ _ _ _ _ _ hp h => (foldSubtype_eq_ok h).2.trans hp) rfl h

/-- A row of the table is read off the registry. -/
theorem tableEntry_eq_ok {r : Registry} {name : Text} {entry : TypeEntry}
    (h : r.tableEntry name = .ok entry) :
    entry.name = name ∧ entry.equivalents = (r.equivalents name).map fun other =>
      ⟨other, r.conversions.get? (conversionKey other name)⟩ := by
  unfold Registry.tableEntry at h
  split at h
  · obtain ⟨localType, -, h⟩ := bind_eq_ok h
    cases h
    exact ⟨rfl, rfl⟩
  · cases h
    exact ⟨rfl, rfl⟩

/-- The table is read from the registry after folding, which is kept. -/
theorem typeTable_cases {table : TypeTable} (h : env.typeTable = .ok (table, env')) :
    env.foldSubtypes = .ok env' ∧
      env'.registry.denoted.keys.mapM env'.registry.tableEntry = .ok table.entries ∧
      table.converters = env'.registry.converters := by
  unfold typeTable at h
  obtain ⟨folded, hf, h⟩ := bind_eq_ok h
  obtain ⟨entries, he, h⟩ := bind_eq_ok h
  cases h
  exact ⟨hf, he, rfl⟩

/-- A table has one row for each known runtime name. -/
theorem names_typeTable {table : TypeTable} (h : env.typeTable = .ok (table, env')) :
    table.entries.map (·.name) = env.rememberedNames := by
  obtain ⟨hf, he, -⟩ := typeTable_cases h
  rw [rememberedNames, ← (sameRecords_foldSubtypes hf).denoted]
  exact map_of_mapM (fun name entry h => (tableEntry_eq_ok h).1) he

end Environment

end BindingTypes

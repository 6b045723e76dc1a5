import BindingTypes.Proofs.Registry.Consistency
import BindingTypes.Proofs.Registry.DataSearch

namespace BindingTypes

/-- What each step of a fold leaves behind, and no later step takes away, holds in the end. -/
theorem foldlM_leaves {α β : Type} {f : β → α → Except Fault β} {P : β → Prop} {Q : α → β → Prop}
    {l : List α} (hstep : ∀ b, ∀ a ∈ l, ∀ b', P b → f b a = .ok b' → P b' ∧ Q a b')
    (hlater : ∀ b, ∀ a ∈ l, ∀ b' a', P b → f b a = .ok b' → Q a' b → Q a' b') {b b' : β}
    (hb : P b) (h : l.foldlM f b = .ok b') : ∀ a ∈ l, Q a b' := by
  induction l generalizing b with
  | nil => exact List.forall_mem_nil _
  | cons a l ih =>
    obtain ⟨c, hc, h⟩ := bind_eq_ok (List.foldlM_cons (f := f) ▸ h)
    obtain ⟨hpc, hqc⟩ := hstep b a List.mem_cons_self c hb hc
    have hrest := ih (fun b a ha => hstep b a (List.mem_cons_of_mem _ ha))
      (fun b a ha => hlater b a (List.mem_cons_of_mem _ ha)) hpc h
    have hkept : P b' ∧ Q a b' := foldlM_keeps (P := fun b => P b ∧ Q a b)
      (fun b a' ha b' hb hf => ⟨(hstep b a' (List.mem_cons_of_mem _ ha) b' hb.1 hf).1,
        hlater b a' (List.mem_cons_of_mem _ ha) b' a hb.1 hf hb.2⟩) ⟨hpc, hqc⟩ h
    exact List.forall_mem_cons.mpr ⟨hkept.2, hrest⟩

/-- A fold whose steps all succeed succeeds. -/
theorem foldlM_succeeds {α β : Type} {f : β → α → Except Fault β} {P : β → Prop} {l : List α}
    (hstep : ∀ b, ∀ a ∈ l, P b → ∃ b', f b a = .ok b' ∧ P b') {b : β} (hb : P b) :
    ∃ b', l.foldlM f b = .ok b' ∧ P b' := by
  induction l generalizing b with
  | nil => exact ⟨b, rfl, hb⟩
  | cons a l ih =>
    obtain ⟨c, hc, hpc⟩ := hstep b a List.mem_cons_self hb
    obtain ⟨b', hb', hpb'⟩ := ih (fun b a ha => hstep b a (List.mem_cons_of_mem _ ha)) hpc
    refine ⟨b', ?_, hpb'⟩
    rw [List.foldlM_cons, hc]
    exact hb'

namespace Registry

variable {r r' r'' : Registry} {c t : CType} {n : Text}

/-- The same types are listed under the same names, with the same conversions between them. The
types that names stand for may differ. -/
structure SameListings (r r' : Registry) : Prop extends r.SameRecords r' where
  types : r'.names.keys = r.names.keys
  names : ∀ t, (r'.namesOf t).keys = (r.namesOf t).keys
  conversions : r'.conversions = r.conversions
  converters : r'.converters = r.converters

theorem SameListings.refl (r : Registry) : r.SameListings r :=
  ⟨.refl r, rfl, fun _ => rfl, rfl, rfl⟩

theorem SameListings.trans (h : r.SameListings r') (h' : r'.SameListings r'') :
    r.SameListings r'' :=
  ⟨h.toSameRecords.trans h'.toSameRecords, h'.types.trans h.types,
    fun t => (h'.names t).trans (h.names t), h'.conversions.trans h.conversions,
    h'.converters.trans h.converters⟩

theorem SameListings.contains_namesOf (h : r.SameListings r')
    (hn : (r.namesOf t).contains n = true) : (r'.namesOf t).contains n = true := by
  rw [← Table.mem_keys_iff_contains, h.names t, Table.mem_keys_iff_contains]
  exact hn

theorem SameListings.grows (h : r.SameListings r') : r.Grows r' where
  denoted := extends_of_denoted_eq h.denoted
  types t ht := by
    rw [← Table.mem_keys_iff_contains, h.types, Table.mem_keys_iff_contains]
    exact ht
  listed _ _ hn := h.contains_namesOf hn
  shown name hn := by
    rw [h.locals]
    exact hn
  clientData t data hd := by
    rw [h.clientData]
    exact hd
  conversions key hk := by
    rw [h.conversions]
    exact hk
  converters := h.converters ▸ List.prefix_rfl

theorem contains_names_of_namesOf (h : (r.namesOf c).contains n = true) :
    r.names.contains c = true := by
  cases hc : r.names.get? c with
  | none =>
    rw [namesOf, hc] at h
    cases h
  | some names => exact Table.contains_iff.mpr ⟨names, hc⟩

/-- A name that is listed already may be listed again. -/
theorem sameListings_addName (h : (r.namesOf c).contains n = true) :
    r.SameListings (r.addName c n t) where
  toSameRecords := ⟨rfl, rfl, rfl, rfl, rfl⟩
  types := Table.keys_insert (contains_names_of_namesOf h)
  names u := by
    rw [namesOf_addName]
    by_cases hu : u = c
    · rw [if_pos hu, hu]
      exact Table.keys_insert h
    · rw [if_neg hu]
  conversions := rfl
  converters := rfl

theorem types_shareAll {name target : Text} {known : List Text} {others : List (Text × CType)}
    (h : r.names.contains c = true) :
    (others.foldl (Environment.shareConverter c name target known) r).names.keys =
      r.names.keys := by
  induction others generalizing r with
  | nil => rfl
  | cons other others ih =>
    have hshared : (Environment.shareConverter c name target known r other).names.contains c =
        true := Table.contains_insert.mpr (Or.inl rfl)
    exact (ih hshared).trans (Table.keys_insert h)

theorem listings_eq_sum (r : Registry) :
    r.listings = (r.names.keys.map fun t => (r.namesOf t).keys.length).sum := by
  have hkeys : r.names.keys = r.names.entries.map (·.1) := by
    rw [Table.keys, Table.entries, List.map_map]
    rfl
  have hsizes : ∀ e ∈ r.names.entries, e.2.size = (r.namesOf e.1).keys.length := by
    intro e he
    rw [namesOf, Table.get?_of_mem_entries he]
    exact (List.length_map _).symm
  have hsum : r.listings = (r.names.entries.map fun e => e.2.size).sum := by
    rw [listings, List.sum, List.foldr_map]
  rw [hsum, hkeys, List.map_map, List.map_congr_left hsizes]
  rfl

namespace SameListings

variable (h : r.SameListings r')
include h

theorem listings : r'.listings = r.listings := by
  rw [listings_eq_sum, listings_eq_sum, h.types, funext fun t => congrArg List.length (h.names t)]

theorem denotedBy (name : Text) : r'.denotedBy name = r.denotedBy name := by
  rw [Registry.denotedBy, h.denoted, Registry.denotedBy]

theorem expandTypes (ts : List CType) (seen : Table Unit) :
    r'.expandTypes ts seen = r.expandTypes ts seen := by
  induction ts generalizing seen with
  | nil => rfl
  | cons t ts ih =>
    rw [Registry.expandTypes, Registry.expandTypes, ih, ih, h.names]

theorem closure (fuel : Nat) (work : List Text) (seen found : Table Unit) :
    r'.closure fuel work seen found = r.closure fuel work seen found := by
  induction fuel generalizing work seen found with
  | zero => rfl
  | succ fuel ih =>
    cases work with
    | nil => rfl
    | cons name work =>
      rw [Registry.closure, Registry.closure, h.denotedBy, h.expandTypes]
      simp only [ih]

theorem equivalents (name : Text) : r'.equivalents name = r.equivalents name := by
  rw [Registry.equivalents, Registry.equivalents, h.listings, h.closure]

theorem firstTypeData (search : Table Unit → Text → Option Text × Table Unit) (ts : List CType)
    (checked : Table Unit) :
    r'.firstTypeData search ts checked = r.firstTypeData search ts checked := by
  induction ts generalizing checked with
  | nil => rfl
  | cons t ts ih =>
    simp only [Registry.firstTypeData, h.clientData, h.names, ih]

theorem searchClientData (fuel : Nat) : r'.searchClientData fuel = r.searchClientData fuel := by
  induction fuel with
  | zero => rfl
  | succ fuel ih =>
    funext checked name
    rw [Registry.searchClientData, Registry.searchClientData, ih, h.denotedBy, h.firstTypeData]

theorem clientDataOf (name : Text) : r'.clientDataOf name = r.clientDataOf name := by
  rw [Registry.clientDataOf, Registry.clientDataOf, h.listings, h.searchClientData]

/-- The rows of the type table are what the listings are. -/
theorem tableEntry : r'.tableEntry = r.tableEntry := by
  funext name
  simp only [Registry.tableEntry, h.locals, h.clientDataOf, h.equivalents, h.conversions]

end SameListings

end Registry

namespace Environment

variable {env env' folded : Environment} {canonical : CType} {target : Text} {s : Subtype}

/-- A subtype of the base of a canonical type is listed for it, with a conversion. -/
def Joined (env : Environment) (canonical : CType) (target : Text) (s : Subtype) : Prop :=
  ∃ front source, CType.front canonical = .ok front ∧
    CType.runtimeName env.graph.resolver (front ++ s.derived) = .ok source ∧
    (env.registry.namesOf canonical).contains source = true ∧
    env.registry.conversions.contains (conversionKey source target) = true

/-- All subtypes of the base of a canonical type are listed for it, with their conversions. -/
def Folded (env : Environment) (canonical : CType) : Prop :=
  ∃ base, CType.base canonical = .ok base ∧
    ∀ subtypes, env.registry.subtypes.get? base = some subtypes →
      ∃ target, CType.runtimeName env.graph.resolver canonical = .ok target ∧
        ∀ s ∈ subtypes, env.Joined canonical target s

/-- An environment with the same scopes, whose registry has only grown by equivalents. -/
structure Advances (env env' : Environment) : Prop where
  graph : env'.graph = env.graph
  records : env.registry.SameRecords env'.registry
  grows : env.registry.Grows env'.registry

theorem Advances.refl (env : Environment) : env.Advances env := ⟨rfl, .refl _, .refl _⟩

theorem Advances.trans {env'' : Environment} (h : env.Advances env') (h' : env'.Advances env'') :
    env.Advances env'' :=
  ⟨h'.graph.trans h.graph, h.records.trans h'.records, h.grows.trans h'.grows⟩

theorem advances_foldSubtype {known : List Text}
    (h : env.foldSubtype canonical target known s = .ok env') : env.Advances env' :=
  ⟨(foldSubtype_eq_ok h).2, (foldSubtype_eq_ok h).1, grows_foldSubtype h⟩

theorem advances_foldType (h : env.foldType canonical = .ok env') : env.Advances env' :=
  foldType_keeps (P := env.Advances) (fun _ _ _ _ _ _ hp h => hp.trans (advances_foldSubtype h))
    (.refl env) h

theorem Joined.advances (h : env.Joined canonical target s) (ha : env.Advances env') :
    env'.Joined canonical target s := by
  obtain ⟨front, source, hfront, hsource, hlisted, hknown⟩ := h
  refine ⟨front, source, hfront, ?_, ha.grows.listed _ _ hlisted, ha.grows.conversions _ hknown⟩
  rw [ha.graph]
  exact hsource

theorem Folded.advances (h : env.Folded canonical) (ha : env.Advances env') :
    env'.Folded canonical := by
  obtain ⟨base, hbase, hall⟩ := h
  refine ⟨base, hbase, fun subtypes hs => ?_⟩
  rw [ha.records.subtypes] at hs
  obtain ⟨target, htarget, hjoined⟩ := hall subtypes hs
  refine ⟨target, ?_, fun s hs => (hjoined s hs).advances ha⟩
  rw [ha.graph]
  exact htarget

theorem joined_of_foldSubtype {known : List Text}
    (h : env.foldSubtype canonical target known s = .ok env') : env'.Joined canonical target s := by
  have hgraph := (foldSubtype_eq_ok h).2
  obtain ⟨front, source, hfront, hsource, hcases⟩ := foldSubtype_cases h
  have hnamed : ((env.registry.addName canonical source (front ++ s.derived)).namesOf
      canonical).contains source = true := by
    rw [Registry.namesOf_addName, if_pos rfl]
    exact Table.contains_insert.mpr (Or.inl rfl)
  refine ⟨front, source, hfront, ?_, ?_⟩
  · rw [hgraph]
    exact hsource
  · rcases hcases with ⟨hknown, hr⟩ | ⟨-, F, rfl, hderived, rfl, rfl, -, -, -, -, -, -, hr⟩
    · rw [hr]
      exact ⟨hnamed, hknown⟩
    · rw [← hderived] at hnamed
      have hgrows := Registry.grows_shareAll F.base F.converter.name F.target F.known
        (selfNames (env.registry.addName F.base F.source F.derived) F.derived)
        (r := { env.registry.addName F.base F.source F.derived with
          converters := env.registry.converters ++ [F.converter]
          conversions := env.registry.conversions.insert (conversionKey F.source F.target)
            F.converter.name })
      rw [hr]
      exact ⟨hgrows.listed _ _ hnamed,
        hgrows.conversions _ (Table.contains_insert.mpr (Or.inl rfl))⟩

theorem folded_of_foldType (h : env.foldType canonical = .ok env') : env'.Folded canonical := by
  have hadvances := advances_foldType h
  obtain ⟨base, hbase, ⟨hnone, rfl⟩ | ⟨subtypes, target, hs, htarget, h⟩⟩ := foldType_cases h
  · refine ⟨base, hbase, fun subtypes hs => ?_⟩
    cases hnone.symm.trans hs
  · have hjoined : ∀ s ∈ subtypes, env'.Joined canonical target s :=
      foldlM_leaves (P := fun _ => True) (Q := fun s env => env.Joined canonical target s)
        (fun b s _ b' _ hf => ⟨trivial, joined_of_foldSubtype hf⟩)
        (fun b s _ b' s' _ hf hj => hj.advances (advances_foldSubtype hf)) trivial h
    refine ⟨base, hbase, fun subtypes' hs' => ⟨target, ?_, ?_⟩⟩
    · rw [hadvances.graph]
      exact htarget
    · rw [hadvances.records.subtypes, hs] at hs'
      cases hs'
      exact hjoined

/-- Folding leaves nothing to fold. -/
theorem folded_of_foldSubtypes (h : env.foldSubtypes = .ok folded) :
    ∀ canonical ∈ env.registry.names.keys, folded.Folded canonical :=
  foldlM_leaves (P := fun _ => True) (Q := fun c env => env.Folded c)
    (fun _ _ _ _ _ hf => ⟨trivial, folded_of_foldType hf⟩)
    (fun _ _ _ _ _ _ hf hq => hq.advances (advances_foldType hf)) trivial h

/-- An environment with the same scopes, whose registry has the same listings. -/
structure Agrees (env env' : Environment) : Prop where
  graph : env'.graph = env.graph
  listings : env.registry.SameListings env'.registry

theorem Agrees.refl (env : Environment) : env.Agrees env := ⟨rfl, .refl _⟩

theorem Agrees.trans {env'' : Environment} (h : env.Agrees env') (h' : env'.Agrees env'') :
    env.Agrees env'' :=
  ⟨h'.graph.trans h.graph, h.listings.trans h'.listings⟩

theorem Agrees.advances (h : env.Agrees env') : env.Advances env' :=
  ⟨h.graph, h.listings.toSameRecords, h.listings.grows⟩

theorem Joined.foldSubtype (h : env.Joined canonical target s) (known : List Text) :
    ∃ env', env.foldSubtype canonical target known s = .ok env' ∧ env.Agrees env' := by
  obtain ⟨front, source, hfront, hsource, hlisted, hknown⟩ := h
  have hnamed := Registry.sameListings_addName (t := front ++ s.derived) hlisted
  refine ⟨{ env with registry := env.registry.addName canonical source (front ++ s.derived) }, ?_,
    rfl, hnamed⟩
  unfold Environment.foldSubtype
  rw [hfront]
  show (CType.runtimeName env.graph.resolver (front ++ s.derived) >>= _) = _
  rw [hsource]
  exact if_pos hknown

theorem Folded.foldType (h : env.Folded canonical) :
    ∃ env', env.foldType canonical = .ok env' ∧ env.Agrees env' := by
  obtain ⟨base, hbase, hall⟩ := h
  unfold Environment.foldType
  simp only [hbase, bind, Except.bind]
  cases hs : env.registry.subtypes.get? base with
  | none => exact ⟨env, rfl, .refl env⟩
  | some subtypes =>
    obtain ⟨target, htarget, hjoined⟩ := hall subtypes hs
    simp only [htarget]
    exact foldlM_succeeds (P := env.Agrees) (fun e s hs he => by
      obtain ⟨e', hfold, he'⟩ := ((hjoined s hs).advances he.advances).foldSubtype _
      exact ⟨e', hfold, he.trans he'⟩) (.refl env)

/-- No type is listed that was not listed before. -/
theorem types_foldSubtype {known : List Text} (hc : env.registry.names.contains canonical = true)
    (h : env.foldSubtype canonical target known s = .ok env') :
    env'.registry.names.keys = env.registry.names.keys := by
  obtain ⟨front, source, -, -, hcases⟩ := foldSubtype_cases h
  rcases hcases with ⟨-, hr⟩ | ⟨-, F, rfl, hderived, rfl, rfl, -, -, -, -, -, -, hr⟩
  · rw [hr]
    exact Table.keys_insert hc
  · rw [hr]
    refine Eq.trans (Registry.types_shareAll ?_) (Table.keys_insert hc)
    exact Table.contains_insert.mpr (Or.inl rfl)

theorem types_foldType (hc : env.registry.names.contains canonical = true)
    (h : env.foldType canonical = .ok env') :
    env'.registry.names.keys = env.registry.names.keys := by
  obtain ⟨base, -, ⟨-, rfl⟩ | ⟨subtypes, target, -, -, h⟩⟩ := foldType_cases h
  · rfl
  · refine foldlM_keeps (P := fun e => e.registry.names.keys = env.registry.names.keys)
      (fun e s _ e' he hf => ?_) rfl h
    refine (types_foldSubtype ?_ hf).trans he
    rw [← Table.mem_keys_iff_contains, he, Table.mem_keys_iff_contains]
    exact hc

theorem types_foldSubtypes (h : env.foldSubtypes = .ok folded) :
    folded.registry.names.keys = env.registry.names.keys := by
  refine foldlM_keeps (P := fun e => e.registry.names.keys = env.registry.names.keys)
    (fun e c hc e' he hf => (types_foldType ?_ hf).trans he) rfl h
  rw [← Table.mem_keys_iff_contains, he]
  exact hc

/-- Folding again gives the same listings. -/
theorem foldSubtypes_again (h : env.foldSubtypes = .ok folded) :
    ∃ again, folded.foldSubtypes = .ok again ∧ folded.Agrees again := by
  have hfolded := folded_of_foldSubtypes h
  have hagain := foldlM_succeeds (f := Environment.foldType) (P := folded.Agrees)
    (l := env.registry.names.keys) (fun e c hc he => by
      obtain ⟨e', hfold, he'⟩ := ((hfolded c hc).advances he.advances).foldType
      exact ⟨e', hfold, he.trans he'⟩) (.refl folded)
  rw [← types_foldSubtypes h] at hagain
  exact hagain

/-- Folding again adds no type, no name of one, no conversion and no converter, and the type table
is written the same again. -/
theorem refolding_changes_nothing (env : Environment) :
    (∀ folded, env.foldSubtypes = .ok folded →
      ∃ again, folded.foldSubtypes = .ok again ∧
        folded.registry.SameRecords again.registry ∧
        again.registry.names.keys = folded.registry.names.keys ∧
        (∀ t, (again.registry.namesOf t).keys = (folded.registry.namesOf t).keys) ∧
        again.registry.conversions = folded.registry.conversions ∧
        again.registry.converters = folded.registry.converters) ∧
    ∀ table env', env.typeTable = .ok (table, env') →
      ∃ env'', env'.typeTable = .ok (table, env'') := by
  refine ⟨fun folded h => ?_, fun table env' h => ?_⟩
  · obtain ⟨again, hagain, -, hsame⟩ := foldSubtypes_again h
    exact ⟨again, hagain, hsame.toSameRecords, hsame.types, hsame.names, hsame.conversions,
      hsame.converters⟩
  · obtain ⟨folded, hfolded, h⟩ := bind_eq_ok h
    obtain ⟨entries, hentries, h⟩ := bind_eq_ok h
    cases h
    obtain ⟨again, hagain, -, hsame⟩ := foldSubtypes_again hfolded
    refine ⟨again, ?_⟩
    unfold typeTable
    rw [hagain]
    show (again.registry.denoted.keys.mapM again.registry.tableEntry >>= _) = _
    rw [hsame.denoted, hsame.tableEntry, hentries, ← hsame.converters]
    rfl

/-- Pointers and references to a class and to one derived from it: the first folding generates
converters for both, the second none. -/
theorem refolding_of_derived_pointer : ∃ env folded again : Environment,
    env.foldSubtypes = .ok folded ∧ folded.foldSubtypes = .ok again ∧
    env.registry.converters = [] ∧
    folded.registry.converters.map (·.name) = ["_p_DerivedTo_p_Base".toList] ∧
    again.registry.converters = folded.registry.converters ∧
    ∃ table env' env'', env.typeTable = .ok (table, env') ∧
      env'.typeTable = .ok (table, env'') := by
  let env := (Consulted.run 9 [.scopes (.defineClass "Base".toList),
    .scopes (.defineClass "Derived".toList), .registry (.remember "r.Base".toList none) [],
    .registry (.remember "p.Derived".toList none) [],
    .registry (.addSubtype "Derived".toList "Base".toList none) []]).env
  obtain ⟨hfolding, htable⟩ := refolding_changes_nothing env
  have hnames : env.foldSubtypes.map (·.registry.converters.map (·.name)) =
      .ok ["_p_DerivedTo_p_Base".toList] := by decide +kernel
  have hnone : env.registry.converters = [] := by decide +kernel
  obtain ⟨folded, hfolded, hconverters⟩ := map_eq_ok hnames
  obtain ⟨again, hagain, -, -, -, -, hsame⟩ := hfolding folded hfolded
  have hwritten : env.typeTable.map (·.1.entries.length) = .ok 2 := by decide +kernel
  obtain ⟨⟨table, env'⟩, hfirst, -⟩ := map_eq_ok hwritten
  obtain ⟨env'', hsecond⟩ := htable table env' hfirst
  exact ⟨env, folded, again, hfolded, hagain, hnone, hconverters, hsame, table, env', env'', hfirst,
    hsecond⟩

end Environment

end BindingTypes

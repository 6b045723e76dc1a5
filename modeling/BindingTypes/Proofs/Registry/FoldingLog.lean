import BindingTypes.Proofs.Registry.History
import BindingTypes.Proofs.Registry.Joining

namespace BindingTypes

namespace Registry

variable {H H' : ScopeGraph → Prop} {r r' : Registry} {log : List Folding}

/-- The runtime name is on record for the type, or it is what the type is called in one of the
graphs. -/
def Stands (H : ScopeGraph → Prop) (r : Registry) (name : Text) (t : CType) : Prop :=
  (r.denotedBy name).contains t = true ∨ ∃ g, H g ∧ CType.runtimeName g.resolver t = .ok name

/-- The direct subtypes registered for a base. -/
def subtypesOf (r : Registry) (base : Text) : List Subtype := (r.subtypes.get? base).getD []

/-- Nothing that is denoted, listed or registered is taken back. -/
structure Widens (r r' : Registry) : Prop where
  types : r.Extends r'
  listed : ∀ c n, (r.namesOf c).contains n = true → (r'.namesOf c).contains n = true
  subtypes : ∀ base s, s ∈ r.subtypesOf base → s ∈ r'.subtypesOf base

/-- What is known of a conversion that folding generated. -/
structure Genuine (H : ScopeGraph → Prop) (r : Registry) (F : Folding) : Prop where
  name : F.converter.name = F.source ++ "To".toList ++ F.target
  read : ∃ g, H g ∧ CType.runtimeName g.resolver F.derived = .ok F.source ∧
    CType.runtimeName g.resolver F.base = .ok F.target ∧
    CType.localDeclaration g.resolver F.base [] = .ok F.converter.result ∧
    CType.localDeclaration g.resolver F.derived [] = .ok F.converter.source
  registered : ∃ front base s, CType.split F.base = .ok (front, base) ∧
    F.derived = front ++ s.derived ∧ F.converter.cast = s.cast ∧ s ∈ r.subtypesOf base
  known : ∀ k ∈ F.known, (r.namesOf F.base).contains k = true
  aliases : ∀ q ∈ F.aliases, r.Stands H q F.derived

/-- The log tells where the conversions of a registry come from. -/
structure Logged (H : ScopeGraph → Prop) (r : Registry) (log : List Folding) : Prop where
  converters : r.converters = log.map (·.converter)
  conversions : ∀ q e, '+' ∉ q → r.conversions.get? (Environment.conversionKey q e) =
    (Folding.inForce log q e).map (·.converter.name)
  listed : ∀ c n t, (r.namesOf c).get? n = some t → '+' ∉ n ∧ r.Stands H n t
  denoted : ∀ n, r.denoted.contains n = true → '+' ∉ n
  genuine : ∀ F ∈ log, r.Genuine H F

theorem Stands.mono {name : Text} {t : CType} (h : r.Stands H name t) (hH : ∀ g, H g → H' g)
    (he : r.Extends r') : r'.Stands H' name t := by
  rcases h with h | ⟨g, hg, h⟩
  · exact Or.inl (he.types name t h)
  · exact Or.inr ⟨g, hH g hg, h⟩

theorem Genuine.mono {F : Folding} (h : r.Genuine H F) (hH : ∀ g, H g → H' g)
    (hw : r.Widens r') : r'.Genuine H' F := by
  obtain ⟨g, hg, hread⟩ := h.read
  obtain ⟨front, base, s, hs, hd, hc, hm⟩ := h.registered
  exact ⟨h.name, ⟨g, hH g hg, hread⟩, ⟨front, base, s, hs, hd, hc, hw.subtypes base s hm⟩,
    fun k hk => hw.listed F.base k (h.known k hk),
    fun q hq => (h.aliases q hq).mono hH hw.types⟩

theorem Widens.refl (r : Registry) : r.Widens r :=
  ⟨.refl r, fun _ _ h => h, fun _ _ h => h⟩

theorem Widens.trans {r'' : Registry} (h : r.Widens r') (h' : r'.Widens r'') : r.Widens r'' :=
  ⟨h.types.trans h'.types, fun c n hn => h'.listed c n (h.listed c n hn),
    fun base s hs => h'.subtypes base s (h.subtypes base s hs)⟩

theorem logged_empty : Logged H {} [] := by
  refine ⟨rfl, fun q e hq => rfl, ?_, ?_, ?_⟩
  · intro c n t h
    cases h
  · intro n h
    cases h
  · intro F h
    cases h

theorem Logged.more (h : r.Logged H log) (hH : ∀ g, H g → H' g) : r.Logged H' log :=
  ⟨h.converters, h.conversions,
    fun c n t hn => ⟨(h.listed c n t hn).1, (h.listed c n t hn).2.mono hH (.refl r)⟩, h.denoted,
    fun F hF => (h.genuine F hF).mono hH (.refl r)⟩

/-- A change that generates no conversion keeps the log. -/
theorem Logged.of_widens (h : r.Logged H log) (hw : r.Widens r')
    (hconverters : r'.converters = r.converters) (hconversions : r'.conversions = r.conversions)
    (hlisted : ∀ c n t, (r'.namesOf c).get? n = some t →
      (r.namesOf c).get? n = some t ∨ '+' ∉ n ∧ r'.Stands H n t)
    (hdenoted : ∀ n, r'.denoted.contains n = true → r.denoted.contains n = true ∨ '+' ∉ n) :
    r'.Logged H log := by
  refine ⟨hconverters.trans h.converters, ?_, ?_, ?_, ?_⟩
  · intro q e hq
    rw [hconversions]
    exact h.conversions q e hq
  · intro c n t hn
    rcases hlisted c n t hn with hn | hn
    · exact ⟨(h.listed c n t hn).1, (h.listed c n t hn).2.mono (fun _ hg => hg) hw.types⟩
    · exact hn
  · intro n hn
    exact (hdenoted n hn).elim (h.denoted n) id
  · intro F hF
    exact (h.genuine F hF).mono (fun _ hg => hg) hw

end Registry

namespace Environment

variable {env env' : Environment} {H : ScopeGraph → Prop} {log : List Folding}

theorem logged_record {t : CType} {clientData : Option Text} {r : Registry}
    {e : Except RememberError Unit} (h : env.registry.Logged H log)
    (hr : env.record t clientData = .ok (e, r)) : r.Logged H log := by
  obtain ⟨name, canonical, hrec⟩ := recorded_of_record hr
  have hnames : ∀ c, r.namesOf c =
      (env.registry.addName canonical name canonical).namesOf c := by
    intro c
    rw [Registry.namesOf, hrec.names, Registry.namesOf]
  have hfree : '+' ∉ name := CType.plus_notMem_runtimeName hrec.named
  have hdenotes : (r.denotedBy name).contains canonical = true := by
    rw [Registry.denotedBy, hrec.denoted]
    show ((env.registry.addDenoted name canonical).denotedBy name).contains canonical = true
    rw [Registry.denotedBy_addDenoted, if_pos rfl]
    exact Table.contains_insert.mpr (Or.inl rfl)
  have hw : env.registry.Widens r := by
    refine ⟨extends_record hr, fun c n hn => ?_, fun base s hs => ?_⟩
    · rw [hnames]
      exact Registry.contains_namesOf_addName hn
    · rw [Registry.subtypesOf, hrec.subtypes]
      exact hs
  refine h.of_widens hw hrec.converters hrec.conversions (fun c n t hn => ?_) (fun n hn => ?_)
  · rw [hnames] at hn
    rcases Registry.get?_namesOf_addName hn with ⟨rfl, rfl, rfl⟩ | hn
    · exact Or.inr ⟨hfree, Or.inl hdenotes⟩
    · exact Or.inl hn
  · rw [hrec.denoted] at hn
    rcases Table.contains_insert.mp hn with rfl | hn
    · exact Or.inr hfree
    · exact Or.inl hn

theorem logged_addSubtype {derived base : Text} {cast : Option Text}
    (h : env.registry.Logged H log) (hs : env.addSubtype derived base cast = .ok env') :
    env'.registry.Logged H log := by
  unfold addSubtype at hs
  obtain ⟨d, -, hs⟩ := bind_eq_ok hs
  obtain ⟨b, -, hs⟩ := bind_eq_ok hs
  cases hs
  refine h.of_widens ⟨Registry.extends_of_denoted_eq rfl, fun _ _ hn => hn, fun base' s hm => ?_⟩
    rfl rfl (fun _ _ _ hn => Or.inl hn) (fun _ hn => Or.inl hn)
  simp only [Registry.subtypesOf, Table.get?_insert]
  by_cases hb : base' = b
  · subst hb
    rw [if_pos rfl, Option.getD_some]
    split
    · exact hm
    · exact List.mem_append_left _ hm
  · rw [if_neg hb]
    exact hm

/-- The names that stand for a type itself. -/
def selfNames (r : Registry) (t : CType) : List (Text × CType) :=
  (r.namesOf t).entries.filter fun e => e.2 = t

/-- What generating a conversion does to the registry. -/
def fold (r : Registry) (F : Folding) : Registry :=
  let named := r.addName F.base F.source F.derived
  (selfNames named F.derived).foldl (shareConverter F.base F.converter.name F.target F.known)
    { named with
      converters := r.converters ++ [F.converter]
      conversions := r.conversions.insert (conversionKey F.source F.target) F.converter.name }

/-- A subtype is listed for the base; a conversion is generated where there is none yet between
the two names. -/
theorem foldSubtype_cases {canonical : CType} {target : Text} {known : List Text} {s : Subtype}
    (h : env.foldSubtype canonical target known s = .ok env') :
    ∃ front source, CType.front canonical = .ok front ∧
      CType.runtimeName env.graph.resolver (front ++ s.derived) = .ok source ∧
      (env.registry.conversions.contains (conversionKey source target) = true ∧
        env'.registry = env.registry.addName canonical source (front ++ s.derived) ∨
        env.registry.conversions.get? (conversionKey source target) = none ∧
        ∃ F : Folding, F.base = canonical ∧ F.derived = front ++ s.derived ∧
          F.target = target ∧ F.source = source ∧ F.known = known ∧
          F.aliases = (selfNames (env.registry.addName F.base F.source F.derived) F.derived).map
            (·.1) ∧
          F.converter.name = source ++ "To".toList ++ target ∧
          CType.localDeclaration env.graph.resolver F.base [] = .ok F.converter.result ∧
          CType.localDeclaration env.graph.resolver F.derived [] = .ok F.converter.source ∧
          F.converter.cast = s.cast ∧ env'.registry = fold env.registry F) := by
  unfold foldSubtype at h
  obtain ⟨front, hfront, h⟩ := bind_eq_ok h
  obtain ⟨source, hsource, h⟩ := bind_eq_ok h
  refine ⟨front, source, hfront, hsource, ?_⟩
  dsimp only at h
  split at h
  · rename_i hknown
    cases h
    exact Or.inl ⟨hknown, rfl⟩
  · rename_i hnone
    obtain ⟨result, hresult, h⟩ := bind_eq_ok h
    obtain ⟨shown, hshown, h⟩ := bind_eq_ok h
    cases h
    have hnone : ¬ env.registry.conversions.contains (conversionKey source target) = true := hnone
    have hnone : env.registry.conversions.get? (conversionKey source target) = none := by
      simpa [Table.contains] using hnone
    exact Or.inr ⟨hnone, ⟨canonical, front ++ s.derived, target, source, known,
      (selfNames (env.registry.addName canonical source (front ++ s.derived))
        (front ++ s.derived)).map (·.1), ⟨source ++ "To".toList ++ target, result, s.cast, shown⟩⟩,
      rfl, rfl, rfl, rfl, rfl, rfl, rfl, hresult, hshown, rfl, rfl⟩

theorem sameRecords_fold (r : Registry) (F : Folding) : r.SameRecords (fold r F) := by
  refine Registry.SameRecords.trans ?_ (Registry.SameRecords.shareAll _ _ _ _ _)
  exact ⟨rfl, rfl, rfl, rfl, rfl⟩

theorem widens_addName (r : Registry) (c t : CType) (n : Text) : r.Widens (r.addName c n t) :=
  ⟨Registry.extends_of_denoted_eq rfl, fun _ _ hn => Registry.contains_namesOf_addName hn,
    fun _ _ hs => hs⟩

theorem widens_fold (r : Registry) (F : Folding) : r.Widens (fold r F) := by
  refine ⟨Registry.extends_of_denoted_eq (sameRecords_fold r F).denoted, fun c n hn => ?_,
    fun base s hs => ?_⟩
  · exact Registry.contains_namesOf_shareAll
      ((widens_addName r F.base F.derived F.source).listed c n hn)
  · rw [Registry.subtypesOf, (sameRecords_fold r F).subtypes]
    exact hs

/-- What folding writes for two names. -/
theorem get?_fold {r : Registry} {F : Folding} {q e : Text} (hq : '+' ∉ q)
    (hfree : '+' ∉ F.source)
    (haliases : F.aliases = (selfNames (r.addName F.base F.source F.derived) F.derived).map (·.1))
    (hself : ∀ n ∈ F.aliases, '+' ∉ n)
    (hnone : r.conversions.get? (conversionKey F.source F.target) = none) :
    (fold r F).conversions.get? (conversionKey q e) =
      if q ∈ F.aliases ∧ e ∈ F.known then some F.converter.name
      else if (q = F.source ∨ q ∈ F.aliases) ∧ e = F.target then
        (r.conversions.get? (conversionKey q e)).or (some F.converter.name)
      else r.conversions.get? (conversionKey q e) := by
  have hall : ∀ other ∈ selfNames (r.addName F.base F.source F.derived) F.derived,
      '+' ∉ other.1 := by
    intro other ho
    rw [haliases] at hself
    exact hself _ (List.mem_map.mpr ⟨other, ho, rfl⟩)
  refine (Registry.get?_shareAll hq hall).trans ?_
  rw [← haliases]
  have hinsert : (r.conversions.insert (conversionKey F.source F.target) F.converter.name).get?
      (conversionKey q e) = if q = F.source ∧ e = F.target then some F.converter.name
        else r.conversions.get? (conversionKey q e) := by
    rw [Table.get?_insert]
    simp only [conversionKey_inj hq hfree]
  dsimp only
  rw [hinsert]
  by_cases hs : q = F.source ∧ e = F.target
  · obtain ⟨rfl, rfl⟩ := hs
    rw [hnone]
    by_cases ha : F.source ∈ F.aliases <;> simp [ha]
  · rw [if_neg hs]
    have htarget : (q = F.source ∨ q ∈ F.aliases) ∧ e = F.target ↔
        q ∈ F.aliases ∧ e = F.target := by
      constructor
      · rintro ⟨hq | hq, he⟩
        · exact absurd ⟨hq, he⟩ hs
        · exact ⟨hq, he⟩
      · rintro ⟨hq, he⟩
        exact ⟨Or.inr hq, he⟩
    simp only [htarget]

section Listed

variable {r r' : Registry} {base derived : CType} {source : Text}
variable (h : r.Logged H log) (he : r.Extends r')
  (hsource : '+' ∉ source ∧ r'.Stands H source derived)
include h he hsource

/-- With one name more, every listed name stands for its type. -/
theorem stands_of_addName {c t : CType} {n : Text}
    (hn : ((r.addName base source derived).namesOf c).get? n = some t) :
    '+' ∉ n ∧ r'.Stands H n t := by
  rcases Registry.get?_namesOf_addName hn with ⟨-, rfl, rfl⟩ | hn
  · exact hsource
  · obtain ⟨hfree, hstands⟩ := h.listed c n t hn
    exact ⟨hfree, hstands.mono (fun _ hg => hg) he⟩

theorem stands_of_mem_selfNames {other : Text × CType}
    (ho : other ∈ selfNames (r.addName base source derived) derived) :
    '+' ∉ other.1 ∧ r'.Stands H other.1 derived := by
  obtain ⟨hm, hself⟩ := List.mem_filter.mp ho
  obtain ⟨hfree, hstands⟩ := stands_of_addName h he hsource (Table.get?_of_mem_entries hm)
  exact ⟨hfree, of_decide_eq_true hself ▸ hstands⟩

end Listed

/-- What the log says after a conversion was generated. -/
theorem logged_fold {r : Registry} {F : Folding} (h : r.Logged H log)
    (hnone : r.conversions.get? (conversionKey F.source F.target) = none)
    (haliases : F.aliases = (selfNames (r.addName F.base F.source F.derived) F.derived).map (·.1))
    (hname : F.converter.name = F.source ++ "To".toList ++ F.target)
    (hread : ∃ g, H g ∧ CType.runtimeName g.resolver F.derived = .ok F.source ∧
      CType.runtimeName g.resolver F.base = .ok F.target ∧
      CType.localDeclaration g.resolver F.base [] = .ok F.converter.result ∧
      CType.localDeclaration g.resolver F.derived [] = .ok F.converter.source)
    (hregistered : ∃ front base s, CType.split F.base = .ok (front, base) ∧
      F.derived = front ++ s.derived ∧ F.converter.cast = s.cast ∧ s ∈ r.subtypesOf base)
    (hknown : ∀ k ∈ F.known, (r.namesOf F.base).contains k = true) :
    (fold r F).Logged H (log ++ [F]) := by
  obtain ⟨g, hg, hsource, hread⟩ := hread
  have hw := widens_fold r F
  have hstands : '+' ∉ F.source ∧ (fold r F).Stands H F.source F.derived :=
    ⟨CType.plus_notMem_runtimeName hsource, Or.inr ⟨g, hg, hsource⟩⟩
  have haliased : ∀ n ∈ F.aliases, '+' ∉ n ∧ (fold r F).Stands H n F.derived := by
    intro n hn
    rw [haliases] at hn
    obtain ⟨other, ho, rfl⟩ := List.mem_map.mp hn
    exact stands_of_mem_selfNames h hw.types hstands ho
  constructor
  case converters =>
    show (List.foldl _ _ _ : Registry).converters = _
    rw [Registry.converters_shareAll, List.map_append, ← h.converters]
    rfl
  case conversions =>
    intro q e hq
    rw [get?_fold hq hstands.1 haliases (fun n hn => (haliased n hn).1) hnone,
      h.conversions q e hq, Folding.inForce_concat, Folding.inPlaceOf]
    split
    · rfl
    · split
      · cases Folding.inForce log q e <;> rfl
      · rfl
  case listed =>
    intro c n t hn
    rcases Registry.get?_namesOf_shareAll hn with ⟨-, ho⟩ | hn
    · obtain rfl : t = F.derived := of_decide_eq_true (List.mem_filter.mp ho).2
      exact stands_of_mem_selfNames h hw.types hstands ho
    · exact stands_of_addName h hw.types hstands hn
  case denoted =>
    intro n hn
    rw [(sameRecords_fold r F).denoted] at hn
    exact h.denoted n hn
  case genuine =>
    intro G hG
    rcases List.mem_append.mp hG with hG | hG
    · exact (h.genuine G hG).mono (fun _ hg => hg) hw
    · rcases List.mem_singleton.mp hG with rfl
      obtain ⟨front, base, s, hs, hd, hc, hm⟩ := hregistered
      exact ⟨hname, ⟨g, hg, hsource, hread⟩, ⟨front, base, s, hs, hd, hc, hw.subtypes _ _ hm⟩,
        fun k hk => hw.listed _ _ (hknown k hk), fun q hq => (haliased q hq).2⟩

end Environment

end BindingTypes

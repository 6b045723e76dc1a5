import BindingTypes.Proofs.Registry.Remember
import BindingTypes.Proofs.Table

namespace BindingTypes

namespace Registry

variable {r r' r'' : Registry}

/-- Nothing that a name denotes is taken back. -/
structure Extends (r r' : Registry) : Prop where
  names : ∀ name, r.denoted.contains name = true → r'.denoted.contains name = true
  types : ∀ name t, (r.denotedBy name).contains t = true → (r'.denotedBy name).contains t = true

theorem Extends.refl (r : Registry) : r.Extends r := ⟨fun _ h => h, fun _ _ h => h⟩

theorem Extends.trans (h : r.Extends r') (h' : r'.Extends r'') : r.Extends r'' :=
  ⟨fun name hn => h'.names name (h.names name hn),
    fun name t ht => h'.types name t (h.types name t ht)⟩

theorem extends_of_denoted_eq (h : r'.denoted = r.denoted) : r.Extends r' := by
  refine ⟨fun name hn => h ▸ hn, fun name t ht => ?_⟩
  rw [denotedBy, h]
  exact ht

theorem denotedBy_addDenoted (name name' : Text) (t : CType) :
    (r.addDenoted name t).denotedBy name' =
      if name' = name then (r.denotedBy name).insert t () else r.denotedBy name' := by
  simp only [denotedBy, addDenoted, Table.get?_insert]
  by_cases h : name' = name <;> simp [h]

theorem extends_addDenoted (name : Text) (t : CType) : r.Extends (r.addDenoted name t) := by
  refine ⟨fun name' hn => Table.contains_insert.mpr (Or.inr hn), fun name' t' ht => ?_⟩
  rw [denotedBy_addDenoted]
  by_cases h : name' = name
  · subst h
    rw [if_pos rfl]
    exact Table.contains_insert.mpr (Or.inr ht)
  · rw [if_neg h]
    exact ht

end Registry

/-- What `t` is called and what it means in `g` is on record. -/
def Registry.Records (r : Registry) (g : ScopeGraph) (t : CType) : Prop :=
  ∃ name canonical, CType.runtimeName g.resolver t = .ok name ∧
    Environment.canonical ⟨g, r⟩ t = .ok canonical ∧ r.denoted.contains name = true ∧
    (r.denotedBy name).contains canonical = true

theorem Registry.Records.of_extends {r r' : Registry} {g : ScopeGraph} {t : CType}
    (h : r.Records g t) (he : r.Extends r') : r'.Records g t := by
  obtain ⟨name, canonical, hn, hc, hk, hd⟩ := h
  exact ⟨name, canonical, hn, hc, he.names name hk, he.types name canonical hd⟩

namespace Environment

variable {env env' : Environment} {t : CType} {clientData : Option Text}

theorem extends_record {r : Registry} {e : Except RememberError Unit}
    (h : env.record t clientData = .ok (e, r)) : env.registry.Extends r := by
  obtain ⟨name, canonical, hr⟩ := recorded_of_record h
  exact (Registry.extends_addDenoted name canonical).trans
    (Registry.extends_of_denoted_eq hr.denoted)

theorem extends_recordNew {r : Registry} {e : Except RememberError Unit}
    (h : env.recordNew t clientData = .ok (e, r)) : env.registry.Extends r :=
  recordNew_keeps (P := fun e => env.registry.Extends e.registry)
    (fun _ _ _ _ _ hp h => hp.trans (extends_record h)) (.refl _) h

/-- The runtime name of `t`, as it reads now, is known and denotes what `t` means now. -/
def Denotes (env : Environment) (t : CType) : Prop := env.registry.Records env.graph t

theorem records_of_record {r : Registry} {e : Except RememberError Unit}
    (h : env.record t clientData = .ok (e, r)) : r.Records env.graph t := by
  obtain ⟨name, canonical, hr⟩ := recorded_of_record h
  refine ⟨name, canonical, hr.named, hr.means, ?_, ?_⟩
  · rw [hr.denoted]
    exact Table.contains_insert.mpr (Or.inl rfl)
  · have hd : r.denotedBy name = (env.registry.addDenoted name canonical).denotedBy name := by
      rw [Registry.denotedBy, hr.denoted, Registry.denotedBy]
    rw [hd, Registry.denotedBy_addDenoted, if_pos rfl]
    exact Table.contains_insert.mpr (Or.inl rfl)

theorem denotes_of_remember (h : env.remember t clientData = .ok (.ok (), env'))
    (hk : env.registry.remembered.get? t ≠ some clientData) : env'.Denotes t := by
  rcases remember_cases h with ⟨-, he, -⟩ | ⟨hk', -⟩ | ⟨-, -, r, hr, rfl⟩ |
    ⟨-, -, first, again, r, r', inner, hr, -, hp, -, rfl⟩
  · cases he
  · exact absurd hk' hk
  · show r.Records env.graph t
    exact records_of_record hr
  · show r'.Records env.graph t
    exact (records_of_record hr).of_extends (extends_recordNew hp)

theorem eq_of_remember (h : env.remember t clientData = .ok (.ok (), env'))
    (hk : env.registry.remembered.get? t = some clientData) : env' = env := by
  rcases remember_cases h with ⟨-, he, -⟩ | ⟨-, he⟩ | ⟨hk', -⟩ | ⟨hk', -⟩
  · cases he
  · exact he
  · exact absurd hk hk'
  · exact absurd hk hk'

/-- Remembering a type that was remembered in the same words before does nothing, whatever the
words mean by now. -/
theorem denotes_remember_iff (h : env.remember t clientData = .ok (.ok (), env')) :
    env'.Denotes t ↔ env.registry.remembered.get? t ≠ some clientData ∨ env.Denotes t := by
  by_cases hk : env.registry.remembered.get? t = some clientData
  · have he : env' = env := eq_of_remember h hk
    subst he
    exact ⟨Or.inr, fun hd => hd.resolve_left (not_not_intro hk)⟩
  · exact ⟨fun _ => Or.inl hk, fun _ => denotes_of_remember h hk⟩

end Environment

end BindingTypes

import BindingTypes.Proofs.Registry.Adjustment
import BindingTypes.Proofs.Registry.Consistency
import BindingTypes.Proofs.Registry.DataSearch

namespace BindingTypes

/-- Registered subtypes are folded in. -/
def RegistryEdit.folds : RegistryEdit → Bool
  | .foldSubtypes | .typeTable => true
  | .remember .. | .addSubtype .. | .replaceDescriptors .. => false

def Operation.folds : Operation → Bool
  | .registry e _ => e.folds
  | .scopes _ | .ask _ => false

namespace Registry

variable {r : Registry}

/-- A type lists exactly the names that denote it. -/
def Mirrored (r : Registry) : Prop :=
  ∀ name t, (r.namesOf t).contains name = true ↔ (r.denotedBy name).contains t = true

theorem Mirrored.of_eq {r' : Registry} (h : r.Mirrored) (hd : r'.denoted = r.denoted)
    (hn : r'.names = r.names) : r'.Mirrored := by
  intro name t
  rw [namesOf, hn, denotedBy, hd]
  exact h name t

theorem Mirrored.record (h : r.Mirrored) (name : Text) (t : CType) :
    ((r.addDenoted name t).addName t name t).Mirrored := by
  intro name' t'
  have hnames : (((r.addDenoted name t).addName t name t).namesOf t').contains name' = true ↔
      t' = t ∧ name' = name ∨ (r.namesOf t').contains name' = true := by
    rw [namesOf_addName]
    change (if t' = t then (r.namesOf t).insert name t else r.namesOf t').contains name' = true ↔ _
    by_cases ht : t' = t
    · subst ht
      rw [if_pos rfl, Table.contains_insert]
      simp
    · simp [ht]
  have hdenoted : (((r.addDenoted name t).addName t name t).denotedBy name').contains t' = true ↔
      t' = t ∧ name' = name ∨ (r.denotedBy name').contains t' = true := by
    change ((r.addDenoted name t).denotedBy name').contains t' = true ↔ _
    rw [denotedBy_addDenoted]
    by_cases hn : name' = name
    · subst hn
      rw [if_pos rfl, Table.contains_insert]
      simp
    · simp [hn]
  rw [hnames, hdenoted, h]

/-- Where names and types mirror each other, listings lead exactly where remembered types do. -/
theorem Mirrored.lists_eq (h : r.Mirrored) : r.Lists = r.ShareType := by
  funext a b
  exact propext (exists_congr fun t => and_congr_right fun _ => h b t)

instance : Std.Symm r.ShareType :=
  ⟨fun _ _ ⟨t, ha, hb⟩ => ⟨t, hb, ha⟩⟩

theorem Mirrored.mem_equivalents_comm (h : r.Mirrored) {m n : Text} :
    n ∈ r.equivalents m ↔ m ∈ r.equivalents n := by
  have hreturn : ∀ {a b : Text}, b ∈ r.equivalents a → a ∈ r.equivalents b := by
    intro a b hb
    rw [mem_equivalents_iff, h.lists_eq] at hb ⊢
    exact symm hb
  exact ⟨hreturn, hreturn⟩

theorem clientDataOf_isSome_iff {name : Text} : (r.clientDataOf name).isSome = true ↔
    ∃ n ∈ r.equivalents name, ∃ data, r.Carries n data := by
  simp only [mem_equivalents_iff]
  cases hdata : r.clientDataOf name with
  | none =>
    have hnone := clientDataOf_eq_none_iff.mp hdata
    refine ⟨nofun, ?_⟩
    rintro ⟨n, hlead, data, hcarries⟩
    exact absurd hcarries (hnone n hlead data)
  | some data =>
    obtain ⟨n, hlead, hcarries⟩ := searchClientData_some hdata
    exact ⟨fun _ => ⟨n, hlead, data, hcarries⟩, fun _ => rfl⟩

end Registry

namespace Environment

variable {env env' : Environment}

theorem mirrored_record {t : CType} {clientData : Option Text} {r : Registry}
    {e : Except RememberError Unit} (hm : env.registry.Mirrored)
    (h : env.record t clientData = .ok (e, r)) : r.Mirrored := by
  obtain ⟨name, canonical, hr⟩ := recorded_of_record h
  exact (hm.record name canonical).of_eq hr.denoted hr.names

theorem mirrored_register {e : RegistryEdit} (hm : env.registry.Mirrored) (he : e.folds = false)
    (h : env.register e = .ok env') : env'.registry.Mirrored := by
  have hrecord : ∀ (env : Environment) t clientData e r, env.registry.Mirrored →
      env.record t clientData = .ok (e, r) → r.Mirrored :=
    fun _ _ _ _ _ hp hr => mirrored_record hp hr
  cases e with
  | remember t clientData =>
    obtain ⟨⟨r, env₁⟩, hr, h⟩ := bind_eq_ok h
    cases h
    exact remember_keeps (P := fun e => e.registry.Mirrored) hrecord hm hr
  | addSubtype derived base cast =>
    obtain ⟨subtypes, rfl⟩ := addSubtype_eq_ok h
    exact hm.of_eq rfl rfl
  | foldSubtypes => cases he
  | typeTable => cases he
  | replaceDescriptors text descriptor =>
    obtain ⟨⟨r, env₁⟩, hr, h⟩ := bind_eq_ok h
    cases h
    obtain ⟨ms, hms⟩ := replaces_of_replaceDescriptors hr
    exact replaces_keeps (P := fun e => e.registry.Mirrored) hrecord hm hms

end Environment

/-- Until subtypes are folded in, every type lists exactly the names that denote it. -/
theorem Consulted.mirrored_run (budget : Nat) (ops : List Operation)
    (hops : ∀ op ∈ ops, op.folds = false) : (run budget ops).env.registry.Mirrored := by
  induction ops using List.reverseRecOn with
  | nil => exact fun _ _ => ⟨nofun, nofun⟩
  | append_singleton ops op ih =>
    have hm := ih fun o ho => hops o (List.mem_append_left _ ho)
    have hop := hops op (List.mem_append_right _ List.mem_cons_self)
    rw [run_concat]
    rcases registry_apply (run budget ops) op with hs | ⟨e, asked, rfl, he⟩
    · rw [hs]
      exact hm
    · exact Environment.mirrored_register hm hop he

/-- The equivalents of a runtime name are, in order and each once, the names that listings lead to
from it, and a larger bound gives no others. Client data are found exactly if such a name denotes a
type that has any, and then they are those of such a type. Until subtypes are folded in,
equivalence is symmetric. -/
theorem equivalence_closure :
    (∀ (r : Registry) (name : Text),
      (r.equivalents name).Pairwise (· < ·) ∧
      (∀ n, n ∈ r.equivalents name ↔ Relation.ReflTransGen r.Lists name n) ∧
      (∀ fuel, r.listings + 2 ≤ fuel →
        (r.closure fuel [name] ∅ ∅).keys = r.equivalents name ∧
        (r.searchClientData fuel ∅ name).1 = r.clientDataOf name) ∧
      ((r.clientDataOf name).isSome = true ↔
        ∃ n ∈ r.equivalents name, ∃ data, r.Carries n data) ∧
      ∀ data, r.clientDataOf name = some data → ∃ n ∈ r.equivalents name, r.Carries n data) ∧
    ∀ (budget : Nat) (ops : List Operation), (∀ op ∈ ops, op.folds = false) → ∀ m n,
      n ∈ (Consulted.run budget ops).env.registry.equivalents m ↔
        m ∈ (Consulted.run budget ops).env.registry.equivalents n := by
  refine ⟨fun r name => ⟨r.equivalents_ascending name, fun n => Registry.mem_equivalents_iff,
    fun fuel hf => ⟨Registry.equivalents_of_le hf, Registry.clientDataOf_of_le hf⟩,
    Registry.clientDataOf_isSome_iff, fun data hdata => ?_⟩, fun budget ops hops m n => ?_⟩
  · obtain ⟨n, hlead, hcarries⟩ := Registry.searchClientData_some hdata
    exact ⟨n, Registry.mem_equivalents_iff.mpr hlead, hcarries⟩
  · exact (Consulted.mirrored_run budget ops hops).mem_equivalents_comm

/-- A class of a namespace, remembered inside and outside of it. -/
def rememberedInsideAndOutside : List Operation :=
  [.scopes (.enter (some "N".toList)), .scopes (.defineClass "A".toList),
    .registry (.remember "p.A".toList none) [], .scopes .leave,
    .registry (.remember "p.N::A".toList (some "data".toList)) []]

theorem inside_and_outside_equivalent :
    let r := (Consulted.run 9 rememberedInsideAndOutside).env.registry
    (∀ op ∈ rememberedInsideAndOutside, op.folds = false) ∧
      "_p_N__A".toList ∈ r.equivalents "_p_A".toList ∧
      "_p_A".toList ∈ r.equivalents "_p_N__A".toList := by
  have hops : ∀ op ∈ rememberedInsideAndOutside, op.folds = false := by decide
  have hmem : "_p_N__A".toList ∈
      (Consulted.run 9 rememberedInsideAndOutside).env.registry.equivalents "_p_A".toList := by
    decide +kernel
  exact ⟨hops, hmem, (equivalence_closure.2 9 rememberedInsideAndOutside hops _ _).mp hmem⟩

end BindingTypes

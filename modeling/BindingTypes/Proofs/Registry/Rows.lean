import Mathlib.Control.Monad.Basic
import BindingTypes.Proofs.Registry.History

namespace BindingTypes

namespace Environment

variable {env env' : Environment} {t u : CType} {name : Text} {clientData : Option Text}

/-- The new runtime names that remembering `t` brings: its own and, with a reference, that of the
pointer. -/
def Introduces (env : Environment) (clientData : Option Text) (t : CType) (name : Text) : Prop :=
  env.registry.remembered.get? t ≠ some clientData ∧
    (CType.runtimeName env.graph.resolver t = .ok name ∨
      CType.isReference t = true ∧ ∃ inner, CType.delReference t = .ok inner ∧
        env.registry.remembered.get? inner.addPointer ≠ some clientData ∧
        CType.runtimeName env.graph.resolver inner.addPointer = .ok name)

theorem addPointer_eq (t : CType) : t.addPointer = "p.".toList ++ t := by
  cases t with
  | nil => rfl
  | cons c cs => rfl

theorem isReference_addPointer (t : CType) : CType.isReference t.addPointer = false := by
  rw [addPointer_eq]
  rfl

theorem ne_addPointer_of_isReference {inner : CType} (hf : CType.isReference t = true) :
    inner.addPointer ≠ t := by
  rintro rfl
  rw [isReference_addPointer] at hf
  cases hf

theorem mem_rememberedNames_iff :
    name ∈ env.rememberedNames ↔ env.registry.denoted.contains name = true :=
  Table.mem_keys_iff_contains

theorem mem_rememberedNames_record {r : Registry} {e : Except RememberError Unit}
    (h : env.record t clientData = .ok (e, r)) (name : Text) :
    r.denoted.contains name = true ↔
      CType.runtimeName env.graph.resolver t = .ok name ∨ name ∈ env.rememberedNames := by
  obtain ⟨name', canonical, hr⟩ := recorded_of_record h
  rw [hr.denoted, hr.named, mem_rememberedNames_iff, Registry.addDenoted, Table.contains_insert]
  constructor
  · rintro (rfl | h)
    · exact Or.inl rfl
    · exact Or.inr h
  · rintro (h | h)
    · cases h
      exact Or.inl rfl
    · exact Or.inr h

theorem mem_rememberedNames_remember (h : env.remember t clientData = .ok (.ok (), env')) :
    name ∈ env'.rememberedNames ↔
      name ∈ env.rememberedNames ∨ env.Introduces clientData t name := by
  rcases remember_cases h with ⟨-, he, -⟩ | ⟨hk, rfl⟩ | ⟨hk, hf, r, hr, rfl⟩ |
    ⟨hk, hf, first, again, r, r', inner, hr, hi, hp, he, rfl⟩
  · cases he
  · exact ⟨Or.inl, fun h => h.resolve_right fun hi => hi.1 hk⟩
  · rw [mem_rememberedNames_iff, mem_rememberedNames_record hr name, Introduces, hf]
    simp [hk, or_comm]
  · obtain ⟨name', canonical, hrec⟩ := recorded_of_record hr
    have hsame : r.remembered.get? inner.addPointer =
        env.registry.remembered.get? inner.addPointer := by
      rw [hrec.remembered, Table.get?_insert, if_neg (ne_addPointer_of_isReference hf)]
    have hr' := mem_rememberedNames_record hr name
    have hfresh : env.Introduces clientData t name ↔
        CType.runtimeName env.graph.resolver t = .ok name ∨
          env.registry.remembered.get? inner.addPointer ≠ some clientData ∧
            CType.runtimeName env.graph.resolver inner.addPointer = .ok name := by
      simp [Introduces, hk, hf, hi]
    rw [mem_rememberedNames_iff, hfresh]
    rcases recordNew_cases hp with ⟨-, rfl, -⟩ | ⟨-, hk', -, rfl⟩ | ⟨-, hk', hrec'⟩
    · cases first <;> cases he
    · rw [hr', ← hsame]
      simp [hk', or_comm]
    · have hp' := mem_rememberedNames_record hrec' name
      rw [hp', mem_rememberedNames_iff, hr', ← hsame]
      have hk' : r.remembered.get? inner.addPointer ≠ some clientData := hk'
      simp only [ne_eq, hk', not_false_eq_true, true_and]
      rw [or_left_comm, or_comm (b := name ∈ env.rememberedNames), or_left_comm]

/-- What remembering a type puts on the list of remembered types. -/
theorem remembered_remember_iff (h : env.remember t clientData = .ok (.ok (), env')) :
    env'.registry.remembered.get? u = some clientData ↔
      env.registry.remembered.get? u = some clientData ∨ u = t ∨
        env.registry.remembered.get? t ≠ some clientData ∧ CType.isReference t = true ∧
          ∃ inner, CType.delReference t = .ok inner ∧ u = inner.addPointer := by
  rcases remember_cases h with ⟨-, he, -⟩ | ⟨hk, rfl⟩ | ⟨hk, hf, r, hr, rfl⟩ |
    ⟨hk, hf, first, again, r, r', inner, hr, hi, hp, he, rfl⟩
  · cases he
  · by_cases hu : u = t
    · subst hu
      simp [hk]
    · simp [hk, hu]
  · obtain ⟨name, canonical, hrec⟩ := recorded_of_record hr
    rw [hrec.remembered, Table.get?_insert]
    by_cases hu : u = t <;> simp [hu, hf]
  · obtain ⟨name, canonical, hrec⟩ := recorded_of_record hr
    have hr' : r.remembered.get? u = some clientData ↔
        env.registry.remembered.get? u = some clientData ∨ u = t := by
      rw [hrec.remembered, Table.get?_insert]
      by_cases hu : u = t <;> simp [hu]
    have hlast : r'.remembered.get? u = some clientData ↔
        r.remembered.get? u = some clientData ∨ u = inner.addPointer := by
      rcases recordNew_cases hp with ⟨-, rfl, -⟩ | ⟨-, hk', -, rfl⟩ | ⟨-, -, hrec'⟩
      · cases first <;> cases he
      · have hk' : r'.remembered.get? inner.addPointer = some clientData := hk'
        by_cases hu : u = inner.addPointer <;> simp [hu, hk']
      · obtain ⟨name', canonical', hrec'⟩ := recorded_of_record hrec'
        rw [hrec'.remembered, Table.get?_insert]
        by_cases hu : u = inner.addPointer <;> simp [hu]
    rw [hlast, hr']
    simp [hk, hf, hi, or_assoc]

/-- After a type was remembered, other types bring the names they brought before, those apart that
are known by now. -/
theorem introduces_remember_iff (h : env.remember t clientData = .ok (.ok (), env')) :
    (name ∈ env'.rememberedNames ∨ env'.Introduces clientData u name) ↔
      (name ∈ env'.rememberedNames ∨ env.Introduces clientData u name) := by
  have hg : env'.graph = env.graph := graph_remember h
  have hkept : ∀ v, env.registry.remembered.get? v = some clientData →
      env'.registry.remembered.get? v = some clientData :=
    fun v hv => (remembered_remember_iff h).mpr (Or.inl hv)
  -- a type that became known with this call has brought its name
  have hnew : ∀ v, env.registry.remembered.get? v ≠ some clientData →
      env'.registry.remembered.get? v = some clientData →
      CType.runtimeName env.graph.resolver v = .ok name → name ∈ env'.rememberedNames := by
    intro v hv hv' hn
    rw [mem_rememberedNames_remember h]
    rcases (remembered_remember_iff h).mp hv' with hv' | rfl | ⟨hk, hf, inner, hi, rfl⟩
    · exact absurd hv' hv
    · exact Or.inr ⟨hv, Or.inl hn⟩
    · exact Or.inr ⟨hk, Or.inr ⟨hf, inner, hi, hv, hn⟩⟩
  constructor
  · rintro (hn | ⟨hu, hn⟩)
    · exact Or.inl hn
    · refine Or.inr ⟨mt (hkept u) hu, ?_⟩
      rw [hg] at hn
      rcases hn with hn | ⟨hf, inner, hi, hp, hn⟩
      · exact Or.inl hn
      · exact Or.inr ⟨hf, inner, hi, mt (hkept _) hp, hn⟩
  · rintro (hn | ⟨hu, hn⟩)
    · exact Or.inl hn
    · by_cases hu' : env'.registry.remembered.get? u = some clientData
      · refine Or.inl ?_
        rcases hn with hn | ⟨hf, inner, hi, hp, hn⟩
        · exact hnew u hu hu' hn
        · rw [mem_rememberedNames_remember h]
          rcases (remembered_remember_iff h).mp hu' with hv | rfl | ⟨-, -, inner', -, rfl⟩
          · exact absurd hv hu
          · exact Or.inr ⟨hu, Or.inr ⟨hf, inner, hi, hp, hn⟩⟩
          · rw [isReference_addPointer] at hf
            cases hf
      · rcases hn with hn | ⟨hf, inner, hi, hp, hn⟩
        · exact Or.inr ⟨hu', Or.inl (hg ▸ hn)⟩
        · by_cases hp' : env'.registry.remembered.get? inner.addPointer = some clientData
          · exact Or.inl (hnew _ hp hp' hn)
          · exact Or.inr ⟨hu', Or.inr ⟨hf, inner, hi, hp', hg ▸ hn⟩⟩

variable {descriptor text : Text} {ms : List Marker}

theorem names_replaces {r : Except DescriptorError Text}
    (h : Replaces descriptor env text ms r env') :
    ∀ m ∈ ms, CType.runtimeName env.graph.resolver m.type = .ok m.name := by
  induction h with
  | done => simp
  | unterminated => simp
  | refused => simp
  | marker hc hg ht hn hr tail ih =>
    intro m hm
    rcases List.mem_cons.mp hm with rfl | hm
    · exact hn
    · have hm' := ih m hm
      rw [graph_remember hr] at hm'
      exact hm'

/-- The names known after a text was read. -/
theorem mem_rememberedNames_replaces {done : Text}
    (h : Replaces descriptor env text ms (.ok done) env') :
    name ∈ env'.rememberedNames ↔
      name ∈ env.rememberedNames ∨ ∃ m ∈ ms, env.Introduces none m.type name := by
  generalize hd : (Except.ok done : Except DescriptorError Text) = r at h
  induction h generalizing done with
  | done => simp
  | unterminated => cases hd
  | refused => cases hd
  | @marker env env₁ env₂ text before opened argument rest name' t ms r hc hg ht hn hr tail ih =>
    cases r with
    | error e => cases hd
    | ok out =>
      have hstep : ∀ u, (name ∈ env₁.rememberedNames ∨ env₁.Introduces none u name) ↔
          (name ∈ env₁.rememberedNames ∨ env.Introduces none u name) :=
        fun u => introduces_remember_iff hr
      have hfirst : name ∈ env₁.rememberedNames ↔
          name ∈ env.rememberedNames ∨ env.Introduces none t name :=
        mem_rememberedNames_remember hr
      rw [ih rfl]
      constructor
      · rintro (h | ⟨m, hm, h⟩)
        · rcases hfirst.mp h with h | h
          · exact Or.inl h
          · exact Or.inr ⟨_, List.mem_cons_self, h⟩
        · rcases (hstep m.type).mp (Or.inr h) with h | h
          · rcases hfirst.mp h with h | h
            · exact Or.inl h
            · exact Or.inr ⟨_, List.mem_cons_self, h⟩
          · exact Or.inr ⟨m, List.mem_cons_of_mem _ hm, h⟩
      · rintro (h | ⟨m, hm, h⟩)
        · exact Or.inl (hfirst.mpr (Or.inl h))
        · rcases List.mem_cons.mp hm with rfl | hm
          · exact Or.inl (hfirst.mpr (Or.inr h))
          · rcases (hstep m.type).mpr (Or.inr h) with h | h
            · exact Or.inl h
            · exact Or.inr ⟨m, hm, h⟩

end Environment

/-- After any run, a type that was remembered is on record as it read at some moment of the run. It
is on record as it reads now exactly if the same words were not remembered with the same client
data before, or were on record already. A descriptor name written into a text has a row in the next
table exactly if it had one before, or if a type of the text that was not remembered before brings
it. -/
theorem row_of_handed_out_name_iff (budget : Nat) (ops : List Operation) :
    let env := (Consulted.run budget ops).env
    (∀ t clientData env', env.remember t clientData = .ok (.ok (), env') →
      (env'.Denotes t ↔ env.registry.remembered.get? t ≠ some clientData ∨ env.Denotes t) ∧
      ∃ g, Consulted.Visited budget ops g ∧ env'.registry.Records g t) ∧
    ∀ text descriptor out env', env.replaceDescriptors text descriptor = .ok (.ok out, env') →
      ∃ ms, Environment.Replaces descriptor env text ms (.ok out) env' ∧
        ∀ m ∈ ms, CType.runtimeName env.graph.resolver m.type = .ok m.name ∧
          ∀ table env'', env'.typeTable = .ok (table, env'') →
            (m.name ∈ table.entries.map (·.name) ↔
              m.name ∈ env.rememberedNames ∨ ∃ m' ∈ ms, env.Introduces none m'.type m.name) := by
  intro env
  refine ⟨fun t clientData env' h => ⟨Environment.denotes_remember_iff h, ?_⟩,
    fun text descriptor out env' h => ?_⟩
  · by_cases hk : env.registry.remembered.get? t = some clientData
    · have he : env' = env := Environment.eq_of_remember h hk
      subst he
      exact Consulted.recordsRemembered_run budget ops t clientData hk
    · have hd : env'.registry.Records env'.graph t := Environment.denotes_of_remember h hk
      rw [Environment.graph_remember h] at hd
      exact ⟨env.graph, Consulted.visited_run budget ops, hd⟩
  · obtain ⟨ms, hms⟩ := Environment.replaces_of_replaceDescriptors h
    refine ⟨ms, hms, fun m hm => ⟨Environment.names_replaces hms m hm, ?_⟩⟩
    intro table env'' ht
    rw [Environment.names_typeTable ht]
    exact Environment.mem_rememberedNames_replaces hms

/-- `T` is remembered through a pointer, and then becomes a name for `int`. -/
def redefinedAfterRemembering : List Operation :=
  [.registry (.remember "p.T".toList none) [], .scopes (.define "int".toList "T".toList)]

theorem row_of_new_pointer :
    ∃ env', (Consulted.run 9 redefinedAfterRemembering).env.remember "p.q(const).T".toList none =
      .ok (.ok (), env') ∧ env'.Denotes "p.q(const).T".toList := by
  have hok : ((Consulted.run 9 redefinedAfterRemembering).env.remember "p.q(const).T".toList
      none).map (·.1) = .ok (.ok ()) := by decide +kernel
  have hnew : (Consulted.run 9 redefinedAfterRemembering).env.registry.remembered.get?
      "p.q(const).T".toList ≠ some none := by decide +kernel
  cases hr : (Consulted.run 9 redefinedAfterRemembering).env.remember "p.q(const).T".toList
      none with
  | error f =>
    rw [hr] at hok
    cases hok
  | ok r =>
    obtain ⟨e, env'⟩ := r
    rw [hr] at hok
    cases hok
    have hrows := row_of_handed_out_name_iff 9 redefinedAfterRemembering
    exact ⟨env', rfl, (hrows.1 _ _ _ hr).1.mpr (Or.inl hnew)⟩

/-- A name for `int` is remembered again without the row of its new runtime name, and a descriptor
of that name is written that the next table lacks. -/
theorem no_row_after_redefinition :
    (¬ ∀ ops t clientData env',
      (Consulted.run 9 ops).env.remember t clientData = .ok (.ok (), env') → env'.Denotes t) ∧
    ∃ env' table env'', (Consulted.run 9 redefinedAfterRemembering).env.replaceDescriptors
        "$descriptor(T *)".toList "SWIGTYPE".toList = .ok (.ok "SWIGTYPE_p_int".toList, env') ∧
      env'.typeTable = .ok (table, env'') ∧ "_p_int".toList ∉ table.entries.map (·.name) := by
  let env := (Consulted.run 9 redefinedAfterRemembering).env
  refine ⟨fun h => ?_, ?_⟩
  · have hr : env.remember "p.T".toList none = .ok (.ok (), env) := by decide +kernel
    have hname : CType.runtimeName env.graph.resolver "p.T".toList = .ok "_p_int".toList := by
      decide +kernel
    have hunknown : env.registry.denoted.contains "_p_int".toList = false := by decide +kernel
    obtain ⟨name, canonical, hn, -, hk, -⟩ := h redefinedAfterRemembering _ none env hr
    have heq : name = "_p_int".toList := Except.ok.inj (hn.symm.trans hname)
    rw [heq, hunknown] at hk
    cases hk
  · have hr : env.replaceDescriptors "$descriptor(T *)".toList "SWIGTYPE".toList =
        .ok (.ok "SWIGTYPE_p_int".toList, env) := by decide +kernel
    have ht : env.typeTable.map (·.2) = .ok env := by decide +kernel
    have hunknown : "_p_int".toList ∉ env.rememberedNames := by decide +kernel
    cases htable : env.typeTable with
    | error f =>
      rw [htable] at ht
      cases ht
    | ok r =>
      refine ⟨env, r.1, r.2, hr, htable, ?_⟩
      rw [Environment.names_typeTable htable]
      exact hunknown

end BindingTypes

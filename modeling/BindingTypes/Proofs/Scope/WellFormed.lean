import BindingTypes.Proofs.Scope.Alike
import BindingTypes.Proofs.Scope.Expands
import BindingTypes.Proofs.Scope.Placement

namespace BindingTypes.ScopeGraph

/-- Only names are declared, every declared name expands within the table that declares it, and
there are no symbols. -/
structure WellFormed (v : Vocabulary) (g : ScopeGraph) : Prop extends WellPlaced v g where
  names : ∀ id, v.Holds (g.scope id).typedefs
  expands : ∀ id n e, (g.scope id).typedefs.get? n = some e →
    ∃ cs z, Expands v (g.scope id).typedefs n cs z
  symbols : ∀ id, (g.scope id).symbols = none

structure SameTables (g g' : ScopeGraph) : Prop where
  typedefs : ∀ id, (g'.scope id).typedefs = (g.scope id).typedefs
  symbols : ∀ id, (g'.scope id).symbols = (g.scope id).symbols

variable {v : Vocabulary} {g g' : ScopeGraph} {n : Text}

namespace SameTables

theorem trans {g'' : ScopeGraph} (h : SameTables g g') (h' : SameTables g' g'') :
    SameTables g g'' where
  typedefs id := (h'.typedefs id).trans (h.typedefs id)
  symbols id := (h'.symbols id).trans (h.symbols id)

theorem of_scopes (h : g'.scopes = g.scopes) : SameTables g g' where
  typedefs id := by simp only [scope, h]
  symbols id := by simp only [scope, h]

theorem modifyScope {id : ScopeId} {f : Scope → Scope}
    (htypedefs : ∀ s, (f s).typedefs = s.typedefs) (hsymbols : ∀ s, (f s).symbols = s.symbols) :
    SameTables g (g.modifyScope id f) where
  typedefs j := by rw [scope_modifyScope]; split <;> simp only [htypedefs]
  symbols j := by rw [scope_modifyScope]; split <;> simp only [hsymbols]

theorem inheritFrom (g : ScopeGraph) (id : ScopeId) : SameTables g (g.inheritFrom id) := by
  unfold ScopeGraph.inheritFrom
  split
  · exact of_scopes rfl
  · have hchange : SameTables g (g.modifyScope g.current fun s =>
        { s with inherits := s.inherits ++ [id] }) :=
      modifyScope (fun _ => rfl) fun _ => rfl
    exact hchange.trans (of_scopes rfl)

/-- A new scope has empty tables, as the numbers that were not given out have. -/
theorem opened (g : ScopeGraph) (n : Text) : SameTables g (g.opened n) where
  typedefs id := by
    rw [scope_opened]
    split
    · rename_i hid
      rw [scope_of_length_le (Nat.le_of_eq hid.symm)]
    · rfl
  symbols id := by
    rw [scope_opened]
    split
    · rename_i hid
      rw [scope_of_length_le (Nat.le_of_eq hid.symm)]
    · rfl

theorem wellFormed (h : SameTables g g') (hg : WellFormed v g) (hp : WellPlaced v g') :
    WellFormed v g' where
  toWellPlaced := hp
  names id := h.typedefs id ▸ hg.names id
  expands id := h.typedefs id ▸ hg.expands id
  symbols id := (h.symbols id).trans (hg.symbols id)

end SameTables

theorem wellFormed_new (v : Vocabulary) (budget : Nat) : WellFormed v (new budget) := by
  have hscope : ∀ id, (new budget).scope id = {} := by
    intro id
    cases id with
    | zero => rfl
    | succ id => rfl
  refine ⟨wellPlaced_new v budget, fun id n e he => ?_, fun id n e he => ?_, fun id => ?_⟩
  · rw [hscope] at he
    cases he
  · rw [hscope] at he
    cases he
  · rw [hscope]

namespace WellFormed

variable (hg : WellFormed v g)
include hg

/-- Another scope becomes the current one. -/
theorem goTo (hs : g'.scopes = g.scopes) (hb : g'.byName = g.byName)
    (hc : g'.current < g.scopes.length) : WellFormed v g' :=
  (SameTables.of_scopes hs).wellFormed hg
    ((SamePlaces.of_scopes hs hb).wellPlaced hg.toWellPlaced hc)

theorem withBudget (budget : Nat) : WellFormed v (g.withBudget budget) :=
  hg.goTo rfl rfl hg.current

theorem select {id : Option ScopeId} (hid : ∀ i, id = some i → i < g.scopes.length) :
    WellFormed v (g.select id).2 := by
  refine hg.goTo rfl rfl ?_
  cases id with
  | none => exact hg.root_lt
  | some i => exact hid i rfl

theorem leave : WellFormed v g.leave.2 :=
  leave_keeps hg fun _ hp => hg.goTo rfl rfl (hg.parent_lt hp)

theorem opened (hn : v.IsName n) (hfresh : g.byName.get? (g.nameIn g.current n) = none) :
    WellFormed v (g.opened n) :=
  (SameTables.opened g n).wellFormed hg (hg.toWellPlaced.opened hn hfresh)

/-- A named scope is entered inside the current one, and no table changes. -/
theorem enter (hn : v.IsName n) {id : ScopeId} (h : g.enter (some n) = (id, g')) :
    WellFormed v g' ∧ SameTables g g' ∧ g'.current = id ∧ id ≠ globalScope ∧
      (g'.scope id).parent = some g.current := by
  rw [hg.enter_eq hn] at h
  split at h
  · rename_i j hj
    cases h
    obtain ⟨hne, hp⟩ := hg.parent_of_byName hg.current hn hj
    exact ⟨hg.goTo rfl rfl (hg.keys _ _ hj).1, .of_scopes rfl, rfl, hne, hp⟩
  · rename_i hfresh
    cases h
    refine ⟨hg.opened hn hfresh, .opened g n, rfl, Nat.ne_of_gt hg.root_lt, ?_⟩
    rw [scope_opened, if_pos rfl]

/-- A stand-in leaves the tables and the current scope as they are. -/
theorem standIn (hn : v.IsName n) (target : ScopeId) :
    WellFormed v (g.standIn n target) ∧ SameTables g (g.standIn n target) ∧
      (g.standIn n target).current = g.current := by
  obtain ⟨⟨id, g₁⟩, hent⟩ : ∃ r, g.enter (some n) = r := ⟨_, rfl⟩
  obtain ⟨hg₁, htables, hcur, hne, hparent⟩ := hg.enter hn hent
  have hstand : g.standIn n target =
      ((g₁.modifyScope id fun s => { s with isAlias := true }).inheritFrom target).leave.2 := by
    unfold ScopeGraph.standIn
    rw [hent]
  have hplaces : SamePlaces g₁ (g₁.modifyScope id fun s => { s with isAlias := true }) :=
    .modifyScope (fun _ => rfl) (fun _ => rfl) fun _ _ => rfl
  have haliased : SameTables g₁ (g₁.modifyScope id fun s => { s with isAlias := true }) :=
    .modifyScope (fun _ => rfl) fun _ => rfl
  have hcur₂ : (g₁.modifyScope id fun s => { s with isAlias := true }).current = id := hcur
  rw [hstand]
  generalize g₁.modifyScope id (fun s => { s with isAlias := true }) = g₂ at hplaces haliased hcur₂ ⊢
  have hplaces₃ := hplaces.trans (.inheritFrom (hcur₂ ▸ hne) target)
  have htables₃ := htables.trans (haliased.trans (.inheritFrom g₂ target))
  have hcur₃ := (current_inheritFrom g₂ target).trans hcur₂
  generalize g₂.inheritFrom target = g₃ at hplaces₃ htables₃ hcur₃ ⊢
  have hlt : g₃.current < g₁.scopes.length := by
    rw [hcur₃, ← hcur]
    exact hg₁.current
  have hg₃ := htables₃.wellFormed hg (hplaces₃.wellPlaced hg₁.toWellPlaced hlt)
  have hout : (g₃.scope g₃.current).parent = some g.current := by
    rw [hcur₃, hplaces₃.parent]
    exact hparent
  have hleave := leave_of_parent hout
  refine ⟨hg₃.leave, ?_, ?_⟩
  · rw [hleave]
    exact htables₃.trans (.of_scopes rfl)
  · rw [hleave]
    rfl

/-- A new name that expands within its table. -/
theorem insertTypedef {id : ScopeId} {e : TypedefEntry} (hn : v.IsName n)
    (hfresh : (g.scope id).typedefs.get? n = none)
    (he : ∃ cs z, Expands v ((g.scope id).typedefs.insert n e) n cs z) :
    WellFormed v (g.insertTypedef id n e) := by
  have hchange : SamePlaces g (g.modifyScope id fun s =>
      { s with typedefs := s.typedefs.insert n e }) :=
    .modifyScope (fun _ => rfl) (fun _ => rfl) fun _ _ => rfl
  have hplaces : SamePlaces g (g.insertTypedef id n e) := hchange.trans (.of_scopes rfl rfl)
  have hscope : ∀ j, (g.insertTypedef id n e).scope j =
      if id = j ∧ j < g.scopes.length then
        { g.scope j with typedefs := (g.scope j).typedefs.insert n e }
      else g.scope j := fun j => scope_modifyScope g id j _
  refine ⟨hplaces.wellPlaced hg.toWellPlaced hg.current, ?_, ?_, ?_⟩
  · intro j m e' hm
    rw [hscope] at hm
    split at hm
    · rw [Table.get?_insert] at hm
      split at hm
      · rename_i hmn
        exact hmn ▸ hn
      · exact hg.names j m e' hm
    · exact hg.names j m e' hm
  · intro j m e' hm
    rw [hscope] at hm ⊢
    split at hm
    · rename_i hj
      rw [if_pos hj]
      obtain ⟨rfl, -⟩ := hj
      rw [Table.get?_insert] at hm
      split at hm
      · rename_i hmn
        exact hmn ▸ he
      · obtain ⟨cs, z, hx⟩ := hg.expands id m e' hm
        exact ⟨cs, z, hx.insert hfresh⟩
    · rename_i hj
      rw [if_neg hj]
      exact hg.expands j m e' hm
  · intro j
    rw [hscope]
    split <;> exact hg.symbols j

end WellFormed

end BindingTypes.ScopeGraph

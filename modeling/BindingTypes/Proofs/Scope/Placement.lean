import BindingTypes.Proofs.Scope.Vocabulary
import BindingTypes.Scope.Typedef

namespace BindingTypes.ScopeGraph

/-- Every scope stands in an earlier one under a name of its own, and is found under its qualified
name. -/
structure WellPlaced (v : Vocabulary) (g : ScopeGraph) : Prop where
  current : g.current < g.scopes.length
  rootName : g.nameOf globalScope = []
  rootParent : (g.scope globalScope).parent = none
  rootInherits : (g.scope globalScope).inherits = []
  placed : ∀ id, id < g.scopes.length → id ≠ globalScope → ∃ p n,
    (g.scope id).parent = some p ∧ p < g.scopes.length ∧ v.IsName n ∧ g.nameOf id = g.nameIn p n
  paths : ∀ id, g.nameOf id = [] ∨ v.IsPath (g.nameOf id)
  found : ∀ id, id < g.scopes.length → g.byName.get? (g.nameOf id) = some id
  keys : ∀ k id, g.byName.get? k = some id → id < g.scopes.length ∧ g.nameOf id = k

/-- The same scopes in the same places. -/
structure SamePlaces (g g' : ScopeGraph) : Prop where
  length : g'.scopes.length = g.scopes.length
  byName : g'.byName = g.byName
  name : ∀ id, (g'.scope id).name = (g.scope id).name
  parent : ∀ id, (g'.scope id).parent = (g.scope id).parent
  rootInherits : (g'.scope globalScope).inherits = (g.scope globalScope).inherits

/-- The scopes after a new one was opened inside the current one. -/
def opened (g : ScopeGraph) (n : Text) : ScopeGraph :=
  touch { g with
    scopes := g.scopes ++ [{ name := g.nameIn g.current n, parent := some g.current }]
    byName := g.byName.insert (g.nameIn g.current n) g.scopes.length
    current := g.scopes.length }

variable {v : Vocabulary} {g g' : ScopeGraph} {n : Text}

theorem scope_of_length_le {id : ScopeId} (h : g.scopes.length ≤ id) : g.scope id = {} := by
  rw [scope, List.getElem?_eq_none h]
  rfl

theorem lt_of_get? {id : ScopeId} {e : TypedefEntry}
    (he : (g.scope id).typedefs.get? n = some e) : id < g.scopes.length := by
  refine Nat.lt_of_not_le fun hid => ?_
  rw [scope_of_length_le hid] at he
  cases he

theorem scope_modifyScope (g : ScopeGraph) (id j : ScopeId) (f : Scope → Scope) :
    (g.modifyScope id f).scope j =
      if id = j ∧ j < g.scopes.length then f (g.scope j) else g.scope j := by
  have hget := List.getElem?_modify f id g.scopes j
  rw [scope, modifyScope, hget]
  by_cases hj : j < g.scopes.length
  · by_cases hid : id = j <;> simp [scope, hj, hid]
  · simp [scope, hj]

theorem current_inheritFrom (g : ScopeGraph) (id : ScopeId) :
    (g.inheritFrom id).current = g.current := by
  unfold inheritFrom
  split <;> rfl

theorem length_opened (g : ScopeGraph) (n : Text) :
    (g.opened n).scopes.length = g.scopes.length + 1 := by
  simp [opened, touch]

theorem scope_opened (g : ScopeGraph) (n : Text) (id : ScopeId) :
    (g.opened n).scope id =
      if id = g.scopes.length then { name := g.nameIn g.current n, parent := some g.current }
      else g.scope id := by
  split
  · rename_i hid
    subst hid
    simp [scope, opened, touch]
  · rename_i hid
    by_cases hlt : id < g.scopes.length
    · simp [scope, opened, touch, List.getElem?_append_left hlt]
    · have hle := Nat.le_of_not_lt hlt
      have hgt : (g.opened n).scopes.length ≤ id := by
        rw [length_opened]
        exact Nat.lt_of_le_of_ne hle (Ne.symm hid)
      rw [scope_of_length_le hle, scope_of_length_le hgt]

theorem nameOf_opened_last (g : ScopeGraph) (n : Text) :
    (g.opened n).nameOf g.scopes.length = g.nameIn g.current n := by
  rw [nameOf, scope_opened, if_pos rfl]

theorem nameOf_opened {id : ScopeId} (g : ScopeGraph) (n : Text) (hid : id ≠ g.scopes.length) :
    (g.opened n).nameOf id = g.nameOf id := by
  rw [nameOf, scope_opened, if_neg hid]
  rfl

theorem nameIn_opened {p : ScopeId} (g : ScopeGraph) (n m : Text) (hp : p < g.scopes.length) :
    (g.opened n).nameIn p m = g.nameIn p m := by
  rw [nameIn, nameOf_opened g n (Nat.ne_of_lt hp)]
  rfl

theorem get?_byName_opened (g : ScopeGraph) (n k : Text) :
    (g.opened n).byName.get? k =
      if k = g.nameIn g.current n then some g.scopes.length else g.byName.get? k :=
  Table.get?_insert _ _ _ _

theorem nameOf_new (budget : Nat) (id : ScopeId) : (new budget).nameOf id = [] := by
  cases id with
  | zero => rfl
  | succ id => rfl

theorem wellPlaced_new (v : Vocabulary) (budget : Nat) : WellPlaced v (new budget) where
  current := Nat.zero_lt_one
  rootName := rfl
  rootParent := rfl
  rootInherits := rfl
  placed id hid hne := by
    have hzero : id = globalScope := Nat.lt_one_iff.mp hid
    exact absurd hzero hne
  paths id := Or.inl (nameOf_new budget id)
  found id hid := by
    have hzero : id = globalScope := Nat.lt_one_iff.mp hid
    subst hzero
    rfl
  keys k id hk := by
    have hget := Table.get?_insert (∅ : Table ScopeId) [] k globalScope
    have hk' : ((∅ : Table ScopeId).insert [] globalScope).get? k = some id := hk
    rw [hget] at hk'
    split at hk'
    next h =>
      cases hk'
      exact ⟨Nat.zero_lt_one, h.symm⟩
    next => cases hk'

namespace SamePlaces

theorem refl (g : ScopeGraph) : SamePlaces g g := ⟨rfl, rfl, fun _ => rfl, fun _ => rfl, rfl⟩

theorem trans {g'' : ScopeGraph} (h : SamePlaces g g') (h' : SamePlaces g' g'') :
    SamePlaces g g'' where
  length := h'.length.trans h.length
  byName := h'.byName.trans h.byName
  name id := (h'.name id).trans (h.name id)
  parent id := (h'.parent id).trans (h.parent id)
  rootInherits := h'.rootInherits.trans h.rootInherits

theorem of_scopes (h : g'.scopes = g.scopes) (hb : g'.byName = g.byName) : SamePlaces g g' where
  length := congrArg List.length h
  byName := hb
  name id := by simp only [scope, h]
  parent id := by simp only [scope, h]
  rootInherits := by simp only [scope, h]

/-- A change of one scope that leaves its name and its parent as they are. -/
theorem modifyScope {id : ScopeId} {f : Scope → Scope} (hname : ∀ s, (f s).name = s.name)
    (hparent : ∀ s, (f s).parent = s.parent)
    (hroot : id = globalScope → ∀ s, (f s).inherits = s.inherits) :
    SamePlaces g (g.modifyScope id f) where
  length := List.length_modify f g.scopes id
  byName := rfl
  name j := by rw [scope_modifyScope]; split <;> simp only [hname]
  parent j := by rw [scope_modifyScope]; split <;> simp only [hparent]
  rootInherits := by
    rw [scope_modifyScope]
    split
    · rename_i h
      rw [hroot h.1]
    · rfl

theorem inheritFrom (hc : g.current ≠ globalScope) (id : ScopeId) :
    SamePlaces g (g.inheritFrom id) := by
  unfold ScopeGraph.inheritFrom
  split
  · exact refl g
  · have hchange : SamePlaces g (g.modifyScope g.current fun s =>
        { s with inherits := s.inherits ++ [id] }) :=
      modifyScope (fun _ => rfl) (fun _ => rfl) fun h => absurd h hc
    exact hchange.trans (of_scopes rfl rfl)

theorem nameOf (h : SamePlaces g g') (id : ScopeId) : g'.nameOf id = g.nameOf id := h.name id

theorem nameIn (h : SamePlaces g g') (id : ScopeId) (n : Text) :
    g'.nameIn id n = g.nameIn id n := by
  rw [ScopeGraph.nameIn, ScopeGraph.nameIn, h.nameOf]

theorem wellPlaced (h : SamePlaces g g') (hg : WellPlaced v g)
    (hc : g'.current < g.scopes.length) : WellPlaced v g' where
  current := h.length ▸ hc
  rootName := (h.nameOf _).trans hg.rootName
  rootParent := (h.parent _).trans hg.rootParent
  rootInherits := h.rootInherits.trans hg.rootInherits
  placed id hid hne := by
    obtain ⟨p, n, hp, hlt, hn, hname⟩ := hg.placed id (h.length ▸ hid) hne
    exact ⟨p, n, (h.parent id).trans hp, h.length ▸ hlt, hn,
      (h.nameOf id).trans (hname.trans (h.nameIn p n).symm)⟩
  paths id := h.nameOf id ▸ hg.paths id
  found id hid := by
    rw [h.byName, h.nameOf]
    exact hg.found id (h.length ▸ hid)
  keys k id hk := by
    rw [h.byName] at hk
    obtain ⟨hlt, hname⟩ := hg.keys k id hk
    exact ⟨h.length ▸ hlt, (h.nameOf id).trans hname⟩

end SamePlaces

namespace WellPlaced

variable (hg : WellPlaced v g)
include hg

theorem root_lt : globalScope < g.scopes.length := Nat.lt_of_le_of_lt (Nat.zero_le _) hg.current

/-- Scopes with equal names are equal. -/
theorem eq_of_nameOf {id id' : ScopeId} (hid : id < g.scopes.length)
    (hid' : id' < g.scopes.length) (h : g.nameOf id = g.nameOf id') : id = id' := by
  have hf := hg.found id hid
  rw [h, hg.found id' hid'] at hf
  exact (Option.some.inj hf).symm

theorem parent_lt {id p : ScopeId} (h : (g.scope id).parent = some p) : p < g.scopes.length := by
  by_cases hid : id < g.scopes.length
  · by_cases hroot : id = globalScope
    · subst hroot
      rw [hg.rootParent] at h
      cases h
    · obtain ⟨q, m, hq, hlt, -, -⟩ := hg.placed id hid hroot
      cases hq.symm.trans h
      exact hlt
  · rw [scope_of_length_le (Nat.le_of_not_lt hid)] at h
    cases h

/-- A scope that is found under the name of a place stands there. -/
theorem parent_of_byName {p id : ScopeId} (hp : p < g.scopes.length) (hn : v.IsName n)
    (h : g.byName.get? (g.nameIn p n) = some id) :
    id ≠ globalScope ∧ (g.scope id).parent = some p := by
  obtain ⟨hid, hname⟩ := hg.keys _ _ h
  have hpath := Vocabulary.isPath_within (hg.paths p) hn
  have hne : id ≠ globalScope := by
    rintro rfl
    rw [hg.rootName] at hname
    exact hpath.ne_nil hname.symm
  obtain ⟨q, m, hq, hqlt, hm, hname'⟩ := hg.placed id hid hne
  have hsame : g.nameIn p n = g.nameIn q m := hname.symm.trans hname'
  obtain ⟨hpq, -⟩ := Vocabulary.within_inj (hg.paths p) (hg.paths q) hn.isWord hm.isWord hsame
  have hpq' := hg.eq_of_nameOf hp hqlt hpq
  subst hpq'
  exact ⟨hne, hq⟩

theorem reopened?_eq (hn : v.IsName n) :
    g.reopened? n = g.byName.get? (g.nameIn g.current n) := by
  have hguard : ∀ {p : Prop} [Decidable p], p → (guard p : Option Unit) = some () :=
    fun hp => if_pos hp
  have hne : n ≠ unnamed := by
    rintro rfl
    have hc := hn.1.2 '<' (by decide)
    cases hc
  unfold reopened?
  rw [hguard hne]
  cases hf : g.byName.get? (g.nameIn g.current n) with
  | none => rfl
  | some id =>
    have hp := (hg.parent_of_byName hg.current hn hf).2
    show (guard ((g.scope id).parent = some g.current) >>= fun _ => some id) = some id
    rw [hguard hp]
    rfl

/-- A named scope is found again, or newly opened. -/
theorem enter_eq (hn : v.IsName n) : g.enter (some n) =
    match g.byName.get? (g.nameIn g.current n) with
    | some id => (id, touch { g with current := id })
    | none => (g.scopes.length, g.opened n) := by
  rw [← hg.reopened?_eq hn]
  rfl

theorem opened (hn : v.IsName n) (hfresh : g.byName.get? (g.nameIn g.current n) = none) :
    WellPlaced v (g.opened n) := by
  have hroot : globalScope ≠ g.scopes.length := Nat.ne_of_lt hg.root_lt
  have hlast : g.scopes.length < (g.opened n).scopes.length :=
    length_opened g n ▸ Nat.lt_succ_self _
  have hmore : ∀ {id : ScopeId}, id < g.scopes.length → id < (g.opened n).scopes.length :=
    fun hid => Nat.lt_trans hid hlast
  have hold : ∀ {id : ScopeId}, id < (g.opened n).scopes.length → id ≠ g.scopes.length →
      id < g.scopes.length := by
    intro id hid hne
    rw [length_opened] at hid
    exact Nat.lt_of_le_of_ne (Nat.le_of_lt_succ hid) hne
  constructor
  case current => exact hlast
  case rootName => exact (nameOf_opened g n hroot).trans hg.rootName
  case rootParent =>
    rw [scope_opened, if_neg hroot]
    exact hg.rootParent
  case rootInherits =>
    rw [scope_opened, if_neg hroot]
    exact hg.rootInherits
  case placed =>
    intro id hid hne
    by_cases hl : id = g.scopes.length
    · subst hl
      refine ⟨g.current, n, ?_, hmore hg.current, hn, ?_⟩
      · rw [scope_opened, if_pos rfl]
      · rw [nameOf_opened_last, nameIn_opened g n n hg.current]
    · obtain ⟨p, m, hp, hlt, hm, hpm⟩ := hg.placed id (hold hid hl) hne
      refine ⟨p, m, ?_, hmore hlt, hm, ?_⟩
      · rw [scope_opened, if_neg hl]
        exact hp
      · rw [nameOf_opened g n hl, nameIn_opened g n m hlt]
        exact hpm
  case paths =>
    intro id
    by_cases hl : id = g.scopes.length
    · subst hl
      rw [nameOf_opened_last]
      exact Or.inr (Vocabulary.isPath_within (hg.paths _) hn)
    · rw [nameOf_opened g n hl]
      exact hg.paths id
  case found =>
    intro id hid
    rw [get?_byName_opened]
    by_cases hl : id = g.scopes.length
    · subst hl
      rw [if_pos (nameOf_opened_last g n)]
    · have hf := hg.found id (hold hid hl)
      rw [nameOf_opened g n hl, if_neg, hf]
      intro hsame
      rw [hsame, hfresh] at hf
      cases hf
  case keys =>
    intro k id hk
    rw [get?_byName_opened] at hk
    split at hk
    · rename_i hkn
      cases hk
      exact ⟨hlast, (nameOf_opened_last g n).trans hkn.symm⟩
    · obtain ⟨hid, hkn⟩ := hg.keys k id hk
      exact ⟨hmore hid, (nameOf_opened g n (Nat.ne_of_lt hid)).trans hkn⟩

end WellPlaced

end BindingTypes.ScopeGraph

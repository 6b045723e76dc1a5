import BindingTypes.Proofs.Scope.Search
import Mathlib.Data.List.Nodup
import Mathlib.Logic.Function.Iterate

namespace BindingTypes

/-- What a scope with the number `id` lists: neither itself nor another scope twice, and of what
was brought in by using-directives only what it inherits. -/
structure Scope.Orderly (s : Scope) (id : ScopeId) : Prop where
  notSelf : id ∉ s.inherits
  inherits : s.inherits.Nodup
  usings : s.usings.Nodup
  inherited : s.usings ⊆ s.inherits

namespace Scope.Orderly

variable {s s' : Scope} {id i : ScopeId}

theorem of_eq (h : s.Orderly id) (hi : s'.inherits = s.inherits) (hu : s'.usings = s.usings) :
    s'.Orderly id := by
  refine ⟨?_, ?_, ?_, ?_⟩
  · rw [hi]
    exact h.notSelf
  · rw [hi]
    exact h.inherits
  · rw [hu]
    exact h.usings
  · rw [hi, hu]
    exact h.inherited

theorem empty (id : ScopeId) (name : Text) (parent : Option ScopeId) :
    ({ name, parent } : Scope).Orderly id :=
  ⟨List.not_mem_nil, .nil, .nil, List.nil_subset _⟩

theorem nodup_concat {l : List ScopeId} (h : l.Nodup) (hi : i ∉ l) : (l ++ [i]).Nodup :=
  List.concat_eq_append ▸ List.Nodup.concat hi h

theorem inherit (h : s.Orderly id) (hself : i ≠ id) (hfresh : i ∉ s.inherits) :
    ({ s with inherits := s.inherits ++ [i] } : Scope).Orderly id := by
  refine ⟨fun hm => ?_, nodup_concat h.inherits hfresh, h.usings,
    fun j hj => List.mem_append_left _ (h.inherited hj)⟩
  rcases List.mem_append.mp hm with hm | hm
  · exact h.notSelf hm
  · exact hself (List.mem_singleton.mp hm).symm

theorem use (h : s.Orderly id) (hi : i ∈ s.inherits) (hfresh : i ∉ s.usings) :
    ({ s with usings := s.usings ++ [i] } : Scope).Orderly id := by
  refine ⟨h.notSelf, h.inherits, nodup_concat h.usings hfresh, fun j hj => ?_⟩
  rcases List.mem_append.mp hj with hj | hj
  · exact h.inherited hj
  · exact List.mem_singleton.mp hj ▸ hi

end Scope.Orderly

namespace ScopeGraph

/-- Every scope but the global one stands in an earlier scope, and lists others in good order. -/
structure Nested (g : ScopeGraph) : Prop where
  root : (g.scope globalScope).parent = none
  parent : ∀ id, id < g.scopes.length → id ≠ globalScope →
    ∃ p, (g.scope id).parent = some p ∧ p < id
  lists : ∀ id, (g.scope id).Orderly id

variable {g g' : ScopeGraph} {id : ScopeId} {n : Text}

theorem nested_new (budget : Nat) : Nested (new budget) := by
  refine ⟨rfl, fun id hid hne => ?_, fun id => ?_⟩
  · have hzero : id = globalScope := Nat.lt_one_iff.mp hid
    exact absurd hzero hne
  · cases id with
    | zero => exact .empty _ _ _
    | succ id => exact .empty _ _ _

namespace Nested

/-- Only the global scope stands in no other. -/
theorem parent_eq_none_iff (hg : Nested g) (hid : id < g.scopes.length) :
    (g.scope id).parent = none ↔ id = globalScope := by
  constructor
  · intro hnone
    by_contra hne
    obtain ⟨p, hp, -⟩ := hg.parent id hid hne
    rw [hnone] at hp
    cases hp
  · rintro rfl
    exact hg.root

theorem lt_of_parent {p : ScopeId} (hg : Nested g) (hid : id < g.scopes.length)
    (hp : (g.scope id).parent = some p) : p < id := by
  have hroot : id ≠ globalScope := by
    rintro rfl
    exact absurd (hp.symm.trans hg.root) nofun
  obtain ⟨q, hq, hlt⟩ := hg.parent id hid hroot
  cases hp.symm.trans hq
  exact hlt

/-- A chain of enclosing scopes is no longer than the number it begins with. -/
theorem outwardFrom_of_le {fuel more : Nat} (hg : Nested g) (hid : id < g.scopes.length)
    (hf : id < fuel) (hle : fuel ≤ more) : g.outwardFrom more id = g.outwardFrom fuel id := by
  induction fuel generalizing id more with
  | zero => exact absurd hf (Nat.not_lt_zero _)
  | succ fuel ih =>
    obtain ⟨more, rfl⟩ := Nat.exists_eq_add_one.mpr (Nat.lt_of_lt_of_le (Nat.succ_pos _) hle)
    unfold outwardFrom
    cases hp : (g.scope id).parent with
    | none => rfl
    | some p =>
      have hlt := hg.lt_of_parent hid hp
      exact congrArg (id :: ·) (ih (hlt.trans hid)
        (Nat.lt_of_lt_of_le hlt (Nat.le_of_lt_succ hf)) (Nat.le_of_succ_le_succ hle))

section Outward

variable (hg : Nested g)
  (hparent : ∀ id, id < g.scopes.length → (g'.scope id).parent = (g.scope id).parent)
include hg hparent

theorem outwardFrom_eq (fuel : Nat) (hid : id < g.scopes.length) :
    g'.outwardFrom fuel id = g.outwardFrom fuel id ∧
      ∀ s ∈ g.outwardFrom fuel id, s < g.scopes.length := by
  induction fuel generalizing id with
  | zero => exact ⟨rfl, fun _ hs => absurd hs List.not_mem_nil⟩
  | succ fuel ih =>
    unfold outwardFrom
    rw [hparent id hid]
    cases hp : (g.scope id).parent with
    | none => exact ⟨rfl, fun s hs => List.mem_singleton.mp hs ▸ hid⟩
    | some p =>
      have hlt := (hg.lt_of_parent hid hp).trans hid
      obtain ⟨heq, hall⟩ := ih hlt
      refine ⟨congrArg (id :: ·) heq, fun s hs => ?_⟩
      rcases List.mem_cons.mp hs with rfl | hs
      · exact hid
      · exact hall s hs

/-- Where scopes stay in their places, the way out of them does, whatever scopes are new. -/
theorem outward_eq (hle : g.scopes.length ≤ g'.scopes.length) (hid : id < g.scopes.length) :
    g'.outward id = g.outward id ∧ ∀ s ∈ g.outward id, s < g.scopes.length := by
  obtain ⟨heq, -⟩ := hg.outwardFrom_eq hparent (g'.scopes.length + 1) hid
  obtain ⟨-, hall⟩ := hg.outwardFrom_eq hparent (g.scopes.length + 1) hid
  refine ⟨?_, hall⟩
  rw [outward, heq, outward]
  exact hg.outwardFrom_of_le hid (Nat.lt_succ_of_lt hid) (Nat.succ_le_succ hle)

end Outward

theorem of_scopes (hg : Nested g) (hs : g'.scopes = g.scopes) : Nested g' := by
  have hscope := scope_eq_of_scopes hs
  refine ⟨?_, fun id hid hne => ?_, fun id => ?_⟩
  · rw [hscope]
    exact hg.root
  · rw [hscope]
    exact hg.parent id (hs ▸ hid) hne
  · rw [hscope]
    exact hg.lists id

/-- A change of one scope that moves it nowhere and keeps its lists in order. -/
theorem modifyScope {f : Scope → Scope} (hg : Nested g) (hp : ∀ s, (f s).parent = s.parent)
    (hl : (f (g.scope id)).Orderly id) : Nested (g.modifyScope id f) := by
  have hparent : ∀ j, ((g.modifyScope id f).scope j).parent = (g.scope j).parent := by
    intro j
    rw [scope_modifyScope]
    split
    · exact hp _
    · rfl
  refine ⟨?_, fun j hj hne => ?_, fun j => ?_⟩
  · rw [hparent]
    exact hg.root
  · rw [hparent]
    exact hg.parent j (length_modifyScope g id f ▸ hj) hne
  · rw [scope_modifyScope]
    split
    · rename_i hj
      exact hj.1 ▸ hl
    · exact hg.lists j

/-- A change of a scope's tables. -/
theorem change {f : Scope → Scope} (hg : Nested g) (hp : ∀ s, (f s).parent = s.parent)
    (hi : ∀ s, (f s).inherits = s.inherits) (hu : ∀ s, (f s).usings = s.usings) :
    Nested (touch (g.modifyScope id f)) := by
  have hlists : (f (g.scope id)).Orderly id := (hg.lists id).of_eq (hi _) (hu _)
  exact (hg.modifyScope hp hlists).of_scopes rfl

theorem inheritFrom (hg : Nested g) (i : ScopeId) : Nested (g.inheritFrom i) := by
  unfold ScopeGraph.inheritFrom
  split
  · exact hg
  · rename_i hnew
    obtain ⟨hself, hfresh⟩ := not_or.mp hnew
    have hmodified := hg.modifyScope (f := fun s => { s with inherits := s.inherits ++ [i] })
      (fun _ => rfl) ((hg.lists g.current).inherit hself hfresh)
    exact hmodified.of_scopes rfl

theorem useNamespace (hg : Nested g) (hc : g.current < g.scopes.length) (i : ScopeId) :
    Nested (g.useNamespace i) := by
  have hnested := hg.inheritFrom i
  have hcurrent := current_inheritFrom g i
  have hinherited : i ≠ g.current → i ∈ ((g.inheritFrom i).scope g.current).inherits := by
    intro hself
    rw [inherits_inheritFrom hc]
    split
    · exact List.mem_append_right _ List.mem_cons_self
    · rename_i hold
      by_contra hmem
      exact hold ⟨rfl, fun h => h.elim hself hmem⟩
  rw [← hcurrent] at hinherited
  unfold ScopeGraph.useNamespace
  generalize g.inheritFrom i = g₁ at hnested hinherited ⊢
  dsimp only
  split
  · exact hnested.of_scopes rfl
  · rename_i hnew
    obtain ⟨hself, hfresh⟩ := not_or.mp hnew
    have hmodified := hnested.modifyScope (f := fun s => { s with usings := s.usings ++ [i] })
      (fun _ => rfl) ((hnested.lists g₁.current).use (hinherited hself) hfresh)
    exact hmodified.of_scopes rfl

theorem opened (hg : Nested g) (hc : g.current < g.scopes.length) (n : Text) :
    Nested (g.opened n) := by
  refine ⟨?_, fun id hid hne => ?_, fun id => ?_⟩
  · have hroot : globalScope ≠ g.scopes.length :=
      Nat.ne_of_lt (Nat.lt_of_le_of_lt (Nat.zero_le _) hc)
    rw [scope_opened, if_neg hroot]
    exact hg.root
  · rw [scope_opened]
    split
    · rename_i hlast
      exact ⟨g.current, rfl, hlast ▸ hc⟩
    · rename_i hlast
      rw [length_opened] at hid
      have hold : id < g.scopes.length := Nat.lt_of_le_of_ne (Nat.le_of_lt_succ hid) hlast
      exact hg.parent id hold hne
  · rw [scope_opened]
    split
    · exact .empty _ _ _
    · exact hg.lists id

theorem enter (hg : Nested g) (hc : g.current < g.scopes.length) (name : Option Text) :
    Nested (g.enter name).2 := by
  rcases g.enter_cases name with ⟨i, -, h⟩ | h
  · rw [h]
    exact hg.of_scopes rfl
  · rw [h]
    exact hg.opened hc _

theorem leave (hg : Nested g) : Nested g.leave.2 := leave_keeps hg fun _ _ => hg.of_scopes rfl

theorem standIn (hg : Nested g) (hc : g.current < g.scopes.length) (n : Text) (target : ScopeId) :
    Nested (g.standIn n target) := by
  have hopen := hg.enter hc (some n)
  unfold ScopeGraph.standIn
  generalize g.enter (some n) = r at hopen ⊢
  have halias := hopen.modifyScope (f := fun s => { s with isAlias := true }) (fun _ => rfl)
    ((hopen.lists r.1).of_eq rfl rfl)
  exact (halias.inheritFrom target).leave

theorem insertTypedef (hg : Nested g) (id : ScopeId) (n : Text) (e : TypedefEntry) :
    Nested (g.insertTypedef id n e) :=
  hg.change (fun _ => rfl) (fun _ => rfl) fun _ => rfl

theorem undefine (hg : Nested g) (n : Text) : Nested (g.undefine n).2 := by
  unfold ScopeGraph.undefine
  split
  · exact hg.change (fun _ => rfl) (fun _ => rfl) fun _ => rfl
  · exact hg

theorem declaration {e : Edit} {s s' : Memory} (hg : Nested g) (hr : InRange g)
    (he : e.declared? = some n) (h : (g.editVia .always e).run s = .ok (g', s')) : Nested g' :=
  (declaration_keeps (P := fun g => Nested g ∧ InRange g)
    (fun _ id e hg => ⟨hg.1.insertTypedef id n e, hg.2.insertTypedef n e⟩)
    (fun _ k target hg hk => ⟨hg.1.standIn hg.2.current n target,
      hg.2.standIn n (hg.2.found k target hk)⟩) he ⟨hg, hr⟩ h).1

theorem edit {e : Edit} {s s' : Memory} (hg : Nested g) (hr : InRange g)
    (h : (g.editVia .always e).run s = .ok (g', s')) : Nested g' := by
  cases e with
  | enter name =>
    obtain ⟨rfl, -⟩ := run_pure_eq_ok h
    exact hg.enter hr.current name
  | leave =>
    obtain ⟨rfl, -⟩ := run_pure_eq_ok h
    exact hg.leave
  | select id =>
    obtain ⟨rfl, -⟩ := run_pure_eq_ok h
    exact hg.of_scopes rfl
  | inheritFrom id =>
    obtain ⟨rfl, -⟩ := run_pure_eq_ok h
    exact hg.inheritFrom id
  | useNamespace id =>
    obtain ⟨rfl, -⟩ := run_pure_eq_ok h
    exact hg.useNamespace hr.current id
  | aliasName name id =>
    obtain ⟨rfl, -⟩ := run_pure_eq_ok h
    exact hg.of_scopes rfl
  | attachSymbols symbols =>
    obtain ⟨rfl, -⟩ := run_pure_eq_ok h
    exact hg.change (fun _ => rfl) (fun _ => rfl) fun _ => rfl
  | define type name => exact hg.declaration hr rfl h
  | defineClass name => exact hg.declaration hr rfl h
  | declareUsing qualified => exact hg.declaration hr rfl h
  | undefine name =>
    obtain ⟨rfl, -⟩ := run_pure_eq_ok h
    exact hg.undefine name

/-- From a scope no more scopes lie outward than have smaller numbers. -/
theorem leaves_to_root (hg : Nested g) (hc : g.current < g.scopes.length) :
    ∃ k ≤ g.current, ((fun g => g.leave.2)^[k] g).current = globalScope := by
  induction hn : g.current using Nat.strongRecOn generalizing g with
  | ind c ih =>
    by_cases hroot : c = globalScope
    · exact ⟨0, Nat.zero_le _, hn.trans hroot⟩
    · obtain ⟨p, hp, hlt⟩ := hg.parent g.current hc (hn ▸ hroot)
      have hleave := leave_of_parent hp
      have hnested := hg.leave
      rw [hleave] at hnested
      obtain ⟨k, hk, hreach⟩ := ih p (hn ▸ hlt) hnested (Nat.lt_trans hlt hc) rfl
      refine ⟨k + 1, Nat.lt_of_le_of_lt hk (hn ▸ hlt), ?_⟩
      rw [Function.iterate_succ_apply, hleave]
      exact hreach

end Nested

theorem ReachedBy.nested (h : ReachedBy NamesGivenOut g) : Nested g := by
  induction h with
  | new budget => exact nested_new budget
  | edit hg _ hrun ih => exact ih.edit hg.inRange hrun

theorem parent_enter (g : ScopeGraph) (n : Text) :
    ((g.enter (some n)).2.scope (g.enter (some n)).2.current).parent = some g.current := by
  rcases g.enter_cases (some n) with ⟨i, hi, h⟩ | h
  · rw [h]
    exact parent_of_reopened? hi
  · rw [h]
    show ((g.opened n).scope g.scopes.length).parent = some g.current
    rw [scope_opened, if_pos rfl]

/-- The scope that is open is open again after a stand-in was opened and left. -/
theorem current_standIn (g : ScopeGraph) (n : Text) (target : ScopeId) :
    (g.standIn n target).current = g.current := by
  have hparent := g.parent_enter n
  unfold standIn
  generalize g.enter (some n) = r at hparent ⊢
  have halias : ((r.2.modifyScope r.1 fun s => { s with isAlias := true }).scope
      r.2.current).parent = some g.current := by
    rw [scope_modifyScope]
    split
    · exact hparent
    · exact hparent
  dsimp only
  unfold leave
  rw [current_inheritFrom, parent_inheritFrom]
  have hcurrent : (r.2.modifyScope r.1 fun s => { s with isAlias := true }).current =
    r.2.current := rfl
  rw [hcurrent, halias]
  rfl

theorem current_declaration {e : Edit} {s s' : Memory} (he : e.declared? = some n)
    (h : (g.editVia .always e).run s = .ok (g', s')) : g'.current = g.current :=
  declaration_keeps (P := fun g' => g'.current = g.current) (fun _ _ _ hc => hc)
    (fun g₁ _ target hc _ => (current_standIn g₁ n target).trans hc) he rfl h

/-- Where edits name scopes only by numbers that were given out, the graph holds no others. Every
scope but the global one stands in an earlier one, so that leaving scopes ends in the global scope.
No scope inherits itself or another one twice, or uses one that it does not inherit. A declaration
leaves the current scope as it was, also where it opens a stand-in. -/
theorem scopes_stay_nested (hg : ReachedBy NamesGivenOut g) :
    InRange g ∧ Nested g ∧
    (∀ id, id < g.scopes.length → ((g.scope id).parent = none ↔ id = globalScope)) ∧
    (∃ k ≤ g.current, ((fun g => g.leave.2)^[k] g).current = globalScope) ∧
    ∀ e n s g' s', e.declared? = some n → (g.editVia .always e).run s = .ok (g', s') →
      g'.current = g.current :=
  ⟨hg.inRange, hg.nested, fun _ hid => hg.nested.parent_eq_none_iff hid,
    hg.nested.leaves_to_root hg.inRange.current, fun _ _ _ _ _ he h => current_declaration he h⟩

/-- A name for a namespace that is used and, after that, entered. -/
theorem stand_in_stays_nested : ∃ g : ScopeGraph, ReachedBy NamesGivenOut g ∧ g.current = 2 ∧
    (g.scope 0).usings = [1] ∧ (g.scope 2).isAlias = true ∧ (g.scope 2).inherits = [1] ∧
    Nested g ∧ (g.editAfresh (.define "A".toList "C".toList)).current = 2 ∧
    ∃ k ≤ 2, ((fun g => g.leave.2)^[k] g).current = globalScope := by
  have hg : ReachedBy NamesGivenOut ((((((new 2).editAfresh (.enter "A".toList)).editAfresh
      .leave).editAfresh (.useNamespace 1)).editAfresh (.define "A".toList "B".toList)).editAfresh
        (.enter "B".toList)) := by
    refine .editAfresh (.editAfresh (.editAfresh (.editAfresh (.editAfresh (.new 2) trivial)
      trivial) ?_) trivial) trivial
    show 1 < _
    decide
  generalize hG : ScopeGraph.editAfresh _ (.enter "B".toList) = g at hg
  have hshape : g.current = 2 ∧ (g.scope 0).usings = [1] ∧ (g.scope 2).isAlias = true ∧
      (g.scope 2).inherits = [1] := by
    rw [← hG]
    decide
  obtain ⟨hcurrent, husings, halias, hinherits⟩ := hshape
  obtain ⟨-, hnested, -, hleave, hdeclare⟩ := scopes_stay_nested hg
  refine ⟨g, hg, hcurrent, husings, halias, hinherits, hnested, ?_, hcurrent ▸ hleave⟩
  unfold editAfresh
  split
  · rename_i r hr
    exact (hdeclare _ _ _ _ _ rfl hr).trans hcurrent
  · exact hcurrent

end ScopeGraph

end BindingTypes

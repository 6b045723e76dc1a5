import BindingTypes.Proofs.Scope.WellFormed
import BindingTypes.Scope.Resolution

namespace BindingTypes

namespace CType

theorem splitWithin_of_split {t : CType} {r : CType × CType} (h : split t = .ok r) :
    splitWithin t = .ok ⟨r, split_lengths h⟩ := by
  unfold splitWithin
  split
  · rename_i f hf
    rw [h] at hf
    cases hf
  · rename_i r' hr
    cases h.symm.trans hr
    rfl

theorem split_front {cs : List Constructor} (hcs : ∀ c ∈ cs, c.IsPlain) {c : Constructor}
    (hc : c.IsPlain) : split (chain (cs ++ [c]) []) = .ok (chain cs [], c.text) := by
  have hall := plain_append hcs (List.forall_mem_singleton.mpr hc)
  rw [split, elements_chain hall, elements_nil]
  simp [Except.map, chain]

end CType

namespace ScopeGraph

open CType

variable {v : Vocabulary} {g : ScopeGraph} {n t N : Text}

theorem lookup_own {id : ScopeId} {e : TypedefEntry}
    (h : (g.scope id).typedefs.get? n = some e) : g.lookup id n = some (e, id) := by
  unfold lookup lookupAlong
  rw [if_neg List.not_mem_nil]
  simp only [h]

theorem lookupAlong_eq_none (h : ∀ id, (g.scope id).typedefs.get? t = none) (fuel : Nat)
    (path : List ScopeId) (id : ScopeId) : g.lookupAlong t fuel path id = none := by
  induction fuel generalizing path id with
  | zero => rfl
  | succ fuel ih =>
    unfold lookupAlong
    split
    · rfl
    · have hinherits : (g.scope id).inherits.findSome? (g.lookupAlong t fuel (id :: path)) = none :=
        List.findSome?_eq_none_iff.mpr fun i _ => ih (id :: path) i
      simp only [h id, hinherits]
      cases (g.scope id).parent with
      | none => rfl
      | some p => exact ih (id :: path) p

/-- A text that no table has means nothing anywhere. -/
theorem lookup_eq_none (h : ∀ id, (g.scope id).typedefs.get? t = none) (id : ScopeId) :
    g.lookup id t = none := lookupAlong_eq_none h _ _ id

/-- From the global scope a scope is found under its qualified name, whatever is used there. -/
theorem findNamed_root {id : ScopeId} (hroot : g.nameOf globalScope = [])
    (h : g.byName.get? N = some id) : g.findNamed globalScope N = some id := by
  have hname : g.nameIn globalScope N = N := by
    rw [nameIn, hroot]
    rfl
  rw [findNamed, outward, outwardFrom, findOutward, findWithin, hname, h]

namespace WellFormed

variable (hg : WellFormed v g)
include hg

theorem get?_eq_none (ht : ¬ v.IsName t) (id : ScopeId) :
    (g.scope id).typedefs.get? t = none := by
  cases he : (g.scope id).typedefs.get? t with
  | none => rfl
  | some e => exact absurd (hg.names id t e he) ht

theorem lookup_eq_none (ht : ¬ v.IsName t) (id : ScopeId) : g.lookup id t = none :=
  ScopeGraph.lookup_eq_none (hg.get?_eq_none ht) id

/-- Behind the global table there is nothing more. -/
theorem lookup_root (h : (g.scope globalScope).typedefs.get? t = none) :
    g.lookup globalScope t = none := by
  unfold lookup lookupAlong
  rw [if_neg List.not_mem_nil]
  simp only [h, hg.rootInherits, hg.rootParent]
  rfl

theorem outward_root : g.outward globalScope = [globalScope] := by
  unfold outward outwardFrom
  rw [hg.rootParent]

/-- From the global scope every scope is found under its qualified name. -/
theorem findNamed_nameOf {id : ScopeId} (hid : id < g.scopes.length) :
    g.findNamed globalScope (g.nameOf id) = some id := findNamed_root hg.rootName (hg.found id hid)

end WellFormed

section Base

variable {resolve : CType → Except Fault CType} {start : ScopeId}

theorem lookupName_own {e : TypedefEntry} (h : (g.scope start).typedefs.get? n = some e) :
    g.lookupName resolve start n = .ok (some (some (e.type, start))) := by
  unfold lookupName
  simp only [h]
  rfl

theorem lookupName_unknown (h : (g.scope start).typedefs.get? n = none)
    (hl : g.lookup start n = none) (hcut : QualifiedName.cutLast? 0 n = none) :
    g.lookupName resolve start n = .ok (some none) := by
  have hsplit : QualifiedName.split n = (none, n) := by
    unfold QualifiedName.split
    rw [hcut]
  unfold lookupName
  simp only [h, hsplit, hl]
  rfl

/-- A qualified name that is no typedef itself is looked up in the scope it names. -/
theorem lookupName_path {id : ScopeId} {e : TypedefEntry} (resolve : CType → Except Fault CType)
    (hpath : v.IsPath (g.nameOf id)) (hword : IsWord n)
    (hnone : (g.scope start).typedefs.get? (g.nameIn id n) = none)
    (hfind : g.findNamed start (g.nameOf id) = some id)
    (he : (g.scope id).typedefs.get? n = some e) :
    g.lookupName resolve start (g.nameIn id n) =
      .ok (some (some (g.qualifyExpansion id e.type, id))) := by
  have hname : g.nameIn id n = g.nameOf id ++ "::".toList ++ n := by
    rw [nameIn, QualifiedName.within, if_neg hpath.ne_nil]
  have hsplit : QualifiedName.split (g.nameIn id n) = (some (g.nameOf id), n) := by
    unfold QualifiedName.split
    rw [hname, hpath.cutLast?_inner hword]
  have hscope : g.findScopeFrom resolve start (g.nameOf id) = .ok (some id) := by
    unfold findScopeFrom
    rw [isTemplate_unbracketed hpath.unbracketed]
    simp only [Bool.false_eq_true, if_false, pure_bind, hfind]
    rfl
  unfold lookupName
  simp only [hnone, hsplit, hscope]
  show Except.ok (some ((g.lookup id n).map fun hit =>
    (g.qualifyExpansion hit.2 hit.1.type, hit.2))) = _
  rw [lookup_own he]
  rfl

theorem not_isName_nameIn {id : ScopeId} (hpath : v.IsPath (g.nameOf id)) (n : Text) :
    ¬ v.IsName (g.nameIn id n) := by
  intro h
  have hcolon := h.isWord.colon_notMem
  rw [nameIn, QualifiedName.within, if_neg hpath.ne_nil] at hcolon
  simp at hcolon

/-- From the global scope a qualified name is looked up in the scope it names. -/
theorem lookupName_within {id : ScopeId} {e : TypedefEntry} (hg : WellFormed v g)
    (resolve : CType → Except Fault CType)
    (hid : id < g.scopes.length) (hpath : v.IsPath (g.nameOf id))
    (he : (g.scope id).typedefs.get? n = some e) :
    g.lookupName resolve globalScope (g.nameIn id n) =
      .ok (some (some (g.qualifyExpansion id e.type, id))) :=
  lookupName_path resolve hpath (hg.names id n e he).isWord
    (hg.get?_eq_none (not_isName_nameIn hpath n) _) (hg.findNamed_nameOf hid) he

variable {expand : { p : CType // p.length < n.length } → Except Fault (Option CType)}

theorem expandName_found {u : CType} {id : ScopeId}
    (h : g.lookupName resolve start n = .ok (some (some (u, id)))) :
    g.expandName resolve start n expand = .ok ⟨if u = n then none else some u, some id⟩ := by
  unfold expandName
  rw [h]
  rfl

theorem expandName_unknown (h : g.lookupName resolve start n = .ok (some none))
    (ht : isTemplate n = false) : g.expandName resolve start n expand = .ok {} := by
  unfold expandName
  rw [h]
  show (liftM (templateWithin n) >>= _ : Except Fault Step) = _
  rw [templateWithin_of_isTemplate ht]
  rfl

theorem expandBase_simple (hs : isSimple n = true) (hc : n.after? "::".toList = none) :
    g.expandBase resolve n expand = g.expandName resolve g.current n expand := by
  unfold expandBase
  rw [if_pos hs]
  split
  · rename_i r hr
    rw [hc] at hr
    cases hr
  · rfl

end Base

end ScopeGraph

end BindingTypes

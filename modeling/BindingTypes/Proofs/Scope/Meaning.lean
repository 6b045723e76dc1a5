import BindingTypes.Proofs.Scope.Naming
import BindingTypes.Proofs.Scope.Permitted
import BindingTypes.Proofs.Scope.Resolving
import BindingTypes.Proofs.Scope.Transparency

namespace BindingTypes

namespace ScopeGraph

open CType

/-- The canonical form of `t` is `c` with enough budget, and no other one with any. -/
structure Means (g : ScopeGraph) (t c : CType) : Prop where
  reached : ∃ k, ∀ n, k ≤ n → (g.withBudget n).canonical t = .ok c
  only : ∀ n c', (g.withBudget n).canonical t = .ok c' → c' = c

variable {v : Vocabulary} {g : ScopeGraph} {n t u c z : Text} {cs : List Constructor}

theorem sameOutcomes_canonicalVia (g : ScopeGraph) (t : CType) :
    SameOutcomes {} (fun n => (g.withBudget n).canonicalVia .always t)
      fun n => (g.withBudget n).canonicalVia .never t := by
  refine sameOutcomes_of_follows (Memory.RightFor.empty g) (fun n => ?_) fun n => ?_
  · exact Follows.bind (g := g.withBudget n) (follows_resolveTo n t) fun a => follows_qualifyVia a
  · exact Reaches.bind (reaches_resolveTo n t) fun a => reaches_qualifyVia a

theorem means_of_resolves (hr : g.Resolves t (.ok u)) (hq : g.Qualifies u (.ok c)) :
    g.Means t c := by
  have hsame := sameOutcomes_canonicalVia g t
  have hsettles : Settles (fun n => (g.withBudget n).canonicalVia .never t) (.ok c) :=
    Settles.bind_ok hr hq
  obtain ⟨k, hk⟩ := hsettles
  refine ⟨⟨k, fun n hn => (hsame _ n (by simp)).2 (hk n hn)⟩, fun n c' hc => ?_⟩
  have hc' := ((hsame _ n (by simp)).1 hc).unique ⟨k, hk⟩
  exact Except.ok.inj hc'

namespace WellFormed

variable (hg : WellFormed v g)
include hg

theorem means_inside (h : Expands v (g.scope g.current).typedefs n cs z) :
    g.Means n (chain cs (v.place (g.nameOf g.current) z)) := by
  have hunknown : ∀ b ∈ v.builtins, g.lookup g.current b = none :=
    fun b hb => hg.lookup_eq_none (fun hname => hname.2 hb) _
  have hcourse : Course g [] (chain [] n) (chain ([] ++ cs) z) :=
    hg.course_of_expands h plain_nil hunknown
      fun s hs => absurd hs List.not_mem_nil
  refine means_of_resolves hcourse.resolves ⟨0, fun k _ => ?_⟩
  exact (hg.withBudget k).qualifyVia_expands h

theorem means_outside {id : ScopeId} (hroot : g.current = globalScope)
    (hid : id < g.scopes.length) (hpath : v.IsPath (g.nameOf id))
    (h : ReadsFromOutside v (g.scope id).typedefs (g.scope globalScope).typedefs (g.nameOf id)
      n cs z) : g.Means (g.nameIn id n) (chain cs z) := by
  have hcourse : Course g [] (g.nameIn id n) (chain cs z) :=
    hg.course_of_readsFromOutside hroot hid hpath h fun s hs => absurd hs List.not_mem_nil
  refine means_of_resolves hcourse.resolves ⟨0, fun k _ => ?_⟩
  exact (hg.withBudget k).qualifyVia_root hroot h.plain
    (h.last (hg.names id) (hg.names globalScope) hpath)

end WellFormed

end ScopeGraph

open ScopeGraph CType

/-- A typedef means the same from the global scope as from its own scope just where no constructor
leaves a base behind that the global scope reads differently: the base under the first constructor
on the way is read again without its scope. -/
theorem means_same_outside_iff {v : Vocabulary} {g : ScopeGraph} {id : ScopeId} {n : Text}
    (h : Reached v g) (hid : g.nameOf id ≠ [])
    (hn : (g.scope id).typedefs.contains n = true) :
    ∃ outside inside,
      (g.select none).2.Means (g.nameIn id n) outside ∧ (g.select (some id)).2.Means n inside ∧
        (outside = inside ↔
          LeavesNothingBehind v (g.scope id).typedefs (g.scope globalScope).typedefs n) := by
  have hg := h.wellFormed
  have hlt : id < g.scopes.length := by
    by_contra hge
    rw [nameOf, scope_of_length_le (Nat.le_of_not_lt hge)] at hid
    exact hid rfl
  have hpath := (hg.paths id).resolve_left hid
  obtain ⟨e, he⟩ := Option.isSome_iff_exists.mp hn
  obtain ⟨cs, z, hx⟩ := hg.expands id n e he
  obtain ⟨cs', z', hr⟩ := ReadsFromOutside.exists (N := g.nameOf id) (hg.expands globalScope) hx
    (hg.names id n e he).2
  have hout : WellFormed v (g.select none).2 := hg.select fun i hi => by cases hi
  have hin : WellFormed v (g.select (some id)).2 := hg.select fun i hi => by cases hi; exact hlt
  exact ⟨chain cs' z', chain cs (v.place (g.nameOf id) z),
    hout.means_outside rfl hlt hpath hr, hin.means_inside hx,
    hr.eq_iff (hg.names id) (hg.names globalScope) hpath hx⟩

/-- The only builtin type is `int`. -/
def intWords : Vocabulary := ⟨["int".toList], by decide +kernel⟩

/-- A class `A` in the namespace `N`, and a typedef of it as `B`. -/
def classTypedef (cs : List Constructor) : ScopeGraph :=
  (((ScopeGraph.new 8).editAfresh (.enter (some "N".toList))).editAfresh
    (.defineClass "A".toList)).editAfresh (.define (chain cs "A".toList) "B".toList)

theorem reached_classTypedef {cs : List Constructor} (hcs : ∀ c ∈ cs, c.IsPlain) :
    Reached intWords (classTypedef cs) := by
  have hopened : Reached intWords ((ScopeGraph.new 8).editAfresh (.enter (some "N".toList))) :=
    (Reached.new 8).editAfresh ⟨_, rfl, by decide +kernel⟩
  have hclass := hopened.editAfresh (e := .defineClass "A".toList) (by decide +kernel : intWords.IsName _)
  exact hclass.editAfresh ⟨by decide +kernel, cs, "A".toList, rfl, hcs, Or.inr (by decide +kernel)⟩

/-- A renamed class is the same class from outside. -/
theorem renamed_class_means_same : ∃ c,
    ((classTypedef []).select none).2.Means "N::B".toList c ∧
      ((classTypedef []).select (some 1)).2.Means "B".toList c := by
  have hdeclares : Declares ((classTypedef []).scope 1).typedefs "B".toList [] "A".toList :=
    ⟨by decide +kernel, plain_nil, by decide +kernel⟩
  have hclass : LeavesNothingBehind intWords ((classTypedef []).scope 1).typedefs
      ((classTypedef []).scope globalScope).typedefs "B".toList :=
    (leavesNothingBehind_iff_of_rename hdeclares).mpr
      (leavesNothingBehind_of_class (by decide +kernel))
  have hname₁ : (classTypedef []).nameOf 1 ≠ [] := by decide +kernel
  obtain ⟨outside, inside, hout, hin, hiff⟩ := means_same_outside_iff (n := "B".toList)
    (reached_classTypedef plain_nil) hname₁ (by decide +kernel)
  have hname : (classTypedef []).nameIn 1 "B".toList = "N::B".toList := by decide +kernel
  cases hiff.mpr hclass
  exact ⟨outside, hname ▸ hout, hin⟩

/-- Under a pointer the class is lost from outside. -/
theorem pointer_to_class_means_other : ∃ outside inside,
    Reached intWords (classTypedef [.pointer]) ∧ (classTypedef [.pointer]).nameOf 1 ≠ [] ∧
      ((classTypedef [.pointer]).scope 1).typedefs.contains "B".toList = true ∧
      ((classTypedef [.pointer]).select none).2.canonical
        ((classTypedef [.pointer]).nameIn 1 "B".toList) = .ok outside ∧
      ((classTypedef [.pointer]).select (some 1)).2.canonical "B".toList = .ok inside ∧
      outside ≠ inside := by
  refine ⟨"p.A".toList, "p.N::A".toList, reached_classTypedef ?_, by decide +kernel,
    by decide +kernel, by decide +kernel, by decide +kernel, by decide +kernel⟩
  intro c hc
  cases List.mem_singleton.mp hc
  exact trivial

end BindingTypes

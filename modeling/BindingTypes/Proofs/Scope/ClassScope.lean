import Mathlib.Data.List.TakeWhile
import BindingTypes.Proofs.Scope.Nesting
import BindingTypes.Proofs.Scope.Skeleton
import BindingTypes.Proofs.Scope.Spelled

namespace BindingTypes

namespace QualifiedName

/-- Texts without colons are told apart in any scopes. -/
theorem eq_of_within {N M n m : Text} (hn : ':' ∉ n) (hm : ':' ∉ m)
    (h : within N n = within M m) : n = m := by
  have hlast : ∀ {N n : Text}, ':' ∉ n →
      (within N n).reverse.takeWhile (· ≠ ':') = n.reverse := by
    intro N n hn
    have hall : ∀ c ∈ n.reverse, decide (c ≠ ':') = true := by
      intro c hc
      rw [List.mem_reverse] at hc
      exact decide_eq_true fun he => hn (he ▸ hc)
    unfold within
    split
    · exact List.takeWhile_eq_self_iff.mpr hall
    · rw [List.reverse_append, List.takeWhile_append_of_pos hall]
      simp
  refine List.reverse_injective ?_
  rw [← hlast hn, h, hlast hm]

end QualifiedName

namespace ScopeGraph

open CType

variable {g g' : ScopeGraph} {n k : Text} {ids : List ScopeId} {id s : ScopeId}

/-- The scopes after one for the members of the class `name` was entered in the current one, which
searches the scopes of the bases, and left again. -/
def withClassScope (g : ScopeGraph) (name : Text) (baseScopes : List ScopeId) : ScopeGraph :=
  (baseScopes.foldl inheritFrom (g.enter (some name)).2).leave.2

/-- What inherited scopes do not change. -/
structure SameApart (g g' : ScopeGraph) : Prop where
  length : g'.scopes.length = g.scopes.length
  current : g'.current = g.current
  byName : g'.byName = g.byName
  typedefs : ∀ id, (g'.scope id).typedefs = (g.scope id).typedefs
  name : ∀ id, g'.nameOf id = g.nameOf id
  parent : ∀ id, (g'.scope id).parent = (g.scope id).parent
  others : ∀ id, id ≠ g.current → g'.scope id = g.scope id

namespace SameApart

theorem refl (g : ScopeGraph) : SameApart g g :=
  ⟨rfl, rfl, rfl, fun _ => rfl, fun _ => rfl, fun _ => rfl, fun _ _ => rfl⟩

theorem modifyCurrent {f : Scope → Scope} (h : SameApart g g') (hname : ∀ s, (f s).name = s.name)
    (hparent : ∀ s, (f s).parent = s.parent) (htypedefs : ∀ s, (f s).typedefs = s.typedefs) :
    SameApart g (touch (g'.modifyScope g'.current f)) := by
  have hscope : ∀ id, (touch (g'.modifyScope g'.current f)).scope id =
      if g'.current = id ∧ id < g'.scopes.length then f (g'.scope id) else g'.scope id :=
    fun id => scope_modifyScope g' g'.current id f
  constructor
  case length => exact (length_modifyScope g' g'.current f).trans h.length
  case current => exact h.current
  case byName => exact h.byName
  case typedefs =>
    intro id
    rw [hscope, ← h.typedefs id]
    split
    · exact htypedefs _
    · rfl
  case name =>
    intro id
    rw [nameOf, hscope, ← h.name id]
    split
    · exact hname _
    · rfl
  case parent =>
    intro id
    rw [hscope, ← h.parent id]
    split
    · exact hparent _
    · rfl
  case others =>
    intro id hid
    rw [hscope, if_neg fun hc => hid (hc.1.symm.trans h.current)]
    exact h.others id hid

theorem inheritFrom (h : SameApart g g') (i : ScopeId) : SameApart g (g'.inheritFrom i) := by
  unfold ScopeGraph.inheritFrom
  split
  · exact h
  · exact h.modifyCurrent (fun _ => rfl) (fun _ => rfl) fun _ => rfl

theorem inheritAll (g : ScopeGraph) (ids : List ScopeId) :
    SameApart g (ids.foldl ScopeGraph.inheritFrom g) := by
  suffices h : ∀ g', SameApart g g' → SameApart g (ids.foldl ScopeGraph.inheritFrom g') from
    h g (.refl g)
  induction ids with
  | nil => exact fun _ h => h
  | cons i ids ih => exact fun _ h => ih _ (h.inheritFrom i)

end SameApart

namespace SameApart

variable {entered : ScopeGraph} (h : SameApart (g.enter (some n)).2 entered)
include h

theorem leave_eq : entered.leave.2 = touch { entered with current := g.current } :=
  leave_of_parent (by rw [h.parent, h.current, parent_enter])

/-- Tables and names stay as they are. -/
theorem old (hid : id < g.scopes.length) :
    (entered.scope id).typedefs = (g.scope id).typedefs ∧ entered.nameOf id = g.nameOf id := by
  have hentered : ((g.enter (some n)).2.scope id) = g.scope id := by
    rcases g.enter_cases (some n) with ⟨i, -, h⟩ | h
    · rw [h]
      rfl
    · rw [h]
      exact (scope_opened g n id).trans (if_neg (Nat.ne_of_lt hid))
  refine ⟨(h.typedefs id).trans (by rw [hentered]), (h.name id).trans ?_⟩
  rw [ScopeGraph.nameOf, hentered]
  rfl

end SameApart

/-- All that is left of the scope being entered is its place and what it inherits. -/
theorem withClassScope_eq (g : ScopeGraph) (n : Text) (ids : List ScopeId) :
    ∃ entered, SameApart (g.enter (some n)).2 entered ∧
      g.withClassScope n ids = touch { entered with current := g.current } :=
  have hsame := SameApart.inheritAll (g.enter (some n)).2 ids
  ⟨_, hsame, hsame.leave_eq⟩

theorem current_withClassScope : (g.withClassScope n ids).current = g.current := by
  obtain ⟨entered, -, h⟩ := g.withClassScope_eq n ids
  rw [h]
  rfl

theorem scope_withClassScope (hid : id < g.scopes.length) :
    ((g.withClassScope n ids).scope id).typedefs = (g.scope id).typedefs ∧
      (g.withClassScope n ids).nameOf id = g.nameOf id := by
  obtain ⟨entered, hsame, h⟩ := g.withClassScope_eq n ids
  rw [h]
  exact hsame.old hid

/-- One more scope, which is found under `k`. -/
structure OneMore (g g' : ScopeGraph) (k : Text) : Prop where
  length : g'.scopes.length = g.scopes.length + 1
  current : g'.current = g.current
  old : ∀ id, id < g.scopes.length → g'.scope id = g.scope id
  byName : ∀ key, g'.byName.get? key =
    if key = k then some g.scopes.length else g.byName.get? key

/-- Where no scope is entered again, one is entered that is new. -/
theorem SameApart.oneMore {entered : ScopeGraph} (hsame : SameApart (g.enter (some n)).2 entered)
    (hnew : g.reopened? n = none) :
    OneMore g (touch { entered with current := g.current }) (g.nameIn g.current n) := by
  have hopened : (g.enter (some n)).2 = g.opened n := by
    rcases g.enter_cases (some n) with ⟨i, hi, -⟩ | h
    · rw [show (some n).getD unnamed = n from rfl, hnew] at hi
      cases hi
    · rw [h]
      rfl
  rw [hopened] at hsame
  refine ⟨hsame.length.trans (length_opened g n), rfl, fun id hid => ?_, fun key => ?_⟩
  · exact (hsame.others id (Nat.ne_of_lt hid)).trans
      ((scope_opened g n id).trans (if_neg (Nat.ne_of_lt hid)))
  · show entered.byName.get? key = _
    rw [hsame.byName]
    exact get?_byName_opened g n key

theorem oneMore_withClassScope (hnew : g.reopened? n = none) :
    OneMore g (g.withClassScope n ids) (g.nameIn g.current n) := by
  obtain ⟨entered, hsame, h⟩ := g.withClassScope_eq n ids
  exact h ▸ hsame.oneMore hnew

namespace OneMore

/-- Nothing leads to the new scope. -/
theorem lookup_eq (h : OneMore g g' k) (hg : InRange g) (hs : s < g.scopes.length) :
    g'.lookup s n = g.lookup s n :=
  lookup_eq_of_reached fun _ hd => h.old _ (hg.reaches_lt hs hd)

theorem nameIn_eq (h : OneMore g g' k) (hid : id < g.scopes.length) :
    g'.nameIn id n = g.nameIn id n := by
  rw [nameIn, nameIn, nameOf, nameOf, h.old id hid]

theorem outward_eq (h : OneMore g g' k) (hn : Nested g) (hid : id < g.scopes.length) :
    g'.outward id = g.outward id ∧ ∀ s ∈ g.outward id, s < g.scopes.length :=
  hn.outward_eq (fun id hid => congrArg Scope.parent (h.old id hid))
    (h.length ▸ Nat.le_succ _) hid

section Spelling

variable (h : OneMore g g' (g.nameIn g.current n)) (hg : InRange g) (hn : Nested g)
  (hname : IsIdentifier n) (hown : (g.scope g.current).typedefs.contains n = true)
include h hg hn hname

theorem qualifyScopeName_eq {m : Text} (hm : IsIdentifier m) (hne : m ≠ n) :
    g'.qualifyScopeName m = g.qualifyScopeName m := by
  obtain ⟨houtward, hlt⟩ := h.outward_eq hn hg.current
  have hkey : ∀ id, g.nameIn id m ≠ g.nameIn g.current n := fun id he =>
    hne (QualifiedName.eq_of_within hm.isWord.colon_notMem hname.isWord.colon_notMem he)
  unfold qualifyScopeName
  rw [h.current, houtward]
  congr 1
  have hstep : ∀ id ∈ g.outward g.current,
      (let candidate := g'.nameIn id m
        if g'.byName.contains candidate then some candidate else none) =
      let candidate := g.nameIn id m
        if g.byName.contains candidate then some candidate else none := by
    intro id hid
    have hbyName : g'.byName.contains (g.nameIn id m) = g.byName.contains (g.nameIn id m) := by
      rw [Table.contains, h.byName, if_neg (hkey id), Table.contains]
    dsimp only
    rw [h.nameIn_eq (hlt id hid), hbyName]
  generalize g.outward g.current = l at hstep
  induction l with
  | nil => rfl
  | cons id l ih =>
    rw [List.findSome?_cons, List.findSome?_cons, hstep id List.mem_cons_self,
      ih fun i hi => hstep i (List.mem_cons_of_mem _ hi)]

include hown in
/-- A scope for the members of a class changes no spelling in the scope around it. -/
theorem spelled_eq {t : Text} (ht : identifiers.IsPath t) : g'.spelled t = g.spelled t := by
  have hfull : g'.fullName t = g.fullName t := by
    induction ht with
    | @name m hm =>
      unfold fullName
      rw [h.current, h.lookup_eq hg hg.current]
      cases hl : g.lookup g.current m with
      | some hit => exact h.nameIn_eq (hg.lookup_lt hg.current hl)
      | none =>
        have hne : m ≠ n := by
          rintro rfl
          obtain ⟨e, he⟩ := Option.isSome_iff_exists.mp hown
          rw [lookup_own he] at hl
          cases hl
        rw [QualifiedName.cutLast?_eq_none hm.isWord.unbracketed hm.isWord.colon_notMem]
        exact h.qualifyScopeName_eq hg hn hname (isName_identifiers.mp hm) hne
    | @inner N m hN hm ih =>
      unfold fullName
      rw [h.current, h.lookup_eq hg hg.current]
      cases hl : g.lookup g.current (N ++ "::".toList ++ m) with
      | some hit => exact h.nameIn_eq (hg.lookup_lt hg.current hl)
      | none =>
        rw [hN.cutLast?_inner hm.isWord]
        dsimp only
        rw [ScopeGraph.spelled_eq hN.ne_nil, ScopeGraph.spelled_eq hN.ne_nil, ih]
  rw [ScopeGraph.spelled_eq ht.ne_nil, ScopeGraph.spelled_eq ht.ne_nil, hfull]

end Spelling

end OneMore

end ScopeGraph

end BindingTypes

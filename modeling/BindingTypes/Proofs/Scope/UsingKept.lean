import BindingTypes.Proofs.Scope.Involved
import BindingTypes.Proofs.Scope.UsingDeclaration

namespace BindingTypes

namespace CType

open Text

variable {s t w q : CType}

/-- What a type wraps stands in it. -/
theorem isPiece_of_wraps (hs : elements s = .ok [s]) (h : CType.wraps w s = .ok true) :
    IsPiece s w := by
  obtain ⟨k, -, fs, fs', b, hcomposed, hcomposed', -⟩ := twin_of_wraps h
  have hbase : b = s := by
    have hes := Except.ok.inj (hcomposed.elements.symm.trans hs)
    cases fs with
    | nil => exact List.singleton_inj.mp hes
    | cons f fs => exact absurd (congrArg List.length hes) (by simp)
  exact hbase ▸ (isPiece_of_split hcomposed'.split).2

theorem wraps_eq_false_of_not_isPiece {es : List Text} (hw : elements w = .ok es)
    (hs : elements s = .ok [s]) (h : ¬ IsPiece s w) : CType.wraps w s = .ok false := by
  have houtline : ∀ {t : CType} {es}, elements t = .ok es → ∃ o, outline t = .ok o := by
    intro t es hes
    exact ⟨_, by rw [outline, hes]; rfl⟩
  obtain ⟨o, ho⟩ := houtline hw
  obtain ⟨o', ho'⟩ := houtline hs
  have hwraps := wraps_of_outline ho ho'
  cases hside : o.wraps o' with
  | false => rwa [hside] at hwraps
  | true =>
    rw [hside] at hwraps
    exact absurd (isPiece_of_wraps hs hwraps) h

end CType

namespace ScopeGraph

open CType Relation Text

variable {g g' : ScopeGraph} {n q t u scope : Text} {a x y id target : ScopeId}
  {entry : TypedefEntry}

theorem sameBut_insertTypedef (hg : InRange g) (hnested : Nested g) (id : ScopeId) (n : Text)
    (e : TypedefEntry) : SameBut g (g.insertTypedef id n e) n where
  current := rfl
  length := (sameButTables_insertTypedef g id n e).length.ge
  name d _ := (sameButTables_insertTypedef g id n e).name d
  own d m _ hm := get?_insertTypedef_of_ne hm d
  lookup d m _ hm := lookup_insertTypedef_of_ne hm d
  find d w hd _ := by
    have hsame := sameButTables_insertTypedef g id n e
    refine findNamed_eq hg hsame.length.ge (fun i _ => ?_) (fun i _ => ?_) hnested hd
    · rw [scope_insertTypedef]
      split <;> exact ⟨rfl, rfl⟩
    · rw [hsame.byName, hsame.nameIn]

theorem sameBut_standIn (hg : InRange g) (hnested : Nested g) (hn : ':' ∉ n)
    (hfresh : g.byName.get? (g.nameIn g.current n) = none) : SameBut g (g.standIn n target) n := by
  obtain ⟨entered, hsame, h⟩ := g.standIn_eq n target
  have hmore : OneMore g (g.standIn n target) (g.nameIn g.current n) := by
    rw [h]
    refine hsame.oneMore (Option.eq_none_iff_forall_ne_some.mpr fun i hi => ?_)
    rw [get?_of_reopened? hi] at hfresh
    cases hfresh
  refine ⟨hmore.current, hmore.length ▸ Nat.le_succ _, fun d hd => ?_, fun d m hd _ => ?_,
    fun d m hd _ => hmore.lookup_eq hg hd, fun d w hd hw => ?_⟩
  · rw [nameOf, hmore.old d hd, nameOf]
  · rw [hmore.old d hd]
  · refine findNamed_eq hg (hmore.length ▸ Nat.le_succ _) (fun i hi => ?_) (fun i hi => ?_)
      hnested hd
    · rw [hmore.old i hi]
      exact ⟨rfl, rfl⟩
    · rw [hmore.nameIn_eq hi, hmore.byName, if_neg]
      exact fun hkey => hw (QualifiedName.isPiece_of_within hn hkey)

/-- The scopes after entries for `n`, a name that no scope of the current one has yet. -/
structure Entered (g g' : ScopeGraph) (n : Text) : Prop where
  same : SameBut g g' n
  range : InRange g'
  nested : Nested g'
  fresh : g'.byName.get? (g'.nameIn g'.current n) = none

theorem Entered.insertTypedef (h : Entered g g' n) (id : ScopeId) (e : TypedefEntry) :
    Entered g (g'.insertTypedef id n e) n where
  same := h.same.trans (sameBut_insertTypedef h.range h.nested id n e)
  range := h.range.insertTypedef n e
  nested := h.nested.insertTypedef id n e
  fresh := by
    have hsame := sameButTables_insertTypedef g' id n e
    rw [hsame.byName, hsame.nameIn]
    exact h.fresh

/-- A using-declaration of a name that no scope has changes what is said of that name alone. -/
theorem sameBut_declareUsing (hg : ReachedBy NamesGivenOut g) (hn : ':' ∉ n)
    (hsplit : QualifiedName.split q = (some scope, n)) (hok : g.declareUsing q = .ok (.ok g'))
    (hfresh : g.byName.get? (g.nameIn g.current n) = none) : SameBut g g' n := by
  obtain ⟨⟨r, s'⟩, hrun, hr⟩ := map_eq_ok hok
  cases hr
  obtain ⟨e, hrefused, -⟩ | ⟨scope', n', hsplit', -, g₁, step, s₁, hg₁, -, hdone⟩ :=
    declareUsingVia_cases hrun
  · cases hrefused
  cases hsplit.symm.trans hsplit'
  have hold : Entered g g n := ⟨.refl g n, hg.inRange, hg.nested, hfresh⟩
  have hentry : Entered g g₁ n := hg₁ ▸ hold.insertTypedef g.current _
  obtain ⟨-, hresult, -⟩ | ⟨id, -, -, target, s₂, holder, g₂, -, -, hg₂, hresult⟩ := hdone
  · cases hresult
    exact hentry.same
  · have hlearned : Entered g g₂ n := by
      rw [hg₂]
      exact learned_keeps (P := (Entered g · n)) holder hentry fun id => hentry.insertTypedef id _
    cases target with
    | none =>
      cases hresult
      exact hlearned.same
    | some target =>
      cases hresult
      exact hlearned.same.trans (sameBut_standIn hlearned.range hlearned.nested hn hlearned.fresh)

/-- `q` is looked up as `n` in the scope `a`, and what stands in front of it does not lead to
`n`. -/
structure LooksPast (g : ScopeGraph) (q n : Text) (a : ScopeId) : Prop extends g.LooksIn q n a where
  front : ∀ scope, QualifiedName.split (g.origin q).2 = (some scope, n) → ¬ g.Involves scope n

theorem LooksPast.of_findNamed {front : Text} (hq : Unbracketed q)
    (hcolons : q.after? "::".toList = none) (hsplit : QualifiedName.split q = (some front, n))
    (hown : (g.scope g.current).typedefs.get? q = none)
    (hfind : g.findNamed g.current front = some a)
    (hfront : ¬ g.Involves front n) : g.LooksPast q n a := by
  refine ⟨.of_findNamed hq hcolons hsplit hown hfind, fun scope hsplit' => ?_⟩
  rw [origin_relative hcolons] at hsplit'
  cases hsplit.symm.trans hsplit'
  exact hfront

/-- Such a search comes to the same scope, whatever is new under the name `n`. -/
theorem LooksPast.looksIn (hq : g.LooksPast q n a) (h : SameBut g g' n) (hg : InRange g) :
    g'.LooksIn q n a := by
  refine ⟨hq.single, hq.simple, ?_⟩
  have hsearch := hq.search
  have hfront := hq.front
  have hstart := hg.origin_lt q
  rw [h.origin]
  generalize (g.origin q).1 = start at hsearch hstart
  generalize (g.origin q).2 = name at hsearch hfront
  cases hsearch with
  | plain hsplit => exact .plain hsplit
  | inner hown hsplit hfound =>
    rename_i front
    have hscope := hfront front hsplit
    have hkept := h.own start name hstart (QualifiedName.ne_of_split hsplit)
    refine .inner (hkept.trans hown) hsplit ?_
    have hsteps : (fun k => (g'.withBudget k).findScopeFrom
        ((g'.withBudget k).resolveVia .never) start front) =
        fun k => (g.withBudget k).findScopeFrom ((g.withBudget k).resolveVia .never) start front :=
      funext fun k => h.findScope hstart (h.resolveWithin hg hscope) hscope
    rwa [hsteps]

/-- Where `q` is looked up as `n` in the scope `a`, and the scope `x` declares that for `t`, the
name `n` is nowhere else on the way. -/
structure Unmentioned (g : ScopeGraph) (q n : Text) (a x : ScopeId) (t : CType) : Prop where
  looks : g.LooksPast q n a
  /-- No scope has the full name of what is new. -/
  fresh : g.byName.get? (g.nameIn g.current n) = none
  /-- Where another scope than `a` declares the name, its full name leads to it. -/
  full : ∀ y ∈ [x, g.current], y ≠ a → g.nameOf y ≠ [] →
    g.LooksPast (g.nameIn y n) n y ∧ g.origin (g.nameIn y n) = (g.current, g.nameIn y n) ∧
      (g.origin q).2 ≠ g.nameIn y n
  single : CType.elements (g.nameIn x n) = .ok [g.nameIn x n]
  /-- What `q` stands for does not lead to `n`, and cutting it into elements never fails. -/
  type : ¬ g.Involves t n
  elements : ∀ w, ReflTransGen g.Becomes t w → ∃ es, CType.elements w = .ok es

theorem Unmentioned.undisturbed (hquiet : Unmentioned g q n a x t) (hg : ReachedBy NamesGivenOut g)
    (hn : IsWord n) (hsplit : QualifiedName.split q = (some scope, n))
    (hok : g.declareUsing q = .ok (.ok g')) : Undisturbed g g' q n a x t := by
  have hrange := hg.inRange
  have hentry := sameBut_insertTypedef hrange hg.nested g.current n ⟨q, false⟩
  have hafter := sameBut_declareUsing hg hn.colon_notMem hsplit hok hquiet.fresh
  have hsingle : CType.elements n = .ok [n] := elements_unbracketed hn.unbracketed hn.1
  -- whatever `n` stands in is a name that what `q` stands for does not come to
  have hclear : ∀ w, ReflTransGen g.Becomes t w → ∀ s, CType.elements s = .ok [s] → IsPiece n s →
      CType.wraps w s = .ok false ∧ w ≠ s := by
    intro w hw s hs hpiece
    obtain ⟨es, hes⟩ := hquiet.elements w hw
    have hfar : ¬ IsPiece s w := fun hsw =>
      hquiet.type ((involves_of_reached hw).piece (hpiece.trans hsw))
    exact ⟨wraps_eq_false_of_not_isPiece hes hs hfar, fun heq => hfar (heq ▸ .refl w)⟩
  have hlast := (QualifiedName.isPiece_of_split hsplit).2
  constructor
  case scope =>
    intro h hh
    rw [List.mem_cons, List.mem_cons, List.mem_singleton] at hh
    rcases hh with rfl | rfl | rfl
    · exact hquiet.looks.toLooksIn
    · exact hquiet.looks.looksIn hentry hrange
    · exact hquiet.looks.looksIn hafter hrange
  case apart =>
    intro i hi
    cases hquiet.fresh.symm.trans hi
  case full =>
    intro y hy hya hname
    obtain ⟨hlooks, horigin, hother⟩ := hquiet.full y hy hya hname
    rw [hafter.origin, hafter.origin, hafter.current]
    exact ⟨hlooks.looksIn hafter hrange, horigin, hother⟩
  case before => exact fun w hw => hclear w hw q hquiet.looks.single hlast
  case after =>
    intro w hw s hs
    have hw := (hafter.reached_iff hrange hquiet.type).mp hw
    rcases hs with rfl | rfl | ⟨rfl, -⟩
    · exact hclear w hw s hsingle (.refl s)
    · exact hclear w hw s hquiet.looks.single hlast
    · exact hclear w hw _ hquiet.single (QualifiedName.isPiece_within _ n)

/-- Where its last component comes up nowhere else, a using-declaration of `q` makes it resolve to
what `q` resolved to; but where the search comes to the new entry first, to `q` itself. -/
theorem using_keeps_meaning (hg : ReachedBy NamesGivenOut g) (hn : IsWord n)
    (hsplit : QualifiedName.split q = (some scope, n)) (hok : g.declareUsing q = .ok (.ok g'))
    (hlook : g.lookup a n = some (entry, x)) (hstep : g.Becomes q (g.qualifyExpansion x entry.type))
    (hquiet : Unmentioned g q n a x (g.qualifyExpansion x entry.type)) :
    g'.Resolves n (.ok u) ↔ g.MeetsFirst n a g.current ∧ u = q ∨
      ¬ g.MeetsFirst n a g.current ∧ g.Resolves q (.ok u) := by
  have hundisturbed := hquiet.undisturbed hg hn hsplit hok
  have hframe := sameBut_declareUsing hg hn.colon_notMem hsplit hok hquiet.fresh
  rw [resolves_using_iff hg hn hsplit hok hlook hstep hundisturbed,
    hframe.resolves_iff hg.inRange hquiet.type, hstep.resolves_iff hundisturbed.before]

theorem unmentioned_besideDerived : Unmentioned besideDerived "Derived::T".toList "T".toList 2 1
    "int".toList := by
  -- none of the words on the way is declared
  have hfar : ∀ w ∈ ["Derived", "Base", "Client", "int"].map String.toList,
      ¬ besideDerived.Involves w "T".toList := by
    intro w hw hn
    have hwords : ∀ w ∈ ["Derived", "Base", "Client", "int"].map String.toList,
        IsWord w ∧ w.all isIdentChar = true ∧
        (besideDerived.scope besideDerived.current).typedefs.get? w = none ∧
        (besideDerived.withBudget 0).lookup besideDerived.current w = none ∧
        "T".toList ≠ w := by
      decide +kernel
    have hnothing : (besideDerived.scope besideDerived.current).typedefs.get? [] = none ∧
        (besideDerived.withBudget 0).lookup besideDerived.current [] = none := by
      decide +kernel
    obtain ⟨hword, hident, hown, hlookup, hne⟩ := hwords w hw
    have hspent : besideDerived.Expansion w (.ok none) := expansion_of_expandType (k := 0) (m := 0)
      (expandType_undeclared (g := besideDerived.withBudget 0) hword hown hlookup) (by simp)
    have hnil : besideDerived.Expansion [] (.ok none) := expansion_of_expandType (k := 0) (m := 0)
      (expandType_nil (g := besideDerived.withBudget 0) hnothing.1 hnothing.2) (by simp)
    rcases hn.of_identifier ⟨hword.1, List.all_eq_true.mp hident⟩ hspent hnil with heq | heq
    · exact hne heq
    · cases heq
  constructor
  case looks =>
    exact .of_findNamed (IsPathText.unbracketed (by decide)) (by decide) (by decide)
      (by decide +kernel) (by decide +kernel) (hfar "Derived".toList (by simp))
  case fresh => decide +kernel
  case full =>
    intro y hy _ _
    have hpath : ∀ y ∈ [1, besideDerived.current], IsPathText (besideDerived.nameIn y "T".toList) ∧
        Text.after? (besideDerived.nameIn y "T".toList) "::".toList = none ∧
        QualifiedName.split (besideDerived.nameIn y "T".toList) =
          (some (besideDerived.nameOf y), "T".toList) ∧
        (besideDerived.scope besideDerived.current).typedefs.get?
          (besideDerived.nameIn y "T".toList) = none ∧
        besideDerived.findNamed besideDerived.current (besideDerived.nameOf y) = some y ∧
        (besideDerived.origin "Derived::T".toList).2 ≠ besideDerived.nameIn y "T".toList ∧
        besideDerived.nameOf y ∈ ["Derived", "Base", "Client", "int"].map String.toList := by
      decide +kernel
    obtain ⟨htext, hcolons, hsplit, hown, hfind, hother, hword⟩ := hpath y hy
    exact ⟨.of_findNamed htext.unbracketed hcolons hsplit hown hfind (hfar _ hword),
      origin_relative hcolons, hother⟩
  case single =>
    have htext : IsPathText (besideDerived.nameIn 1 "T".toList) := by decide +kernel
    exact elements_unbracketed htext.unbracketed (by decide +kernel)
  case type => exact hfar "int".toList (by simp)
  case elements =>
    intro w hw
    cases eq_of_spent (spent_besideDerived _ (by simp)) hw
    exact ⟨["int".toList], by decide +kernel⟩

/-- In a third class, `T` means all that `Derived::T` means there before. -/
theorem using_keeps_meaning_besideDerived (u : CType) : usingDerived.Resolves "T".toList (.ok u) ↔
    besideDerived.Resolves "Derived::T".toList (.ok u) := by
  have hread : besideDerived.qualifyExpansion 1 "int".toList = "int".toList := by decide +kernel
  have hsplit : QualifiedName.split "Derived::T".toList = (some "Derived".toList, "T".toList) := by
    decide
  rw [using_keeps_meaning reachedBy_besideDerived (by decide) hsplit declareUsing_besideDerived
    lookup_besideDerived becomes_besideDerived (hread.symm ▸ unmentioned_besideDerived),
    or_iff_right fun hmet => not_meetsFirst_besideDerived hmet.1,
    and_iff_right not_meetsFirst_besideDerived]

end ScopeGraph

end BindingTypes

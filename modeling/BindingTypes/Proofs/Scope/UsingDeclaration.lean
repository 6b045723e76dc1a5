import BindingTypes.Proofs.Scope.UsingEntries

namespace BindingTypes.ScopeGraph

open CType Relation

variable {g g' : ScopeGraph} {q f n scope : Text} {a x y : ScopeId} {entry : TypedefEntry}
  {u : CType}

theorem Becomes.behind {t next w : CType} (h : g.Becomes t next) (hw : ReflTransGen g.Becomes t w) :
    w = t ∨ ReflTransGen g.Becomes next w := by
  rcases hw.cases_head with rfl | ⟨v, hv, hw⟩
  · exact Or.inl rfl
  · exact Or.inr (h.unique hv ▸ hw)

/-- A qualified name is not its last component, nor that under constructors. -/
theorem misses_last (hq : CType.elements q = .ok [q]) (hn : IsWord n)
    (hsplit : QualifiedName.split q = (some scope, n)) : CType.wraps q n = .ok false ∧ q ≠ n :=
  ⟨wraps_single hq (elements_unbracketed hn.unbracketed hn.1), QualifiedName.ne_of_split hsplit⟩

/-- A name that stands for itself, or for nothing, resolves to itself. -/
theorem resolves_self (hq : CType.elements q = .ok [q])
    (h : g.Expansion q (.ok none) ∨ g.Becomes q q) :
    g.Resolves q (.ok q) ∧ ∀ w, ReflTransGen g.Becomes q w → w = q := by
  rcases h with h | h
  · exact ⟨resolves_of_spent h, fun w hw => eq_of_spent h hw⟩
  · refine ⟨resolves_iff_trail.mpr ⟨[q], .single g q, rfl, .repeated h List.mem_cons_self
      (List.forall_mem_singleton.mpr (wraps_single hq hq))⟩, fun w hw => ?_⟩
    induction hw with
    | refl => rfl
    | tail _ hstep ih =>
      subst ih
      exact hstep.unique h

/-- So does one of two names that stand for each other. -/
theorem resolves_self_by (hq : CType.elements q = .ok [q]) (hf : CType.elements f = .ok [f])
    (hqf : g.Becomes q f) (hfq : g.Becomes f q) (hne : f ≠ q) :
    g.Resolves q (.ok q) ∧ ∀ w, ReflTransGen g.Becomes q w → w = q ∨ w = f := by
  have htrail : g.Trail [f, q] := (Trail.single g q).cons hqf
    (List.forall_mem_singleton.mpr (wraps_single hf hq)) (by simp [hne])
  refine ⟨resolves_iff_trail.mpr ⟨[f, q], htrail, rfl, .repeated hfq (by simp) ?_⟩, fun w hw => ?_⟩
  · exact List.forall_mem_cons.mpr ⟨wraps_single hq hf,
      List.forall_mem_singleton.mpr (wraps_single hq hq)⟩
  · induction hw with
    | refl => exact Or.inl rfl
    | tail _ hstep ih =>
      rcases ih with rfl | rfl
      · exact Or.inr (hstep.unique hqf)
      · exact Or.inl (hstep.unique hfq)

/-- Where `q` is looked up as `n` in the scope `a`, and the scope `x` declares that for `t`, a
using-declaration of `q` disturbs nothing but that search. -/
structure Undisturbed (g g' : ScopeGraph) (q n : Text) (a x : ScopeId) (t : CType) : Prop where
  /-- `q` names the same scope before the declaration, behind its own entry, and afterwards. -/
  scope : ∀ h ∈ [g, g.insertTypedef g.current n ⟨q, false⟩, g'], h.LooksIn q n a
  /-- The search does not come to the scope that a stand-in may be made of. -/
  apart : ∀ i, g.byName.get? (g.nameIn g.current n) = some i → ¬ ReflTransGen g.Leads a i
  /-- Where another scope than `a` declares the name, its full name leads to it. -/
  full : ∀ y ∈ [x, g.current], y ≠ a → g.nameOf y ≠ [] →
    g'.LooksIn (g.nameIn y n) n y ∧ g'.origin (g.nameIn y n) = (g'.current, g.nameIn y n) ∧
      (g'.origin q).2 ≠ g.nameIn y n
  /-- What `q` stands for does not come back to it. -/
  before : ∀ w, ReflTransGen g.Becomes t w → CType.wraps w q = .ok false ∧ w ≠ q
  /-- Nor does it come back to the names that lead to it afterwards. -/
  after : ∀ w, ReflTransGen g'.Becomes t w → ∀ s, s = n ∨ s = q ∨ s = g.nameIn x n ∧ s ≠ t →
    CType.wraps w s = .ok false ∧ w ≠ s

theorem lt_of_lookup (h : g.lookup a n = some (entry, x)) : a < g.scopes.length := by
  obtain ⟨turns, hr, hx, -⟩ := lookup_eq_some_iff.mp h
  cases hr with
  | here _ => exact lt_of_get? hx
  | step _ hk _ =>
    refine lt_of_ways_ne_nil fun hnil => ?_
    rw [hnil] at hk
    cases hk

theorem nameIn_ne_self (h : g.nameOf y ≠ []) : g.nameIn y n ≠ n := by
  intro hself
  have hlength := congrArg List.length hself
  rw [nameIn, QualifiedName.within, if_neg h] at hlength
  have hcolons : "::".toList.length = 2 := rfl
  rw [List.length_append, List.length_append, hcolons] at hlength
  omega

theorem LooksIn.split_eq (h : g.LooksIn q n a) (horigin : (g.origin q).2 = q) (hne : q ≠ n) :
    ∃ scope, QualifiedName.split q = (some scope, n) := by
  have hsearch := h.search
  rw [horigin] at hsearch
  generalize (g.origin q).1 = start at hsearch
  cases hsearch with
  | plain _ => exact absurd rfl hne
  | inner _ hsplit _ => exact ⟨_, hsplit⟩

section Using

variable (hg : InRange g) (hn : IsWord n) (hsplit : QualifiedName.split q = (some scope, n))
  (hok : g.declareUsing q = .ok (.ok g')) {t : CType} (hquiet : Undisturbed g g' q n a x t)
  (hfound : (g.insertTypedef g.current n ⟨q, false⟩).lookup a n = some (entry, y))
include hg hsplit hok hquiet hfound

theorem completed_using :
    Completed (g.insertTypedef g.current n ⟨q, false⟩) g' n (g.nameIn y n) a ∧
      (g.nameOf y = [] → g' = g.insertTypedef g.current n ⟨q, false⟩) := by
  have ha : a < g.scopes.length :=
    (sameButTables_insertTypedef g g.current n ⟨q, false⟩).length ▸ lt_of_lookup hfound
  exact declareUsing_completed hg ha hsplit hok (hquiet.scope _ (by simp)) hfound hquiet.apart

include hn in
/-- The name stands for the qualified name. -/
theorem becomes_using : g'.Becomes n q := by
  obtain ⟨hcompleted, -⟩ := completed_using hg hsplit hok hquiet hfound
  have hown : (g'.scope g'.current).typedefs.get? n = some ⟨q, false⟩ := by
    rw [hcompleted.current]
    refine hcompleted.kept _ _ _ ?_
    rw [get?_insertTypedef hg.current, if_pos ⟨rfl, rfl⟩]
  have hsingle := (hquiet.scope g' (by simp)).single
  exact expansion_of_expandType (k := 0) (m := 0)
    (expandType_declared (g := g'.withBudget 0) hn hown (misses_last hsingle hn hsplit).2)
    (by simp)

/-- Afterwards the search finds what it found with the new entry, or the full name of that. -/
theorem using_cases : g'.lookup a n = some (entry, y) ∨
    y ≠ a ∧ g.nameOf y ≠ [] ∧ ∃ h, g'.lookup a n = some (⟨g.nameIn y n, false⟩, h) := by
  obtain ⟨hcompleted, hnothing⟩ := completed_using hg hsplit hok hquiet hfound
  by_cases hya : y = a
  · subst hya
    exact Or.inl (lookup_own (hcompleted.kept _ _ _ (get?_of_lookup hfound)))
  · by_cases hname : g.nameOf y = []
    · rw [hnothing hname]
      exact Or.inl hfound
    · rcases hcompleted.answer with hsame | hfull
      · exact Or.inl (hsame.trans hfound)
      · exact Or.inr ⟨hya, hname, hfull⟩

/-- Where the full name is found, `q` stands for it, and the full name for what is declared. -/
theorem becomes_full (hy : y ∈ [x, g.current]) (hya : y ≠ a) (hname : g.nameOf y ≠ [])
    (hfull : ∃ h, g'.lookup a n = some (⟨g.nameIn y n, false⟩, h)) :
    g'.Becomes q (g.nameIn y n) ∧ CType.elements (g.nameIn y n) = .ok [g.nameIn y n] ∧
      g.nameIn y n ≠ q ∧ g'.Expansion (g.nameIn y n)
        (.ok (if g'.qualifyExpansion y entry.type = g.nameIn y n then none
          else some (g'.qualifyExpansion y entry.type))) := by
  obtain ⟨hcompleted, -⟩ := completed_using hg hsplit hok hquiet hfound
  obtain ⟨hlooks, horigin, hother⟩ := hquiet.full y hy hya hname
  obtain ⟨scope', hsplit'⟩ := hlooks.split_eq (congrArg Prod.snd horigin) (nameIn_ne_self hname)
  obtain ⟨h, hfull⟩ := hfull
  have hstep := (hquiet.scope g' (by simp)).expansion hfull
  have hqualified := QualifiedName.isQualified_of_split hsplit'
  rw [readAs_of_isQualified hqualified, if_neg hother.symm] at hstep
  have hown := hcompleted.kept _ _ _ (get?_of_lookup hfound)
  have hnext := hlooks.expansion (lookup_own hown)
  have hread : g'.readAs (g.nameIn y n) y entry.type = g'.qualifyExpansion y entry.type := by
    rw [readAs, hsplit']
  rw [horigin, hread] at hnext
  refine ⟨hstep, hlooks.single, ?_, hnext⟩
  intro heq
  rw [heq] at horigin hother
  exact hother (congrArg Prod.snd horigin)

include hn in
/-- A new entry that is found for the qualified name stands for itself. -/
theorem resolves_of_own (hentry : entry = ⟨q, false⟩) (hy : y = g.current) :
    g'.Resolves n (.ok q) := by
  subst hentry hy
  have hqualified := QualifiedName.isQualified_of_split hsplit
  have hlooks := hquiet.scope g' (by simp)
  have hsingle : CType.elements n = .ok [n] := elements_unbracketed hn.unbracketed hn.1
  have hqn := misses_last hlooks.single hn hsplit
  have hnq := becomes_using hg hn hsplit hok hquiet hfound
  rcases using_cases hg hsplit hok hquiet hfound with hown | ⟨hya, hname, hfull⟩
  · have hstep := hlooks.expansion hown
    rw [readAs_of_isQualified hqualified] at hstep
    have hself : g'.Expansion q (.ok none) ∨ g'.Becomes q q := by
      split at hstep
      · exact Or.inl hstep
      · exact Or.inr hstep
    obtain ⟨hresolves, hbehind⟩ := resolves_self hlooks.single hself
    exact (hnq.resolves_iff fun w hw => (hbehind w hw).symm ▸ hqn).mpr hresolves
  · -- `q` stands for the full name of the new entry, and that for `q` again
    obtain ⟨hqf, hsingle', hne, hfq⟩ :=
      becomes_full hg hsplit hok hquiet hfound (by simp) hya hname hfull
    have hread : g'.qualifyExpansion g.current q = q := by
      unfold qualifyExpansion
      rw [hqualified]
      rfl
    rw [hread, if_neg hne.symm] at hfq
    obtain ⟨hresolves, hbehind⟩ := resolves_self_by hlooks.single hsingle' hqf hfq hne
    refine (hnq.resolves_iff fun w hw => ?_).mpr hresolves
    rcases hbehind w hw with rfl | rfl
    · exact hqn
    · exact ⟨wraps_single hsingle' hsingle, nameIn_ne_self hname⟩

/-- What stands for a declaration in the scope `x` is read as before. -/
theorem qualifyExpansion_using (hy : y = x) (hlook : g.lookup a n = some (entry, x)) :
    g'.qualifyExpansion x entry.type = g.qualifyExpansion x entry.type := by
  subst hy
  have hsame := sameButTables_insertTypedef g g.current n ⟨q, false⟩
  obtain ⟨hcompleted, -⟩ := completed_using hg hsplit hok hquiet hfound
  have hown := get?_of_lookup hfound
  have hname : g'.nameOf y = g.nameOf y :=
    (hcompleted.name y (lt_of_get? hown)).trans (hsame.name y)
  have hknown : (g'.lookup y entry.type).isSome = (g.lookup y entry.type).isSome := by
    by_cases htype : entry.type = n
    · rw [htype, lookup_own (hcompleted.kept _ _ _ hown), lookup_own (get?_of_lookup hlook)]
    · obtain ⟨turns, hr, -⟩ := lookup_eq_some_iff.mp hfound
      rw [hcompleted.others y _ (reaches_of_route hr) htype,
        lookup_insertTypedef_of_ne htype]
  rw [qualifyExpansion, qualifyExpansion, hname, hknown, nameIn, nameIn, hname]

/-- Where the search finds what it found before, `q` stands for what it stood for. -/
theorem becomes_same (hy : y = x) (hlook : g.lookup a n = some (entry, x))
    (hsame : g'.lookup a n = some (entry, x)) (hstep : g.Becomes q u) : g'.Becomes q u := by
  have hkept := qualifyExpansion_using hg hsplit hok hquiet hfound hy hlook
  obtain ⟨hcompleted, -⟩ := completed_using hg hsplit hok hquiet hfound
  have hread : ∀ name, g'.readAs name x entry.type = g.readAs name x entry.type := by
    intro name
    unfold readAs
    split
    · exact hkept
    · rfl
  have horigin : g'.origin q = g.origin q := by
    rw [origin, hcompleted.current]
    rfl
  have hbefore := (hquiet.scope g (by simp)).expansion hlook
  have hafter := (hquiet.scope g' (by simp)).expansion hsame
  rw [horigin, hread] at hafter
  rwa [Expansion.unique hbefore hstep] at hafter

include hn in
/-- The declaration that was found before is found again, or its full name leads to it. -/
theorem resolves_of_kept (hy : y = x) (hlook : g.lookup a n = some (entry, x))
    (ht : g.qualifyExpansion x entry.type = t) (hstep : g.Becomes q t) :
    g'.Resolves n (.ok u) ↔ g'.Resolves t (.ok u) := by
  have hread := (qualifyExpansion_using hg hsplit hok hquiet hfound hy hlook).trans ht
  subst hy
  have hlooks := hquiet.scope g' (by simp)
  have hsingle : CType.elements n = .ok [n] := elements_unbracketed hn.unbracketed hn.1
  have hnq : g'.Becomes n q := becomes_using hg hn hsplit hok hquiet hfound
  have hqn := misses_last hlooks.single hn hsplit
  have hdirect : g'.Becomes q t → (g'.Resolves n (.ok u) ↔ g'.Resolves t (.ok u)) := by
    intro hqt
    refine (hnq.resolves_iff fun w hw => ?_).trans (hqt.resolves_iff fun w hw => ?_)
    · rcases hqt.behind hw with rfl | hw
      · exact hqn
      · exact hquiet.after w hw n (Or.inl rfl)
    · exact hquiet.after w hw q (Or.inr (Or.inl rfl))
  rcases using_cases hg hsplit hok hquiet hfound with hsame | ⟨hya, hname, hfull⟩
  · exact hdirect (becomes_same hg hsplit hok hquiet hfound rfl hlook hsame hstep)
  · obtain ⟨hqf, hsingle', hne, hft⟩ :=
      becomes_full hg hsplit hok hquiet hfound (by simp) hya hname hfull
    rw [hread] at hft
    by_cases hself : t = g.nameIn y n
    · exact hdirect (hself ▸ hqf)
    · rw [if_neg hself] at hft
      have hft : g'.Becomes (g.nameIn y n) t := hft
      -- three steps, from `n` to `q`, to the full name, to `t`; nothing behind wraps any of them
      refine (hnq.resolves_iff fun w hw => ?_).trans ((hqf.resolves_iff fun w hw => ?_).trans
        (hft.resolves_iff fun w hw => ?_))
      · rcases hqf.behind hw with rfl | hw
        · exact hqn
        · rcases hft.behind hw with rfl | hw
          · exact ⟨wraps_single hsingle' hsingle, nameIn_ne_self hname⟩
          · exact hquiet.after w hw n (Or.inl rfl)
      · rcases hft.behind hw with rfl | hw
        · exact ⟨wraps_single hsingle' hlooks.single, hne⟩
        · exact hquiet.after w hw q (Or.inr (Or.inl rfl))
      · exact hquiet.after w hw _ (Or.inr (Or.inr ⟨rfl, Ne.symm hself⟩))

end Using

theorem resolves_using_iff (hg : ReachedBy NamesGivenOut g) (hn : IsWord n)
    (hsplit : QualifiedName.split q = (some scope, n)) (hok : g.declareUsing q = .ok (.ok g'))
    (hlook : g.lookup a n = some (entry, x)) (hstep : g.Becomes q (g.qualifyExpansion x entry.type))
    (hquiet : Undisturbed g g' q n a x (g.qualifyExpansion x entry.type)) :
    g'.Resolves n (.ok u) ↔ g.MeetsFirst n a g.current ∧ u = q ∨
      ¬ g.MeetsFirst n a g.current ∧ g'.Resolves (g.qualifyExpansion x entry.type) (.ok u) := by
  have hrange := hg.inRange
  by_cases hmet : g.MeetsFirst n a g.current
  · have hfound := lookup_insertTypedef_met (e := ⟨q, false⟩) hrange.current hmet
    have hself := resolves_of_own hrange hn hsplit hok hquiet hfound rfl rfl
    constructor
    · intro hu
      have hsame := Settles.unique hu hself
      cases hsame
      exact Or.inl ⟨hmet, rfl⟩
    · rintro (⟨-, rfl⟩ | ⟨hnot, -⟩)
      · exact hself
      · exact absurd hmet hnot
  · have hfound := lookup_insertTypedef_not_met (e := ⟨q, false⟩) hrange.current hmet hlook
    rw [resolves_of_kept hrange hn hsplit hok hquiet hfound rfl hlook rfl hstep]
    simp [hmet]

/-- A using-declaration of `q`, where `q` is looked up as `n` in the scope `a`, makes `n` resolve to
what `q` stood for, as that resolves afterwards; but where the search from `a` comes to the current
scope before any declaration, it finds the new entry itself, and `n` resolves to `q`. -/
theorem using_keeps_meaning_iff (hg : ReachedBy NamesGivenOut g) (hn : IsWord n)
    (hsplit : QualifiedName.split q = (some scope, n)) (hok : g.declareUsing q = .ok (.ok g'))
    (hlook : g.lookup a n = some (entry, x)) (hstep : g.Becomes q (g.qualifyExpansion x entry.type))
    (hquiet : Undisturbed g g' q n a x (g.qualifyExpansion x entry.type)) (u : CType) :
    (g.Resolves q (.ok u) ↔ g.Resolves (g.qualifyExpansion x entry.type) (.ok u)) ∧
      (g'.Resolves n (.ok u) ↔ g.MeetsFirst n a g.current ∧ u = q ∨
        ¬ g.MeetsFirst n a g.current ∧ g'.Resolves (g.qualifyExpansion x entry.type) (.ok u)) :=
  ⟨hstep.resolves_iff hquiet.before, resolves_using_iff hg hn hsplit hok hlook hstep hquiet⟩

/-- The class `Derived` inherits the typedef `T` of the class `Base`. -/
def derivedFromBase : ScopeGraph :=
  (((((new 9).editAfresh (.enter "Base".toList)).editAfresh
    (.define "int".toList "T".toList)).editAfresh .leave).editAfresh
    (.enter "Derived".toList)).editAfresh (.inheritFrom 1)

/-- A third class, which inherits nothing. -/
def besideDerived : ScopeGraph :=
  (derivedFromBase.editAfresh .leave).editAfresh (.enter "Client".toList)

/-- There `T` of `Derived` is brought in. -/
def usingDerived : ScopeGraph :=
  (besideDerived.insertTypedef 3 "T".toList ⟨"Derived::T".toList, false⟩).insertTypedef 2
    "T".toList ⟨"Base::T".toList, false⟩

theorem reachedBy_derivedFromBase : ReachedBy NamesGivenOut derivedFromBase := by
  refine .editAfresh (.editAfresh (.editAfresh (.editAfresh (.editAfresh (.new 9) trivial) trivial)
    trivial) trivial) ?_
  show 1 < _
  decide

theorem declareUsing_besideDerived :
    besideDerived.declareUsing "Derived::T".toList = .ok (.ok usingDerived) := by
  decide +kernel

theorem spent_besideDerived : ∀ h ∈ [besideDerived, usingDerived],
    h.Expansion "int".toList (.ok none) := by
  intro h hh
  have hknown : ∀ h ∈ [besideDerived, usingDerived],
      (h.scope h.current).typedefs.get? "int".toList = none ∧
        (h.withBudget 0).lookup h.current "int".toList = none := by
    decide +kernel
  obtain ⟨hown, hlookup⟩ := hknown h hh
  exact expansion_of_expandType (k := 0) (m := 0)
    (expandType_undeclared (g := h.withBudget 0) (by decide) hown hlookup) (by simp)

theorem undisturbed_besideDerived : Undisturbed besideDerived usingDerived "Derived::T".toList
    "T".toList 2 1 "int".toList where
  scope h hh := by
    have hpath : ∀ h ∈ [besideDerived, besideDerived.insertTypedef besideDerived.current "T".toList
        ⟨"Derived::T".toList, false⟩, usingDerived],
        (h.scope h.current).typedefs.get? "Derived::T".toList = none ∧
          h.findNamed h.current "Derived".toList = some 2 := by
      decide +kernel
    obtain ⟨hown, hfind⟩ := hpath h hh
    exact .of_findNamed (IsPathText.unbracketed (by decide)) (by decide) (by decide) hown hfind
  apart i hi := by
    have hfresh : ¬ (besideDerived.byName.get?
        (besideDerived.nameIn besideDerived.current "T".toList)).isSome := by
      decide +kernel
    exact absurd (Option.isSome_iff_exists.mpr ⟨i, hi⟩) hfresh
  full y hy _ _ := by
    have hpath : ∀ y ∈ [1, besideDerived.current], IsPathText (besideDerived.nameIn y "T".toList) ∧
        Text.after? (besideDerived.nameIn y "T".toList) "::".toList = none ∧
        QualifiedName.split (besideDerived.nameIn y "T".toList) =
          (some (besideDerived.nameOf y), "T".toList) ∧
        (usingDerived.scope usingDerived.current).typedefs.get?
          (besideDerived.nameIn y "T".toList) = none ∧
        usingDerived.findNamed usingDerived.current (besideDerived.nameOf y) = some y ∧
        (usingDerived.origin "Derived::T".toList).2 ≠ besideDerived.nameIn y "T".toList := by
      decide +kernel
    obtain ⟨htext, hcolons, hsplit, hown, hfind, hother⟩ := hpath y hy
    exact ⟨.of_findNamed htext.unbracketed hcolons hsplit hown hfind, origin_relative hcolons,
      hother⟩
  before w hw := by
    cases eq_of_spent (spent_besideDerived _ (by simp)) hw
    decide +kernel
  after w hw s hs := by
    cases eq_of_spent (spent_besideDerived _ (by simp)) hw
    rcases hs with rfl | rfl | ⟨rfl, -⟩ <;> decide +kernel

theorem reachedBy_besideDerived : ReachedBy NamesGivenOut besideDerived :=
  .editAfresh (.editAfresh reachedBy_derivedFromBase trivial) trivial

theorem becomes_besideDerived : besideDerived.Becomes "Derived::T".toList
    (besideDerived.qualifyExpansion 1 "int".toList) :=
  expansion_of_expandType (k := 9) (m := 9) (by decide +kernel) (by simp)

theorem lookup_besideDerived :
    besideDerived.lookup 2 "T".toList = some (⟨"int".toList, false⟩, 1) := by
  decide +kernel

theorem not_meetsFirst_besideDerived :
    ¬ besideDerived.MeetsFirst "T".toList 2 besideDerived.current := by
  rintro ⟨turns, hr, -⟩
  -- from `Derived` no search comes to `Client`
  have hways : ∀ a < 3, ∀ b ∈ besideDerived.ways a, b < 3 := by decide +kernel
  have hbelow : ∀ d, ReflTransGen besideDerived.Leads 2 d → d < 3 := by
    intro d hd
    induction hd with
    | refl => decide
    | tail _ hstep ih => exact hways _ ih _ (mem_ways.mpr hstep)
  exact absurd (hbelow _ (reaches_of_route hr)) (by decide +kernel)

/-- A class that brings in what another class inherits. -/
theorem using_inherited_typedef : ReachedBy NamesGivenOut besideDerived ∧
    besideDerived.declareUsing "Derived::T".toList = .ok (.ok usingDerived) ∧
    besideDerived.Resolves "Derived::T".toList (.ok "int".toList) ∧
    usingDerived.Resolves "T".toList (.ok "int".toList) := by
  have hread : besideDerived.qualifyExpansion 1 "int".toList = "int".toList := by decide +kernel
  have hsplit : QualifiedName.split "Derived::T".toList = (some "Derived".toList, "T".toList) := by
    decide
  obtain ⟨hbefore, hafter⟩ := using_keeps_meaning_iff reachedBy_besideDerived (by decide) hsplit
    declareUsing_besideDerived lookup_besideDerived becomes_besideDerived
    (hread.symm ▸ undisturbed_besideDerived) "int".toList
  rw [hread] at hbefore hafter
  refine ⟨reachedBy_besideDerived, declareUsing_besideDerived, hbefore.mpr ?_,
    hafter.mpr (Or.inr ⟨not_meetsFirst_besideDerived, ?_⟩)⟩
  · exact resolves_of_spent (spent_besideDerived _ (by simp))
  · exact resolves_of_spent (spent_besideDerived _ (by simp))

/-- A class that brings in, under its own name, what it inherits itself: the name comes to stand for
the qualified name, and that for itself. -/
theorem using_own_inherited_typedef : ¬ ∀ (g g' : ScopeGraph) (q n scope : Text) (t u u' : CType),
    ReachedBy NamesGivenOut g → QualifiedName.split q = (some scope, n) →
    g.expand? q = .ok (some t) → g.declareUsing q = .ok (.ok g') →
    g.resolve q = .ok u → g'.resolve n = .ok u' → u' = u := by
  intro hclaim
  have hsame := hclaim derivedFromBase
    (derivedFromBase.editAfresh (.declareUsing "Derived::T".toList)) "Derived::T".toList "T".toList
    "Derived".toList "int".toList "int".toList "Derived::T".toList reachedBy_derivedFromBase
    (by decide) (by decide +kernel) (by decide +kernel) (by decide +kernel) (by decide +kernel)
  exact absurd hsame (by decide)

end BindingTypes.ScopeGraph

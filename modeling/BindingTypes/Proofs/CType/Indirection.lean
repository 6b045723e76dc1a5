import BindingTypes.Proofs.CType.Generalization

namespace BindingTypes.CType

/-- Pointers and references, each with at most one qualifier behind it. -/
inductive Indirection : List Constructor → Prop
  | nil : Indirection []
  | plain {c : Constructor} {cs : List Constructor} (hc : c.IsIndirect) (h : Indirection cs) :
    Indirection (c :: cs)
  | qualified {c : Constructor} {w : Text} {cs : List Constructor} (hc : c.IsIndirect)
    (hw : w ∈ ["const".toList, "volatile".toList]) (h : Indirection cs) :
    Indirection (c :: .qualifier w :: cs)

/-- A name that says nothing about how general it is. -/
structure IsSpecific (b : Text) : Prop where
  simple : isSimple b = true
  tame : b.has wildcard = false
  noEnum : isEnum b = false
  plain : ∀ letter ∈ "afqm".toList, b.startsWith [letter, '('] = false

variable {b u g q body head : Text} {c : Constructor} {cs : List Constructor} {n : Nat}
  {again : CType → Except Fault (Option CType)}

theorem has_behind {a : Char} {w : Text} (hw : a ∉ w) (needle u : Text) :
    Text.has (w ++ u) (a :: needle) = Text.has u (a :: needle) := by
  induction w with
  | nil => rfl
  | cons d w ih =>
    have hd : d ≠ a := fun h => hw (h ▸ List.mem_cons_self)
    rw [List.cons_append, has_cons_of_ne hd, ih fun h => hw (List.mem_cons_of_mem _ h)]

theorem ne_of_tame (h : u.has wildcard = false) : u ≠ wildcard := by
  rintro rfl
  revert h
  decide

namespace IsSpecific

theorem not_dotted (h : IsSpecific b) (letter : Char) (hletter : letter ∉ "<>.".toList) :
    b.startsWith [letter, '.'] = false := by
  rw [Bool.eq_false_iff]
  intro hstarts
  obtain ⟨u, rfl⟩ := Text.startsWith_iff.mp hstarts
  have hsimple := h.simple
  have hne : letter ≠ '<' ∧ letter ≠ '>' ∧ letter ≠ '.' := by
    refine ⟨?_, ?_, ?_⟩ <;> rintro rfl <;> exact hletter (by decide)
  simp [isSimple, simpleFrom, hne] at hsimple

theorem ne_varargs (h : IsSpecific b) : b ≠ varargs := by
  rintro rfl
  have hsimple := h.simple
  revert hsimple
  decide

theorem loosen (h : IsSpecific b) : loosen again b = .ok wildcard := by
  rw [loosen_name (h.not_dotted 'p' (by decide)) (h.not_dotted 'r' (by decide))
    (h.plain 'a' (by decide)) (h.plain 'm' (by decide)), h.noEnum,
    if_neg fun he => Bool.false_ne_true he.2]

end IsSpecific

section Steps

theorem generalizeUnder_plain (head : Text) (hw : u ≠ wildcard) (hq : isQualifier u = false)
    (hagain : again u = .ok (some g)) : generalizeUnder again head u = .ok (head ++ g) := by
  unfold generalizeUnder
  simp [hw, hq, hagain, bind, Except.bind, pure, Except.pure]

theorem generalizeUnder_bare (head : Text) (hw : u ≠ wildcard) (hq : isQualifier u = true)
    (hnext : next u = .ok (q, body)) (hwild : body.has wildcard = true) :
    generalizeUnder again head u = .ok (head ++ body) := by
  unfold generalizeUnder
  simp [hw, hq, hnext, hwild, bind, Except.bind, pure, Except.pure]

theorem generalizeUnder_qualified (head : Text) (hw : u ≠ wildcard) (hq : isQualifier u = true)
    (hnext : next u = .ok (q, body)) (hwild : body.has wildcard = false)
    (hagain : again body = .ok (some g)) (hne : body ≠ q ++ g) :
    generalizeUnder again head u = .ok (head ++ (q ++ g)) := by
  unfold generalizeUnder
  simp [hw, hq, hnext, hwild, hagain, hne, bind, Except.bind, pure, Except.pure]

theorem generalizeFrom_of_loosen (hv : isVarargs u = false) (hq : isQualifier u = false)
    (hloosen : loosen (generalizeFrom .none n) u = .ok g) (hne : g ≠ u) :
    generalizeFrom .none (n + 1) u = .ok (some g) := by
  have hresolve : Resolver.none.resolve u = .ok u := rfl
  unfold generalizeFrom
  simp [hv, hresolve, hq, hloosen, hne, bind, Except.bind, pure, Except.pure]

section Indirect

variable (hc : c.IsIndirect)
include hc

theorem indirect_plain (t : CType) :
    isVarargs (c.text ++ t) = false ∧ isQualifier (c.text ++ t) = false := by
  have hdots : c.text ++ t ≠ varargs := by
    intro h
    rcases hc with rfl | rfl <;> cases congrArg List.head? h
  refine ⟨decide_eq_false hdots, ?_⟩
  rcases hc with rfl | rfl
  · exact isQualifier_text .pointer t
  · exact isQualifier_text .reference t

theorem indirect_ne (t : CType) : wildcard ≠ c.text ++ t := by
  intro h
  rcases hc with rfl | rfl <;> cases congrArg List.head? h

/-- A pointer or reference to the wildcard becomes the wildcard. -/
theorem generalizeFrom_last :
    generalizeFrom .none (n + 1) (c.text ++ wildcard) = .ok (some wildcard) :=
  generalizeFrom_of_loosen (indirect_plain hc _).1 (indirect_plain hc _).2
    ((loosen_indirect hc wildcard).trans (if_pos rfl)) (indirect_ne hc _)

theorem generalizeFrom_indirect (hw : u ≠ wildcard)
    (hunder : generalizeUnder (generalizeFrom .none n) c.text u = .ok g) (hne : g ≠ c.text ++ u) :
    generalizeFrom .none (n + 1) (c.text ++ u) = .ok (some g) :=
  generalizeFrom_of_loosen (indirect_plain hc _).1 (indirect_plain hc _).2
    ((loosen_indirect hc u).trans ((if_neg hw).trans hunder)) hne

end Indirect

end Steps

namespace Indirection

theorem readable (h : Indirection cs) : ∀ c ∈ cs, c.IsReadable := by
  induction h with
  | nil => exact nofun
  | plain hc h ih => exact List.forall_mem_cons.mpr ⟨hc.readable, ih⟩
  | @qualified c w cs hc hw h ih =>
    refine List.forall_mem_cons.mpr ⟨hc.readable, List.forall_mem_cons.mpr ⟨?_, ih⟩⟩
    rcases List.mem_pair.mp hw with rfl | rfl
    · exact (by decide : Balanced "const".toList)
    · exact (by decide : Balanced "volatile".toList)

theorem isQualifier (h : Indirection cs) (hb : isQualifier b = false) :
    CType.isQualifier (chain cs b) = false := by
  cases h with
  | nil => exact hb
  | plain hc h =>
    rw [chain_cons]
    exact (indirect_plain hc _).2
  | qualified hc hw h =>
    rw [chain_cons]
    exact (indirect_plain hc _).2

theorem has (h : Indirection cs) (b : Text) :
    Text.has (chain cs b) wildcard = b.has wildcard := by
  have hindirect : ∀ {c : Constructor}, c.IsIndirect → 'S' ∉ c.text := by
    rintro c (rfl | rfl) <;> decide
  induction h with
  | nil => rfl
  | plain hc h ih =>
    rw [chain_cons]
    exact (has_behind (hindirect hc) ..).trans ih
  | @qualified c w cs hc hw h ih =>
    have hqualifier : 'S' ∉ (Constructor.qualifier w).text := by
      rcases List.mem_pair.mp hw with rfl | rfl <;> decide
    rw [chain_cons, chain_cons]
    exact (has_behind (hindirect hc) ..).trans ((has_behind hqualifier ..).trans ih)

theorem ne_wildcard (h : Indirection cs) (hcs : cs ≠ []) : chain cs b ≠ wildcard := by
  cases h with
  | nil => exact absurd rfl hcs
  | plain hc h =>
    rw [chain_cons]
    exact (indirect_ne hc _).symm
  | qualified hc hw h =>
    rw [chain_cons]
    exact (indirect_ne hc _).symm

/-- A qualifier behind a pointer or reference, and the type it qualifies. -/
theorem next_qualified (hw : w ∈ ["const".toList, "volatile".toList]) (cs : List Constructor)
    (b : Text) :
    CType.isQualifier (chain (.qualifier w :: cs) b) = true ∧
      next (chain (.qualifier w :: cs) b) = .ok (written 'q' w, chain cs b) ∧
      chain (.qualifier w :: cs) b ≠ wildcard := by
  have hread : (Constructor.qualifier w).IsReadable := by
    rcases List.mem_pair.mp hw with rfl | rfl
    · exact (by decide : Balanced "const".toList)
    · exact (by decide : Balanced "volatile".toList)
  rw [chain_cons]
  refine ⟨isQualifier_text (.qualifier w) _, next_readable hread _, fun h => ?_⟩
  cases congrArg List.head? h

/-- The first step makes the base the wildcard. -/
theorem first_step (h : Indirection cs) (hb : IsSpecific b) (hn : cs.length < n) :
    generalizeFrom .none n (chain cs b) = .ok (some (chain cs wildcard)) := by
  have hne : ∀ {cs : List Constructor}, chain cs b ≠ chain cs wildcard := fun h =>
    ne_of_tame hb.tame ((chain_right_inj _).mp h)
  have hqualifier : CType.isQualifier b = false := hb.plain 'q' (by decide)
  induction h generalizing n with
  | nil =>
    obtain ⟨m, rfl⟩ := Nat.exists_eq_add_of_lt hn
    exact generalizeFrom_of_loosen (decide_eq_false hb.ne_varargs) hqualifier hb.loosen hne.symm
  | @plain c cs hc h ih =>
    obtain ⟨m, rfl⟩ : ∃ m, n = m + 1 := ⟨n - 1, by omega⟩
    have hrest := ih (n := m) (Nat.lt_of_succ_lt_succ hn)
    have hw : chain cs b ≠ wildcard := ne_of_tame ((h.has b).trans hb.tame)
    have hunder := generalizeUnder_plain c.text hw (h.isQualifier hqualifier) hrest
    rw [chain_cons, chain_cons]
    exact generalizeFrom_indirect hc hw hunder fun hsame => hne (List.append_cancel_left hsame).symm
  | @qualified c w cs hc hw h ih =>
    obtain ⟨m, rfl⟩ : ∃ m, n = m + 1 := ⟨n - 1, by omega⟩
    have hrest := ih (n := m) (by simp only [List.length_cons] at hn; omega)
    obtain ⟨hq, hnext, hqw⟩ := next_qualified hw cs b
    have hbody : chain cs b ≠ written 'q' w ++ chain cs wildcard := fun hsame => by
      have hq := h.isQualifier hqualifier
      rw [hsame] at hq
      exact Bool.false_ne_true (hq.symm.trans (isQualifier_text (.qualifier w) _))
    have hunder := generalizeUnder_qualified c.text hqw hq hnext
      ((h.has b).trans hb.tame) hrest hbody
    rw [chain_cons c, chain_cons c, chain_cons (.qualifier w) cs wildcard]
    refine generalizeFrom_indirect hc hqw hunder fun hsame => ?_
    rw [chain_cons] at hsame
    exact hne (List.append_cancel_left (List.append_cancel_left hsame)).symm

/-- Every further step takes one constructor away. -/
theorem further_step (h : Indirection cs) (hcs : cs ≠ []) (hn : cs.length < n) :
    ∃ cs', Indirection cs' ∧ cs'.length + 1 = cs.length ∧
      generalizeFrom .none n (chain cs wildcard) = .ok (some (chain cs' wildcard)) := by
  have hne : ∀ {cs ds : List Constructor}, Indirection cs → Indirection ds →
      cs.length + 1 = ds.length → chain cs wildcard ≠ chain ds wildcard := by
    intro cs ds hcs hds hlength hsame
    obtain ⟨rfl, -⟩ := readable_inj hcs.readable hds.readable isBase_wildcard isBase_wildcard hsame
    omega
  induction h generalizing n with
  | nil => exact absurd rfl hcs
  | @plain c cs hc h ih =>
    obtain ⟨m, rfl⟩ : ∃ m, n = m + 1 := ⟨n - 1, by omega⟩
    by_cases hnil : cs = []
    · subst hnil
      refine ⟨[], .nil, rfl, ?_⟩
      rw [chain_cons]
      exact generalizeFrom_last hc
    · obtain ⟨cs', hcs', hlength, hstep⟩ := ih hnil (n := m) (Nat.lt_of_succ_lt_succ hn)
      have hunder := generalizeUnder_plain c.text (h.ne_wildcard hnil)
        (h.isQualifier (by decide)) hstep
      refine ⟨c :: cs', .plain hc hcs', by simp [hlength], ?_⟩
      rw [chain_cons, chain_cons]
      exact generalizeFrom_indirect hc (h.ne_wildcard hnil) hunder fun hsame =>
        hne hcs' h hlength (List.append_cancel_left hsame)
  | @qualified c w cs hc hw h ih =>
    obtain ⟨m, rfl⟩ : ∃ m, n = m + 1 := ⟨n - 1, by omega⟩
    obtain ⟨hq, hnext, hqw⟩ := next_qualified hw cs wildcard
    have hunder : generalizeUnder (generalizeFrom .none m) c.text _ = _ :=
      generalizeUnder_bare c.text hqw hq hnext ((h.has wildcard).trans (by decide))
    refine ⟨c :: cs, .plain hc h, rfl, ?_⟩
    rw [chain_cons c, chain_cons c]
    refine generalizeFrom_indirect hc hqw hunder fun hsame => ?_
    rw [← chain_cons, ← chain_cons] at hsame
    exact hne (.plain hc h) (.qualified hc hw h) rfl hsame

/-- From the wildcard on, as many steps as there are constructors. -/
theorem generalizes_wildcard (h : Indirection cs) :
    Generalizes cs.length (chain cs wildcard) wildcard := by
  induction hn : cs.length generalizing cs with
  | zero =>
    obtain rfl := List.length_eq_zero_iff.mp hn
    exact .done (by decide +kernel)
  | succ k ih =>
    have hcs : cs ≠ [] := by
      rintro rfl
      cases hn
    have hbudget : cs.length < Resolver.none.budget + (chain cs wildcard).length + 1 := by
      have hlength := length_le_chain cs wildcard
      omega
    obtain ⟨cs', hcs', hlength, hstep⟩ := h.further_step hcs hbudget
    exact .step hstep (ih hcs' (by omega))

theorem generalizes (h : Indirection cs) (hb : IsSpecific b) :
    Generalizes (cs.length + 1) (chain cs b) wildcard := by
  have hbudget : cs.length < Resolver.none.budget + (chain cs b).length + 1 := by
    have hlength := length_le_chain cs b
    omega
  exact .step (h.first_step hb hbudget) h.generalizes_wildcard

end Indirection

/-- The steps of a type are determined. -/
theorem Generalizes.unique {m : Nat} {t v : CType} (h : Generalizes n t u)
    (h' : Generalizes m t v) : n = m ∧ u = v := by
  induction h generalizing m with
  | done hend =>
    cases h' with
    | done _ => exact ⟨rfl, rfl⟩
    | step hstep _ => cases hend.symm.trans hstep
  | step hstep _ ih =>
    cases h' with
    | done hend => cases hend.symm.trans hstep
    | step hstep' hrest' =>
      cases hstep.symm.trans hstep'
      obtain ⟨rfl, rfl⟩ := ih hrest'
      exact ⟨rfl, rfl⟩

/-- Generalizing comes to an end, and where the base is not the dots, it ends with the wildcard.
Pointers and references, each with at most one qualifier, to a name that says nothing about how
general it is take as many steps as the type has elements. -/
theorem generalizing_reaches_wildcard :
    (∀ (cs : List Constructor) (b : Text), (∀ c ∈ cs, c.IsReadable) → IsBase b →
      ∃ n u, Generalizes n (chain cs b) u ∧ (b ≠ varargs → u = wildcard)) ∧
    ∀ (cs : List Constructor) (b : Text), Indirection cs → b ≠ [] → IsSpecific b →
      (∀ n u, Generalizes n (chain cs b) u ↔ n = cs.length + 1 ∧ u = wildcard) ∧
      (IsBase b → (elements (chain cs b)).map List.length = .ok (cs.length + 1)) := by
  refine ⟨fun cs b hcs hb => generalizes_chain hcs hb, fun cs b hcs hne hb => ⟨fun n u => ?_,
    fun hbase => ?_⟩⟩
  · constructor
    · exact fun h => h.unique (hcs.generalizes hb)
    · rintro ⟨rfl, rfl⟩
      exact hcs.generalizes hb
  · rw [elements_readable hcs.readable hbase, if_neg hne]
    simp [Except.map]

theorem array_of_members_generalizes :
    (∃ n, Generalizes n "a(2).a().m(C).q(const).f(int).T".toList wildcard) ∧
    Generalizes 4 "r.p.q(const).T".toList wildcard := by
  have hname : IsBase "T".toList := isBase_of_unbracketed (by decide)
  have hparameters : (Constructor.function ["int".toList]).IsReadable := by
    refine ⟨?_, by decide⟩
    rw [List.forall_mem_singleton]
    exact listable_iff.mp (.of_plain (by simp))
  obtain ⟨n, u, hrun, hu⟩ := generalizing_reaches_wildcard.1
    [.array "2".toList, .array [], .memberPointer "C".toList, .qualifier "const".toList,
      .function ["int".toList]] "T".toList
    (by
      simp only [List.forall_mem_cons]
      exact ⟨(by decide : Balanced "2".toList), balanced_nil, (by decide : Balanced "C".toList),
        (by decide : Balanced "const".toList), hparameters, nofun⟩) hname
  obtain rfl := hu (by decide)
  refine ⟨⟨n, hrun⟩, ?_⟩
  exact ((generalizing_reaches_wildcard.2 [.reference, .pointer, .qualifier "const".toList]
    "T".toList (.plain (Or.inr rfl) (.qualified (Or.inl rfl) (by decide) .nil)) (by decide)
    ⟨by decide, by decide, by decide, hname.plain⟩).1 4 wildcard).mpr ⟨rfl, rfl⟩

end BindingTypes.CType

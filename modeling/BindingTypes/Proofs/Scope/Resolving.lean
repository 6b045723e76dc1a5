import BindingTypes.Proofs.Scope.Course
import BindingTypes.Proofs.Scope.Readings

namespace BindingTypes.ScopeGraph

open CType Relation

variable {v : Vocabulary} {g : ScopeGraph} {n b z t : Text} {cs front : List Constructor}
  {past : List Text}

namespace WellFormed

variable (hg : WellFormed v g)
include hg

/-- What a type unfolds to is decided by what the tables say of its base. -/
theorem unfolds (r : Option CType) (scope : Option ScopeId) (hfront : ∀ c ∈ front, c.IsPlain)
    (hb : Unbracketed t) (hne : t ≠ []) (hc : t.after? "::".toList = none)
    (hfound : ∀ (budget : Nat) (resolve : CType → Except Fault CType) expand,
      (g.withBudget budget).expandName resolve g.current t expand = .ok ⟨r, scope⟩) :
    g.Unfolds (chain front t) (r.map (chain front ·)) := by
  intro budget resolve
  exact (hg.withBudget budget).expandStep_chain hfront hb hne hc (hfound budget resolve)

theorem unfolds_declared {e : TypedefEntry} (hfront : ∀ c ∈ front, c.IsPlain)
    (he : (g.scope g.current).typedefs.get? n = some e) :
    g.Unfolds (chain front n)
      ((if e.type = n then none else some e.type).map (chain front ·)) := by
  have hword := (hg.names _ n e he).isWord
  refine hg.unfolds _ (some g.current) hfront hword.unbracketed hword.ne_nil hword.after?_colons
    fun budget resolve expand => ?_
  exact expandName_found (lookupName_own he)

theorem unfolds_unknown (hfront : ∀ c ∈ front, c.IsPlain) (hb : IsWord b)
    (he : (g.scope g.current).typedefs.get? b = none) (hl : g.lookup g.current b = none) :
    g.Unfolds (chain front b) none := by
  refine hg.unfolds none none hfront hb.unbracketed hb.ne_nil hb.after?_colons
    fun budget resolve expand => ?_
  refine expandName_unknown (lookupName_unknown he ?_ ?_) (isTemplate_unbracketed hb.unbracketed)
  · have hscopes : (g.withBudget budget).scopes = g.scopes := rfl
    rw [lookup_eq_of_scopes hscopes]
    exact hl
  · exact QualifiedName.cutLast?_eq_none hb.unbracketed hb.colon_notMem

/-- Seen from the global scope, a qualified name unfolds in the scope it names. -/
theorem unfolds_within {id : ScopeId} {e : TypedefEntry} (hroot : g.current = globalScope)
    (hid : id < g.scopes.length) (hpath : v.IsPath (g.nameOf id))
    (he : (g.scope id).typedefs.get? n = some e) :
    g.Unfolds (g.nameIn id n) (if g.qualifyExpansion id e.type = g.nameIn id n then none
      else some (g.qualifyExpansion id e.type)) := by
  have hinner : v.IsPath (g.nameIn id n) :=
    Vocabulary.isPath_within (Or.inr hpath) (hg.names id n e he)
  have hname : ∀ (budget : Nat) (resolve : CType → Except Fault CType),
      (g.withBudget budget).lookupName resolve globalScope (g.nameIn id n) =
        .ok (some (some (g.qualifyExpansion id e.type, id))) := by
    intro budget resolve
    have hwithin := lookupName_within (hg.withBudget budget) resolve hid hpath he
    have hscopes : (g.withBudget budget).scopes = g.scopes := rfl
    rwa [qualifyExpansion_eq_of_scopes hscopes, nameIn_eq_of_scopes hscopes] at hwithin
  have hunfolds := hg.unfolds _ (some id) plain_nil hinner.unbracketed hinner.ne_nil
    hinner.after?_colons fun budget resolve expand => hroot ▸ expandName_found (hname budget resolve)
  simpa [chain] using hunfolds

/-- Typedefs of the current scope are followed to the end. -/
theorem course_of_expands (h : Expands v (g.scope g.current).typedefs n cs z)
    (hfront : ∀ c ∈ front, c.IsPlain)
    (hunknown : ∀ b ∈ v.builtins, g.lookup g.current b = none)
    (hpast : ∀ s ∈ past, IsWord s → TransGen (Uses (g.scope g.current).typedefs) s n) :
    Course g past (chain front n) (chain (front ++ cs) z) := by
  -- Every past base leads to the next one, and nothing that expands leads to itself.
  induction h generalizing front past with
  | @builtin b hb =>
    rw [List.append_nil]
    exact .rest (hg.unfolds_unknown hfront (v.words b hb) ((hg.names _).get?_builtin hb)
      (hunknown b hb))
  | ofClass hn =>
    have hrest := hg.unfolds_declared hfront hn
    rw [if_pos rfl] at hrest
    rw [List.append_nil]
    exact .rest hrest
  | @typedef n b z cs cs' hd hx ih =>
    have hacyclic := (Expands.typedef hd hx).not_uses_self (hg.names _)
    have hword := (hg.names _ _ _ hd.entry).isWord
    have hplain := plain_append hfront hd.plain
    have hne : chain cs b ≠ n := by
      intro he
      have hself : cs = [] ∧ b = n := chain_inj hd.plain plain_nil
        hd.word.unbracketed hword.unbracketed hd.word.ne_nil hword.ne_nil he
      obtain ⟨rfl, rfl⟩ := hself
      exact hacyclic (TransGen.single ⟨[], hd⟩)
    have hstep := hg.unfolds_declared hfront hd.entry
    rw [if_neg hne] at hstep
    have hnext : chain front (chain cs b) = chain (front ++ cs) b := (chain_append _ _ _).symm
    rw [Option.map_some, hnext] at hstep
    have hpast' : ∀ s ∈ n :: past, IsWord s →
        TransGen (Uses (g.scope g.current).typedefs) s b := by
      intro s hs hw
      rcases List.mem_cons.mp hs with rfl | hs
      · exact TransGen.single ⟨cs, hd⟩
      · exact TransGen.tail (hpast s hs hw) ⟨cs, hd⟩
    refine .step hstep (outline_chain hfront hword.unbracketed hword.ne_nil)
      (outline_chain hplain hd.word.unbracketed hd.word.ne_nil) ?_ ?_
    · intro hm
      exact hx.not_uses_self (hg.names _) (hpast' b hm hd.word)
    · rw [← List.append_assoc]
      exact ih hplain hpast'

theorem course_of_reads (front : List Constructor) (hroot : g.current = globalScope)
    (h : Reads v (g.scope globalScope).typedefs b cs z) (hfront : ∀ c ∈ front, c.IsPlain)
    (hpast : ∀ s ∈ past, ¬ IsWord s) : Course g past (chain front b) (chain (front ++ cs) z) := by
  have hunknown : ∀ t, (g.scope globalScope).typedefs.get? t = none →
      g.lookup g.current t = none := fun t ht => hroot ▸ hg.lookup_root ht
  cases h with
  | known h =>
    rw [← hroot] at h
    refine hg.course_of_expands h hfront (fun b hb => ?_) fun s hs hw => absurd hw (hpast s hs)
    exact hunknown b ((hg.names _).get?_builtin hb)
  | unknown hb hw =>
    rw [List.append_nil]
    exact .rest (hg.unfolds_unknown hfront hw (hroot.symm ▸ hb) (hunknown b hb))

omit hg in
theorem past_cons {id : ScopeId} (hu : Uses (g.scope id).typedefs n b)
    (hpast : ∀ s ∈ past, ∃ m, s = g.nameIn id m ∧ TransGen (Uses (g.scope id).typedefs) m n) :
    ∀ s ∈ g.nameIn id n :: past,
      ∃ m, s = g.nameIn id m ∧ TransGen (Uses (g.scope id).typedefs) m b := by
  intro s hs
  rcases List.mem_cons.mp hs with rfl | hs
  · exact ⟨n, rfl, TransGen.single hu⟩
  · obtain ⟨m, hm, hp⟩ := hpast s hs
    exact ⟨m, hm, TransGen.tail hp hu⟩

theorem qualifyExpansion_unknown (ht : ¬ v.IsName t) (id : ScopeId) :
    g.qualifyExpansion id t = t := by
  unfold qualifyExpansion
  rw [hg.lookup_eq_none ht id]
  simp

theorem qualifyExpansion_declared {id : ScopeId} {e : TypedefEntry}
    (hpath : v.IsPath (g.nameOf id)) (he : (g.scope id).typedefs.get? n = some e) :
    g.qualifyExpansion id n = g.nameIn id n := by
  have hword := (hg.names id n e he).isWord
  have hcut := QualifiedName.cutFirst?_eq_none hword.unbracketed hword.colon_notMem
  have hne := hpath.ne_nil
  unfold qualifyExpansion
  rw [lookup_own he, QualifiedName.isQualified, hcut]
  simp [hne]

theorem outline_nameIn {id : ScopeId} {e : TypedefEntry} (hpath : v.IsPath (g.nameOf id))
    (he : (g.scope id).typedefs.get? n = some e) :
    outline (g.nameIn id n) = .ok ⟨(g.nameIn id n).measured, 1, (g.nameIn id n).measured⟩ := by
  have hinner := Vocabulary.isPath_within (Or.inr hpath) (hg.names id n e he)
  exact outline_unbracketed hinner.unbracketed hinner.ne_nil

/-- An expansion that is not qualified is read in the global scope from there on. -/
theorem course_of_bare {id : ScopeId} {cs' : List Constructor} (hroot : g.current = globalScope)
    (hid : id < g.scopes.length) (hpath : v.IsPath (g.nameOf id))
    (hn : Declares (g.scope id).typedefs n cs b) (hbare : ¬ v.IsName (chain cs b))
    (hb : Reads v (g.scope globalScope).typedefs b cs' z)
    (hpast : ∀ s ∈ past, ∃ m, s = g.nameIn id m ∧ TransGen (Uses (g.scope id).typedefs) m n) :
    Course g past (g.nameIn id n) (chain (cs ++ cs') z) := by
  have hpast' := past_cons ⟨cs, hn⟩ hpast
  have hinner : v.IsPath (g.nameIn id n) :=
    Vocabulary.isPath_within (Or.inr hpath) (hg.names id n _ hn.entry)
  have hnotWord : ∀ m, ¬ IsWord (g.nameIn id m) := fun m => not_isWord_within hpath.ne_nil
  have hne : chain cs b ≠ g.nameIn id n := by
    intro he
    have hself : cs = [] ∧ b = g.nameIn id n := chain_inj hn.plain plain_nil
      hn.word.unbracketed hinner.unbracketed hn.word.ne_nil hinner.ne_nil he
    exact hnotWord n (hself.2 ▸ hn.word)
  have hstep := hg.unfolds_within hroot hid hpath hn.entry
  rw [hg.qualifyExpansion_unknown hbare, if_neg hne] at hstep
  refine .step hstep (hg.outline_nameIn hpath hn.entry)
    (outline_chain hn.plain hn.word.unbracketed hn.word.ne_nil) ?_ ?_
  · intro hm
    obtain ⟨m, hbm, -⟩ := hpast' b hm
    exact hnotWord m (hbm ▸ hn.word)
  · refine hg.course_of_reads cs hroot hb hn.plain fun s hs => ?_
    obtain ⟨m, rfl, -⟩ := hpast' s hs
    exact hnotWord m

/-- A name of another scope is followed as its reader follows it. -/
theorem course_of_readsFromOutside {id : ScopeId} (hroot : g.current = globalScope)
    (hid : id < g.scopes.length) (hpath : v.IsPath (g.nameOf id))
    (h : ReadsFromOutside v (g.scope id).typedefs (g.scope globalScope).typedefs (g.nameOf id)
      n cs z)
    (hpast : ∀ s ∈ past, ∃ m, s = g.nameIn id m ∧ TransGen (Uses (g.scope id).typedefs) m n) :
    Course g past (g.nameIn id n) (chain cs z) := by
  -- On the way every past base is a name of `id` that leads here, so none comes back.
  induction h generalizing past with
  | ofClass hn =>
    have hrest := hg.unfolds_within hroot hid hpath hn
    rw [hg.qualifyExpansion_declared hpath hn, if_pos rfl] at hrest
    exact .rest hrest
  | builtin hn hb =>
    have hreads := Reads.known (T := (g.scope globalScope).typedefs) (.builtin hb)
    exact hg.course_of_bare hroot hid hpath hn (fun h => h.2 hb) hreads hpast
  | @rename n b z cs hn hb ih =>
    have hpast' := past_cons ⟨[], hn⟩ hpast
    obtain ⟨e, he⟩ := hb.declared
    obtain ⟨cs₁, z₁, hx⟩ := hg.expands id b e he
    have hacyclic := hx.not_uses_self (hg.names id)
    have hstep := hg.unfolds_within hroot hid hpath hn.entry
    have hne : g.nameIn id b ≠ g.nameIn id n := by
      intro heq
      cases QualifiedName.within_right_inj.mp heq
      exact hacyclic (TransGen.single ⟨[], hn⟩)
    rw [chain_nil, hg.qualifyExpansion_declared hpath he, if_neg hne] at hstep
    refine .step hstep (hg.outline_nameIn hpath hn.entry) (hg.outline_nameIn hpath he) ?_
      (ih hpast')
    intro hm
    obtain ⟨m, hbm, hu⟩ := hpast' _ hm
    cases QualifiedName.within_right_inj.mp hbm
    exact hacyclic hu
  | @bare n b z cs cs' hn hcs hb =>
    have hdot := dot_mem_chain hcs b
    exact hg.course_of_bare hroot hid hpath hn
      (fun h => h.isWord.unbracketed '.' hdot (by decide)) hb hpast

end WellFormed

end BindingTypes.ScopeGraph

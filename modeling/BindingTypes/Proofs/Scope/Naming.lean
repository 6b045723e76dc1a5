import BindingTypes.Proofs.Outcome
import BindingTypes.Proofs.Scope.Readings
import BindingTypes.Proofs.Scope.Unfolding

namespace BindingTypes

namespace CType

theorem concatMap_of_elements {t : CType} {es : List Text}
    {f : { e : Text // e.length ≤ t.length } → Except Fault Text} {k : Text → Text}
    (he : elements t = .ok es) (hf : ∀ e h, e ∈ es → f ⟨e, h⟩ = .ok (k e)) :
    concatMap t f = .ok (es.map k).flatten := by
  have hscan := scan_of_elements he
  have hall : ∀ e ∈ (scan t).1.attach.map fun e =>
      (⟨e.1, length_le_of_mem_scan e.2⟩ : { e : Text // e.length ≤ t.length }),
      f e = .ok (k e.1) := by
    intro e hm
    obtain ⟨⟨e', hm'⟩, -, rfl⟩ := List.mem_map.mp hm
    rw [hscan] at hm'
    exact hf e' _ hm'
  have htexts := mapM_eq_ok (k := fun e : { e : Text // e.length ≤ t.length } => k e.1) hall
  have hmap : ((scan t).1.attach.map fun e =>
      (⟨e.1, length_le_of_mem_scan e.2⟩ : { e : Text // e.length ≤ t.length })).map
        (fun e : { e : Text // e.length ≤ t.length } => k e.1) = es.map k := by
    have hes : (scan t).1 = es := congrArg Prod.fst hscan
    rw [List.map_map, ← hes]
    exact List.attach_map_val
  rw [hmap] at htexts
  unfold concatMap
  rw [htexts, hscan]
  rfl

end CType

namespace ScopeGraph

open CType

variable {v : Vocabulary} {g : ScopeGraph} {n b z t : Text} {cs : List Constructor}

theorem qualifyExpression_eq_self (h : ∀ name, g.lookupOwnSymbol name = none) (glued : Bool)
    (t : Text) : g.qualifyExpression glued t = t := by
  induction hn : t.length using Nat.strongRecOn generalizing glued t with
  | ind k ih =>
    cases t with
    | nil => rw [qualifyExpression]
    | cons c cs =>
      rw [qualifyExpression]
      split
      · have hname : g.qualifyIdentifier glued (c :: cs.takeWhile isIdentChar) =
            c :: cs.takeWhile isIdentChar := by
          rw [qualifyIdentifier, h]
        have hrest := ih (cs.dropWhile isIdentChar).length (by
          have hle := (List.dropWhile_sublist isIdentChar (l := cs)).length_le
          rw [List.length_cons] at hn
          omega) false (cs.dropWhile isIdentChar) rfl
        rw [hname, hrest, List.cons_append, List.takeWhile_append_dropWhile]
      · have hrest := ih cs.length (by
          rw [List.length_cons] at hn
          omega) (isIdentChar c || c = ':') cs rfl
        rw [hrest]

/-- A text that names no scope under any prefix stays as it is. -/
theorem qualifyScopeName_eq_self (ht : ∀ id, g.byName.get? (g.nameIn id t) = none) :
    g.qualifyScopeName t = t := by
  unfold qualifyScopeName
  have hnone : (g.outward g.current).findSome? (fun id =>
      let candidate := g.nameIn id t
      if g.byName.contains candidate then some candidate else none) = none := by
    refine List.findSome?_eq_none_iff.mpr fun id _ => ?_
    simp [Table.contains, ht id]
  rw [hnone]
  rfl

section Element

variable {again : { p : CType // p.length < t.length } → Except Fault CType}

theorem qualifyPlain_found {e : TypedefEntry} {id : ScopeId}
    (again : { p : CType // p.length < t.length } → Except Fault CType)
    (h : g.lookup g.current t = some (e, id)) : g.qualifyPlain t again = .ok (g.nameIn id t) := by
  unfold qualifyPlain
  rw [h]
  rfl

theorem qualifyPlain_bare (again : { p : CType // p.length < t.length } → Except Fault CType)
    (h : g.lookup g.current t = none)
    (hcut : QualifiedName.cutLast? 0 t = none) :
    g.qualifyPlain t again = .ok (g.qualifyScopeName t) := by
  unfold qualifyPlain
  rw [h]
  simp only
  split
  · rename_i hc
    rw [hcut] at hc
    cases hc
  · rfl

theorem qualifyPlain_inner {scope last : Text} (h : g.lookup g.current t = none)
    (hcut : QualifiedName.cutLast? 0 t = some (scope, last))
    (hagain : ∀ hs, again ⟨scope, hs⟩ = .ok scope) :
    g.qualifyPlain t again = .ok (scope ++ "::".toList ++ last) := by
  unfold qualifyPlain
  rw [h]
  simp only
  split
  · rename_i scope' last' hc
    cases hcut.symm.trans hc
    rw [hagain]
    rfl
  · rename_i hc
    rw [hcut] at hc
    cases hc

theorem qualifyElement_simple {reuse : Reuse (Except Fault)} {t' : Text}
    (hs : isSimple t = true) (ht : isTemplate t = false)
    (he : t.after? "enum ".toList = none) (hp : g.qualifyPlain t again = .ok t')
    (hc : t'.after? "::".toList = none) : g.qualifyElement reuse t again = .ok t' := by
  have hname : g.qualifyName reuse t again = .ok t' := by
    have hnone : ∀ {α : Type}, (liftM (.ok none : Except Fault (Option α)) :
        Except Fault (Option α)) = pure none := rfl
    unfold qualifyName
    rw [templateWithin_of_isTemplate ht, hnone, pure_bind]
    dsimp only
    split
    · rename_i r hr
      rw [he] at hr
      cases hr
    · exact hp
  unfold qualifyElement
  rw [if_pos hs, hname]
  show Except.ok ((t'.after? "::".toList).getD t') = _
  rw [hc]
  rfl

end Element

/-- A word is qualified by the scope that declares it, or by one that is found around it. -/
theorem qualifyElement_word {b' : Text} (hb : IsWord b) (hp : ∀ again : { p : CType //
      p.length < b.length } → Except Fault CType, g.qualifyPlain b again = .ok b')
    (hc : b'.after? "::".toList = none) :
    g.qualifyElement .never b (fun p => g.qualifyVia .never p.1) = (.ok b' : Except Fault Text) :=
  qualifyElement_simple (isSimple_unbracketed hb.unbracketed) (isTemplate_unbracketed hb.unbracketed)
    hb.2.2 (hp _) hc

namespace WellFormed

variable (hg : WellFormed v g)
include hg

theorem lookupOwnSymbol_eq_none (name : Text) : g.lookupOwnSymbol name = none := by
  unfold lookupOwnSymbol
  refine List.findSome?_eq_none_iff.mpr fun id _ => ?_
  rw [hg.symbols]
  rfl

/-- No scope has a dotted name. -/
theorem get?_nameIn_text (c : Constructor) (id : ScopeId) :
    g.byName.get? (g.nameIn id c.text) = none := by
  cases hf : g.byName.get? (g.nameIn id c.text) with
  | none => rfl
  | some j =>
    obtain ⟨-, hname⟩ := hg.keys _ _ hf
    have hdot : '.' ∈ g.nameOf j := by
      rw [hname, nameIn, QualifiedName.within]
      split
      · exact dot_mem_text c
      · exact List.mem_append_right _ (dot_mem_text c)
    rcases hg.paths j with hnil | hpath
    · rw [hnil] at hdot
      cases hdot
    · exact absurd (by decide) (hpath.unbracketed '.' hdot)

/-- No scope is named like a builtin type. -/
theorem get?_nameIn_builtin (hb : b ∈ v.builtins) (id : ScopeId) :
    g.byName.get? (g.nameIn id b) = none := by
  have hword := v.words b hb
  cases hf : g.byName.get? (g.nameIn id b) with
  | none => rfl
  | some j =>
    obtain ⟨hj, hname⟩ := hg.keys _ _ hf
    have hne : j ≠ globalScope := by
      rintro rfl
      rw [hg.rootName, nameIn, QualifiedName.within] at hname
      split at hname
      · exact hword.ne_nil hname.symm
      · have hlast := List.append_eq_nil_iff.mp hname.symm
        exact hword.ne_nil hlast.2
    obtain ⟨p, m, -, -, hm, hpm⟩ := hg.placed j hj hne
    have hsame : g.nameIn id b = g.nameIn p m := hname.symm.trans hpm
    obtain ⟨-, rfl⟩ := Vocabulary.within_inj (hg.paths id) (hg.paths p) hword hm.isWord hsame
    exact absurd hb hm.2

theorem qualifyElement_text {c : Constructor} (hc : c.IsPlain)
    (again : { p : CType // p.length < c.text.length } → Except Fault CType) :
    g.qualifyElement .never c.text again = .ok c.text := by
  by_cases hs : isSimple c.text = true
  · obtain ⟨d, rfl⟩ := eq_array_of_isSimple hc hs
    obtain ⟨ht, hcut⟩ := hc.2 hs
    have hplain := qualifyPlain_bare again
      (hg.lookup_eq_none Vocabulary.not_isName_text g.current) hcut
    rw [qualifyScopeName_eq_self (hg.get?_nameIn_text _)] at hplain
    exact qualifyElement_simple hs ht rfl hplain (after?_text _)
  · unfold qualifyElement
    rw [if_neg hs, (nameless_text hc).1]
    cases c with
    | array d =>
      have harray : isArray (Constructor.array d).text = true :=
        Text.startsWith_iff.mpr ⟨d ++ ").".toList, rfl⟩
      rw [if_neg Bool.false_ne_true, if_pos harray]
      show (liftM (parameter (Constructor.array d).text) >>= _ : Except Fault Text) = _
      rw [parameter_array hc]
      show Except.ok (written 'a' (g.qualifyExpression false d)) = _
      rw [qualifyExpression_eq_self hg.lookupOwnSymbol_eq_none]
      rfl
    | pointer => rfl
    | reference => rfl
    | qualifier words =>
      cases hc
      rfl
    | function ps => cases hc
    | memberPointer c => cases hc

/-- The base of a type is qualified under its constructors. -/
theorem qualifyVia_chain {b' : Text} (hcs : ∀ c ∈ cs, c.IsPlain) (hb : Unbracketed b)
    (hne : b ≠ [])
    (hbase : g.qualifyElement .never b (fun p => g.qualifyVia .never p.1) =
      (.ok b' : Except Fault Text)) :
    g.qualifyVia .never (chain cs b) = (.ok (chain cs b') : Except Fault CType) := by
  have helements : elements (chain cs b) = .ok (cs.map Constructor.text ++ [b]) := by
    rw [elements_chain hcs, elements_unbracketed hb hne]
    rfl
  have htext : ∀ c : Constructor, c.text ≠ b :=
    fun c he => hb '.' (he ▸ dot_mem_text c) (by decide)
  have hall : ∀ e (_ : e.length ≤ (chain cs b).length), e ∈ cs.map Constructor.text ++ [b] →
      g.qualifyElement .never e (fun p => g.qualifyVia .never p.1) =
        (.ok (if e = b then b' else e) : Except Fault Text) := by
    intro e _ hm
    rcases List.mem_append.mp hm with hm | hm
    · obtain ⟨c, hc, rfl⟩ := List.mem_map.mp hm
      rw [if_neg (htext c)]
      exact hg.qualifyElement_text (hcs c hc) _
    · cases List.mem_singleton.mp hm
      rw [if_pos rfl]
      exact hbase
  have hconstructors : cs.map ((fun e => if e = b then b' else e) ∘ Constructor.text) =
      cs.map Constructor.text :=
    List.map_congr_left fun c _ => if_neg (htext c)
  rw [qualifyVia, Reuse.never_qualified, concatMap_of_elements helements hall]
  simp [chain, hconstructors]

theorem qualifyElement_builtin (hb : b ∈ v.builtins) :
    g.qualifyElement .never b (fun p => g.qualifyVia .never p.1) = (.ok b : Except Fault Text) := by
  have hword := v.words b hb
  refine qualifyElement_word hword (fun again => ?_) hword.after?_colons
  have hbare := qualifyPlain_bare again
    (hg.lookup_eq_none (fun h => h.2 hb) g.current)
    (QualifiedName.cutLast?_eq_none hword.unbracketed hword.colon_notMem)
  rwa [qualifyScopeName_eq_self (hg.get?_nameIn_builtin hb)] at hbare

theorem qualifyElement_declared {e : TypedefEntry}
    (he : (g.scope g.current).typedefs.get? n = some e) :
    g.qualifyElement .never n (fun p => g.qualifyVia .never p.1) =
      (.ok (g.nameIn g.current n) : Except Fault Text) := by
  have hname := hg.names _ n e he
  have hpath := Vocabulary.isPath_within (hg.paths g.current) hname
  exact qualifyElement_word hname.isWord (fun again => qualifyPlain_found again (lookup_own he))
    hpath.after?_colons

/-- Where a name is declared, its expansion is qualified by that scope. -/
theorem qualifyVia_expands (h : Expands v (g.scope g.current).typedefs n cs z) :
    g.qualifyVia .never (chain cs z) =
      (.ok (chain cs (v.place (g.nameOf g.current) z)) : Except Fault CType) := by
  have hword := h.last_isWord (hg.names _)
  refine hg.qualifyVia_chain h.plain hword.unbracketed hword.ne_nil ?_
  rcases h.last with hz | hz
  · rw [Vocabulary.place_of_builtin hz]
    exact hg.qualifyElement_builtin hz
  · rw [Vocabulary.place_of_name (hg.names _ z _ hz)]
    exact hg.qualifyElement_declared hz

theorem qualifyScopeName_root (hroot : g.current = globalScope) : g.qualifyScopeName t = t := by
  have hname : g.nameIn globalScope t = t := by
    rw [nameIn, hg.rootName]
    rfl
  unfold qualifyScopeName
  rw [hroot, hg.outward_root]
  simp only [List.findSome?_cons, List.findSome?_nil, hname]
  cases g.byName.contains t <;> rfl

/-- In the global scope words and qualified names stay as they are. -/
theorem qualifyElement_root_word (hroot : g.current = globalScope) (hb : IsWord b) :
    g.qualifyElement .never b (fun p => g.qualifyVia .never p.1) = (.ok b : Except Fault Text) := by
  refine qualifyElement_word hb (fun again => ?_) hb.after?_colons
  cases he : (g.scope globalScope).typedefs.get? b with
  | some e =>
    have hfound := qualifyPlain_found again (hroot.symm ▸ lookup_own he)
    rw [nameIn, hroot, hg.rootName] at hfound
    exact hfound
  | none =>
    have hbare := qualifyPlain_bare again (hroot.symm ▸ hg.lookup_root he)
      (QualifiedName.cutLast?_eq_none hb.unbracketed hb.colon_notMem)
    rwa [hg.qualifyScopeName_root hroot] at hbare

theorem qualifyElement_root_path (hroot : g.current = globalScope) (hN : v.IsPath t) :
    g.qualifyElement .never t (fun p => g.qualifyVia .never p.1) = (.ok t : Except Fault Text) := by
  induction hN with
  | name hn => exact hg.qualifyElement_root_word hroot hn.isWord
  | @inner N n hN hn ih =>
    have hpath : v.IsPath (N ++ "::".toList ++ n) := .inner hN hn
    have hnot : ¬ v.IsName (N ++ "::".toList ++ n) := by
      intro h
      have hcolon := h.isWord.colon_notMem
      simp at hcolon
    have hscope : g.qualifyVia .never (chain [] N) = (.ok (chain [] N) : Except Fault CType) :=
      hg.qualifyVia_chain plain_nil hN.unbracketed hN.ne_nil ih
    refine qualifyElement_simple (isSimple_unbracketed hpath.unbracketed)
      (isTemplate_unbracketed hpath.unbracketed) hpath.after?_enum ?_ hpath.after?_colons
    exact qualifyPlain_inner (hg.lookup_eq_none hnot _) (hN.cutLast?_inner hn.isWord)
      fun _ => hscope

theorem qualifyVia_root (hroot : g.current = globalScope) (hcs : ∀ c ∈ cs, c.IsPlain)
    (hz : IsWord z ∨ v.IsPath z) :
    g.qualifyVia .never (chain cs z) = (.ok (chain cs z) : Except Fault CType) := by
  rcases hz with hz | hz
  · exact hg.qualifyVia_chain hcs hz.unbracketed hz.ne_nil (hg.qualifyElement_root_word hroot hz)
  · exact hg.qualifyVia_chain hcs hz.unbracketed hz.ne_nil (hg.qualifyElement_root_path hroot hz)

end WellFormed

end ScopeGraph

end BindingTypes

import Mathlib.Control.Monad.Basic
import BindingTypes.Proofs.Registry.Closure
import BindingTypes.Proofs.Registry.FoldingLog

namespace BindingTypes

namespace Environment

variable {env env' : Environment} {H : ScopeGraph → Prop}

/-- Folding one subtype keeps a log, which may grow. -/
theorem logged_foldSubtype {log : List Folding} {canonical : CType} {base target : Text}
    {known : List Text} {s : Subtype} (hg : H env.graph) (h : env.registry.Logged H log)
    (hbase : CType.base canonical = .ok base) (hs : s ∈ env.registry.subtypesOf base)
    (htarget : CType.runtimeName env.graph.resolver canonical = .ok target)
    (hknown : ∀ k ∈ known, (env.registry.namesOf canonical).contains k = true)
    (hf : env.foldSubtype canonical target known s = .ok env') :
    (∃ log', env'.registry.Logged H log') ∧ env.registry.Widens env'.registry := by
  obtain ⟨front, source, hfront, hsource, hcases⟩ := foldSubtype_cases hf
  rcases hcases with ⟨-, hr⟩ | ⟨hnone, F, rfl, hderived, rfl, rfl, rfl, haliases, hname, hresult,
    hshown, hcast, hr⟩
  · have hw : env.registry.Widens env'.registry := by
      rw [hr]
      exact widens_addName _ _ _ _
    refine ⟨⟨log, ?_⟩, hw⟩
    rw [hr] at hw ⊢
    refine h.of_widens hw rfl rfl (fun c n t hn => ?_) (fun n hn => Or.inl hn)
    rcases Registry.get?_namesOf_addName hn with ⟨-, rfl, rfl⟩ | hn
    · exact Or.inr ⟨CType.plus_notMem_runtimeName hsource, Or.inr ⟨env.graph, hg, hsource⟩⟩
    · exact Or.inl hn
  · rw [hr]
    refine ⟨⟨log ++ [F], ?_⟩, widens_fold _ _⟩
    rw [← hderived] at hsource
    have hsplit : CType.split F.base = .ok (front, base) := by
      cases hsp : CType.split F.base with
      | error f =>
        rw [CType.base, hsp] at hbase
        cases hbase
      | ok r =>
        rw [CType.base, hsp] at hbase
        rw [CType.front, hsp] at hfront
        cases hbase
        cases hfront
        rfl
    exact logged_fold h hnone haliases hname
      ⟨env.graph, hg, hsource, htarget, hresult, hshown⟩
      ⟨front, base, s, hsplit, hderived, hcast, hs⟩ hknown

theorem logged_foldType {log : List Folding} {canonical : CType} (hg : H env.graph)
    (h : env.registry.Logged H log) (hf : env.foldType canonical = .ok env') :
    ∃ log', env'.registry.Logged H log' := by
  obtain ⟨base, hbase, ⟨-, rfl⟩ | ⟨subtypes, target, hsubtypes, htarget, hf⟩⟩ := foldType_cases hf
  · exact ⟨log, h⟩
  · have hmem : ∀ s ∈ subtypes, s ∈ env.registry.subtypesOf base := by
      intro s hs
      rw [Registry.subtypesOf, hsubtypes]
      exact hs
    refine (foldlM_keeps (P := fun e => e.graph = env.graph ∧
      env.registry.Widens e.registry ∧ ∃ log', e.registry.Logged H log') ?_
      ⟨rfl, .refl _, log, h⟩ hf).2.2
    rintro e s hs e' ⟨hgraph, hw, log', hl⟩ he
    rw [← hgraph] at hg htarget
    obtain ⟨hlog, hw'⟩ := logged_foldSubtype hg hl hbase (hw.subtypes base s (hmem s hs)) htarget
      (fun k hk => hw.listed canonical k (Table.mem_keys_iff_contains.mp hk)) he
    exact ⟨(foldSubtype_eq_ok he).2.trans hgraph, hw.trans hw', hlog⟩

theorem logged_foldSubtypes {log : List Folding} (hg : H env.graph)
    (h : env.registry.Logged H log) (hf : env.foldSubtypes = .ok env') :
    ∃ log', env'.registry.Logged H log' := by
  refine (foldlM_keeps (P := fun e => H e.graph ∧ ∃ log', e.registry.Logged H log') ?_
    ⟨hg, log, h⟩ hf).2
  rintro e canonical - e' ⟨hge, log', hl⟩ he
  have hgraph : e'.graph = e.graph :=
    foldType_keeps (P := fun x => x.graph = e.graph)
      (fun _ _ _ _ _ _ hp h => (foldSubtype_eq_ok h).2.trans hp) rfl he
  rw [hgraph]
  exact ⟨hge, logged_foldType hge hl he⟩

theorem logged_register {e : RegistryEdit} (hg : H env.graph)
    (h : ∃ log, env.registry.Logged H log) (he : env.register e = .ok env') :
    ∃ log, env'.registry.Logged H log := by
  refine (register_keeps (P := fun e => H e.graph ∧ ∃ log, e.registry.Logged H log) ?_ ?_ ?_
    ⟨hg, h⟩ he).2
  · rintro env t clientData e r ⟨hg, log, hl⟩ hr
    exact ⟨hg, log, logged_record hl hr⟩
  · rintro env derived base cast env' ⟨hg, log, hl⟩ hs
    rw [graph_addSubtype hs]
    exact ⟨hg, log, logged_addSubtype hl hs⟩
  · rintro env env' ⟨hg, log, hl⟩ hf
    rw [graph_foldSubtypes hf]
    exact ⟨hg, logged_foldSubtypes hg hl hf⟩

end Environment

theorem Consulted.logged_run (budget : Nat) (ops : List Operation) :
    ∃ log, (run budget ops).env.registry.Logged (Visited budget ops) log := by
  refine Consulted.registry_run (P := fun H r => ∃ log, r.Logged H log) budget ?_ ?_ ?_ ops
  · intro H
    exact ⟨[], Registry.logged_empty⟩
  · rintro H H' r hH ⟨log, hl⟩
    exact ⟨log, hl.more hH⟩
  · intro H env e env' hg h he
    exact Environment.logged_register hg h he

theorem Consulted.logged_typeTable {budget : Nat} {ops : List Operation} {table : TypeTable}
    {env' : Environment} (h : (run budget ops).env.typeTable = .ok (table, env')) :
    ∃ log, env'.registry.Logged (Visited budget ops) log := by
  obtain ⟨log, hl⟩ := Consulted.logged_run budget ops
  exact Environment.logged_foldSubtypes (Consulted.visited_run budget ops) hl
    (Environment.typeTable_cases h).1

namespace Registry

variable {r : Registry}

/-- Whatever holds of a name and of all listed names holds of all names equivalent to it. -/
theorem equivalents_keeps {P : Text → Prop} {name : Text}
    (hp : ∀ t, ∀ n ∈ (r.namesOf t).keys, P n) (hname : P name) :
    ∀ n ∈ r.equivalents name, P n := by
  intro n hn
  induction mem_equivalents_iff.mp hn with
  | refl => exact hname
  | tail hlead hab ih =>
    obtain ⟨t, -, ht⟩ := hab
    exact hp t _ (Table.mem_keys_iff_contains.mpr ht)

/-- Both names are on record for one type. -/
def ShareType (r : Registry) (a b : Text) : Prop :=
  ∃ t, (r.denotedBy a).contains t = true ∧ (r.denotedBy b).contains t = true

/-- Remembered types alone lead from one name to the other. -/
def Connected (r : Registry) : Text → Text → Prop := Relation.ReflTransGen r.ShareType

/-- The name of one type is given where the name of another is expected, with a conversion that
leads from a type of the first name to a type of the second. -/
def Adjusted (H : ScopeGraph → Prop) (r : Registry) (log : List Folding) (expected : Text)
    (given : Equivalent) : Prop :=
  ∃ F ∈ log, given.converter = some F.converter.name ∧ r.Stands H given.name F.derived ∧
    (r.denotedBy expected).contains F.base = true

variable {H : ScopeGraph → Prop} {log : List Folding} {entry : TypeEntry} {given : Equivalent}

theorem mem_keys_namesOf {t : CType} {n : Text} (h : n ∈ (r.namesOf t).keys) :
    ∃ u, (r.namesOf t).get? n = some u :=
  Table.contains_iff.mp (Table.mem_keys_iff_contains.mp h)

/-- The conversion of a row is the one in force between the two names. -/
theorem converter_tableEntry {name : Text} (h : r.Logged H log) (hname : '+' ∉ name)
    (he : r.tableEntry name = .ok entry) (hq : given ∈ entry.equivalents) :
    given.converter = (Folding.inForce log given.name name).map (·.converter.name) := by
  have hfree : ∀ n ∈ r.equivalents name, '+' ∉ n := by
    refine equivalents_keeps (fun t n hn => ?_) hname
    obtain ⟨u, hu⟩ := mem_keys_namesOf hn
    exact (h.listed t n u hu).1
  rw [(Environment.tableEntry_eq_ok he).2] at hq
  obtain ⟨other, ho, rfl⟩ := List.mem_map.mp hq
  exact h.conversions other name (hfree other ho)

/-- A name that a conversion was written for stands for its derived type. -/
theorem Genuine.stands {F : Folding} (h : r.Genuine H F) {q e : Text} (hj : F.Joins q e) :
    r.Stands H q F.derived := by
  rcases hj with ⟨rfl, -⟩ | ⟨hq, -⟩
  · obtain ⟨g, hg, hsource, -⟩ := h.read
    exact Or.inr ⟨g, hg, hsource⟩
  · exact h.aliases q hq

theorem adjusted_iff (h : r.Logged H log) {expected : Text}
    (hc : given.converter = (Folding.inForce log given.name expected).map (·.converter.name)) :
    r.Adjusted H log expected given ↔
      ∃ G, Folding.inForce log given.name expected = some G ∧
        ((r.denotedBy expected).contains G.base = true ∨
          ∃ F ∈ log, F ≠ G ∧ F.converter.name = G.converter.name ∧
            r.Stands H given.name F.derived ∧ (r.denotedBy expected).contains F.base = true) := by
  constructor
  · rintro ⟨F, hF, hn, hs, hd⟩
    rw [hc] at hn
    obtain ⟨G, hG, hname⟩ := Option.map_eq_some_iff.mp hn
    refine ⟨G, hG, ?_⟩
    by_cases hFG : F = G
    · subst hFG
      exact Or.inl hd
    · exact Or.inr ⟨F, hF, hFG, hname.symm, hs, hd⟩
  · rintro ⟨G, hG, hd⟩
    have hconverter : given.converter = some G.converter.name := by
      rw [hc, hG]
      rfl
    obtain ⟨hmem, hjoins⟩ := Folding.joins_of_inForce hG
    rcases hd with hd | ⟨F, hF, -, hn, hs, hd⟩
    · exact ⟨G, hmem, hconverter, (h.genuine G hmem).stands hjoins, hd⟩
    · exact ⟨F, hF, hn ▸ hconverter, hs, hd⟩

end Registry

/-- In every table of every run, a row has no converter exactly if no folding joins the two names,
and its converter is right exactly if the folding in force between the names is one to a type that
the expected name denotes, or if a converter of the same name happens to be right. -/
theorem row_adjusted_iff (budget : Nat) (ops : List Operation) (table : TypeTable)
    (env' : Environment) (h : (Consulted.run budget ops).env.typeTable = .ok (table, env')) :
    ∃ log : List Folding, table.converters = log.map (·.converter) ∧
      (∀ F ∈ log, env'.registry.Genuine (Consulted.Visited budget ops) F) ∧
      ∀ entry ∈ table.entries, ∀ given ∈ entry.equivalents,
        (given.converter = none ↔ ∀ F ∈ log, ¬ F.Joins given.name entry.name) ∧
        ((env'.registry.Connected given.name entry.name ∨
            env'.registry.Adjusted (Consulted.Visited budget ops) log entry.name given) ↔
          env'.registry.Connected given.name entry.name ∨
            ∃ G, Folding.inForce log given.name entry.name = some G ∧
              ((env'.registry.denotedBy entry.name).contains G.base = true ∨
                ∃ F ∈ log, F ≠ G ∧ F.converter.name = G.converter.name ∧
                  env'.registry.Stands (Consulted.Visited budget ops) given.name F.derived ∧
                  (env'.registry.denotedBy entry.name).contains F.base = true)) := by
  obtain ⟨log, hl⟩ := Consulted.logged_typeTable h
  obtain ⟨-, he, hconverters⟩ := Environment.typeTable_cases h
  refine ⟨log, hconverters.trans hl.converters, hl.genuine, fun entry hentry given hgiven => ?_⟩
  obtain ⟨name, hname, hrow⟩ := exists_of_mem_mapM he hentry
  have hfree : '+' ∉ name := hl.denoted name (Table.mem_keys_iff_contains.mp hname)
  rw [(Environment.tableEntry_eq_ok hrow).1]
  have hc := Registry.converter_tableEntry hl hfree hrow hgiven
  refine ⟨?_, or_congr Iff.rfl (Registry.adjusted_iff hl hc)⟩
  rw [hc, Option.map_eq_none_iff, Folding.inForce_eq_none_iff]

/-- Two classes, one derived from the other, and pointers to both. -/
def derivedOnce : List Operation :=
  [.scopes (.defineClass "Base".toList), .scopes (.defineClass "Derived".toList),
    .registry (.remember "p.Base".toList none) [], .registry (.remember "p.Derived".toList none) [],
    .registry (.addSubtype "Derived".toList "Base".toList none) []]

theorem folding_of_derived_pointer :
    ∃ table env', (Consulted.run 9 derivedOnce).env.typeTable = .ok (table, env') ∧
      ∃ log : List Folding, table.converters = log.map (·.converter) ∧
        ∃ F ∈ log, F.Joins "_p_Derived".toList "_p_Base".toList := by
  have hrow : (Consulted.run 9 derivedOnce).env.typeTable.map (fun r => r.1.entries.any fun e =>
      e.name = "_p_Base".toList && e.equivalents.any fun q =>
        q.name = "_p_Derived".toList && q.converter.isSome) = .ok true := by decide +kernel
  cases htable : (Consulted.run 9 derivedOnce).env.typeTable with
  | error f =>
    rw [htable] at hrow
    cases hrow
  | ok r =>
    obtain ⟨table, env'⟩ := r
    rw [htable] at hrow
    obtain ⟨log, hlog, -, hrows⟩ := row_adjusted_iff 9 derivedOnce table env' htable
    refine ⟨table, env', rfl, log, hlog, ?_⟩
    obtain ⟨entry, hentry, he⟩ := List.any_eq_true.mp (Except.ok.inj hrow)
    simp only [Bool.and_eq_true, decide_eq_true_eq, List.any_eq_true] at he
    obtain ⟨hname, given, hgiven, hgname, hsome⟩ := he
    by_contra hno
    have hnone : given.converter = none := by
      refine (hrows entry hentry given hgiven).1.mpr fun F hF hj => hno ⟨F, hF, ?_⟩
      rw [← hname, ← hgname]
      exact hj
    rw [hnone] at hsome
    cases hsome

/-- A third class below the two. -/
def derivedTwice : List Operation :=
  derivedOnce ++ [.scopes (.defineClass "Leaf".toList),
    .registry (.remember "p.Leaf".toList none) [],
    .registry (.addSubtype "Leaf".toList "Derived".toList none) []]

theorem Registry.eq_of_connected {r : Registry} {a b : Text}
    (ha : ∀ t ∈ (r.denotedBy a).keys, ∀ c ∈ r.denoted.keys,
      (r.denotedBy c).contains t = true → c = a)
    (h : r.Connected a b) : b = a := by
  induction h with
  | refl => rfl
  | tail _ hstep ih =>
    obtain ⟨t, ht, ht'⟩ := hstep
    rw [ih] at ht
    refine ha t (Table.mem_keys_iff_contains.mpr ht) _ ?_ ht'
    rw [Table.mem_keys_iff_contains, Table.contains]
    by_contra hc
    rw [Registry.denotedBy, Option.not_isSome_iff_eq_none.mp hc] at ht'
    cases ht'

/-- The pointer to the third class is listed where a pointer to the first is expected, without a
converter, and no remembered type leads from one to the other. -/
theorem no_converter_across_two_levels :
    ∃ table env', (Consulted.run 9 derivedTwice).env.typeTable = .ok (table, env') ∧
      ∃ entry ∈ table.entries, ∃ given ∈ entry.equivalents, given.name ≠ entry.name ∧
        ¬ env'.registry.Connected given.name entry.name ∧ given.converter = none := by
  have hrow : (Consulted.run 9 derivedTwice).env.typeTable.map (fun r => r.1.entries.any fun e =>
      e.name = "_p_Base".toList && e.equivalents.any fun q =>
        q.name = "_p_Leaf".toList && q.converter = none) = .ok true := by decide +kernel
  have hdenoted : (Consulted.run 9 derivedTwice).env.typeTable.map (fun r => decide
      (∀ t ∈ (r.2.registry.denotedBy "_p_Leaf".toList).keys, ∀ c ∈ r.2.registry.denoted.keys,
        (r.2.registry.denotedBy c).contains t = true → c = "_p_Leaf".toList)) = .ok true := by
    decide +kernel
  cases htable : (Consulted.run 9 derivedTwice).env.typeTable with
  | error f =>
    rw [htable] at hrow
    cases hrow
  | ok r =>
    obtain ⟨table, env'⟩ := r
    rw [htable] at hrow hdenoted
    obtain ⟨entry, hentry, he⟩ := List.any_eq_true.mp (Except.ok.inj hrow)
    simp only [Bool.and_eq_true, decide_eq_true_eq, List.any_eq_true] at he
    obtain ⟨hname, given, hgiven, hgname, hnone⟩ := he
    refine ⟨table, env', rfl, entry, hentry, given, hgiven, ?_, ?_, hnone⟩
    · rw [hname, hgname]
      decide
    · rw [hname, hgname]
      intro hc
      have heq := Registry.eq_of_connected (of_decide_eq_true (Except.ok.inj hdenoted)) hc
      revert heq
      decide

end BindingTypes

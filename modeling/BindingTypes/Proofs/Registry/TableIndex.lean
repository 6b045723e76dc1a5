import BindingTypes.Proofs.Diagnostic.Sorted
import BindingTypes.Proofs.Registry.Adjustment
import BindingTypes.Proofs.Text.Bytes

namespace BindingTypes

namespace TypeTable

variable {entries : List TypeEntry} {name : Text} {low high i j : Nat} {a b entry : TypeEntry}

theorem entry_of_indexWithin (h : indexWithin entries name low high = some i) :
    ∃ entry, entries[i]? = some entry ∧ entry.name = name := by
  fun_induction indexWithin entries name low high with
  | case1 => cases h
  | case2 low high _ middle entry hentry heq =>
    obtain rfl := Option.some.inj h
    exact ⟨entry, hentry, (Std.LawfulEqOrd.compare_eq_iff_eq.mp heq).symm⟩
  | case3 low high _ middle entry hentry hlt ih => exact ih h
  | case4 low high _ middle entry hentry hgt ih => exact ih h
  | case5 => cases h

section Sorted

variable (hsorted : entries.Pairwise fun a b => a.name < b.name)
include hsorted

theorem name_lt_of_lt (ha : entries[i]? = some a) (hb : entries[j]? = some b) (h : i < j) :
    a.name < b.name := by
  obtain ⟨hi, rfl⟩ := List.getElem?_eq_some_iff.mp ha
  obtain ⟨hj, rfl⟩ := List.getElem?_eq_some_iff.mp hb
  exact List.pairwise_iff_getElem.mp hsorted i j hi hj h

theorem lt_of_name_lt (ha : entries[i]? = some a) (hb : entries[j]? = some b)
    (h : a.name < b.name) : i < j := by
  by_contra hij
  rcases Nat.lt_or_eq_of_le (Nat.le_of_not_lt hij) with hji | rfl
  · exact List.lt_asymm h (name_lt_of_lt hsorted hb ha hji)
  · obtain rfl := Option.some.inj (ha.symm.trans hb)
    exact List.lt_irrefl _ h

theorem eq_of_name_eq (ha : entries[i]? = some a) (hb : entries[j]? = some b)
    (h : a.name = b.name) : i = j := by
  rcases Nat.lt_trichotomy i j with hij | hij | hji
  · exact absurd (name_lt_of_lt hsorted ha hb hij) (h ▸ List.lt_irrefl _)
  · exact hij
  · exact absurd (name_lt_of_lt hsorted hb ha hji) (h ▸ List.lt_irrefl _)

/-- In rows that are in order, halving never loses the row of the name. -/
theorem indexWithin_of_entry (hentry : entries[i]? = some entry) (hlow : low ≤ i)
    (hhigh : i < high) (hlength : high ≤ entries.length) :
    indexWithin entries entry.name low high = some i := by
  fun_induction indexWithin entries entry.name low high with
  | case1 low high _ middle hnone =>
    rw [List.getElem?_eq_none_iff] at hnone
    omega
  | case2 low high _ middle other hother heq =>
    rw [eq_of_name_eq hsorted hentry hother (Std.LawfulEqOrd.compare_eq_iff_eq.mp heq)]
  | case3 low high _ middle other hother hlt ih =>
    have hi : i < middle :=
      lt_of_name_lt hsorted hentry hother (compare_text_eq_lt_iff.mp hlt)
    exact ih hlow hi (by omega)
  | case4 low high _ middle other hother hgt ih =>
    have hi : middle < i :=
      lt_of_name_lt hsorted hother hentry
        (compare_text_eq_lt_iff.mp (Std.OrientedCmp.gt_iff_lt.mp hgt))
    exact ih hi hhigh hlength
  | case5 => omega

end Sorted

variable {table : TypeTable}

theorem indexOf?_eq_some_iff (hsorted : table.entries.Pairwise fun a b => a.name < b.name) :
    table.indexOf? name = some i ↔ ∃ entry, table.entries[i]? = some entry ∧ entry.name = name := by
  refine ⟨entry_of_indexWithin, ?_⟩
  rintro ⟨entry, hentry, rfl⟩
  obtain ⟨hi, -⟩ := List.getElem?_eq_some_iff.mp hentry
  exact indexWithin_of_entry hsorted hentry (Nat.zero_le i) hi (Nat.le_refl _)

theorem indexOf?_eq_none_iff (hsorted : table.entries.Pairwise fun a b => a.name < b.name) :
    table.indexOf? name = none ↔ name ∉ table.entries.map (·.name) := by
  rw [Option.eq_none_iff_forall_ne_some]
  constructor
  · intro h hmem
    obtain ⟨entry, hentry, hname⟩ := List.mem_map.mp hmem
    obtain ⟨i, hi⟩ := List.mem_iff_getElem?.mp hentry
    exact h i ((indexOf?_eq_some_iff hsorted).mpr ⟨entry, hi, hname⟩)
  · intro h i hi
    obtain ⟨entry, hentry, hname⟩ := (indexOf?_eq_some_iff hsorted).mp hi
    exact h (List.mem_map.mpr ⟨entry, List.mem_of_getElem? hentry, hname⟩)

/-- The rows are an index of the names: one row for each in the order of the bytes, found by its
name, with the equivalent names in order and its own among them. Only converters of the table are
mentioned. -/
structure Indexes (table : TypeTable) (names : List Text) : Prop where
  rows : ∀ name, (table.entries.map (·.name)).count name = if name ∈ names then 1 else 0
  ascending : table.entries.Pairwise fun a b => a.name.bytes < b.name.bytes
  found : ∀ name i, table.indexOf? name = some i ↔
    ∃ entry, table.entries[i]? = some entry ∧ entry.name = name
  missing : ∀ name, table.indexOf? name = none ↔ name ∉ names
  equivalents : ∀ entry ∈ table.entries,
    entry.equivalents.Pairwise (fun a b => a.name.bytes < b.name.bytes) ∧
      entry.name ∈ entry.equivalents.map (·.name)
  converters : ∀ entry ∈ table.entries, ∀ given ∈ entry.equivalents, ∀ name,
    given.converter = some name → ∃ c ∈ table.converters, c.name = name

end TypeTable

open TypeTable in
/-- In every run the type table is an index of the names that are remembered. -/
theorem indexes_typeTable (budget : Nat) (ops : List Operation) (table : TypeTable)
    (env' : Environment) (h : (Consulted.run budget ops).env.typeTable = .ok (table, env')) :
    table.Indexes (Consulted.run budget ops).env.rememberedNames := by
  have hnames := Environment.names_typeTable h
  have hkeys : (Consulted.run budget ops).env.rememberedNames.Pairwise (· < ·) :=
    Table.keys_pairwise _
  have hsorted : table.entries.Pairwise fun a b => a.name < b.name := by
    rw [← hnames] at hkeys
    exact List.pairwise_map.mp hkeys
  obtain ⟨log, hl⟩ := Consulted.logged_typeTable h
  obtain ⟨-, he, hconverters⟩ := Environment.typeTable_cases h
  refine ⟨fun name => ?_, ?_, fun name i => indexOf?_eq_some_iff hsorted, fun name => ?_,
    fun entry hentry => ?_, fun entry hentry given hgiven converter hc => ?_⟩
  · rw [hnames]
    exact (Table.nodup_keys _).count
  · exact hsorted.imp fun h => Text.bytes_lt_iff.mpr h
  · rw [indexOf?_eq_none_iff hsorted, hnames]
  · obtain ⟨name, -, hrow⟩ := exists_of_mem_mapM he hentry
    obtain ⟨hname, hequivalents⟩ := Environment.tableEntry_eq_ok hrow
    rw [hname, hequivalents]
    constructor
    · exact List.pairwise_map.mpr
        ((Registry.equivalents_ascending name).imp fun h => Text.bytes_lt_iff.mpr h)
    · rw [List.map_map]
      exact List.mem_map.mpr ⟨name, Registry.mem_equivalents_iff.mpr .refl, rfl⟩
  · obtain ⟨name, hname, hrow⟩ := exists_of_mem_mapM he hentry
    have hfree : '+' ∉ name := hl.denoted name (Table.mem_keys_iff_contains.mp hname)
    rw [Registry.converter_tableEntry hl hfree hrow hgiven] at hc
    obtain ⟨F, hF, rfl⟩ := Option.map_eq_some_iff.mp hc
    refine ⟨F.converter, ?_, rfl⟩
    rw [hconverters, hl.converters]
    exact List.mem_map.mpr ⟨F, (Folding.joins_of_inForce hF).1, rfl⟩

theorem index_of_derived_pointer :
    ∃ table env', (Consulted.run 9 derivedOnce).env.typeTable = .ok (table, env') ∧
      table.indexOf? "_p_Derived".toList = some 1 ∧ table.indexOf? "_Base".toList = none ∧
      ∃ c ∈ table.converters, c.name = "_p_DerivedTo_p_Base".toList := by
  have hrows : (Consulted.run 9 derivedOnce).env.typeTable.map (fun r =>
      (r.1.entries.map (·.name), r.1.entries.any fun e => e.equivalents.any fun q =>
        q.converter = some "_p_DerivedTo_p_Base".toList)) =
      .ok (["_p_Base".toList, "_p_Derived".toList], true) := by decide +kernel
  have hmissing : "_Base".toList ∉ (Consulted.run 9 derivedOnce).env.rememberedNames := by
    decide +kernel
  cases htable : (Consulted.run 9 derivedOnce).env.typeTable with
  | error f =>
    rw [htable] at hrows
    cases hrows
  | ok r =>
    obtain ⟨table, env'⟩ := r
    rw [htable] at hrows
    obtain ⟨hnames, hconverted⟩ := Prod.mk.inj (Except.ok.inj hrows)
    have hindex := indexes_typeTable 9 derivedOnce table env' htable
    refine ⟨table, env', rfl, ?_, (hindex.missing _).mpr hmissing, ?_⟩
    · have hsecond : (table.entries.map (·.name))[1]? = some "_p_Derived".toList := by
        rw [hnames]
        rfl
      rw [List.getElem?_map] at hsecond
      exact (hindex.found _ _).mpr (Option.map_eq_some_iff.mp hsecond)
    · obtain ⟨entry, hentry, he⟩ := List.any_eq_true.mp hconverted
      obtain ⟨given, hgiven, hg⟩ := List.any_eq_true.mp he
      exact hindex.converters entry hentry given hgiven _ (of_decide_eq_true hg)

end BindingTypes

import BindingTypes.Proofs.Scope.Edit
import BindingTypes.Proofs.Scope.WellFormed

namespace BindingTypes.ScopeGraph

variable {v : Vocabulary} {g g' : ScopeGraph} {n : Text}

/-- What a program does here: it opens, leaves and selects scopes, declares classes, and declares
typedefs of builtin types and of names that the same scope declares. -/
def Permits (v : Vocabulary) (g : ScopeGraph) : Edit → Prop
  | .enter name => ∃ n, name = some n ∧ v.IsName n
  | .leave => True
  | .select id => ∀ i, id = some i → i < g.scopes.length
  | .define type n => v.IsName n ∧ ∃ cs b, type = CType.chain cs b ∧ (∀ c ∈ cs, c.IsPlain) ∧
      (b ∈ v.builtins ∨ (g.scope g.current).typedefs.contains b = true)
  | .defineClass n => v.IsName n
  | _ => False

/-- The scopes after permitted edits, whatever is remembered between them. -/
inductive Reached (v : Vocabulary) : ScopeGraph → Prop
  | new (budget : Nat) : Reached v (new budget)
  | edit {g g' : ScopeGraph} {e : Edit} {s s' : Memory} (hg : Reached v g) (he : Permits v g e)
      (h : (g.editVia .always e).run s = .ok (g', s')) : Reached v g'

/-- The scopes after an edit with nothing remembered; one without an outcome changes nothing. -/
def editAfresh (g : ScopeGraph) (e : Edit) : ScopeGraph :=
  match (g.editVia .always e).run {} with
  | .ok r => r.1
  | .error _ => g

theorem editAfresh_keeps {P : ScopeGraph → Prop} {e : Edit} (hg : P g)
    (h : ∀ {g' s}, (g.editVia .always e).run {} = .ok (g', s) → P g') : P (g.editAfresh e) := by
  unfold editAfresh
  split
  · rename_i r hr
    exact h hr
  · exact hg

theorem Reached.editAfresh {e : Edit} (hg : Reached v g) (he : Permits v g e) :
    Reached v (g.editAfresh e) :=
  editAfresh_keeps hg fun hrun => hg.edit he hrun

theorem redefinition?_eq_none (h : g.redefinition? n = none) :
    (g.scope g.current).typedefs.get? n = none := by
  unfold redefinition? at h
  split at h
  · cases h
  · rename_i hc
    simpa [Table.contains] using hc

namespace WellFormed

theorem defineClass (hg : WellFormed v g) (hn : v.IsName n) :
    WellFormed v (g.accept (g.defineClass n)) := by
  unfold ScopeGraph.defineClass
  split
  · exact hg
  · rename_i hr
    refine hg.insertTypedef hn (redefinition?_eq_none hr) ⟨[], n, .ofClass ?_⟩
    rw [Table.get?_insert, if_pos rfl]

/-- A new typedef expands through its base, which its scope declares or which is builtin. -/
theorem insertDefined {cs : List CType.Constructor} {b : Text} (hg : WellFormed v g)
    (hn : v.IsName n) (hcs : ∀ c ∈ cs, c.IsPlain)
    (hb : b ∈ v.builtins ∨ (g.scope g.current).typedefs.contains b = true)
    (hfresh : (g.scope g.current).typedefs.get? n = none) :
    WellFormed v (g.insertTypedef g.current n ⟨CType.chain cs b, false⟩) := by
  refine hg.insertTypedef hn hfresh ?_
  have hbase : ∃ cs' z, Expands v (g.scope g.current).typedefs b cs' z := by
    rcases hb with hb | hb
    · exact ⟨[], b, .builtin hb⟩
    · obtain ⟨e, he⟩ := Option.isSome_iff_exists.mp hb
      exact hg.expands _ _ _ he
  obtain ⟨cs', z, hx⟩ := hbase
  have hword : IsWord b := by
    rcases hx.contains_or_builtin with hc | hc
    · obtain ⟨e, he⟩ := Option.isSome_iff_exists.mp hc
      exact (hg.names _ _ _ he).isWord
    · exact v.words b hc
  refine ⟨cs ++ cs', z, .typedef ⟨?_, hcs, hword⟩ (hx.insert hfresh)⟩
  rw [Table.get?_insert, if_pos rfl]

theorem define {cs : List CType.Constructor} {b : Text} {s s' : Memory}
    {r : Except TypedefError ScopeGraph} (hg : WellFormed v g) (hn : v.IsName n)
    (hcs : ∀ c ∈ cs, c.IsPlain)
    (hb : b ∈ v.builtins ∨ (g.scope g.current).typedefs.contains b = true)
    (h : (g.defineVia .always (CType.chain cs b) n).run s = .ok (r, s')) :
    WellFormed v (g.accept r) := by
  obtain ⟨e, -, rfl, -⟩ | ⟨-, -, rfl, -⟩ | ⟨hnone, found, g', -, rfl, rfl⟩ := defineVia_cases h
  · exact hg
  · exact hg
  · have hfresh := redefinition?_eq_none hnone
    cases found with
    | none => exact hg.insertDefined hn hcs hb hfresh
    | some target =>
      obtain ⟨hwell, htables, hcur⟩ := hg.standIn hn target
      refine hwell.insertDefined hn hcs ?_ ?_
      · show _ ∨ Table.contains ((g.standIn n target).scope _).typedefs b = true
        rw [hcur, htables.typedefs]
        exact hb
      · show Table.get? ((g.standIn n target).scope _).typedefs n = none
        rw [hcur, htables.typedefs]
        exact hfresh

/-- A permitted edit keeps the scopes well formed. -/
theorem edit {e : Edit} {s s' : Memory} (hg : WellFormed v g) (he : Permits v g e)
    (h : (g.editVia .always e).run s = .ok (g', s')) : WellFormed v g' := by
  cases e with
  | enter name =>
    obtain ⟨n, rfl, hn⟩ := he
    obtain ⟨rfl, -⟩ := run_pure_eq_ok h
    exact (hg.enter hn rfl).1
  | leave =>
    obtain ⟨rfl, -⟩ := run_pure_eq_ok h
    exact hg.leave
  | select id =>
    obtain ⟨rfl, -⟩ := run_pure_eq_ok h
    exact hg.select he
  | define type n =>
    obtain ⟨hn, cs, b, rfl, hcs, hb⟩ := he
    obtain ⟨r, s₁, hr, h⟩ := run_bind_eq_ok h
    obtain ⟨rfl, -⟩ := run_pure_eq_ok h
    exact hg.define hn hcs hb hr
  | defineClass n =>
    obtain ⟨rfl, -⟩ := run_pure_eq_ok h
    exact hg.defineClass he
  | inheritFrom id => exact False.elim he
  | useNamespace id => exact False.elim he
  | aliasName name id => exact False.elim he
  | attachSymbols symbols => exact False.elim he
  | declareUsing qualified => exact False.elim he
  | undefine name => exact False.elim he

end WellFormed

theorem Reached.wellFormed (h : Reached v g) : WellFormed v g := by
  induction h with
  | new budget => exact wellFormed_new v budget
  | edit _ he hrun ih => exact ih.edit he hrun

end BindingTypes.ScopeGraph

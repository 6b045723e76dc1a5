import BindingTypes.Proofs.CType.Dotted
import BindingTypes.Proofs.Scope.Placement
import BindingTypes.Proofs.Scope.Transparency

namespace BindingTypes

/-- Parentheses match, and something is there. -/
def CType.IsWritten (t : CType) : Prop := Balanced t ∧ t ≠ []

/-- A name that no dot ends, as one ends an element. -/
def CType.IsLabel (n : Text) : Prop := IsWritten n ∧ n.getLast? ≠ some '.'

open CType

instance (t : CType) : Decidable (IsWritten t) := inferInstanceAs (Decidable (_ ∧ _))

instance (n : Text) : Decidable (IsLabel n) := inferInstanceAs (Decidable (_ ∧ _))

structure Scope.Readable (s : Scope) : Prop where
  name : Balanced s.name
  labels : ∀ n e, s.typedefs.get? n = some e → IsLabel n
  types : ∀ n e, s.typedefs.get? n = some e → IsWritten e.type

/-- The names and types that an edit brings are written as names and types are. -/
def Edit.Readable : Edit → Prop
  | .enter name => ∀ n, name = some n → Balanced n
  | .define type name => IsWritten type ∧ IsLabel name
  | .defineClass name => IsLabel name
  | .declareUsing qualified => IsWritten qualified ∧ IsLabel (QualifiedName.last qualified)
  | _ => True

def Operation.Readable : Operation → Prop
  | .scopes e => e.Readable
  | _ => True

namespace ScopeGraph

def Readable (g : ScopeGraph) : Prop := ∀ id, (g.scope id).Readable

variable {g g' : ScopeGraph} {n : Text} {id : ScopeId}

theorem readable_empty : ({} : Scope).Readable where
  name := balanced_nil
  labels _ _ h := by cases h
  types _ _ h := by cases h

theorem readable_new (budget : Nat) : (new budget).Readable := by
  intro id
  cases id with
  | zero => exact readable_empty
  | succ id => exact readable_empty

namespace Readable

variable (hg : g.Readable)
include hg

theorem of_scopes (h : g'.scopes = g.scopes) : g'.Readable := fun id => by
  rw [scope_eq_of_scopes h]
  exact hg id

theorem balanced_nameIn (hn : Balanced n) : Balanced (g.nameIn id n) := by
  unfold nameIn QualifiedName.within
  split
  · exact hn
  · have hcolons : Balanced "::".toList := by decide
    exact ((hg id).name.append hcolons).append hn

theorem modifyScope {f : Scope → Scope} (hf : ∀ s, s.Readable → (f s).Readable) :
    (g.modifyScope id f).Readable := by
  intro j
  rw [scope_modifyScope]
  split
  · exact hf _ (hg j)
  · exact hg j

theorem change {f : Scope → Scope} (hf : ∀ s, s.Readable → (f s).Readable) :
    (touch (g.modifyScope id f)).Readable :=
  of_scopes (g := g.modifyScope id f) (hg.modifyScope hf) rfl

theorem inheritFrom (id : ScopeId) : (g.inheritFrom id).Readable := by
  unfold ScopeGraph.inheritFrom
  split
  · exact hg
  · exact hg.change fun s hs => ⟨hs.name, hs.labels, hs.types⟩

theorem useNamespace (id : ScopeId) : (g.useNamespace id).Readable := by
  have hi := hg.inheritFrom id
  unfold ScopeGraph.useNamespace
  dsimp only
  split
  · exact hi.of_scopes rfl
  · exact hi.change fun s hs => ⟨hs.name, hs.labels, hs.types⟩

theorem enter {name : Option Text} (hn : ∀ n, name = some n → Balanced n) :
    (g.enter name).2.Readable := by
  have hname : Balanced (name.getD unnamed) := by
    cases name with
    | none => decide
    | some n => exact hn n rfl
  unfold ScopeGraph.enter
  dsimp only
  split
  · exact hg.of_scopes rfl
  · intro id
    have hopened := scope_opened g (name.getD unnamed) id
    change (g.opened (name.getD unnamed)).scope id = _ at hopened
    show ((g.opened (name.getD unnamed)).scope id).Readable
    rw [hopened]
    split
    · exact ⟨hg.balanced_nameIn hname, readable_empty.labels, readable_empty.types⟩
    · exact hg id

theorem leave : g.leave.2.Readable := leave_keeps hg fun _ _ => hg.of_scopes rfl

theorem standIn (hn : Balanced n) (target : ScopeId) : (g.standIn n target).Readable := by
  have he : (g.enter (some n)).2.Readable := hg.enter fun m hm => by
    cases hm
    exact hn
  have hmarked : ((g.enter (some n)).2.modifyScope (g.enter (some n)).1
      fun s => { s with isAlias := true }).Readable :=
    he.modifyScope fun s hs => ⟨hs.name, hs.labels, hs.types⟩
  exact (hmarked.inheritFrom target).leave

theorem insertTypedef {e : TypedefEntry} (hn : IsLabel n) (he : IsWritten e.type) :
    (g.insertTypedef id n e).Readable := by
  refine hg.change fun s hs => ⟨hs.name, fun m e' hm => ?_, fun m e' hm => ?_⟩
  · rw [Table.get?_insert] at hm
    split at hm
    · rename_i hmn
      exact hmn ▸ hn
    · exact hs.labels m e' hm
  · rw [Table.get?_insert] at hm
    split at hm
    · cases hm
      exact he
    · exact hs.types m e' hm

theorem defineClass (hn : IsLabel n) : (g.accept (g.defineClass n)).Readable := by
  unfold ScopeGraph.defineClass
  split
  · exact hg
  · exact hg.insertTypedef hn hn.1

theorem undefine (name : Text) : (g.undefine name).2.Readable := by
  unfold ScopeGraph.undefine
  split
  · refine hg.change fun s hs => ⟨hs.name, fun m e hm => ?_, fun m e hm => ?_⟩
    · rw [Table.get?_erase] at hm
      split at hm
      · cases hm
      · exact hs.labels m e hm
    · rw [Table.get?_erase] at hm
      split at hm
      · cases hm
      · exact hs.types m e hm
  · exact hg

theorem defineVia {type : CType} {s s' : Memory} {r : Except TypedefError ScopeGraph}
    (ht : IsWritten type) (hn : IsLabel n)
    (h : (g.defineVia .always type n).run s = .ok (r, s')) : (g.accept r).Readable := by
  obtain ⟨e, -, rfl, -⟩ | ⟨-, -, rfl, -⟩ | ⟨-, found, g', -, rfl, rfl⟩ := defineVia_cases h
  · exact hg
  · exact hg
  · cases found with
    | none => exact hg.insertTypedef hn ht
    | some target => exact (hg.standIn hn.1.1 target).insertTypedef hn ht

/-- The full name of a name in a scope is written where the scope has a name. -/
theorem isWritten_nameIn (hn : Balanced n) (hne : g.nameOf id ≠ []) :
    IsWritten (g.nameIn id n) := by
  refine ⟨hg.balanced_nameIn hn, ?_⟩
  unfold nameIn QualifiedName.within
  rw [if_neg hne]
  simp

theorem declareUsingVia {qualified : Text} {s s' : Memory} {r : Except TypedefError ScopeGraph}
    (hq : IsWritten qualified) (hn : IsLabel (QualifiedName.last qualified))
    (h : (g.declareUsingVia .always qualified).run s = .ok (r, s')) : (g.accept r).Readable := by
  obtain ⟨e, rfl, -⟩ | ⟨scope, base, hsplit, -, g₁, step, s₁, hg₁, -, hdone⟩ :=
    declareUsingVia_cases h
  · exact hg
  have hbase : QualifiedName.last qualified = base :=
    congrArg Prod.snd ((QualifiedName.split_eq qualified).symm.trans hsplit)
  rw [hbase] at hn
  have hread : g₁.Readable := hg₁ ▸ hg.insertTypedef hn hq
  obtain ⟨-, rfl, -⟩ | ⟨id, -, hnamed, target, s₂, holder, g₂, -, -, hg₂, rfl⟩ := hdone
  · exact hread
  have hlearned : g₂.Readable := hg₂ ▸ learned_keeps holder hread fun id' =>
    hread.insertTypedef hn (hread.isWritten_nameIn hn.1.1 hnamed)
  cases target with
  | none => exact hlearned
  | some target => exact hlearned.standIn hn.1.1 target

theorem edit {e : Edit} {s s' : Memory} (he : e.Readable)
    (h : (g.editVia .always e).run s = .ok (g', s')) : g'.Readable := by
  cases e with
  | enter name =>
    obtain ⟨rfl, rfl⟩ := run_pure_eq_ok h
    exact hg.enter he
  | leave =>
    obtain ⟨rfl, rfl⟩ := run_pure_eq_ok h
    exact hg.leave
  | select id =>
    obtain ⟨rfl, rfl⟩ := run_pure_eq_ok h
    exact hg.of_scopes rfl
  | inheritFrom id =>
    obtain ⟨rfl, rfl⟩ := run_pure_eq_ok h
    exact hg.inheritFrom id
  | useNamespace id =>
    obtain ⟨rfl, rfl⟩ := run_pure_eq_ok h
    exact hg.useNamespace id
  | aliasName name id =>
    obtain ⟨rfl, rfl⟩ := run_pure_eq_ok h
    exact hg.of_scopes rfl
  | attachSymbols symbols =>
    obtain ⟨rfl, rfl⟩ := run_pure_eq_ok h
    exact hg.change fun s hs => ⟨hs.name, hs.labels, hs.types⟩
  | define type name =>
    obtain ⟨r, s₁, hr, h⟩ := run_bind_eq_ok h
    obtain ⟨rfl, rfl⟩ := run_pure_eq_ok h
    exact hg.defineVia he.1 he.2 hr
  | defineClass name =>
    obtain ⟨rfl, rfl⟩ := run_pure_eq_ok h
    exact hg.defineClass he
  | declareUsing qualified =>
    obtain ⟨r, s₁, hr, h⟩ := run_bind_eq_ok h
    obtain ⟨rfl, rfl⟩ := run_pure_eq_ok h
    exact hg.declareUsingVia he.1 he.2 hr
  | undefine name =>
    obtain ⟨rfl, rfl⟩ := run_pure_eq_ok h
    exact hg.undefine name

end Readable

end ScopeGraph

namespace Consulted

theorem readable_apply {s : Consulted} {op : Operation} (hs : s.env.graph.Readable)
    (hop : op.Readable) : (s.apply op).env.graph.Readable := by
  rcases s.apply_cases op with h | ⟨e, r, rfl, hr, h⟩ | ⟨e, asked, env, r, -, he, -, h⟩ |
    ⟨q, r, -, -, h⟩
  · rwa [h]
  · rw [h]
    exact hs.edit hop hr
  · rw [h]
    exact Environment.graph_register he ▸ hs
  · rwa [h]

/-- Where every edit brings names and types as they are written, every table holds such. -/
theorem readable_run (budget : Nat) {ops : List Operation} (h : ∀ op ∈ ops, op.Readable) :
    (run budget ops).env.graph.Readable := by
  unfold run
  have hstart : ({ env := .new budget } : Consulted).env.graph.Readable :=
    ScopeGraph.readable_new budget
  generalize ({ env := .new budget } : Consulted) = s at hstart ⊢
  induction ops generalizing s with
  | nil => exact hstart
  | cons op ops ih =>
    obtain ⟨hop, hops⟩ := List.forall_mem_cons.mp h
    exact ih hops (s.apply op) (readable_apply hstart hop)

end Consulted

end BindingTypes

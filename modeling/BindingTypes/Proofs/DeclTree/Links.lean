import Mathlib.Data.Finset.Card
import BindingTypes.Proofs.DeclTree.Growth

namespace BindingTypes

namespace DeclTree

def parentOf (t : DeclTree) (id : Nat) : Option NodeId := t.nodes[id]?.bind (·.parent)

/-- Parents and children agree, and no child is listed twice. -/
structure Consistent (t : DeclTree) : Prop where
  parent_iff : ∀ a b : Nat, t.Holds a b ↔ t.parentOf b = some a
  nodup : ∀ n ∈ t.nodes, n.children.Nodup

/-- Parents and children agree, no child is listed twice, and nothing stands below itself. -/
structure Linked (t : DeclTree) : Prop where
  parent_iff : ∀ a b : Nat, t.Holds a b ↔ t.parentOf b = some a
  nodup : ∀ n ∈ t.nodes, n.children.Nodup
  acyclic : ∀ a b : Nat, t.Holds a b → ¬ t.Leads b a

variable {t t' u u' : DeclTree} {id : Nat}

theorem Linked.consistent (ht : t.Linked) : t.Consistent := ⟨ht.parent_iff, ht.nodup⟩

theorem lt_size_of_parentOf {a b : Nat} (h : t.parentOf b = some a) : b < t.size := by
  obtain ⟨n, hn, -⟩ := Option.bind_eq_some_iff.mp h
  exact (List.getElem?_eq_some_iff.mp hn).1

theorem Consistent.closed (ht : t.Consistent) : t.Closed := fun a b hab =>
  lt_size_of_parentOf ((ht.parent_iff a b).mp hab)

theorem Linked.closed (ht : t.Linked) : t.Closed := ht.consistent.closed

theorem consistent_of_listed
    (hdown : ∀ a < t.size, ∀ n ∈ t.nodes[a]?, ∀ b ∈ n.children, t.parentOf b = some a)
    (hup : ∀ b < t.size, ∀ a ∈ t.parentOf b, ∃ n ∈ t.nodes[a]?, b ∈ n.children)
    (hnodup : ∀ n ∈ t.nodes, n.children.Nodup) : t.Consistent := by
  refine ⟨fun a b => ⟨?_, fun h => ?_⟩, hnodup⟩
  · rintro ⟨n, hn, hb⟩
    exact hdown a (List.getElem?_eq_some_iff.mp hn).1 n hn b hb
  · obtain ⟨n, hn, hb⟩ := hup b (lt_size_of_parentOf h) a h
    exact ⟨n, hn, hb⟩

/-- Nothing in the subtree of `id` stands below itself. -/
def AcyclicBelow (t : DeclTree) (id : NodeId) : Prop :=
  ∀ a b : Nat, t.Leads id a → t.Holds a b → ¬ t.Leads b a

theorem Linked.acyclicBelow (ht : t.Linked) (id : Nat) : t.AcyclicBelow id :=
  fun a b _ => ht.acyclic a b

/-- From `id` on, nodes are numbered behind their parents. -/
theorem acyclicBelow_of_numbered
    (h : ∀ a < t.size, id ≤ a → ∀ n ∈ t.nodes[a]?, ∀ b ∈ n.children, a < b) :
    t.AcyclicBelow id := by
  have hheld : ∀ a b : Nat, id ≤ a → t.Holds a b → a < b := by
    rintro a b ha ⟨n, hn, hb⟩
    exact h a (List.getElem?_eq_some_iff.mp hn).1 ha n hn b hb
  have hbehind : ∀ a b : Nat, id ≤ a → t.Leads a b → a ≤ b := by
    intro a b ha hab
    induction hab with
    | refl => exact Nat.le_refl a
    | tail _ hbc ih => exact Nat.le_trans ih (Nat.le_of_lt (hheld _ _ (Nat.le_trans ha ih) hbc))
  intro a b hlead hab hba
  have ha := hbehind id a (Nat.le_refl id) hlead
  have hlt := hheld a b ha hab
  have hle := hbehind b a (by omega) hba
  omega

/-- A tree whose nodes are numbered behind their parents. -/
theorem linked_of_numbered
    (hdown : ∀ a < t.size, ∀ n ∈ t.nodes[a]?, ∀ b ∈ n.children, a < b ∧ t.parentOf b = some a)
    (hup : ∀ b < t.size, ∀ a ∈ t.parentOf b, ∃ n ∈ t.nodes[a]?, b ∈ n.children)
    (hnodup : ∀ n ∈ t.nodes, n.children.Nodup) : t.Linked := by
  have hlinks := consistent_of_listed (fun a ha n hn b hb => (hdown a ha n hn b hb).2) hup hnodup
  refine ⟨hlinks.parent_iff, hlinks.nodup, fun a b hab => ?_⟩
  have hac : t.AcyclicBelow a :=
    acyclicBelow_of_numbered fun c hc _ n hn d hd => (hdown c hc n hn d hd).1
  exact hac a b .refl hab

section Below

open Classical in
/-- The nodes of a subtree. -/
noncomputable def below (t : DeclTree) (a : Nat) : Finset Nat :=
  (Finset.range t.size).filter (t.Leads a)

theorem mem_below {a b : Nat} : b ∈ t.below a ↔ b < t.size ∧ t.Leads a b := by
  simp [below]

theorem Linked.parent_unique (ht : t.Linked) {a a' b : Nat} (h : t.Holds a b)
    (h' : t.Holds a' b) : a = a' :=
  Option.some.inj (((ht.parent_iff a b).mp h).symm.trans ((ht.parent_iff a' b).mp h'))

/-- Above a node there is only one line of nodes. -/
theorem Linked.leads_or (ht : t.Linked) {a b c : Nat} (hac : t.Leads a c) (hbc : t.Leads b c) :
    t.Leads a b ∨ t.Leads b a := by
  induction hac with
  | refl => exact Or.inr hbc
  | @tail d c had hdc ih =>
    cases hbc with
    | refl => exact Or.inl (had.tail hdc)
    | tail hbe hec =>
      rw [ht.parent_unique hec hdc] at hbe
      exact ih hbe

/-- The subtrees of two children of one node have no node in common. -/
theorem Linked.leads_apart (ht : t.Linked) {a b c d : Nat} (hb : t.Holds a b) (hc : t.Holds a c)
    (hne : b ≠ c) (hbd : t.Leads b d) : ¬ t.Leads c d := by
  -- a child above its sibling would stand above their parent too
  have hapart : ∀ x y : Nat, t.Holds a x → t.Holds a y → x ≠ y → ¬ t.Leads x y := by
    intro x y hx hy hxy hlead
    cases hlead with
    | refl => exact hxy rfl
    | tail hxz hzy =>
      rw [ht.parent_unique hzy hy] at hxz
      exact ht.acyclic a x hx hxz
  intro hcd
  rcases ht.leads_or hbd hcd with h | h
  · exact hapart b c hb hc hne h
  · exact hapart c b hc hb hne.symm h

theorem Linked.disjoint_below (ht : t.Linked) {a b c : Nat} (hb : t.Holds a b) (hc : t.Holds a c)
    (hne : b ≠ c) : Disjoint (t.below b) (t.below c) :=
  Finset.disjoint_left.mpr fun _ hbd hcd =>
    ht.leads_apart hb hc hne (mem_below.mp hbd).2 (mem_below.mp hcd).2

end Below

/-- A fresh node has no parent that it could leave. -/
theorem detach_add (n : Node) : (t.add n).2.detach t.size = .ok (t.add n).2 := by
  have hnew : (t.add n).2.nodes[t.size]? = some ⟨n, none, []⟩ := by
    rw [getElem?_add, if_pos rfl]
  unfold detach
  rw [get_eq_ok_iff.mpr hnew]
  rfl

theorem addChild_returns {parent : Nat} (n : Node) (h : parent < t.size) :
    ∃ t', t.addChild parent n = .ok (t.size, t') := by
  have hlt : parent < (t.add n).2.size := by
    rw [size_add]
    omega
  have hparent := get_eq_ok_iff.mpr (List.getElem?_eq_getElem hlt)
  refine ⟨((t.add n).2.modifyLinks t.size fun m => { m with parent := some parent }).modifyLinks
    parent fun m => { m with children := m.children ++ [t.size] }, ?_⟩
  show ((t.add n).2.attach parent t.size >>= _) = _
  unfold attach
  rw [detach_add]
  show (((t.add n).2.get parent >>= _) >>= _) = _
  rw [hparent]
  rfl

/-- No node of `t` was taken away from its parent or given another. -/
structure KeepsParents (t t' : DeclTree) : Prop where
  size_le : t.size ≤ t'.size
  parents : ∀ i : Nat, i < t.size → t'.parentOf i = t.parentOf i

namespace KeepsParents

variable {t t' u u' : DeclTree} {id : Nat}

theorem refl (t : DeclTree) : t.KeepsParents t := ⟨Nat.le_refl _, fun _ _ => rfl⟩

theorem trans (h : t.KeepsParents u) (h' : u.KeepsParents u') : t.KeepsParents u' :=
  ⟨Nat.le_trans h.size_le h'.size_le, fun i hi =>
    (h'.parents i (Nat.lt_of_lt_of_le hi h.size_le)).trans (h.parents i hi)⟩

theorem addChild {parent : Nat} {n : Node} (h : t.addChild parent n = .ok (id, t')) :
    t.KeepsParents t' := by
  have hsize := size_addChild h
  refine ⟨by omega, fun i hi => ?_⟩
  obtain ⟨rfl, hat⟩ := addChild_eq_ok h
  obtain ⟨d, hd, -, rfl⟩ := attach_eq_ok hat
  rw [detach_add] at hd
  cases hd
  have hne : t.size ≠ i := by omega
  unfold parentOf
  rw [getElem?_modifyLinks, getElem?_modifyLinks, if_neg hne, getElem?_add, if_neg hne.symm]
  split
  · cases t.nodes[i]? <;> rfl
  · rfl

theorem copyChildren {target : Nat} {ids : List NodeId} {pairs : List (NodeId × NodeId)}
    (h : t.copyChildren target ids = .ok (pairs, t')) : t.KeepsParents t' := by
  induction ids generalizing t pairs with
  | nil =>
    cases h
    exact .refl _
  | cons child ids ih =>
    obtain ⟨n, copy, u, rest, -, hu, hrest, -⟩ := copyChildren_cons h
    exact (addChild hu).trans (ih hrest)

theorem copyBelow {fuel : Nat} {work : List (NodeId × NodeId)}
    (h : t.copyBelow fuel work = .ok t') : t.KeepsParents t' :=
  copyBelow_keeps (P := fun u _ => t.KeepsParents u)
    (fun _ _ _ _ _ _ hu _ hv => hu.trans (copyChildren hv)) (.refl t) h

end KeepsParents

/-- A copy stands behind all nodes and has no parent. -/
theorem parentOf_deepCopy {copy : Nat} (h : t.deepCopy id = .ok (copy, t')) :
    copy = t.size ∧ copy < t'.size ∧ t'.parentOf copy = none := by
  obtain ⟨n, -, rfl, hu⟩ := deepCopy_cases h
  have hkept : (t.add n).2.KeepsParents t' := .copyBelow hu
  have hlt : t.size < (t.add n).2.size := by simp
  have hnone : (t.add n).2.parentOf t.size = none := by
    unfold parentOf
    rw [getElem?_add, if_pos rfl]
    rfl
  exact ⟨rfl, Nat.lt_of_lt_of_le hlt hkept.size_le, (hkept.parents _ hlt).trans hnone⟩

theorem node_returns (h : id < t.size) : ∃ n, t.node id = .ok n := by
  unfold node
  rw [get_eq_ok_iff.mpr (List.getElem?_eq_getElem h)]
  exact ⟨_, rfl⟩

end DeclTree

end BindingTypes

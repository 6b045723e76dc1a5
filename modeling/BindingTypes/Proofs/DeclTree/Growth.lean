import Mathlib.Logic.Relation
import BindingTypes.DeclTree.Basic
import BindingTypes.Proofs.Outcome

namespace BindingTypes

namespace DeclTree

/-- `a` lists `b` among its children. -/
def Holds (t : DeclTree) (a b : NodeId) : Prop := ∃ n, t.nodes[a]? = some n ∧ b ∈ n.children

/-- `b` stands below `a`, or is `a`. -/
def Leads (t : DeclTree) : NodeId → NodeId → Prop := Relation.ReflTransGen t.Holds

/-- Children are nodes of the tree. -/
def Closed (t : DeclTree) : Prop := ∀ a b : Nat, t.Holds a b → b < t.size

/-- Nodes were added, and neither did an old node change nor does a new one hold an old one. -/
structure Grown (t t' : DeclTree) : Prop where
  kept : ∀ i : Nat, i < t.size → t'.nodes[i]? = t.nodes[i]?
  above : ∀ a b : Nat, t'.Holds a b → t.size ≤ a → t.size ≤ b ∧ b < t'.size
  size_le : t.size ≤ t'.size

variable {t t' t'' : DeclTree} {id : Nat}

theorem holds_iff {a b : Nat} :
    t.Holds a b ↔ ∃ cs, t.nodes[a]?.map (·.children) = some cs ∧ b ∈ cs := by
  constructor
  · rintro ⟨n, hn, hb⟩
    exact ⟨n.children, by rw [hn]; rfl, hb⟩
  · rintro ⟨cs, hcs, hb⟩
    obtain ⟨n, hn, rfl⟩ := Option.map_eq_some_iff.mp hcs
    exact ⟨n, hn, hb⟩

theorem lt_size_of_holds {a b : Nat} (h : t.Holds a b) : a < t.size := by
  obtain ⟨n, hn, -⟩ := h
  exact (List.getElem?_eq_some_iff.mp hn).1

theorem get_eq_ok_iff {n : LinkedNode} : t.get id = .ok n ↔ t.nodes[id]? = some n := by
  unfold get
  cases t.nodes[id]? with
  | none => simp
  | some m => simp

theorem node_eq_ok_iff {n : Node} :
    t.node id = .ok n ↔ t.nodes[id]?.map (·.node) = some n := by
  unfold node get
  cases t.nodes[id]? with
  | none => simp [Except.map]
  | some l => simp [Except.map]

theorem lt_size_of_get {n : LinkedNode} (h : t.get id = .ok n) : id < t.size :=
  (List.getElem?_eq_some_iff.mp (get_eq_ok_iff.mp h)).1

@[simp] theorem size_modifyLinks (f : LinkedNode → LinkedNode) :
    (t.modifyLinks id f).size = t.size := by
  simp [size, modifyLinks]

@[simp] theorem size_add (n : Node) : (t.add n).2.size = t.size + 1 := by
  simp [size, add]

theorem getElem?_modifyLinks (f : LinkedNode → LinkedNode) (i : Nat) :
    (t.modifyLinks id f).nodes[i]? = if id = i then t.nodes[i]?.map f else t.nodes[i]? := by
  rw [modifyLinks, List.getElem?_modify]
  by_cases h : id = i <;> simp [h]

theorem getElem?_add (n : Node) (i : Nat) :
    (t.add n).2.nodes[i]? = if i = t.size then some ⟨n, none, []⟩ else t.nodes[i]? := by
  show (t.nodes ++ [⟨n, none, []⟩])[i]? = _
  by_cases h : i = t.size
  · subst h
    simp [size]
  · rw [if_neg h]
    by_cases hlt : i < t.size
    · exact List.getElem?_append_left hlt
    · have hge : t.nodes.length + 1 ≤ i := by
        simp only [size] at h hlt
        omega
      rw [List.getElem?_eq_none (by simpa using hge), List.getElem?_eq_none (by omega)]

/-- An edge of a changed tree starts at the changed node, or was there before. -/
theorem holds_modifyLinks {f : LinkedNode → LinkedNode} {a b : Nat}
    (h : (t.modifyLinks id f).Holds a b) :
    (a = id ∧ ∃ n, t.nodes[id]? = some n ∧ b ∈ (f n).children) ∨ t.Holds a b := by
  obtain ⟨n, hn, hb⟩ := h
  rw [getElem?_modifyLinks] at hn
  by_cases ha : id = a
  · subst ha
    rw [if_pos rfl] at hn
    obtain ⟨m, hm, rfl⟩ := Option.map_eq_some_iff.mp hn
    exact Or.inl ⟨rfl, m, hm, hb⟩
  · rw [if_neg ha] at hn
    exact Or.inr ⟨n, hn, hb⟩

theorem holds_add {n : Node} {a b : Nat} (h : (t.add n).2.Holds a b) : t.Holds a b := by
  obtain ⟨m, hm, hb⟩ := h
  rw [getElem?_add] at hm
  split at hm
  · cases hm
    cases hb
  · exact ⟨m, hm, hb⟩

theorem Closed.modifyLinks {f : LinkedNode → LinkedNode} (h : t.Closed)
    (hf : ∀ n, t.nodes[id]? = some n → ∀ b ∈ (f n).children, b < t.size) :
    (t.modifyLinks id f).Closed := by
  intro a b hab
  rw [size_modifyLinks]
  rcases holds_modifyLinks hab with ⟨-, n, hn, hb⟩ | hab
  · exact hf n hn b hb
  · exact h a b hab

theorem Closed.add (n : Node) (h : t.Closed) : (t.add n).2.Closed := by
  intro a b hab
  have hb := h a b (holds_add hab)
  rw [size_add]
  omega

theorem detach_cases (h : t.detach id = .ok t') : ∃ n, t.nodes[id]? = some n ∧
    ((n.parent = none ∧ t' = t) ∨ ∃ parent, n.parent = some parent ∧
      t' = (t.modifyLinks id fun n => { n with parent := none }).modifyLinks parent
        fun n => { n with children := n.children.filter (· ≠ id) }) := by
  unfold detach at h
  obtain ⟨n, hn, h⟩ := bind_eq_ok h
  refine ⟨n, get_eq_ok_iff.mp hn, ?_⟩
  cases hp : n.parent with
  | none =>
    rw [hp] at h
    cases h
    exact Or.inl ⟨rfl, rfl⟩
  | some parent =>
    rw [hp] at h
    cases h
    exact Or.inr ⟨parent, rfl, rfl⟩

theorem size_detach (h : t.detach id = .ok t') : t'.size = t.size := by
  obtain ⟨n, -, ⟨-, rfl⟩ | ⟨parent, -, rfl⟩⟩ := detach_cases h
  · rfl
  · simp

theorem Closed.detach (hc : t.Closed) (h : t.detach id = .ok t') : t'.Closed := by
  obtain ⟨n, -, ⟨-, rfl⟩ | ⟨parent, -, rfl⟩⟩ := detach_cases h
  · exact hc
  · have hcut : (t.modifyLinks id fun n => { n with parent := none }).Closed :=
      hc.modifyLinks fun n hn b hb => hc id b ⟨n, hn, hb⟩
    exact hcut.modifyLinks fun n hn b hb =>
      hcut parent b ⟨n, hn, (List.mem_filter.mp hb).1⟩

/-- What attaching a node does to the tree without it. -/
theorem attach_eq_ok {parent child : Nat} (h : t.attach parent child = .ok t') :
    ∃ d, t.detach child = .ok d ∧ parent < d.size ∧
      t' = (d.modifyLinks child fun n => { n with parent := some parent }).modifyLinks parent
        fun n => { n with children := n.children ++ [child] } := by
  unfold attach at h
  obtain ⟨d, hd, h⟩ := bind_eq_ok h
  obtain ⟨n, hn, h⟩ := bind_eq_ok h
  cases h
  exact ⟨d, hd, lt_size_of_get hn, rfl⟩

theorem size_attach {parent child : Nat} (h : t.attach parent child = .ok t') :
    t'.size = t.size := by
  obtain ⟨d, hd, -, rfl⟩ := attach_eq_ok h
  simp [size_detach hd]

theorem lt_size_of_attach {parent child : Nat} (h : t.attach parent child = .ok t') :
    child < t.size := by
  obtain ⟨d, hd, -⟩ := attach_eq_ok h
  obtain ⟨n, hn, -⟩ := detach_cases hd
  exact (List.getElem?_eq_some_iff.mp hn).1

theorem Closed.attach {parent child : Nat} (hc : t.Closed)
    (h : t.attach parent child = .ok t') : t'.Closed := by
  have hlt := lt_size_of_attach h
  obtain ⟨d, hd, -, rfl⟩ := attach_eq_ok h
  have hcd := hc.detach hd
  have hplaced : (d.modifyLinks child fun n => { n with parent := some parent }).Closed :=
    hcd.modifyLinks fun n hn b hb => hcd child b ⟨n, hn, hb⟩
  refine hplaced.modifyLinks fun n hn b hb => ?_
  rcases List.mem_append.mp hb with hb | hb
  · exact hplaced parent b ⟨n, hn, hb⟩
  · rw [List.mem_singleton.mp hb, size_modifyLinks, size_detach hd]
    exact hlt

theorem addChild_eq_ok {parent : Nat} {n : Node} (h : t.addChild parent n = .ok (id, t')) :
    id = t.size ∧ (t.add n).2.attach parent t.size = .ok t' := by
  unfold addChild at h
  obtain ⟨u, hu, h⟩ := bind_eq_ok h
  cases h
  exact ⟨rfl, hu⟩

theorem Closed.addChild {parent : Nat} {n : Node} (hc : t.Closed)
    (h : t.addChild parent n = .ok (id, t')) : t'.Closed :=
  (hc.add n).attach (addChild_eq_ok h).2

theorem size_addChild {parent : Nat} {n : Node} (h : t.addChild parent n = .ok (id, t')) :
    t'.size = t.size + 1 := by
  rw [size_attach (addChild_eq_ok h).2, size_add]

section Copying

variable {target copy : Nat} {child : NodeId} {ids : List NodeId}
  {pairs work : List (NodeId × NodeId)}

theorem copyChildren_cons (h : t.copyChildren target (child :: ids) = .ok (pairs, t')) :
    ∃ n copy u rest, t.node child = .ok n ∧ t.addChild target n = .ok (copy, u) ∧
      u.copyChildren target ids = .ok (rest, t') ∧ pairs = (child, copy) :: rest := by
  unfold copyChildren at h
  obtain ⟨n, hn, h⟩ := bind_eq_ok h
  obtain ⟨⟨copy, u⟩, hu, h⟩ := bind_eq_ok h
  obtain ⟨⟨rest, v⟩, hv, h⟩ := bind_eq_ok h
  cases h
  exact ⟨n, copy, u, rest, hn, hu, hv, rfl⟩

/-- What each round of copying keeps holds when all is copied. -/
theorem copyBelow_keeps {P : DeclTree → List (NodeId × NodeId) → Prop}
    (hstep : ∀ t p work ids pairs u, P t (p :: work) → t.children p.1 = .ok ids →
      t.copyChildren p.2 ids = .ok (pairs, u) → P u (pairs.reverse ++ work))
    {fuel : Nat} (hp : P t work) (h : t.copyBelow fuel work = .ok t') : P t' [] := by
  induction fuel generalizing t work with
  | zero =>
    cases work with
    | nil =>
      cases h
      exact hp
    | cons p work => cases h
  | succ fuel ih =>
    cases work with
    | nil =>
      cases h
      exact hp
    | cons p work =>
      unfold copyBelow at h
      obtain ⟨ids, hids, h⟩ := bind_eq_ok h
      obtain ⟨⟨pairs, u⟩, hu, h⟩ := bind_eq_ok h
      exact ih (hstep t p work ids pairs u hp hids hu) h

theorem deepCopy_cases (h : t.deepCopy id = .ok (copy, t')) :
    ∃ n, t.node id = .ok n ∧ copy = t.size ∧
      (t.add n).2.copyBelow (t.size + 1) [(id, t.size)] = .ok t' := by
  unfold deepCopy at h
  obtain ⟨n, hn, h⟩ := bind_eq_ok h
  obtain ⟨u, hu, h⟩ := bind_eq_ok h
  cases h
  exact ⟨n, hn, rfl, hu⟩

end Copying

namespace Grown

theorem refl (t : DeclTree) : t.Grown t :=
  ⟨fun _ _ => rfl, fun _ _ h ha => absurd (lt_size_of_holds h) (by omega), Nat.le_refl _⟩

theorem modifyLinks {f : LinkedNode → LinkedNode} (h : t.Grown t') (hid : t.size ≤ id)
    (hf : ∀ n, t'.nodes[id]? = some n → ∀ b ∈ (f n).children, t.size ≤ b ∧ b < t'.size) :
    t.Grown (t'.modifyLinks id f) := by
  refine ⟨fun i hi => ?_, fun a b hab ha => ?_, ?_⟩
  · rw [getElem?_modifyLinks, if_neg (by omega), h.kept i hi]
  · rw [size_modifyLinks]
    rcases holds_modifyLinks hab with ⟨-, n, hn, hb⟩ | hab
    · exact hf n hn b hb
    · exact h.above a b hab ha
  · rw [size_modifyLinks]
    exact h.size_le

theorem modifyNode {f : Node → Node} (h : t.Grown t') (hid : t.size ≤ id) :
    t.Grown (t'.modifyNode id f) :=
  h.modifyLinks hid fun n hn b hb => h.above id b ⟨n, hn, hb⟩ hid

theorem add (n : Node) (h : t.Grown t') : t.Grown (t'.add n).2 := by
  refine ⟨fun i hi => ?_, fun a b hab ha => ?_, ?_⟩
  · have hle := h.size_le
    rw [getElem?_add, if_neg (by omega), h.kept i hi]
  · have hb := h.above a b (holds_add hab) ha
    rw [size_add]
    omega
  · have hle := h.size_le
    rw [size_add]
    omega

/-- A fresh node under a new one. -/
theorem addChild {parent : Nat} {n : Node} (h : t.Grown t') (hp : t.size ≤ parent)
    (ha : t'.addChild parent n = .ok (id, t'')) : t.Grown t'' ∧ t.size ≤ id := by
  obtain ⟨rfl, hat⟩ := addChild_eq_ok ha
  obtain ⟨d, hd, -, rfl⟩ := attach_eq_ok hat
  have hle := h.size_le
  have hg := h.add n
  -- the fresh node has no parent that it could leave
  have hd : d = (t'.add n).2 := by
    obtain ⟨m, hm, ⟨-, hd⟩ | ⟨p, hp, -⟩⟩ := detach_cases hd
    · exact hd
    · rw [getElem?_add, if_pos rfl] at hm
      cases hm
      cases hp
  subst hd
  have hplaced := hg.modifyLinks (f := fun n => { n with parent := some parent })
    hle fun m hm b hb => hg.above t'.size b ⟨m, hm, hb⟩ hle
  refine ⟨hplaced.modifyLinks hp fun m hm b hb => ?_, hle⟩
  rcases List.mem_append.mp hb with hb | hb
  · exact hplaced.above parent b ⟨m, hm, hb⟩ hp
  · rw [List.mem_singleton.mp hb, size_modifyLinks, size_add]
    exact ⟨hle, Nat.lt_succ_self _⟩

theorem copyChildren {target : Nat} {ids : List NodeId} {pairs : List (NodeId × NodeId)}
    (h : t.Grown t') (ht : t.size ≤ target)
    (hc : t'.copyChildren target ids = .ok (pairs, t'')) :
    t.Grown t'' ∧ ∀ p ∈ pairs, t.size ≤ p.2 := by
  induction ids generalizing t' pairs with
  | nil =>
    cases hc
    exact ⟨h, nofun⟩
  | cons child ids ih =>
    obtain ⟨n, copy, u, rest, -, hu, hrest, rfl⟩ := copyChildren_cons hc
    obtain ⟨hg, hcopy⟩ := h.addChild ht hu
    obtain ⟨hg', hcopies⟩ := ih hg hrest
    exact ⟨hg', List.forall_mem_cons.mpr ⟨hcopy, hcopies⟩⟩

theorem copyBelow {fuel : Nat} {work : List (NodeId × NodeId)} (h : t.Grown t')
    (hw : ∀ p ∈ work, t.size ≤ p.2) (hc : t'.copyBelow fuel work = .ok t'') : t.Grown t'' := by
  refine (copyBelow_keeps (P := fun u work => t.Grown u ∧ ∀ p ∈ work, t.size ≤ p.2) ?_
    ⟨h, hw⟩ hc).1
  rintro u p work ids pairs v ⟨hu, hw⟩ - hv
  obtain ⟨htarget, hwork⟩ := List.forall_mem_cons.mp hw
  obtain ⟨hg, hpairs⟩ := hu.copyChildren htarget hv
  exact ⟨hg, List.forall_mem_append.mpr
    ⟨fun q hq => hpairs q (List.mem_reverse.mp hq), hwork⟩⟩

theorem of_deepCopy {copy : Nat} (h : t.deepCopy id = .ok (copy, t')) :
    t.Grown t' ∧ t.size ≤ copy := by
  obtain ⟨n, -, rfl, hu⟩ := deepCopy_cases h
  exact ⟨((refl t).add n).copyBelow (List.forall_mem_singleton.mpr (Nat.le_refl _)) hu,
    Nat.le_refl _⟩

theorem closed (h : t.Grown t') (hc : t.Closed) : t'.Closed := by
  intro a b hab
  by_cases ha : a < t.size
  · obtain ⟨n, hn, hb⟩ := hab
    have hlt : b < t.size := hc a b ⟨n, (h.kept a ha).symm.trans hn, hb⟩
    have hle := h.size_le
    omega
  · exact (h.above a b hab (by omega)).2

theorem holds_iff (h : t.Grown t') {a b : Nat} (ha : a < t.size) :
    t'.Holds a b ↔ t.Holds a b := by
  unfold Holds
  rw [h.kept a ha]

/-- Old nodes lead where they led. -/
theorem leads_iff (h : t.Grown t') (hc : t.Closed) {a b : Nat} (ha : a < t.size) :
    t'.Leads a b ↔ t.Leads a b := by
  constructor
  · intro hab
    have hkept : t.Leads a b ∧ b < t.size := by
      induction hab with
      | refl => exact ⟨.refl, ha⟩
      | tail _ hbc ih =>
        obtain ⟨hab, hb⟩ := ih
        have hbc' := (h.holds_iff hb).mp hbc
        exact ⟨hab.tail hbc', hc _ _ hbc'⟩
    exact hkept.1
  · intro hab
    have hkept : t'.Leads a b ∧ b < t.size := by
      induction hab with
      | refl => exact ⟨.refl, ha⟩
      | tail _ hbc ih =>
        obtain ⟨hab, hb⟩ := ih
        exact ⟨hab.tail ((h.holds_iff hb).mpr hbc), hc _ _ hbc⟩
    exact hkept.1

end Grown

theorem Closed.lt_size_of_leads (hc : t.Closed) {a b : Nat} (ha : a < t.size)
    (h : t.Leads a b) : b < t.size := by
  cases h with
  | refl => exact ha
  | tail _ hbc => exact hc _ _ hbc

end DeclTree

end BindingTypes

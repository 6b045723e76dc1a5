import BindingTypes.Proofs.DeclTree.Copying

namespace BindingTypes

namespace DeclTree

variable {t t' u u' d : DeclTree} {id parent child : Nat} {n : Node} {a b : Nat}

theorem leads_mono (h : ∀ a b : Nat, t.Holds a b → u.Holds a b) (hab : t.Leads a b) :
    u.Leads a b :=
  Relation.ReflTransGen.mono h a b hab

section Links

variable (t) (i : Nat)

def setParent (p : Option NodeId) : DeclTree := t.modifyLinks i fun n => { n with parent := p }

def mapChildren (f : List NodeId → List NodeId) : DeclTree :=
  t.modifyLinks i fun n => { n with children := f n.children }

variable {t i} {p : Option NodeId} {f : List NodeId → List NodeId}

@[simp] theorem size_setParent : (t.setParent i p).size = t.size := size_modifyLinks _

@[simp] theorem size_mapChildren : (t.mapChildren i f).size = t.size := size_modifyLinks _

theorem holds_iff_get (h : t.nodes[a]?.map (·.children) = u.nodes[a]?.map (·.children)) :
    t.Holds a b ↔ u.Holds a b := by
  rw [DeclTree.holds_iff, DeclTree.holds_iff, h]

@[simp] theorem holds_setParent : (t.setParent i p).Holds a b ↔ t.Holds a b := by
  refine holds_iff_get ?_
  rw [setParent, getElem?_modifyLinks]
  split
  · rw [Option.map_map]
    rfl
  · rfl

theorem parentOf_setParent (hi : i < t.size) :
    (t.setParent i p).parentOf b = if b = i then p else t.parentOf b := by
  rw [parentOf, setParent, getElem?_modifyLinks]
  by_cases hb : b = i
  · subst hb
    rw [if_pos rfl, if_pos rfl, List.getElem?_eq_getElem hi]
    rfl
  · rw [if_neg (Ne.symm hb), if_neg hb]
    rfl

theorem holds_mapChildren : (t.mapChildren i f).Holds a b ↔
    a ≠ i ∧ t.Holds a b ∨ a = i ∧ ∃ n, t.nodes[i]? = some n ∧ b ∈ f n.children := by
  by_cases ha : a = i
  · subst ha
    rw [Holds, mapChildren, getElem?_modifyLinks, if_pos rfl]
    simp
  · have hsame : (t.mapChildren i f).Holds a b ↔ t.Holds a b := by
      refine holds_iff_get ?_
      rw [mapChildren, getElem?_modifyLinks, if_neg (Ne.symm ha)]
    simp [hsame, ha]

@[simp] theorem parentOf_mapChildren : (t.mapChildren i f).parentOf b = t.parentOf b := by
  rw [parentOf, mapChildren, getElem?_modifyLinks]
  split
  · rw [Option.bind_map]
    rfl
  · rfl

/-- The child lists of a tree whose parents were changed are those of the tree before. -/
theorem nodup_setParent (h : ∀ n ∈ t.nodes, n.children.Nodup) :
    ∀ n ∈ (t.setParent i p).nodes, n.children.Nodup := by
  intro n hn
  obtain ⟨j, hj⟩ := List.mem_iff_getElem?.mp hn
  rw [setParent, getElem?_modifyLinks] at hj
  split at hj
  · obtain ⟨m, hm, rfl⟩ := Option.map_eq_some_iff.mp hj
    exact h m (List.mem_of_getElem? hm)
  · exact h n (List.mem_of_getElem? hj)

theorem nodup_mapChildren (h : ∀ n ∈ t.nodes, n.children.Nodup)
    (hf : ∀ n, t.nodes[i]? = some n → (f n.children).Nodup) :
    ∀ n ∈ (t.mapChildren i f).nodes, n.children.Nodup := by
  intro n hn
  obtain ⟨j, hj⟩ := List.mem_iff_getElem?.mp hn
  rw [mapChildren, getElem?_modifyLinks] at hj
  split at hj
  · rename_i hij
    subst hij
    obtain ⟨m, hm, rfl⟩ := Option.map_eq_some_iff.mp hj
    exact hf m hm
  · exact h n (List.mem_of_getElem? hj)

end Links

/-- The node `child` was moved under `parent`, or made a root. All other links are as before. -/
structure Moved (t t' : DeclTree) (child : Nat) (parent : Option NodeId) : Prop where
  holds_iff : ∀ a b : Nat,
    t'.Holds a b ↔ t.Holds a b ∧ b ≠ child ∨ parent = some a ∧ b = child
  parentOf : ∀ b : Nat, t'.parentOf b = if b = child then parent else t.parentOf b
  nodup : ∀ n ∈ t'.nodes, n.children.Nodup

/-- A walk in the changed tree is an old one, or takes the new link. -/
theorem Moved.leads_or (h : t.Moved t' child (some parent)) (hab : t'.Leads a b) :
    t.Leads a b ∨ t.Leads a parent ∧ t.Leads child b := by
  induction hab with
  | refl => exact Or.inl .refl
  | @tail x y _ hxy ih =>
    rcases (h.holds_iff x y).mp hxy with ⟨hold, -⟩ | ⟨hx, rfl⟩
    · exact ih.imp (fun hax => hax.tail hold) fun hax => ⟨hax.1, hax.2.tail hold⟩
    · cases hx
      exact Or.inr ⟨ih.elim (fun hax => hax) (·.1), .refl⟩

/-- Links stay sound as long as no node is moved into its own subtree. -/
theorem Linked.moved {p : Option NodeId} (ht : t.Linked) (h : t.Moved t' child p)
    (hout : ∀ q ∈ p, ¬ t.Leads child q) : t'.Linked := by
  refine ⟨fun a b => ?_, h.nodup, fun a b hab hba => ?_⟩
  · rw [h.holds_iff, h.parentOf]
    by_cases hb : b = child
    · simp [hb]
    · simp [hb, ht.parent_iff]
  · cases p with
    | none =>
      have hle : ∀ x y : Nat, t'.Holds x y → t.Holds x y := fun x y hxy =>
        ((h.holds_iff x y).mp hxy).elim (·.1) fun hnew => absurd hnew.1 (by simp)
      exact ht.acyclic a b (hle a b hab) (leads_mono hle hba)
    | some parent =>
      have hout : ¬ t.Leads child parent := hout parent rfl
      rcases (h.holds_iff a b).mp hab with ⟨hold, -⟩ | ⟨ha, rfl⟩
      · rcases h.leads_or hba with hback | ⟨hbp, hca⟩
        · exact ht.acyclic a b hold hback
        · exact hout ((hca.tail hold).trans hbp)
      · cases ha
        exact hout ((h.leads_or hba).elim (fun hback => hback) (·.2))

theorem Linked.moved_detach (ht : t.Linked) (h : t.detach child = .ok t') :
    t.Moved t' child none := by
  obtain ⟨n, hn, ⟨hp, rfl⟩ | ⟨p, hp, rfl⟩⟩ := detach_cases h
  · have hroot : t'.parentOf child = none := by
      rw [parentOf, hn]
      exact hp
    refine ⟨fun a b => ?_, fun b => ?_, ht.nodup⟩
    · have hne : t'.Holds a b → b ≠ child := by
        rintro hab rfl
        rw [(ht.parent_iff a b).mp hab] at hroot
        cases hroot
      simp only [reduceCtorEq, false_and, or_false]
      exact ⟨fun hab => ⟨hab, hne hab⟩, (·.1)⟩
    · split
      · rename_i hb
        rw [hb, hroot]
      · rfl
  · show t.Moved ((t.setParent child none).mapChildren p (·.filter (· ≠ child))) child none
    have hchild : t.parentOf child = some p := by
      rw [parentOf, hn]
      exact hp
    refine ⟨fun a b => ?_, fun b => ?_, ?_⟩
    · have hkept : ∀ b, (∃ m, (t.setParent child none).nodes[p]? = some m ∧
          b ∈ m.children.filter (· ≠ child)) ↔ (t.setParent child none).Holds p b ∧ b ≠ child := by
        intro b
        simp only [Holds, List.mem_filter, decide_eq_true_eq, ← and_assoc, exists_and_right]
      rw [holds_mapChildren, hkept, holds_setParent, holds_setParent]
      by_cases ha : a = p
      · simp [ha]
      · have hne : t.Holds a b → b ≠ child := by
          rintro hab rfl
          exact ha (Option.some.inj (((ht.parent_iff a b).mp hab).symm.trans hchild))
        simp only [ha, ne_eq, not_false_eq_true, true_and, false_and, or_false, reduceCtorEq]
        exact ⟨fun hab => ⟨hab, hne hab⟩, (·.1)⟩
    · rw [parentOf_mapChildren, parentOf_setParent (List.getElem?_eq_some_iff.mp hn).1]
    · refine nodup_mapChildren (nodup_setParent ht.nodup) fun m hm => List.Nodup.filter _ ?_
      exact nodup_setParent ht.nodup m (List.mem_of_getElem? hm)

theorem Linked.detach (ht : t.Linked) (h : t.detach child = .ok t') : t'.Linked :=
  ht.moved (ht.moved_detach h) nofun

theorem Linked.moved_attach (ht : t.Linked) (h : t.attach parent child = .ok t') :
    t.Moved t' child (some parent) := by
  have hchild := lt_size_of_attach h
  obtain ⟨d, hd, hparent, rfl⟩ := attach_eq_ok h
  have hsize := size_detach hd
  have hmoved := ht.moved_detach hd
  show t.Moved ((d.setParent child (some parent)).mapChildren parent (· ++ [child])) child
    (some parent)
  have hcut : ∀ a : Nat, ¬ d.Holds a child := fun a ha => by
    simpa using (hmoved.holds_iff a child).mp ha
  refine ⟨fun a b => ?_, fun b => ?_, ?_⟩
  · have hgiven : ∀ b, (∃ m, (d.setParent child (some parent)).nodes[parent]? = some m ∧
        b ∈ m.children ++ [child]) ↔
          (d.setParent child (some parent)).Holds parent b ∨ b = child := by
      intro b
      have hlt : parent < (d.setParent child (some parent)).size := by
        rw [size_setParent]
        exact hparent
      simp only [Holds, List.getElem?_eq_getElem hlt, Option.some.injEq, exists_eq_left',
        List.mem_append, List.mem_singleton]
    rw [holds_mapChildren, hgiven, holds_setParent, holds_setParent, hmoved.holds_iff,
      hmoved.holds_iff]
    by_cases ha : a = parent
    · simp [ha]
    · simp [ha, Ne.symm ha]
  · rw [parentOf_mapChildren, parentOf_setParent (hsize ▸ hchild), hmoved.parentOf]
    split <;> rfl
  · refine nodup_mapChildren (nodup_setParent hmoved.nodup) fun m hm => ?_
    have hfresh : child ∉ m.children := fun hc =>
      hcut parent (holds_setParent.mp ⟨m, hm, hc⟩)
    have hm := nodup_setParent hmoved.nodup m (List.mem_of_getElem? hm)
    exact List.nodup_append.mpr ⟨hm, List.nodup_singleton child, fun x hx y hy hxy =>
      hfresh (List.mem_singleton.mp hy ▸ hxy ▸ hx)⟩

theorem Linked.attach (ht : t.Linked) (hout : ¬ t.Leads child parent)
    (h : t.attach parent child = .ok t') : t'.Linked :=
  ht.moved (ht.moved_attach h) fun _ hq => Option.some.inj hq ▸ hout

theorem holds_add_iff : (t.add n).2.Holds a b ↔ t.Holds a b := by
  refine ⟨holds_add, ?_⟩
  rintro ⟨m, hm, hb⟩
  have hne : a ≠ t.size := Nat.ne_of_lt (List.getElem?_eq_some_iff.mp hm).1
  exact ⟨m, by rw [getElem?_add, if_neg hne, hm], hb⟩

theorem parentOf_add : (t.add n).2.parentOf b = t.parentOf b := by
  rw [parentOf, getElem?_add]
  split
  · rename_i hb
    have hnone : t.parentOf b = none := by
      rw [parentOf, List.getElem?_eq_none (Nat.le_of_eq hb.symm)]
      rfl
    rw [hnone]
    rfl
  · rfl

theorem leads_add_iff : (t.add n).2.Leads a b ↔ t.Leads a b :=
  ⟨leads_mono fun _ _ => holds_add_iff.mp, leads_mono fun _ _ => holds_add_iff.mpr⟩

theorem Linked.add (ht : t.Linked) (n : Node) : (t.add n).2.Linked := by
  refine ⟨fun a b => ?_, fun m hm => ?_, fun a b hab hba => ?_⟩
  · rw [holds_add_iff, parentOf_add, ht.parent_iff]
  · rcases List.mem_append.mp hm with hm | hm
    · exact ht.nodup m hm
    · rw [List.mem_singleton.mp hm]
      exact List.nodup_nil
  · exact ht.acyclic a b (holds_add_iff.mp hab) (leads_add_iff.mp hba)

/-- Nothing stands below a node without children. -/
theorem eq_of_leads (ha : ∀ c, ¬ t.Holds a c) (h : t.Leads a b) : b = a := by
  rcases Relation.ReflTransGen.cases_head h with rfl | ⟨c, hc, -⟩
  · rfl
  · exact absurd hc (ha c)

theorem not_leads_fresh (hp : parent ≠ t.size) (n : Node) : ¬ (t.add n).2.Leads t.size parent := by
  refine fun hlead => hp (eq_of_leads (fun c hc => ?_) hlead)
  exact Nat.lt_irrefl _ (lt_size_of_holds (holds_add_iff.mp hc))

theorem Linked.addChild (ht : t.Linked) (hp : parent ≠ t.size)
    (h : t.addChild parent n = .ok (id, t')) : t'.Linked :=
  (ht.add n).attach (not_leads_fresh hp n) (addChild_eq_ok h).2

theorem Linked.copyChildren {target : Nat} {ids : List NodeId} {pairs : List (NodeId × NodeId)}
    (ht : t.Linked) (hlt : target < t.size) (h : t.copyChildren target ids = .ok (pairs, t')) :
    t'.Linked ∧ ∀ p ∈ pairs, p.2 < t'.size := by
  induction ids generalizing t pairs with
  | nil =>
    cases h
    exact ⟨ht, nofun⟩
  | cons child ids ih =>
    obtain ⟨n, copy, u, rest, -, hu, hv, rfl⟩ := copyChildren_cons h
    have hsize := size_addChild hu
    obtain ⟨hlinked, hrest⟩ := ih (ht.addChild (Nat.ne_of_lt hlt) hu) (by omega) hv
    refine ⟨hlinked, List.forall_mem_cons.mpr ⟨?_, hrest⟩⟩
    show copy < t'.size
    rw [(addChild_eq_ok hu).1]
    exact Nat.lt_of_lt_of_le (hsize ▸ Nat.lt_succ_self _) (KeepsParents.copyChildren hv).size_le

theorem Linked.copyBelow {fuel : Nat} {work : List (NodeId × NodeId)} (ht : t.Linked)
    (hw : ∀ p ∈ work, p.2 < t.size) (h : t.copyBelow fuel work = .ok t') : t'.Linked := by
  refine (copyBelow_keeps (P := fun u work => u.Linked ∧ ∀ p ∈ work, p.2 < u.size) ?_
    ⟨ht, hw⟩ h).1
  rintro u p work cs pairs v ⟨hu, hw⟩ - hv
  obtain ⟨htarget, hwork⟩ := List.forall_mem_cons.mp hw
  obtain ⟨hlinked, hpairs⟩ := hu.copyChildren htarget hv
  have hle := (KeepsParents.copyChildren hv).size_le
  exact ⟨hlinked, List.forall_mem_append.mpr ⟨fun q hq => hpairs q (List.mem_reverse.mp hq),
    fun q hq => Nat.lt_of_lt_of_le (hwork q hq) hle⟩⟩

theorem Linked.deepCopy {copy : Nat} (ht : t.Linked) (h : t.deepCopy id = .ok (copy, t')) :
    t'.Linked := by
  obtain ⟨n, -, -, hu⟩ := deepCopy_cases h
  refine (ht.add n).copyBelow (List.forall_mem_singleton.mpr ?_) hu
  show t.size < (t.add n).2.size
  simp

/-- A change to the links of a tree. -/
inductive Edit where
  | add (n : Node)
  | addChild (parent : NodeId) (n : Node)
  | attach (parent child : NodeId)
  | detach (child : NodeId)
  | deepCopy (id : NodeId)

def edit (t : DeclTree) : Edit → Except Fault DeclTree
  | .add n => .ok (t.add n).2
  | .addChild parent n => (t.addChild parent n).map (·.2)
  | .attach parent child => t.attach parent child
  | .detach child => t.detach child
  | .deepCopy id => (t.deepCopy id).map (·.2)

/-- No node is put into its own subtree, neither an old one nor a fresh one. -/
def Permits (t : DeclTree) : Edit → Prop
  | .addChild parent n => ¬ (t.add n).2.Leads (t.add n).1 parent
  | .attach parent child => ¬ t.Leads child parent
  | .add _ | .detach _ | .deepCopy _ => True

/-- The nodes that an edit is about. -/
def Edit.nodes : Edit → List NodeId
  | .add _ => []
  | .addChild parent _ => [parent]
  | .attach parent child => [parent, child]
  | .detach child => [child]
  | .deepCopy id => [id]

/-- The trees that permitted edits lead to from the empty one. -/
inductive Reached : DeclTree → Prop
  | empty : Reached {}
  | edit {t t' : DeclTree} {e : Edit} (ht : Reached t) (he : t.Permits e) (h : t.edit e = .ok t') :
      Reached t'

theorem linked_empty : Linked {} := by
  refine ⟨fun a b => ⟨fun hab => ?_, fun hab => ?_⟩, fun n hn => ?_, fun a b hab => ?_⟩
  · exact absurd (lt_size_of_holds hab) (Nat.not_lt_zero a)
  · exact absurd (lt_size_of_parentOf hab) (Nat.not_lt_zero b)
  · exact absurd hn List.not_mem_nil
  · exact absurd (lt_size_of_holds hab) (Nat.not_lt_zero a)

theorem Linked.edit {e : Edit} (ht : t.Linked) (he : t.Permits e) (h : t.edit e = .ok t') :
    t'.Linked := by
  cases e with
  | add n =>
    cases h
    exact ht.add n
  | addChild parent n =>
    obtain ⟨⟨id, u⟩, hu, rfl⟩ := map_eq_ok h
    refine ht.addChild (fun hp => he ?_) hu
    rw [hp]
    exact .refl
  | attach parent child => exact ht.attach he h
  | detach child => exact ht.detach h
  | deepCopy id =>
    obtain ⟨⟨copy, u⟩, hu, rfl⟩ := map_eq_ok h
    exact ht.deepCopy hu

theorem Reached.linked (h : Reached t) : t.Linked := by
  induction h with
  | empty => exact linked_empty
  | edit _ he h ih => exact ih.edit he h

theorem detach_returns (h : id < t.size) : ∃ t', t.detach id = .ok t' := by
  have hget := get_eq_ok_iff.mpr (List.getElem?_eq_getElem h)
  unfold DeclTree.detach
  rw [hget]
  obtain ⟨n, parent, children⟩ := t.nodes[id]
  cases parent with
  | none => exact ⟨_, rfl⟩
  | some parent => exact ⟨_, rfl⟩

theorem attach_returns (hp : parent < t.size) (hc : child < t.size) :
    ∃ t', t.attach parent child = .ok t' := by
  obtain ⟨d, hd⟩ := detach_returns hc
  have hparent := get_eq_ok_iff.mpr (List.getElem?_eq_getElem (size_detach hd ▸ hp))
  unfold DeclTree.attach
  rw [hd]
  show ∃ t', (d.get parent >>= _) = .ok t'
  rw [hparent]
  exact ⟨_, rfl⟩

/-- An edit of nodes that exist ends with a tree. -/
theorem Linked.edit_returns {e : Edit} (ht : t.Linked) (h : ∀ id ∈ e.nodes, id < t.size) :
    ∃ t', t.edit e = .ok t' := by
  cases e with
  | add n => exact ⟨_, rfl⟩
  | addChild parent n =>
    obtain ⟨t', h'⟩ := addChild_returns n (h parent List.mem_cons_self)
    exact ⟨t', by rw [DeclTree.edit, h']; rfl⟩
  | attach parent child =>
    exact attach_returns (h parent List.mem_cons_self)
      (h child (List.mem_cons_of_mem _ List.mem_cons_self))
  | detach child => exact detach_returns (h child List.mem_cons_self)
  | deepCopy id =>
    obtain ⟨t', h'⟩ := ht.deepCopy_returns (h id List.mem_cons_self)
    exact ⟨t', by rw [DeclTree.edit, h']; rfl⟩

end DeclTree

end BindingTypes

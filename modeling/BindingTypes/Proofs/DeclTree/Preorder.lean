import Mathlib.Data.List.Flatten
import BindingTypes.Proofs.DeclTree.Linking

namespace BindingTypes

namespace DeclTree

/-- The nodes of a subtree in pre-order: each node once, a node before all that stand below it, and
what stands below a child before what stands below a later one. -/
structure ListsSubtree (t : DeclTree) (id : NodeId) (ids : List NodeId) : Prop where
  first : ids.head? = some id
  nodup : ids.Nodup
  mem_iff : ∀ b : Nat, b ∈ ids ↔ t.Leads id b
  above : ∀ a ∈ ids, ∀ b : Nat, t.Leads a b → a ≠ b → [a, b].Sublist ids
  beside : ∀ a ∈ ids, ∀ n, t.nodes[a]? = some n → ∀ c d : Nat, [c, d].Sublist n.children →
    ∀ x y : Nat, t.Leads c x → t.Leads d y → [x, y].Sublist ids

/-- The walk lists `ids` for the node `id`, whatever it goes on with. -/
def Walks (t : DeclTree) (id : NodeId) (ids : List NodeId) : Prop :=
  ∀ (fuel : Nat) (rest : List NodeId),
    t.preorder (ids.length + fuel) (id :: rest) = (t.preorder fuel rest).map (ids ++ ·)

variable {t : DeclTree} {id : Nat} {n : LinkedNode} {f : NodeId → List NodeId} {cs : List NodeId}

theorem walks_children (h : ∀ c ∈ cs, t.Walks c (f c)) (fuel : Nat) (rest : List NodeId) :
    t.preorder ((cs.flatMap f).length + fuel) (cs ++ rest) =
      (t.preorder fuel rest).map (cs.flatMap f ++ ·) := by
  induction cs generalizing fuel with
  | nil =>
    show t.preorder (0 + fuel) rest = _
    rw [Nat.zero_add]
    cases t.preorder fuel rest <;> rfl
  | cons c cs ih =>
    obtain ⟨hc, hcs⟩ := List.forall_mem_cons.mp h
    rw [List.flatMap_cons, List.length_append, Nat.add_assoc, List.cons_append, hc, ih hcs]
    cases t.preorder fuel rest with
    | error e => rfl
    | ok ids => simp [Except.map]

theorem walks_node (hn : t.nodes[id]? = some n) (h : ∀ c ∈ n.children, t.Walks c (f c)) :
    t.Walks id (id :: n.children.flatMap f) := by
  intro fuel rest
  have hchildren : t.children id = .ok n.children := by
    rw [children, get_eq_ok_iff.mpr hn]
    rfl
  have hfuel : (id :: n.children.flatMap f).length + fuel =
      ((n.children.flatMap f).length + fuel) + 1 := by
    rw [List.length_cons]
    omega
  rw [hfuel, preorder, hchildren]
  show (t.preorder _ (n.children ++ rest) >>= _) = _
  rw [walks_children h]
  cases t.preorder fuel rest <;> rfl

theorem lists_node (ht : t.Linked) (hn : t.nodes[id]? = some n)
    (h : ∀ c ∈ n.children, t.ListsSubtree c (f c)) :
    t.ListsSubtree id (id :: n.children.flatMap f) := by
  have hheld : ∀ c ∈ n.children, t.Holds id c := fun c hc => ⟨n, hn, hc⟩
  have hmem : ∀ b : Nat, b ∈ n.children.flatMap f ↔ ∃ c ∈ n.children, t.Leads c b := by
    intro b
    rw [List.mem_flatMap]
    exact exists_congr fun c => and_congr_right fun hc => (h c hc).mem_iff b
  have hroot : id ∉ n.children.flatMap f := by
    intro hid
    obtain ⟨c, hc, hlead⟩ := (hmem id).mp hid
    exact ht.acyclic id c (hheld c hc) hlead
  have hpart : ∀ c ∈ n.children, (f c).Sublist (id :: n.children.flatMap f) := fun c hc =>
    .cons _ (List.sublist_flatten_of_mem (List.mem_map.mpr ⟨c, hc, rfl⟩))
  refine ⟨rfl, ?_, fun b => ?_, fun a ha b hab hne => ?_, ?_⟩
  · refine List.nodup_cons.mpr ⟨hroot, List.nodup_flatMap.mpr ⟨fun c hc => (h c hc).nodup, ?_⟩⟩
    refine (ht.nodup n (List.mem_of_getElem? hn)).imp_of_mem fun {c d} hc hd hcd => ?_
    intro x hxc hxd
    exact ht.leads_apart (hheld c hc) (hheld d hd) hcd (((h c hc).mem_iff x).mp hxc)
      (((h d hd).mem_iff x).mp hxd)
  · rw [List.mem_cons, hmem]
    constructor
    · rintro (rfl | ⟨c, hc, hlead⟩)
      · exact .refl
      · exact .head (hheld c hc) hlead
    · intro hlead
      rcases Relation.ReflTransGen.cases_head hlead with hb | ⟨c, ⟨m, hm, hc⟩, hcb⟩
      · exact Or.inl hb.symm
      · cases hn.symm.trans hm
        exact Or.inr ⟨c, hc, hcb⟩
  · rcases List.mem_cons.mp ha with rfl | ha
    · rcases Relation.ReflTransGen.cases_head hab with rfl | ⟨c, ⟨m, hm, hc⟩, hcb⟩
      · exact absurd rfl hne
      · cases hn.symm.trans hm
        exact .cons_cons _ (List.singleton_sublist.mpr ((hmem b).mpr ⟨c, hc, hcb⟩))
    · obtain ⟨c, hc, hac⟩ := List.mem_flatMap.mp ha
      exact ((h c hc).above a hac b hab hne).trans (hpart c hc)
  · intro a ha m hm c d hcd x y hcx hdy
    rcases List.mem_cons.mp ha with rfl | ha
    · cases hn.symm.trans hm
      have hc : c ∈ n.children := hcd.subset List.mem_cons_self
      have hd : d ∈ n.children := hcd.subset (List.mem_cons_of_mem _ List.mem_cons_self)
      have hlists : (f c ++ f d).Sublist (n.children.flatMap f) := by
        simpa [List.flatMap_def] using (hcd.map f).flatten
      have hx : [x].Sublist (f c) := List.singleton_sublist.mpr (((h c hc).mem_iff x).mpr hcx)
      have hy : [y].Sublist (f d) := List.singleton_sublist.mpr (((h d hd).mem_iff y).mpr hdy)
      exact .cons _ ((hx.append hy).trans hlists)
    · obtain ⟨e, he, hae⟩ := List.mem_flatMap.mp ha
      exact ((h e he).beside a hae m hm c d hcd x y hcx hdy).trans (hpart e he)

theorem Linked.card_below_lt (ht : t.Linked) {a b : Nat} (h : t.Holds a b) :
    (t.below b).card < (t.below a).card := by
  have ha : a ∈ t.below a := mem_below.mpr ⟨lt_size_of_holds h, .refl⟩
  have hself : a ∉ t.below b := fun hlead => ht.acyclic a b h (mem_below.mp hlead).2
  have hsub : t.below b ⊆ t.below a := fun c hc =>
    mem_below.mpr ⟨(mem_below.mp hc).1, .head h (mem_below.mp hc).2⟩
  exact Finset.card_lt_card (Finset.ssubset_iff_subset_ne.mpr ⟨hsub, fun heq => hself (heq ▸ ha)⟩)

theorem Linked.exists_listing (ht : t.Linked) (hid : id < t.size) :
    ∃ ids, t.Walks id ids ∧ t.ListsSubtree id ids := by
  induction hk : (t.below id).card using Nat.strongRecOn generalizing id with
  | ind k ih =>
    have hn := List.getElem?_eq_getElem hid
    have hchild : ∀ c ∈ t.nodes[id].children, ∃ ids, t.Walks c ids ∧ t.ListsSubtree c ids :=
      fun c hc => ih _ (hk ▸ ht.card_below_lt ⟨_, hn, hc⟩) (ht.closed id c ⟨_, hn, hc⟩) rfl
    choose! f hf using hchild
    exact ⟨id :: t.nodes[id].children.flatMap f, walks_node hn fun c hc => (hf c hc).1,
      lists_node ht hn fun c hc => (hf c hc).2⟩

/-- A subtree has no more nodes than the tree, so the walk comes to its end. -/
theorem Linked.descendants_returns (ht : t.Linked) (hid : id < t.size) :
    ∃ ids, t.descendants id = .ok ids ∧ t.ListsSubtree id ids := by
  obtain ⟨ids, hwalk, hlists⟩ := ht.exists_listing hid
  have hle : ids.length ≤ t.size := by
    have hsub : ids ⊆ List.range t.size := fun b hb =>
      List.mem_range.mpr (ht.closed.lt_size_of_leads hid ((hlists.mem_iff b).mp hb))
    simpa using (hlists.nodup.subperm hsub).length_le
  obtain ⟨fuel, hfuel⟩ : ∃ fuel, t.size + 1 = ids.length + fuel :=
    ⟨t.size + 1 - ids.length, by omega⟩
  refine ⟨ids, ?_, hlists⟩
  rw [descendants, hfuel, hwalk]
  cases fuel <;> simp [preorder, Except.map]

/-- However a tree was built, parents and children agree, no child is listed twice and no node
stands below itself, every further edit of its nodes ends, and every subtree is listed in
pre-order. -/
theorem links_stay_sound (h : t.Reached) :
    t.Linked ∧
      (∀ e : Edit, (∀ id ∈ e.nodes, id < t.size) → ∃ t', t.edit e = .ok t') ∧
      ∀ id : Nat, id < t.size → ∃ ids, t.descendants id = .ok ids ∧ t.ListsSubtree id ids :=
  ⟨h.linked, fun _ he => h.linked.edit_returns he, fun _ hid => h.linked.descendants_returns hid⟩

def namespaceData : Node := { kind := ⟨.namespaceDecl, false⟩ }

def classData : Node := { kind := ⟨.classDecl, false⟩ }

/-- A namespace of two classes, the first with a member. -/
def builtTree : DeclTree :=
  ⟨[⟨namespaceData, none, [1, 2]⟩, ⟨classData, some 0, [3]⟩, ⟨classData, some 0, []⟩,
    ⟨classData, some 1, []⟩]⟩

/-- The tree after the first class was moved under the second. -/
def movedTree : DeclTree :=
  ⟨[⟨namespaceData, none, [2]⟩, ⟨classData, some 2, [3]⟩, ⟨classData, some 0, [1]⟩,
    ⟨classData, some 1, []⟩]⟩

theorem reached_builtTree : builtTree.Reached := by
  have hroot : Reached ⟨[⟨namespaceData, none, []⟩]⟩ :=
    .edit (e := .add namespaceData) .empty trivial rfl
  have hfirst : Reached ⟨[⟨namespaceData, none, [1]⟩, ⟨classData, some 0, []⟩]⟩ :=
    .edit (e := .addChild 0 classData) hroot (not_leads_fresh (by decide) _) rfl
  have hsecond : Reached ⟨[⟨namespaceData, none, [1, 2]⟩, ⟨classData, some 0, []⟩,
      ⟨classData, some 0, []⟩]⟩ :=
    .edit (e := .addChild 0 classData) hfirst (not_leads_fresh (by decide) _) rfl
  exact .edit (e := .addChild 1 classData) hsecond (not_leads_fresh (by decide) _) rfl

theorem reached_movedTree : movedTree.Reached := by
  have hleaf : ∀ b : Nat, ¬ builtTree.Holds 3 b := by
    rintro b ⟨n, hn, hb⟩
    cases hn
    cases hb
  refine .edit (e := .attach 2 1) reached_builtTree (fun hlead => ?_) rfl
  rcases Relation.ReflTransGen.cases_head hlead with h | ⟨c, ⟨n, hn, hc⟩, hlead⟩
  · cases h
  · cases hn
    cases List.mem_singleton.mp hc
    cases eq_of_leads hleaf hlead

theorem movedTree_sound :
    movedTree.Reached ∧ movedTree.Linked ∧ (∃ t', movedTree.edit (.deepCopy 0) = .ok t') ∧
      movedTree.descendants 0 = .ok [0, 2, 1, 3] ∧ movedTree.ListsSubtree 0 [0, 2, 1, 3] := by
  obtain ⟨hlinked, hedit, hlists⟩ := links_stay_sound reached_movedTree
  have hwalk : movedTree.descendants 0 = .ok [0, 2, 1, 3] := rfl
  obtain ⟨ids, hids, hlisted⟩ := hlists 0 (by decide)
  cases hwalk.symm.trans hids
  exact ⟨reached_movedTree, hlinked, hedit (.deepCopy 0) (by decide), hwalk, hlisted⟩

end DeclTree

end BindingTypes

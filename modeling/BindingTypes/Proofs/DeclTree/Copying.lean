import Mathlib.Data.List.Forall2
import BindingTypes.Proofs.DeclTree.Links

namespace BindingTypes

namespace DeclTree

def dataOf (t : DeclTree) (i : Nat) : Option Node := t.nodes[i]?.map (·.node)

def childrenOf (t : DeclTree) (i : Nat) : Option (List NodeId) := t.nodes[i]?.map (·.children)

variable {t u v t' : DeclTree} {id a b : Nat} {done todo cs : List NodeId}

theorem children_eq_ok_iff : t.children id = .ok cs ↔ t.childrenOf id = some cs := by
  unfold children childrenOf get
  cases t.nodes[id]? with
  | none => exact ⟨nofun, nofun⟩
  | some n => exact ⟨fun h => congrArg some (Except.ok.inj h), fun h => congrArg _ (Option.some.inj h)⟩

theorem childrenOf_eq (h : id < t.size) : t.childrenOf id = some t.nodes[id].children := by
  rw [childrenOf, List.getElem?_eq_getElem h]
  rfl

theorem mem_of_childrenOf (h : t.childrenOf a = some cs) : b ∈ cs ↔ t.Holds a b := by
  rw [holds_iff, ← childrenOf, h]
  simp

/-- A walk over the subtree of `id`: what was listed, and what waits to be listed. -/
structure Walking (t : DeclTree) (id : NodeId) (done todo : List NodeId) : Prop where
  nodup : (done ++ todo).Nodup
  reached : ∀ a ∈ done ++ todo, t.Leads id a
  root : id ∈ done ++ todo
  above : ∀ b ∈ done ++ todo, b = id ∨ ∃ a ∈ done, t.Holds a b
  below : ∀ a ∈ done, ∀ b, t.Holds a b → b ∈ done ++ todo

namespace Walking

theorem start (t : DeclTree) (id : NodeId) : t.Walking id [] [id] where
  nodup := List.nodup_singleton id
  reached := List.forall_mem_singleton.mpr .refl
  root := List.mem_singleton_self id
  above := List.forall_mem_singleton.mpr (.inl rfl)
  below := nofun

theorem length_le (ht : t.Consistent) (hid : id < t.size) (h : t.Walking id done todo) :
    done.length + todo.length ≤ t.size := by
  have hsub : done ++ todo ⊆ List.range t.size := fun a ha =>
    List.mem_range.mpr (ht.closed.lt_size_of_leads hid (h.reached a ha))
  simpa using (h.nodup.subperm hsub).length_le

/-- A child of a node that waits was not met yet: its only parent was not listed, and `id` does not
stand below itself. -/
theorem fresh (ht : t.Consistent) (hac : t.AcyclicBelow id) (h : t.Walking id done (a :: todo))
    (hab : t.Holds a b) : b ∉ done ++ a :: todo := by
  intro hb
  have hwaits : a ∈ done ++ a :: todo := List.mem_append_right _ List.mem_cons_self
  rcases h.above b hb with rfl | ⟨c, hc, hcb⟩
  · exact hac a b (h.reached a hwaits) hab (h.reached a hwaits)
  · have hca : c = a :=
      Option.some.inj (((ht.parent_iff c b).mp hcb).symm.trans ((ht.parent_iff a b).mp hab))
    exact (List.nodup_append.mp h.nodup).2.2 c hc a List.mem_cons_self hca

/-- A node is listed, and its children wait in any order. -/
theorem step {ds : List NodeId} (ht : t.Consistent) (hac : t.AcyclicBelow id)
    (h : t.Walking id done (a :: todo)) (hcs : t.childrenOf a = some cs) (hds : ds.Perm cs) :
    t.Walking id (done ++ [a]) (ds ++ todo) := by
  have hheld : ∀ b, b ∈ ds ↔ t.Holds a b := fun b => hds.mem_iff.trans (mem_of_childrenOf hcs)
  have hmem : ∀ b, b ∈ done ++ [a] ++ (ds ++ todo) ↔ b ∈ done ++ a :: todo ∨ t.Holds a b := by
    intro b
    simp only [List.mem_append, List.mem_cons, List.not_mem_nil, or_false, hheld]
    grind
  have hwaits : a ∈ done ++ a :: todo := List.mem_append_right _ List.mem_cons_self
  refine ⟨?_, fun b hb => ?_, (hmem id).mpr (.inl h.root), fun b hb => ?_, fun c hc b hcb => ?_⟩
  · obtain ⟨n, hn, rfl⟩ := Option.map_eq_some_iff.mp hcs
    have hnodup : ds.Nodup := hds.nodup_iff.mpr (ht.nodup n (List.mem_of_getElem? hn))
    have happ : (ds ++ (done ++ a :: todo)).Nodup :=
      List.nodup_append.mpr ⟨hnodup, h.nodup, fun x hx y hy hxy =>
        h.fresh ht hac ((hheld x).mp hx) (hxy ▸ hy)⟩
    refine (List.Perm.nodup_iff ?_).mp happ
    rw [List.perm_iff_count]
    intro x
    simp only [List.count_append, List.count_cons, List.count_nil]
    omega
  · exact ((hmem b).mp hb).elim (h.reached b) fun hab => (h.reached a hwaits).tail hab
  · rcases (hmem b).mp hb with hb | hab
    · exact (h.above b hb).imp_right fun ⟨c, hc, hcb⟩ => ⟨c, List.mem_append_left _ hc, hcb⟩
    · exact .inr ⟨a, List.mem_append_right _ List.mem_cons_self, hab⟩
  · rcases List.mem_append.mp hc with hc | hc
    · exact (hmem b).mpr (.inl (h.below c hc b hcb))
    · exact (hmem b).mpr (.inr (List.mem_singleton.mp hc ▸ hcb))

/-- A walk that has come to its end has listed the whole subtree. -/
theorem mem_iff (h : t.Walking id done []) : b ∈ done ↔ t.Leads id b := by
  have hdone : done ++ [] = done := List.append_nil done
  refine ⟨fun hb => h.reached b (hdone.symm ▸ hb), fun hb => ?_⟩
  induction hb with
  | refl => exact hdone ▸ h.root
  | tail _ hbc ih => exact hdone ▸ h.below _ ih _ hbc

/-- The fuel pays for every node of the tree, so the walk in pre-order ends. -/
theorem preorder_returns (ht : t.Consistent) (hac : t.AcyclicBelow id)
    (hid : id < t.size) (h : t.Walking id done todo) {fuel : Nat}
    (hf : t.size < done.length + fuel) : ∃ ids, t.preorder fuel todo = .ok ids ∧ t.Walking id (done ++ ids) [] := by
  induction fuel generalizing done todo with
  | zero =>
    have hle := h.length_le ht hid
    omega
  | succ fuel ih =>
    cases todo with
    | nil => exact ⟨[], rfl, (List.append_nil done).symm ▸ h⟩
    | cons a todo =>
      have ha : a < t.size := ht.closed.lt_size_of_leads hid
        (h.reached a (List.mem_append_right _ List.mem_cons_self))
      have hcs := childrenOf_eq ha
      have hlen : t.size < (done ++ [a]).length + fuel := by
        rw [List.length_append, List.length_singleton]
        omega
      obtain ⟨ids, hids, hwalk⟩ := ih (h.step ht hac hcs (.refl _)) hlen
      refine ⟨a :: ids, ?_, by simpa using hwalk⟩
      rw [preorder, children_eq_ok_iff.mpr hcs]
      show (t.preorder fuel _ >>= _) = _
      rw [hids]
      rfl

end Walking

/-- Walks over related children stay related, and more fuel does not change a walk that ended. -/
theorem preorder_forall₂ {R : NodeId → NodeId → Prop} {fuel : Nat} {ids as bs : List NodeId}
    (more : Nat)
    (hR : ∀ a b, R a b → ∃ cs ds, t.childrenOf a = some cs ∧ u.childrenOf b = some ds ∧
      List.Forall₂ R cs ds)
    (h : List.Forall₂ R as bs) (hids : t.preorder fuel as = .ok ids) :
    ∃ copies, u.preorder (fuel + more) bs = .ok copies ∧ List.Forall₂ R ids copies := by
  induction fuel generalizing as bs ids with
  | zero =>
    cases h with
    | nil =>
      cases hids
      exact ⟨[], by simp [preorder], .nil⟩
    | cons _ _ => cases hids
  | succ fuel ih =>
    cases h with
    | nil =>
      cases hids
      exact ⟨[], by simp [preorder], .nil⟩
    | @cons a b as bs hab has =>
      obtain ⟨cs, ds, hcs, hds, hchildren⟩ := hR a b hab
      unfold preorder at hids
      obtain ⟨cs', hcs', hids⟩ := bind_eq_ok hids
      obtain ⟨rest, hrest, hids⟩ := bind_eq_ok hids
      cases hids
      cases hcs.symm.trans (children_eq_ok_iff.mp hcs')
      obtain ⟨copies, hcopies, hrel⟩ := ih (List.rel_append hchildren has) hrest
      refine ⟨b :: copies, ?_, .cons hab hrel⟩
      rw [Nat.add_right_comm, preorder, children_eq_ok_iff.mpr hds]
      show (u.preorder (fuel + more) (ds ++ bs) >>= _) = _
      rw [hcopies]
      rfl

theorem getElem?_addChild {parent : Nat} {n : Node} (h : t.addChild parent n = .ok (id, t'))
    (hp : parent < t.size) (i : Nat) :
    t'.nodes[i]? = if i = t.size then some ⟨n, some parent, []⟩ else
      if i = parent then t.nodes[i]?.map fun m => { m with children := m.children ++ [t.size] }
      else t.nodes[i]? := by
  obtain ⟨rfl, hat⟩ := addChild_eq_ok h
  obtain ⟨d, hd, -, rfl⟩ := attach_eq_ok hat
  rw [detach_add] at hd
  cases hd
  rw [getElem?_modifyLinks, getElem?_modifyLinks, getElem?_add]
  by_cases hi : i = t.size
  · rw [if_neg (by omega), if_pos hi.symm, if_pos hi, if_pos hi]
    rfl
  · rw [if_neg (Ne.symm hi), if_neg hi, if_neg hi]
    exact if_congr eq_comm rfl rfl

/-- Nodes were copied under `target`; `pairs` names each with its copy. -/
structure CopiedUnder (t u : DeclTree) (target : Nat) (pairs : List (NodeId × NodeId)) : Prop where
  copies : pairs.map (·.2) = List.range' t.size pairs.length
  size : u.size = t.size + pairs.length
  kept : ∀ i < t.size, u.dataOf i = t.dataOf i
  data : ∀ p ∈ pairs, u.dataOf p.2 = t.dataOf p.1
  children : ∀ i < t.size, u.childrenOf i =
    if i = target then (t.childrenOf i).map (· ++ pairs.map (·.2)) else t.childrenOf i
  bare : ∀ p ∈ pairs, u.childrenOf p.2 = some []

theorem CopiedUnder.nil (t : DeclTree) (target : Nat) : t.CopiedUnder t target [] where
  copies := rfl
  size := rfl
  kept _ _ := rfl
  data := nofun
  children i _ := by
    split
    · simp
    · rfl
  bare := nofun

theorem CopiedUnder.cons {child target : Nat} {n : Node} {pairs : List (NodeId × NodeId)}
    (hn : t.dataOf child = some n) (ht : target < t.size) (hs : ∀ p ∈ pairs, p.1 < t.size)
    (hu : t.addChild target n = .ok (id, u)) (h : u.CopiedUnder v target pairs) :
    t.CopiedUnder v target ((child, t.size) :: pairs) := by
  have hsize := size_addChild hu
  have hget := getElem?_addChild hu ht
  have hdata : ∀ i < t.size, u.dataOf i = t.dataOf i := by
    intro i hi
    rw [dataOf, hget, if_neg (Nat.ne_of_lt hi)]
    split
    · rw [Option.map_map]
      rfl
    · rfl
  have hchildren : ∀ i < t.size, u.childrenOf i =
      if i = target then (t.childrenOf i).map (· ++ [t.size]) else t.childrenOf i := by
    intro i hi
    rw [childrenOf, hget, if_neg (Nat.ne_of_lt hi)]
    split
    · rw [childrenOf, Option.map_map, Option.map_map]
      rfl
    · rfl
  have hnew : t.size < u.size := hsize ▸ Nat.lt_succ_self _
  refine ⟨?_, ?_, fun i hi => ?_, List.forall_mem_cons.mpr ⟨?_, fun p hp => ?_⟩, fun i hi => ?_,
    List.forall_mem_cons.mpr ⟨?_, h.bare⟩⟩
  · rw [List.map_cons, h.copies, hsize]
    rfl
  · rw [h.size, hsize, List.length_cons]
    omega
  · rw [h.kept i (Nat.lt_trans hi hnew), hdata i hi]
  · rw [h.kept t.size hnew, hn, dataOf, hget, if_pos rfl]
    rfl
  · rw [h.data p hp, hdata p.1 (hs p hp)]
  · rw [h.children i (Nat.lt_trans hi hnew), hchildren i hi]
    split
    · rw [Option.map_map]
      simp [Function.comp_def]
    · rfl
  · rw [h.children t.size hnew, if_neg (Nat.ne_of_gt ht), childrenOf, hget, if_pos rfl]
    rfl

/-- Children are copied in their order, each under `target`. -/
theorem copyChildren_copies {target : Nat} {ids : List NodeId} (hids : ∀ i ∈ ids, i < t.size)
    (ht : target < t.size) :
    ∃ pairs u, t.copyChildren target ids = .ok (pairs, u) ∧ pairs.map (·.1) = ids ∧
      t.CopiedUnder u target pairs := by
  induction ids generalizing t with
  | nil => exact ⟨[], t, rfl, rfl, .nil t target⟩
  | cons child ids ih =>
    obtain ⟨n, hn⟩ := node_returns (hids child List.mem_cons_self)
    obtain ⟨u, hu⟩ := addChild_returns n ht
    have hlt : t.size < u.size := size_addChild hu ▸ Nat.lt_succ_self _
    have hold : ∀ i ∈ ids, i < t.size := fun i hi => hids i (List.mem_cons_of_mem _ hi)
    obtain ⟨pairs, v, hv, hfirst, hcopied⟩ :=
      ih (fun i hi => Nat.lt_trans (hold i hi) hlt) (Nat.lt_trans ht hlt)
    have hsources : ∀ p ∈ pairs, p.1 < t.size := fun p hp =>
      hold p.1 (hfirst ▸ List.mem_map_of_mem hp)
    refine ⟨(child, t.size) :: pairs, v, ?_, by simp [hfirst],
      hcopied.cons (node_eq_ok_iff.mp hn) ht hsources hu⟩
    unfold copyChildren
    rw [hn]
    show (t.addChild target n >>= _) = _
    rw [hu]
    show (u.copyChildren target ids >>= _) = _
    rw [hv]
    rfl

section Duplicating

variable {copied work : List (NodeId × NodeId)} {p : NodeId × NodeId}

/-- Where a copying of the subtree of `id` stands: `copied` are the nodes whose children were copied
as well, `work` those whose children still wait. -/
structure Duplicating (t u : DeclTree) (id : NodeId) (copied work : List (NodeId × NodeId)) :
    Prop where
  grown : t.Grown u
  walking : t.Walking id (copied.map (·.1)) (work.map (·.1))
  root : (id, t.size) ∈ copied ++ work
  copies : ((copied ++ work).map (·.2)).Perm (List.range' t.size (copied.length + work.length))
  size : u.size = t.size + (copied.length + work.length)
  data : ∀ p ∈ copied ++ work, u.dataOf p.2 = t.dataOf p.1
  related : ∀ p ∈ copied, ∃ cs ds, t.childrenOf p.1 = some cs ∧ u.childrenOf p.2 = some ds ∧
    List.Forall₂ (fun a b => (a, b) ∈ copied ++ work) cs ds
  bare : ∀ p ∈ work, u.childrenOf p.2 = some []

namespace Duplicating

theorem target_mem (h : t.Duplicating u id copied work) (hp : p ∈ copied ++ work) :
    t.size ≤ p.2 ∧ p.2 < u.size := by
  have hmem := h.copies.subset (List.mem_map_of_mem (f := (·.2)) hp)
  rw [List.mem_range'_1] at hmem
  rw [h.size]
  exact hmem

/-- The copy that is worked on is not the copy of another node. -/
theorem target_ne (h : t.Duplicating u id copied (p :: work)) {q : NodeId × NodeId}
    (hq : q ∈ copied ++ work) : q.2 ≠ p.2 := by
  have hnodup : ((copied ++ p :: work).map (·.2)).Nodup :=
    h.copies.nodup_iff.mpr (List.nodup_range' )
  have hfirst : (p.2 :: (copied ++ work).map (·.2)).Nodup := by
    rw [List.map_append, List.map_cons] at hnodup
    rw [List.map_append]
    exact (List.perm_middle.nodup_iff).mp hnodup
  intro heq
  exact (List.nodup_cons.mp hfirst).1 (heq ▸ List.mem_map_of_mem hq)

/-- A round moves a pair to those that are done and brings new ones, but takes none away. -/
theorem log_perm (copied work pairs : List (NodeId × NodeId)) (p : NodeId × NodeId) :
    (copied ++ [p] ++ (pairs.reverse ++ work)).Perm (copied ++ p :: work ++ pairs) := by
  have hwaiting : (pairs.reverse ++ work).Perm (work ++ pairs) :=
    List.perm_append_comm.trans ((List.reverse_perm pairs).append_left work)
  simpa using (hwaiting.cons p).append_left copied

/-- The round in which `pairs` are made of the children of one node. -/
theorem next {pairs : List (NodeId × NodeId)} (h : t.Duplicating u id copied (p :: work))
    (hcs : t.childrenOf p.1 = some (pairs.map (·.1))) (hgrown : t.Grown v)
    (hcopied : u.CopiedUnder v p.2 pairs) (hsources : ∀ q ∈ pairs, q.1 < t.size)
    (hwalking : t.Walking id ((copied ++ [p]).map (·.1)) ((pairs.reverse ++ work).map (·.1))) :
    t.Duplicating v id (copied ++ [p]) (pairs.reverse ++ work) := by
  have hlog := log_perm copied work pairs p
  have hmem : ∀ q, q ∈ copied ++ [p] ++ (pairs.reverse ++ work) ↔
      q ∈ copied ++ p :: work ∨ q ∈ pairs := fun q => hlog.mem_iff.trans List.mem_append
  have hlength : (copied ++ [p]).length + (pairs.reverse ++ work).length =
      copied.length + (p :: work).length + pairs.length := by
    simpa only [List.length_append] using hlog.length_eq
  have hother : ∀ q ∈ copied ++ work, v.childrenOf q.2 = u.childrenOf q.2 := fun q hq => by
    have hq' : q ∈ copied ++ p :: work := List.perm_middle.symm.subset (List.mem_cons_of_mem p hq)
    rw [hcopied.children q.2 (h.target_mem hq').2, if_neg (h.target_ne hq)]
  constructor
  case grown => exact hgrown
  case walking => exact hwalking
  case root => exact (hmem _).mpr (.inl h.root)
  case copies =>
    rw [hlength]
    refine (hlog.map _).trans ?_
    rw [List.map_append, hcopied.copies, h.size, ← List.range'_append_1]
    exact h.copies.append_right _
  case size => rw [hcopied.size, h.size, hlength, Nat.add_assoc]
  case data =>
    intro q hq
    rcases (hmem q).mp hq with hq | hq
    · rw [hcopied.kept q.2 (h.target_mem hq).2, h.data q hq]
    · rw [hcopied.data q hq, dataOf, h.grown.kept q.1 (hsources q hq)]
      rfl
  case related =>
    intro q hq
    rcases List.mem_append.mp hq with hq | hq
    · obtain ⟨cs, ds, hcs, hds, hrel⟩ := h.related q hq
      refine ⟨cs, ds, hcs, (hother q (List.mem_append_left _ hq)).trans hds, ?_⟩
      exact hrel.imp fun a b hab => (hmem (a, b)).mpr (.inl hab)
    · cases List.mem_singleton.mp hq
      have htarget := h.target_mem (List.mem_append_right copied List.mem_cons_self)
      refine ⟨_, pairs.map (·.2), hcs, ?_, ?_⟩
      · rw [hcopied.children p.2 htarget.2, if_pos rfl, h.bare p List.mem_cons_self]
        simp
      · rw [List.forall₂_map_left_iff, List.forall₂_map_right_iff, List.forall₂_same]
        exact fun q hq => (hmem q).mpr (.inr hq)
  case bare =>
    intro q hq
    rcases List.mem_append.mp hq with hq | hq
    · exact hcopied.bare q (List.mem_reverse.mp hq)
    · rw [hother q (List.mem_append_right _ hq)]
      exact h.bare q (List.mem_cons_of_mem _ hq)

/-- The children of one node are copied under its copy, and wait to be copied themselves. -/
theorem step (ht : t.Consistent) (hac : t.AcyclicBelow id) (hid : id < t.size)
    (h : t.Duplicating u id copied (p :: work)) :
    ∃ cs pairs v, u.children p.1 = .ok cs ∧ u.copyChildren p.2 cs = .ok (pairs, v) ∧
      t.Duplicating v id (copied ++ [p]) (pairs.reverse ++ work) := by
  have hp : p ∈ copied ++ p :: work := List.mem_append_right _ List.mem_cons_self
  have hsource : p.1 < t.size := by
    refine ht.closed.lt_size_of_leads hid (h.walking.reached p.1 ?_)
    exact List.mem_append_right _ List.mem_cons_self
  have htarget := h.target_mem hp
  have hcs := childrenOf_eq hsource
  generalize t.nodes[p.1].children = cs at hcs
  have hheld : ∀ c ∈ cs, c < t.size := fun c hc =>
    ht.closed p.1 c ((mem_of_childrenOf hcs).mp hc)
  have hchildren : u.childrenOf p.1 = some cs := by
    rw [childrenOf, h.grown.kept p.1 hsource]
    exact hcs
  obtain ⟨pairs, v, hv, rfl, hcopied⟩ := copyChildren_copies (t := u)
    (fun c hc => Nat.lt_of_lt_of_le (hheld c hc) h.grown.size_le) htarget.2
  refine ⟨_, pairs, v, children_eq_ok_iff.mpr hchildren, hv, ?_⟩
  refine h.next hcs (h.grown.copyChildren htarget.1 hv).1 hcopied
    (fun q hq => hheld q.1 (List.mem_map_of_mem hq)) ?_
  have hperm : ((pairs.reverse).map (·.1)).Perm (pairs.map (·.1)) := by
    rw [List.map_reverse]
    exact List.reverse_perm _
  simpa using h.walking.step ht hac hcs hperm

/-- The fuel pays for every node of the tree, so the copying ends. -/
theorem copyBelow_returns {fuel : Nat} (ht : t.Consistent) (hac : t.AcyclicBelow id)
    (hid : id < t.size) (h : t.Duplicating u id copied work)
    (hf : t.size < copied.length + fuel) :
    ∃ t' log, u.copyBelow fuel work = .ok t' ∧ t.Duplicating t' id log [] := by
  induction fuel generalizing u copied work with
  | zero =>
    have hle := h.walking.length_le ht hid
    simp only [List.length_map] at hle
    omega
  | succ fuel ih =>
    cases work with
    | nil => exact ⟨u, copied, rfl, h⟩
    | cons p work =>
      obtain ⟨cs, pairs, v, hcs, hv, hnext⟩ := h.step ht hac hid
      have hlen : t.size < (copied ++ [p]).length + fuel := by
        rw [List.length_append, List.length_singleton]
        omega
      obtain ⟨t', log, ht', hdone⟩ := ih hnext hlen
      refine ⟨t', log, ?_, hdone⟩
      unfold copyBelow
      rw [hcs]
      show (u.copyChildren p.2 cs >>= _) = _
      rw [hv]
      exact ht'

theorem start {n : Node} (hn : t.dataOf id = some n) :
    t.Duplicating (t.add n).2 id [] [(id, t.size)] where
  grown := (Grown.refl t).add n
  walking := .start t id
  root := List.mem_singleton_self _
  copies := .refl _
  size := size_add n
  data := List.forall_mem_singleton.mpr (by rw [hn, dataOf, getElem?_add, if_pos rfl]; rfl)
  related := nofun
  bare := List.forall_mem_singleton.mpr (by rw [childrenOf, getElem?_add, if_pos rfl]; rfl)

end Duplicating

/-- Every subtree without a cycle has a copy, whatever stands in the rest of the tree. -/
theorem Consistent.deepCopy_returns (ht : t.Consistent) (hac : t.AcyclicBelow id)
    (hid : id < t.size) :
    ∃ t' log, t.deepCopy id = .ok (t.size, t') ∧ t.Duplicating t' id log [] := by
  obtain ⟨n, hn⟩ := node_returns hid
  have hstart := Duplicating.start (node_eq_ok_iff.mp hn)
  obtain ⟨t', log, hcopied, hlog⟩ :=
    hstart.copyBelow_returns ht hac hid (Nat.lt_add_left _ (Nat.lt_succ_self t.size))
  refine ⟨t', log, ?_, hlog⟩
  unfold deepCopy
  rw [hn]
  show ((t.add n).2.copyBelow (t.size + 1) [(id, t.size)] >>= _) = _
  rw [hcopied]
  rfl

theorem Linked.deepCopy_returns (ht : t.Linked) (hid : id < t.size) :
    ∃ t', t.deepCopy id = .ok (t.size, t') := by
  obtain ⟨t', log, hcopy, -⟩ := ht.consistent.deepCopy_returns (ht.acyclicBelow id) hid
  exact ⟨t', hcopy⟩

end Duplicating

/-- `pairs` names the nodes of the subtree of `id` in pre-order, each with its copy: the copies are
the nodes that `t'` has and `t` has not, they are the subtree of `copy` in pre-order, and each says
what its source says and has the copies of its children as children, in their order. -/
structure Isomorphic (t t' : DeclTree) (id copy : NodeId) (pairs : List (NodeId × NodeId)) :
    Prop where
  subtree : t.descendants id = .ok (pairs.map (·.1))
  subtree_after : t'.descendants id = .ok (pairs.map (·.1))
  copies : t'.descendants copy = .ok (pairs.map (·.2))
  nodup : (pairs.map (·.1)).Nodup
  mem_iff : ∀ b : Nat, b ∈ pairs.map (·.1) ↔ t.Leads id b
  size : t'.size = t.size + pairs.length
  fresh : (pairs.map (·.2)).Perm (List.range' t.size pairs.length)
  disjoint : (pairs.map (·.1)).Disjoint (pairs.map (·.2))
  root : t'.parentOf copy = none
  kept : ∀ i : Nat, i < t.size → t'.nodes[i]? = t.nodes[i]?
  same : ∀ p ∈ pairs, ∃ n m, t.nodes[p.1]? = some n ∧ t'.nodes[p.2]? = some m ∧ m.node = n.node ∧
    List.Forall₂ (fun a b => (a, b) ∈ pairs) n.children m.children

theorem Consistent.descendants_returns (ht : t.Consistent) (hac : t.AcyclicBelow id)
    (hid : id < t.size) : ∃ ids, t.descendants id = .ok ids ∧ t.Walking id ids [] := by
  obtain ⟨ids, hids, hwalk⟩ :=
    (Walking.start t id).preorder_returns ht hac hid (Nat.lt_add_left _ (Nat.lt_succ_self t.size))
  exact ⟨ids, hids, hwalk⟩

/-- What is related to a list whose members are named once is the list of their partners. -/
theorem exists_pairs {log : List (NodeId × NodeId)} {ids copies : List NodeId}
    (hnodup : (log.map (·.1)).Nodup) (hall : ∀ p ∈ log, p.1 ∈ ids)
    (h : List.Forall₂ (fun a b => (a, b) ∈ log) ids copies) :
    ∃ pairs : List (NodeId × NodeId), pairs.map (·.1) = ids ∧ pairs.map (·.2) = copies ∧
      ∀ p, p ∈ pairs ↔ p ∈ log := by
  have hlen := h.length_eq
  refine ⟨ids.zip copies, List.map_fst_zip hlen.le, List.map_snd_zip hlen.ge, fun p => ?_⟩
  have hzip : ∀ p ∈ ids.zip copies, p ∈ log := fun p hp => List.forall₂_zip h hp
  refine ⟨hzip p, fun hp => ?_⟩
  have hsource := hall p hp
  rw [← List.map_fst_zip hlen.le] at hsource
  obtain ⟨q, hq, hqp⟩ := List.mem_map.mp hsource
  rwa [List.inj_on_of_nodup_map hnodup (hzip q hq) hp hqp] at hq

namespace Duplicating

variable {log : List (NodeId × NodeId)}

theorem related_at (h : t.Duplicating t' id log []) (hab : (a, b) ∈ log) :
    ∃ cs ds, t.childrenOf a = some cs ∧ t'.childrenOf b = some ds ∧
      List.Forall₂ (fun a b => (a, b) ∈ log) cs ds := by
  simpa using h.related (a, b) hab

/-- The old subtree is walked as before. -/
theorem descendants_after (ht : t.Consistent) (hid : id < t.size) (h : t.Duplicating t' id log [])
    {ids : List NodeId} (hids : t.descendants id = .ok ids) : t'.descendants id = .ok ids := by
  have hsame : ∀ a b, a = b ∧ t.Leads id a → ∃ cs ds, t.childrenOf a = some cs ∧
      t'.childrenOf b = some ds ∧ List.Forall₂ (fun a b => a = b ∧ t.Leads id a) cs ds := by
    rintro a b ⟨rfl, hlead⟩
    have ha := ht.closed.lt_size_of_leads hid hlead
    have hcs := childrenOf_eq ha
    refine ⟨_, _, hcs, ?_, List.forall₂_same.mpr fun c hc =>
      ⟨rfl, hlead.tail ((mem_of_childrenOf hcs).mp hc)⟩⟩
    rw [childrenOf, h.grown.kept a ha]
    exact hcs
  obtain ⟨ids', hids', hrel⟩ := preorder_forall₂ log.length hsame
    (.cons ⟨rfl, .refl⟩ .nil) hids
  have heq : ids = ids' := by
    rw [← List.forall₂_eq_eq_eq]
    exact hrel.imp fun a b hab => hab.1
  rw [descendants, h.size, heq, ← hids', List.length_nil]
  congr 1
  omega

theorem descendants_copy (h : t.Duplicating t' id log []) {ids : List NodeId}
    (hids : t.descendants id = .ok ids) :
    ∃ copies, t'.descendants t.size = .ok copies ∧
      List.Forall₂ (fun a b => (a, b) ∈ log) ids copies := by
  have hroot : (id, t.size) ∈ log := by simpa using h.root
  obtain ⟨copies, hcopies, hall⟩ := preorder_forall₂ log.length
    (fun a b => h.related_at) (.cons hroot .nil) hids
  refine ⟨copies, ?_, hall⟩
  rw [descendants, h.size, ← hcopies, List.length_nil]
  congr 1
  omega

end Duplicating

/-- Copying a subtree without a cycle in a tree whose links are consistent ends, and gives an
isomorphic subtree of fresh nodes. -/
theorem deepCopy_isomorphic (ht : t.Consistent) (hac : t.AcyclicBelow id) (hid : id < t.size) :
    ∃ copy t' pairs, t.deepCopy id = .ok (copy, t') ∧ t.Isomorphic t' id copy pairs := by
  obtain ⟨t', log, hcopy, hlog⟩ := ht.deepCopy_returns hac hid
  obtain ⟨ids, hids, hwalk⟩ := ht.descendants_returns hac hid
  obtain ⟨copies, hcopies, hall⟩ := hlog.descendants_copy hids
  have hnodup : (log.map (·.1)).Nodup := by simpa using hlog.walking.nodup
  have hlisted : ∀ p ∈ log, p.1 ∈ ids := fun p hp =>
    hwalk.mem_iff.mpr (hlog.walking.mem_iff.mp (List.mem_map_of_mem hp))
  obtain ⟨pairs, rfl, rfl, hpairs⟩ := exists_pairs hnodup hlisted hall
  have hids_nodup : (pairs.map (·.1)).Nodup := by simpa using hwalk.nodup
  have hperm : pairs.Perm log :=
    (List.perm_ext_iff_of_nodup hids_nodup.of_map hnodup.of_map).mpr hpairs
  have hlt : ∀ p ∈ pairs, p.1 < t.size := fun p hp => ht.closed.lt_size_of_leads hid
    (hwalk.mem_iff.mp (List.mem_map_of_mem hp))
  have hnew : ∀ p ∈ pairs, t.size ≤ p.2 := fun p hp =>
    (hlog.target_mem (List.mem_append_left _ ((hpairs p).mp hp))).1
  refine ⟨t.size, t', pairs, hcopy, hids, hlog.descendants_after ht hid hids, hcopies, hids_nodup,
    fun b => hwalk.mem_iff, ?_, ?_, ?_, (parentOf_deepCopy hcopy).2.2, hlog.grown.kept,
    fun p hp => ?_⟩
  · rw [hlog.size, hperm.length_eq]
    rfl
  · rw [hperm.length_eq]
    exact (hperm.map _).trans (by simpa using hlog.copies)
  · intro x hx hx'
    obtain ⟨p, hp, rfl⟩ := List.mem_map.mp hx
    obtain ⟨q, hq, hqp⟩ := List.mem_map.mp hx'
    exact absurd (hlt p hp) (Nat.not_lt.mpr (le_of_le_of_eq (hnew q hq) hqp))
  · have hp := (hpairs p).mp hp
    obtain ⟨cs, ds, hcs, hds, hrel⟩ := hlog.related_at (a := p.1) (b := p.2) hp
    obtain ⟨n, hn, rfl⟩ := Option.map_eq_some_iff.mp hcs
    obtain ⟨m, hm, rfl⟩ := Option.map_eq_some_iff.mp hds
    have hdata := hlog.data p (List.mem_append_left _ hp)
    rw [dataOf, dataOf, hn, hm] at hdata
    exact ⟨n, m, hn, hm, Option.some.inj hdata, hrel.imp fun a b => (hpairs (a, b)).mpr⟩

/-- Two classes that hold each other, and beside them a namespace with two classes of one member
each, the second of which was added first. -/
def besideCycle : DeclTree :=
  let namespaceData : Node := { kind := ⟨.namespaceDecl, false⟩ }
  let classData : Node := { kind := ⟨.classDecl, false⟩ }
  let memberData : Node := { kind := ⟨.declaration, false⟩ }
  ⟨[⟨classData, some 1, [1]⟩, ⟨classData, some 0, [0]⟩, ⟨namespaceData, none, [4, 3]⟩,
    ⟨classData, some 2, [6]⟩, ⟨classData, some 2, [5]⟩, ⟨memberData, some 4, []⟩,
    ⟨memberData, some 3, []⟩]⟩

/-- The copies are numbered neither in pre-order nor level by level. -/
theorem besideCycle_copied : besideCycle.Consistent ∧ besideCycle.AcyclicBelow 2 ∧
    2 < besideCycle.size ∧ ∃ t' pairs, besideCycle.deepCopy 2 = .ok (7, t') ∧
      besideCycle.Isomorphic t' 2 7 pairs ∧ pairs.map (·.1) = [2, 4, 5, 3, 6] ∧
      pairs.map (·.2) = [7, 8, 11, 9, 10] := by
  have hlinks : besideCycle.Consistent :=
    consistent_of_listed (by decide) (by decide) (by decide)
  have hac : besideCycle.AcyclicBelow 2 := acyclicBelow_of_numbered (by decide)
  obtain ⟨copy, t', pairs, hcopy, hiso⟩ := deepCopy_isomorphic hlinks hac (by decide)
  obtain ⟨u, hu, hcopies⟩ : ∃ u, besideCycle.deepCopy 2 = .ok (7, u) ∧
      u.descendants 7 = .ok [7, 8, 11, 9, 10] := ⟨_, rfl, rfl⟩
  cases hu.symm.trans hcopy
  have hsources : besideCycle.descendants 2 = .ok [2, 4, 5, 3, 6] := rfl
  exact ⟨hlinks, hac, by decide, t', pairs, hu, hiso,
    (Except.ok.inj (hsources.symm.trans hiso.subtree)).symm,
    (Except.ok.inj (hcopies.symm.trans hiso.copies)).symm⟩

end DeclTree

end BindingTypes

import BindingTypes.Proofs.Template.Slots

namespace BindingTypes

namespace DeclTree

open Relation

/-- The declarations that are expanded together with what stands below them. -/
def containers : List DeclKind :=
  [.classDecl, .namespaceDecl, .enumeration, .enumItem, .extension, .insertion]

/-- `a` is a container that has not failed, and `b` one of its children. -/
def Opens (t : DeclTree) (a b : NodeId) : Prop :=
  ∃ l, t.nodes[a]? = some l ∧ l.node.failed = false ∧ l.node.kind.kind ∈ containers ∧
    b ∈ l.children

/-- `a` is, besides, no template. -/
def OpensPlainly (t : DeclTree) (a b : NodeId) : Prop :=
  t.Opens a b ∧ ∀ k, t.kindAt a = some k → k.isTemplate = false

def FailedAt (t : DeclTree) (id : NodeId) : Prop :=
  ∃ l, t.nodes[id]? = some l ∧ l.node.failed = true

/-- `b` is the outermost template on the way down to it from `a`, and nothing has failed there. -/
def Unwraps (t : DeclTree) (a b : NodeId) : Prop :=
  ReflTransGen t.OpensPlainly a b ∧ ¬ t.FailedAt b ∧ ∃ k, t.kindAt b = some ⟨k, true⟩

variable {t t' : DeclTree} {a b f id : Nat} {l : LinkedNode} {vs : List Visit} {v : Visit}

theorem isContainer_iff {k : DeclKind} : k.isContainer = true ↔ k ∈ containers := by
  cases k <;> decide

theorem Opens.holds (h : t.Opens a b) : t.Holds a b := by
  obtain ⟨l, hl, -, -, hb⟩ := h
  exact ⟨l, hl, hb⟩

theorem Opens.not_failedAt (h : t.Opens a b) : ¬ t.FailedAt a := by
  rintro ⟨l', hl', hfailed⟩
  obtain ⟨l, hl, hfine, -⟩ := h
  cases hl.symm.trans hl'
  rw [hfine] at hfailed
  cases hfailed

/-- What stands between two declarations of one line of containers is on that line. -/
theorem Linked.opens_from (ht : t.Linked) (h : ReflTransGen t.Opens a b) (haf : t.Leads a f)
    (hfb : t.Leads f b) : ReflTransGen t.Opens f b := by
  induction h with
  | refl =>
    rcases ReflTransGen.cases_head hfb with rfl | ⟨c, hfc, hca⟩
    · exact .refl
    · exact absurd (hca.trans haf) (ht.acyclic f c hfc)
  | tail _ hcb ih =>
    rcases ReflTransGen.cases_tail hfb with rfl | ⟨d, hfd, hdb⟩
    · exact .refl
    · rw [ht.parent_unique hdb hcb.holds] at hfd
      exact (ih hfd).tail hcb

section Visits

/-- What a visit says of the declaration that is visited: whether a template stands above it is
known where the walk started below none. -/
structure Visited (t : DeclTree) (ids : List (NodeId × Bool)) (v : Visit) (l : LinkedNode) :
    Prop where
  node : t.nodes[v.id]? = some l
  fine : l.node.failed = false
  kind : l.node.kind = ⟨v.kind, v.isTemplate⟩
  reached : ∃ p ∈ ids, ReflTransGen t.Opens p.1 v.id
  unwraps : v.unwraps = true → v.isTemplate = true ∧
    ∃ p ∈ ids, p.2 = false ∧ ReflTransGen t.OpensPlainly p.1 v.id

theorem Visited.not_failedAt {ids : List (NodeId × Bool)} (h : t.Visited ids v l) :
    ¬ t.FailedAt v.id := by
  rintro ⟨l', hl', hfailed⟩
  cases h.node.symm.trans hl'
  rw [h.fine] at hfailed
  cases hfailed

/-- The children of a container, each with whether a template stands above it. -/
def opened (p : NodeId × Bool) (l : LinkedNode) : List (NodeId × Bool) :=
  if l.node.kind.kind.isContainer then l.children.map (·, l.node.kind.isTemplate || p.2) else []

theorem mem_opened {p q : NodeId × Bool} : q ∈ opened p l ↔
    l.node.kind.kind ∈ containers ∧ q.1 ∈ l.children ∧ q.2 = (l.node.kind.isTemplate || p.2) := by
  unfold opened
  by_cases hk : l.node.kind.kind.isContainer = true
  · rw [if_pos hk, List.mem_map]
    constructor
    · rintro ⟨b, hb, rfl⟩
      exact ⟨isContainer_iff.mp hk, hb, rfl⟩
    · rintro ⟨-, hb, hq⟩
      exact ⟨q.1, hb, Prod.ext rfl hq.symm⟩
  · rw [if_neg hk]
    exact ⟨nofun, fun h => absurd (isContainer_iff.mpr h.1) hk⟩

theorem opens_of_mem {p q : NodeId × Bool} (hl : t.nodes[p.1]? = some l)
    (hfine : l.node.failed = false) (hq : q ∈ opened p l) : t.Opens p.1 q.1 :=
  ⟨l, hl, hfine, (mem_opened.mp hq).1, (mem_opened.mp hq).2.1⟩

theorem kindAt_of_node (hl : t.nodes[id]? = some l) : t.kindAt id = some l.node.kind := by
  rw [kindAt, hl]
  rfl

/-- Where no template stands above a child, its parent is none and none stands above that. -/
theorem plainly_of_mem {p q : NodeId × Bool} (hl : t.nodes[p.1]? = some l)
    (hfine : l.node.failed = false) (hq : q ∈ opened p l) (hplain : q.2 = false) :
    p.2 = false ∧ t.OpensPlainly p.1 q.1 := by
  have hflags := (mem_opened.mp hq).2.2
  rw [hplain] at hflags
  obtain ⟨htemplate, habove⟩ := Bool.or_eq_false_iff.mp hflags.symm
  refine ⟨habove, opens_of_mem hl hfine hq, fun k hk => ?_⟩
  rw [kindAt_of_node hl] at hk
  cases hk
  exact htemplate

/-- All that is visited is reached through containers, and unwrapped only below no template. -/
theorem visited_of_visitsFrom {fuel : Nat} {ids : List (NodeId × Bool)}
    (h : t.visitsFrom fuel ids = .ok vs) : ∀ v ∈ vs, ∃ l, t.Visited ids v l := by
  induction fuel generalizing ids vs with
  | zero =>
    cases ids with
    | nil =>
      cases h
      exact nofun
    | cons p ids => cases h
  | succ fuel ih =>
    cases ids with
    | nil =>
      cases h
      exact nofun
    | cons p ids =>
      obtain ⟨l, hl, ⟨-, hrest⟩ | ⟨hfine, vs', hrest, rfl⟩⟩ := visitsFrom_step h
      · intro v hv
        obtain ⟨l', hv⟩ := ih hrest v hv
        refine ⟨l', hv.node, hv.fine, hv.kind, ?_, fun hu => ⟨(hv.unwraps hu).1, ?_⟩⟩
        · obtain ⟨q, hq, hreach⟩ := hv.reached
          exact ⟨q, List.mem_cons_of_mem _ hq, hreach⟩
        · obtain ⟨-, q, hq, hplain⟩ := hv.unwraps hu
          exact ⟨q, List.mem_cons_of_mem _ hq, hplain⟩
      · refine List.forall_mem_cons.mpr ⟨⟨l, hl, hfine, rfl, ⟨p, List.mem_cons_self, .refl⟩,
          fun hu => ?_⟩, fun v hv => ?_⟩
        · obtain ⟨htemplate, habove⟩ := Bool.and_eq_true_iff.mp hu
          exact ⟨htemplate, p, List.mem_cons_self, by simpa using habove, .refl⟩
        · obtain ⟨l', hv⟩ := ih hrest v hv
          refine ⟨l', hv.node, hv.fine, hv.kind, ?_, fun hu => ⟨(hv.unwraps hu).1, ?_⟩⟩
          · obtain ⟨q, hq, hreach⟩ := hv.reached
            rcases List.mem_append.mp hq with hq | hq
            · exact ⟨p, List.mem_cons_self, .head (opens_of_mem hl hfine hq) hreach⟩
            · exact ⟨q, List.mem_cons_of_mem _ hq, hreach⟩
          · obtain ⟨-, q, hq, hnone, hreach⟩ := hv.unwraps hu
            rcases List.mem_append.mp hq with hq | hq
            · obtain ⟨hp, hstep⟩ := plainly_of_mem hl hfine hq hnone
              exact ⟨p, List.mem_cons_self, hp, .head hstep hreach⟩
            · exact ⟨q, List.mem_cons_of_mem _ hq, hnone, hreach⟩

/-- A template below no other one is visited and unwrapped. -/
theorem unwraps_of_visitsFrom {fuel : Nat} {ids : List (NodeId × Bool)}
    (h : t.visitsFrom fuel ids = .ok vs) {p : NodeId × Bool} (hp : p ∈ ids) (hnone : p.2 = false)
    (hu : t.Unwraps p.1 b) : ∃ v ∈ vs, v.id = b ∧ v.unwraps = true := by
  induction fuel generalizing ids vs p with
  | zero =>
    cases ids with
    | nil => cases hp
    | cons q ids => cases h
  | succ fuel ih =>
    cases ids with
    | nil => cases hp
    | cons q ids =>
      obtain ⟨l, hl, ⟨hfailed, hrest⟩ | ⟨hfine, vs', hrest, rfl⟩⟩ := visitsFrom_step h
      · rcases List.mem_cons.mp hp with rfl | hp
        · obtain ⟨hreach, hfine, -⟩ := hu
          rcases ReflTransGen.cases_head hreach with rfl | ⟨c, hstep, -⟩
          · exact absurd ⟨l, hl, hfailed⟩ hfine
          · exact absurd ⟨l, hl, hfailed⟩ hstep.1.not_failedAt
        · exact ih hrest hp hnone hu
      · rcases List.mem_cons.mp hp with rfl | hp
        · obtain ⟨hreach, hfine', k, hk⟩ := hu
          rcases ReflTransGen.cases_head hreach with
            rfl | ⟨c, ⟨⟨l', hl', -, hcontainer, hc⟩, hplain⟩, hcb⟩
          · rw [kindAt_of_node hl] at hk
            have htemplate : l.node.kind.isTemplate = true := by rw [Option.some.inj hk]
            exact ⟨_, List.mem_cons_self, rfl, by simp [htemplate, hnone]⟩
          · cases hl.symm.trans hl'
            have hflags := hplain _ (kindAt_of_node hl)
            have hmem : (c, false) ∈ opened p l :=
              mem_opened.mpr ⟨hcontainer, hc, by rw [hflags, hnone]; rfl⟩
            obtain ⟨v, hv, hunwraps⟩ :=
              ih hrest (List.mem_append_left ids hmem) rfl ⟨hcb, hfine', k, hk⟩
            exact ⟨v, List.mem_cons_of_mem _ hv, hunwraps⟩
        · obtain ⟨v, hv, hunwraps⟩ := ih hrest (List.mem_append_right _ hp) hnone hu
          exact ⟨v, List.mem_cons_of_mem _ hv, hunwraps⟩

theorem reached_of_visits (h : t.visits id = .ok vs) (hv : v ∈ vs) :
    ReflTransGen t.Opens id v.id ∧ ¬ t.FailedAt v.id := by
  obtain ⟨l, hvisited⟩ := visited_of_visitsFrom h v hv
  obtain ⟨p, hp, hreach⟩ := hvisited.reached
  rw [List.mem_singleton.mp hp] at hreach
  exact ⟨hreach, hvisited.not_failedAt⟩

/-- In a tree whose links agree, a visit unwraps a declaration exactly where it is the outermost
template on the way down to it. -/
theorem Linked.unwraps_iff (ht : t.Linked) (h : t.visits id = .ok vs) (hv : v ∈ vs) :
    v.unwraps = true ↔ t.Unwraps id v.id := by
  obtain ⟨l, hvisited⟩ := visited_of_visitsFrom h v hv
  constructor
  · intro hu
    obtain ⟨htemplate, p, hp, -, hreach⟩ := hvisited.unwraps hu
    rw [List.mem_singleton.mp hp] at hreach
    refine ⟨hreach, hvisited.not_failedAt, v.kind, ?_⟩
    rw [kindAt_of_node hvisited.node, hvisited.kind, htemplate]
  · intro hu
    obtain ⟨w, hw, hid, hunwraps⟩ := unwraps_of_visitsFrom h (List.mem_singleton.mpr rfl) rfl hu
    rwa [← List.inj_on_of_nodup_map (ht.nodup_visits h) hw hv hid]

end Visits

end DeclTree

namespace Instantiation

open DeclTree

variable {t t' : DeclTree} {id : Nat} {names : Names} {vs : List Visit} {v : Visit} {n n' : Node}
variable {slots : Slots}

theorem kind_visitNode (h : visitNode names v n = .ok (n', slots)) :
    n'.kind = if v.unwraps then ⟨v.kind, false⟩ else n.kind := by
  obtain ⟨name, shownName, named, rfl, -⟩ := visitNode_cases h
  rfl

/-- The visits change the kinds of what they unwrap, and no other. -/
theorem kindAt_visitAll (hn : (vs.map (·.id)).Nodup) (h : visitAll names vs t = .ok (t', slots)) :
    (∀ v ∈ vs, v.unwraps = true → t'.kindAt v.id = some ⟨v.kind, false⟩) ∧
      ∀ i, (∀ v ∈ vs, v.id = i → v.unwraps = false) → t'.kindAt i = t.kindAt i := by
  induction vs generalizing t t' slots with
  | nil =>
    cases h
    exact ⟨nofun, fun _ _ => rfl⟩
  | cons v vs ih =>
    obtain ⟨hfresh, hn⟩ := List.nodup_cons.mp hn
    obtain ⟨n, n', own, rest, hnode, hvisit, hu, -⟩ := visitAll_cons h
    obtain ⟨hunwrapped, hkept⟩ := ih hn hu
    obtain ⟨l, hl, hln⟩ := Option.map_eq_some_iff.mp (node_eq_ok_iff.mp hnode)
    have hkind := kind_visitNode hvisit
    have hself : (t.modifyNode v.id fun _ => n').kindAt v.id = some n'.kind := by
      rw [kindAt_modifyNode, if_pos rfl, hl]
      rfl
    have hlater : t'.kindAt v.id = some n'.kind := by
      rw [hkept v.id fun w hw hid => absurd (List.mem_map.mpr ⟨w, hw, hid⟩) hfresh, hself]
    refine ⟨List.forall_mem_cons.mpr ⟨fun hu => ?_, hunwrapped⟩, fun i hi => ?_⟩
    · rw [hlater, hkind, if_pos hu]
    · obtain ⟨hfirst, hi⟩ := List.forall_mem_cons.mp hi
      by_cases hid : v.id = i
      · subst hid
        rw [hlater, hkind, if_neg (by simp [hfirst rfl]), kindAt_of_node hl, hln]
      · rw [hkept i hi, kindAt_modifyNode, if_neg hid]

/-- An expansion that goes through adds no node and takes none away, and leaves all links as they
are. What is not below the expanded node is as it was, and so is what has failed below it, with all
that stands below that. A template becomes a plain declaration where it has not failed and stands
below containers only that have not failed and are no templates; all other kinds stay. -/
theorem expansion_keeps_shape {e : Instantiation} {g : ScopeGraph} (ht : t.Linked)
    (h : e.expandInPlace t g id = .ok (.ok (), t')) :
    t'.size = t.size ∧
    (∀ i : Nat, t'.nodes[i]?.map (·.parent) = t.nodes[i]?.map (·.parent) ∧
      t'.nodes[i]?.map (·.children) = t.nodes[i]?.map (·.children)) ∧
    (∀ i : Nat, ¬ t.Leads id i → t'.nodes[i]? = t.nodes[i]?) ∧
    (∀ f i : Nat, t.Leads id f → f ≠ id → t.FailedAt f → t.Leads f i →
      t'.nodes[i]? = t.nodes[i]?) ∧
    (∀ i k, t.kindAt i = some ⟨k, true⟩ → (t'.kindAt i = some ⟨k, false⟩ ↔ t.Unwraps id i)) ∧
    ∀ i, ¬ t.Unwraps id i → t'.kindAt i = t.kindAt i := by
  obtain ⟨d, template, hd, htemplate⟩ := expandInPlace_reads h
  rcases expandInPlace_cases hd htemplate h with ⟨-, -, herr⟩ | ⟨-, -, hx⟩
  · cases herr
  obtain ⟨vs, u, slots, hvs, hu, hr, hfilled⟩ :=
    hx.refills (P := fun i => i = id ∨ (Relation.ReflTransGen t.Opens id i ∧ ¬ t.FailedAt i))
      (Or.inl rfl) fun vs hvs v hv => Or.inr (reached_of_visits hvs hv)
  have hwhole := hr.trans hfilled.toRewrites
  obtain ⟨hunwrapped, hkept⟩ := kindAt_visitAll (ht.nodup_visits hvs) hu
  have hkeeps : ∀ i, ¬ t.Unwraps id i → t'.kindAt i = t.kindAt i := by
    intro i hi
    rw [hfilled.kinds, hkept i fun v hv hid => ?_]
    rw [Bool.eq_false_iff, ne_eq, ht.unwraps_iff hvs hv, hid]
    exact hi
  refine ⟨hwhole.size_eq, fun i => ⟨hwhole.parents i, hwhole.links i⟩, fun i hi => ?_,
    fun f i hf hne hfailed hfi => ?_, fun i k hk => ⟨fun hplain => ?_, fun hi => ?_⟩, hkeeps⟩
  · refine hwhole.others i fun hreached => hi ?_
    rcases hreached with rfl | ⟨hreach, -⟩
    · exact .refl
    · exact Relation.ReflTransGen.mono (fun _ _ => Opens.holds) _ _ hreach
  · refine hwhole.others i fun hreached => ?_
    rcases hreached with rfl | ⟨hreach, hfine⟩
    · rcases Relation.ReflTransGen.cases_head hfi with rfl | ⟨c, hfc, hci⟩
      · exact hne rfl
      · exact ht.acyclic f c hfc (hci.trans hf)
    · rcases Relation.ReflTransGen.cases_head (ht.opens_from hreach hf hfi) with rfl | ⟨c, hfc, -⟩
      · exact hfine hfailed
      · exact hfc.not_failedAt hfailed
  · by_contra hi
    rw [hkeeps i hi, hk] at hplain
    cases hplain
  · obtain ⟨v, hv, rfl, hunwraps⟩ :=
      unwraps_of_visitsFrom hvs (List.mem_singleton.mpr rfl) rfl hi
    obtain ⟨l, hvisit⟩ := visited_of_visitsFrom hvs v hv
    have hkind := (kindAt_of_node hvisit.node).symm.trans hk
    rw [hvisit.kind, Option.some.injEq, NodeKind.mk.injEq] at hkind
    rw [hfilled.kinds, hunwrapped v hv hunwraps, hkind.1]

/-- A template with a member, a member template, which has a constructor template, and a failed
namespace, in which a template stands. -/
def nestedTree : DeclTree :=
  ⟨[⟨{ kind := ⟨.classDecl, true⟩, name := some "Outer".toList }, none, [1, 2, 4]⟩,
    ⟨{ kind := ⟨.declaration, false⟩, name := some "size".toList, type := some "int".toList },
      some 0, []⟩,
    ⟨{ kind := ⟨.classDecl, true⟩, name := some "Inner".toList }, some 0, [3]⟩,
    ⟨{ kind := ⟨.constructor, true⟩, name := some "Inner".toList }, some 2, []⟩,
    ⟨{ kind := ⟨.namespaceDecl, false⟩, failed := true }, some 0, [5]⟩,
    ⟨{ kind := ⟨.classDecl, true⟩, name := some "Lost".toList }, some 4, []⟩]⟩

theorem linked_nestedTree : nestedTree.Linked :=
  linked_of_numbered (by decide) (by decide) (by decide)

/-- Only the outermost template is unwrapped. -/
theorem nestedTree_shape : ∃ t', nestedTree.Linked ∧
    Instantiation.expandInPlace ⟨"Whole".toList, [], []⟩ nestedTree (.new 9) 0 = .ok (.ok (), t') ∧
    t'.size = 6 ∧ t'.kindAt 0 = some ⟨.classDecl, false⟩ ∧ t'.kindAt 2 = some ⟨.classDecl, true⟩ ∧
    t'.nodes[5]? = nestedTree.nodes[5]? := by
  have hrun : (Instantiation.expandInPlace ⟨"Whole".toList, [], []⟩ nestedTree (.new 9) 0).map
      (·.1) = .ok (.ok ()) := by decide +kernel
  obtain ⟨⟨r, t'⟩, hr, rfl⟩ := map_eq_ok hrun
  obtain ⟨hsize, -, -, hfailed, hkinds, hkept⟩ := expansion_keeps_shape linked_nestedTree hr
  have hroot : nestedTree.Unwraps 0 0 := by
    refine ⟨.refl, ?_, .classDecl, rfl⟩
    rintro ⟨l, hl, hfailed⟩
    cases hl
    cases hfailed
  have hinner : ¬ nestedTree.Unwraps 0 2 := by
    rintro ⟨hreach, -⟩
    rcases Relation.ReflTransGen.cases_head hreach with h | ⟨c, ⟨-, hplain⟩, -⟩
    · cases h
    · cases hplain _ rfl
  have h04 : nestedTree.Holds 0 4 := ⟨_, rfl, by decide⟩
  have h45 : nestedTree.Holds 4 5 := ⟨_, rfl, by decide⟩
  exact ⟨t', linked_nestedTree, hr, hsize, (hkinds 0 .classDecl rfl).mpr hroot, hkept 2 hinner,
    hfailed 4 5 (.single h04) (by decide) ⟨_, rfl, rfl⟩ (.single h45)⟩

end Instantiation

end BindingTypes

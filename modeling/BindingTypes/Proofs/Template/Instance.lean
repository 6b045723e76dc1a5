import BindingTypes.Proofs.DeclTree.Copying
import BindingTypes.Proofs.Template.Frame

namespace BindingTypes

namespace DeclTree

variable {P : NodeId → Prop} {t t' t'' : DeclTree} {id : Nat}

/-- `id` was added to `t` without a parent, and so was everything below it. -/
structure AddedApart (t t' : DeclTree) (id : Nat) : Prop where
  added : t.size ≤ id ∧ id < t'.size
  parent : t'.parentOf id = none
  below : ∀ i : Nat, t'.Leads id i → t.size ≤ i ∧ i < t'.size

theorem Rewrites.parentOf (h : t.Rewrites P t') (i : Nat) : t'.parentOf i = t.parentOf i := by
  have hbind : ∀ o : Option LinkedNode, o.bind (·.parent) = (o.map (·.parent)).join := by
    rintro (_ | n) <;> rfl
  rw [DeclTree.parentOf, DeclTree.parentOf, hbind, hbind, h.parents i]

theorem Grown.addedApart (h : t.Grown t') (hid : t.size ≤ id ∧ id < t'.size)
    (hparent : t'.parentOf id = none) : t.AddedApart t' id := by
  refine ⟨hid, hparent, fun i hi => ?_⟩
  induction hi with
  | refl => exact hid
  | tail _ hbc ih => exact h.above _ _ hbc ih.1

/-- The root of a copy stays apart while the copy is rewritten. -/
theorem addedApart_of_deepCopy {copy : Nat} (hcopy : t.deepCopy id = .ok (copy, t'))
    (hr : t'.Rewrites (fun i => t.size ≤ i) t'') :
    copy = t.size ∧ t.Grown t'' ∧ t.AddedApart t'' copy := by
  have hgrown := (Grown.of_deepCopy hcopy).1.rewrites (fun i hi => hi) hr
  obtain ⟨rfl, hlt, hparent⟩ := parentOf_deepCopy hcopy
  rw [← hr.size_eq] at hlt
  exact ⟨rfl, hgrown, hgrown.addedApart ⟨Nat.le_refl _, hlt⟩ ((hr.parentOf _).trans hparent)⟩

end DeclTree

namespace TemplateEngine

variable {e e' : TemplateEngine} {t t' : DeclTree} {g : ScopeGraph} {name shownName : Text}
variable {args : List TemplateArgument} {location : Location}

theorem lt_size_of_checkTemplate {node id : Nat} (h : checkTemplate t name node = .ok (.ok id)) :
    id < t.size := by
  unfold checkTemplate at h
  obtain ⟨n, hn, h⟩ := bind_eq_ok h
  obtain ⟨linked, hl, -⟩ := map_eq_ok hn
  dsimp only at h
  split at h
  · cases h
    exact DeclTree.lt_size_of_get hl
  · cases h

/-- A definition that is found is a node of the tree. -/
theorem lt_size_of_locate {node : Nat} {how : Match}
    (h : e.locate t g name args location = .ok (.ok (node, how), e')) : node < t.size := by
  obtain ⟨id, hc⟩ := (locate_cases h).2 node how rfl
  exact lt_size_of_checkTemplate hc

/-- What an instantiation leaves: all that was there as it was, and an instance or a failed copy
apart from it. -/
structure LeavesDeclarations (e : TemplateEngine) (t : DeclTree) (g : ScopeGraph) (name : Text)
    (args : List TemplateArgument) (location : Location) (r : Except TemplateError NodeId)
    (t' : DeclTree) : Prop where
  kept : ∀ i : Nat, i < t.size → t'.nodes[i]? = t.nodes[i]?
  made : ∀ id, r = .ok id → t.AddedApart t' id
  /-- Without a definition there is no copy; else the copy is marked as failed. -/
  failed : ∀ err, r = .error err →
    (t' = t ∧ ∃ e', e.locate t g name args location = .ok (.error err, e')) ∨
    ((∃ found e', e.locate t g name args location = .ok (.ok found, e')) ∧
      t.AddedApart t' t.size ∧
      ∃ n, t'.nodes[t.size]? = some n ∧ n.node.failed = true)

theorem leavesDeclarations {r : Except TemplateError NodeId}
    (h : e.instantiate t g name args shownName location = .ok (r, e', t')) :
    e.LeavesDeclarations t g name args location r t' := by
  rcases instantiate_cases h with ⟨err, hfound, rfl, rfl⟩ |
    ⟨node, how, copy, copied, hfound, hcopy, hmade⟩
  · refine ⟨fun i _ => rfl, fun id hid => ?_, fun err' herr => ?_⟩
    · cases hid
    · cases herr
      exact Or.inl ⟨rfl, e', hfound⟩
  · have hnew := (DeclTree.Grown.of_deepCopy hcopy).2
    rcases hmade with ⟨err, rfl, rfl⟩ | ⟨arguments, reduced, expanded, -, hx, rfl, rfl⟩
    · obtain ⟨rfl, hgrown, hapart⟩ := DeclTree.addedApart_of_deepCopy hcopy
        (DeclTree.Rewrites.modifyNode hnew fun n => { n with failed := true })
      refine ⟨hgrown.kept, fun id hid => ?_, fun err' _ =>
        Or.inr ⟨⟨_, _, hfound⟩, hapart, ?_⟩⟩
      · cases hid
      · have hlt := (DeclTree.parentOf_deepCopy hcopy).2.1
        refine ⟨{ copied.nodes[t.size] with
          node := { copied.nodes[t.size].node with failed := true } }, ?_, rfl⟩
        rw [DeclTree.modifyNode, DeclTree.getElem?_modifyLinks, if_pos rfl,
          List.getElem?_eq_getElem hlt]
        rfl
    · have hr := (Instantiation.rewrites_expand (P := fun i => t.size ≤ i) hnew
        (fun a b ha hab => ((DeclTree.Grown.of_deepCopy hcopy).1.above a b hab ha).1) hx).trans
        (DeclTree.Rewrites.modifyNode hnew fun n => { n with shownName := some shownName })
      obtain ⟨-, hgrown, hapart⟩ := DeclTree.addedApart_of_deepCopy hcopy hr
      refine ⟨hgrown.kept, fun id hid => ?_, fun err herr => ?_⟩
      · cases hid
        exact hapart
      · cases herr

/-- In a tree whose links agree each definition that is found has a copy. Whatever then comes of the
instantiation, no declaration that was there changes or is moved; an instance stands apart from
them, and so does a copy that could not be expanded, which is marked as failed. -/
theorem instance_leaves_declarations (ht : t.Linked) :
    (∀ node how e', e.locate t g name args location = .ok (.ok (node, how), e') →
      ∃ copied, t.deepCopy node = .ok (t.size, copied)) ∧
    ∀ shownName r e' t', e.instantiate t g name args shownName location = .ok (r, e', t') →
      e.LeavesDeclarations t g name args location r t' :=
  ⟨fun _ _ _ h => ht.deepCopy_returns (lt_size_of_locate h), fun _ _ _ _ => leavesDeclarations⟩

/-- A class template with a member of the type of its parameter. -/
def holderTree : DeclTree :=
  ⟨[⟨{ kind := ⟨.classDecl, true⟩, name := some "Holder".toList,
        templateParameters := [{ type := "typename".toList, name := some "T".toList }] },
      none, [1]⟩,
    ⟨{ kind := ⟨.declaration, false⟩, name := some "held".toList, type := some "p.T".toList },
      some 0, []⟩]⟩

theorem linked_holderTree : holderTree.Linked :=
  DeclTree.linked_of_numbered (by decide) (by decide) (by decide)

/-- One argument makes an instance of two nodes; with two arguments the copy fails. -/
theorem holder_instance_leaves_declarations :
    holderTree.Linked ∧
    (∃ e' t', (({} : TemplateEngine).addPrimary "Holder".toList 0).instantiate holderTree (.new 9)
        "Holder".toList [.type "int".toList] "IntHolder".toList .synthetic = .ok (.ok 2, e', t') ∧
      t'.size = 4 ∧ holderTree.AddedApart t' 2) ∧
    ∃ err e' t', (({} : TemplateEngine).addPrimary "Holder".toList 0).instantiate holderTree
        (.new 9) "Holder".toList [.type "int".toList, .type "int".toList] "IntHolder".toList
        .synthetic = .ok (.error err, e', t') ∧
      (({} : TemplateEngine).addPrimary "Holder".toList 0).LeavesDeclarations holderTree (.new 9)
        "Holder".toList [.type "int".toList, .type "int".toList] .synthetic (.error err) t' := by
  refine ⟨linked_holderTree, ?_, ?_⟩
  · have hrun : ((({} : TemplateEngine).addPrimary "Holder".toList 0).instantiate holderTree
        (.new 9) "Holder".toList [.type "int".toList] "IntHolder".toList .synthetic).map
          (fun r => (r.1, r.2.2.size)) = .ok (.ok 2, 4) := by decide +kernel
    obtain ⟨⟨r, e', t'⟩, hr, hrun⟩ := map_eq_ok hrun
    obtain ⟨rfl, hsize⟩ := Prod.ext_iff.mp hrun
    exact ⟨e', t', hr, hsize,
      ((instance_leaves_declarations linked_holderTree).2 _ _ _ _ hr).made 2 rfl⟩
  · have hrun : ((({} : TemplateEngine).addPrimary "Holder".toList 0).instantiate holderTree
        (.new 9) "Holder".toList [.type "int".toList, .type "int".toList] "IntHolder".toList
          .synthetic).map (·.1) = .ok (.error (.arityMismatch "Holder".toList 1 2)) := by
      decide +kernel
    obtain ⟨⟨r, e', t'⟩, hr, rfl⟩ := map_eq_ok hrun
    exact ⟨_, e', t', hr, (instance_leaves_declarations linked_holderTree).2 _ _ _ _ hr⟩

end TemplateEngine

end BindingTypes

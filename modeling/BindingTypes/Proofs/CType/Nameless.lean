import BindingTypes.RuntimeName
import BindingTypes.Proofs.CType.Chain
import BindingTypes.Proofs.CType.Marks

namespace BindingTypes.CType

/-- A constructor that names no type. What stands in its parentheses, a number, a word or a
qualifier, has neither brackets nor dots. -/
def Constructor.IsNameless : Constructor → Prop
  | .pointer | .reference => True
  | .array text | .qualifier text => Unbracketed text
  | .function _ | .memberPointer _ => False

/-- The outline of a type behind further constructors. -/
def Outline.behind (cs : List Constructor) (o : Outline) : Outline :=
  ⟨(chain cs o.whole.text).measured, o.size + cs.length, o.base⟩

variable {a b : Char} {t u w x : Text} {c : Constructor} {cs : List Constructor}
  {r : Resolver}

theorem chain_cons (c : Constructor) (cs : List Constructor) (t : CType) :
    chain (c :: cs) t = c.text ++ chain cs t := by
  simp [chain]

theorem chain_append_right (cs : List Constructor) (t u : CType) :
    chain cs (t ++ u) = chain cs t ++ u := by
  simp [chain]

section Occurrences

theorem has_cons_of_ne (h : b ≠ a) (needle u : Text) :
    Text.has (b :: u) (a :: needle) = Text.has u (a :: needle) := by
  have hafter : Text.after? (b :: u) (a :: needle) = none := by simp [Text.after?, Ne.symm h]
  rw [Text.has, Text.cut?, hafter, Option.isSome_map, Text.has]

theorem has_cons_of_head? (h : u.head? ≠ some '(') :
    Text.has (b :: u) [a, '('] = Text.has u [a, '('] := by
  have hafter : Text.after? (b :: u) [a, '('] = none := by
    cases u with
    | nil => simp [Text.after?]
    | cons d u =>
      have hd : '(' ≠ d := fun hd => h (by rw [hd]; rfl)
      simp [Text.after?, hd]
  rw [Text.has, Text.cut?, hafter, Option.isSome_map, Text.has]

theorem has_append_of_notMem (hw : '(' ∉ w) (hu : u.head? ≠ some '(') :
    Text.has (w ++ u) [a, '('] = Text.has u [a, '('] := by
  induction w with
  | nil => rfl
  | cons b w ih =>
    have hrest : '(' ∉ w := fun hm => hw (List.mem_cons_of_mem b hm)
    have hhead : (w ++ u).head? ≠ some '(' := by
      cases w with
      | nil => exact hu
      | cons d w =>
        intro hd
        exact hrest (Option.some.inj hd ▸ List.mem_cons_self)
    rw [List.cons_append, has_cons_of_head? hhead]
    exact ih hrest

theorem has_written (ha : a ≠ b ∧ a ≠ '(' ∧ a ≠ ')' ∧ a ≠ '.') (hw : '(' ∉ w) (u : Text) :
    Text.has (written b w ++ u) [a, '('] = Text.has u [a, '('] := by
  obtain ⟨hb, hopen, hclose, hdot⟩ := ha
  have hhead : (')' :: '.' :: u).head? ≠ some '(' := by
    intro h
    cases h
  have htext : written b w ++ u = b :: '(' :: (w ++ ')' :: '.' :: u) := by
    simp [written]
  rw [htext, has_cons_of_ne hb.symm, has_cons_of_ne hopen.symm, has_append_of_notMem hw hhead,
    has_cons_of_ne hclose.symm, has_cons_of_ne hdot.symm]

end Occurrences

namespace Constructor.IsNameless

theorem dotted (h : c.IsNameless) : Dotted c.text := by
  cases c with
  | pointer => exact ⟨['p'], rfl, by decide⟩
  | reference => exact ⟨['r'], rfl, by decide⟩
  | array text => exact dotted_written (by decide) (balanced_of_unbracketed h)
  | qualifier text => exact dotted_written (by decide) (balanced_of_unbracketed h)
  | function ps => cases h
  | memberPointer owner => cases h

/-- Neither a function nor a member pointer begins in a constructor that names no type. -/
theorem has (h : c.IsNameless) (ha : a = 'f' ∨ a = 'm') (u : Text) :
    Text.has (c.text ++ u) [a, '('] = Text.has u [a, '('] := by
  have hpq : a ≠ 'p' ∧ a ≠ 'r' ∧ a ≠ 'a' ∧ a ≠ 'q' ∧ a ≠ '(' ∧ a ≠ ')' ∧ a ≠ '.' := by
    rcases ha with rfl | rfl <;> decide
  obtain ⟨hp, hr, harray, hq, hrest⟩ := hpq
  have hdot : '.' ≠ a := hrest.2.2.symm
  cases c with
  | pointer =>
    show Text.has ('p' :: '.' :: u) [a, '('] = _
    rw [has_cons_of_ne hp.symm, has_cons_of_ne hdot]
  | reference =>
    show Text.has ('r' :: '.' :: u) [a, '('] = _
    rw [has_cons_of_ne hr.symm, has_cons_of_ne hdot]
  | array text => exact has_written ⟨harray, hrest⟩ (fun hm => h '(' hm (by decide)) u
  | qualifier text => exact has_written ⟨hq, hrest⟩ (fun hm => h '(' hm (by decide)) u
  | function ps => cases h
  | memberPointer owner => cases h

theorem less_notMem (h : c.IsNameless) : '<' ∉ c.text := by
  cases c with
  | pointer => decide
  | reference => decide
  | array text =>
    have hless := notMem_less_of_unbracketed h
    simp [Constructor.text, written, hless]
  | qualifier text =>
    have hless := notMem_less_of_unbracketed h
    simp [Constructor.text, written, hless]
  | function ps => cases h
  | memberPointer owner => cases h

theorem isSimple (h : c.IsNameless) (t : CType) : isSimple (c.text ++ t) = false :=
  simpleFrom_append_of_dot (dot_mem_text c) h.less_notMem t

end Constructor.IsNameless

section Chains

variable (hcs : ∀ c ∈ cs, c.IsNameless)
include hcs

theorem has_chain (ha : a = 'f' ∨ a = 'm') (t : CType) :
    Text.has (chain cs t) [a, '('] = Text.has t [a, '('] := by
  induction cs with
  | nil => rfl
  | cons c cs ih =>
    obtain ⟨hc, hcs⟩ := List.forall_mem_cons.mp hcs
    rw [chain_cons, hc.has ha, ih hcs]

theorem elements_nameless (t : CType) :
    elements (chain cs t) = (elements t).map (cs.map Constructor.text ++ ·) := by
  refine elements_flatten (fun f hf => ?_) t
  obtain ⟨c, hc, rfl⟩ := List.mem_map.mp hf
  exact (hcs c hc).dotted

theorem split_nameless (ht : t ≠ []) :
    split (chain cs t) = (split t).map fun parts => (chain cs parts.1, parts.2) := by
  rw [split, split, elements_nameless hcs]
  cases he : elements t with
  | error f => rfl
  | ok es =>
    obtain ⟨init, last, rfl, -⟩ := elements_cases he ht
    simp [Except.map, chain, ← List.append_assoc]

theorem outline_nameless (ht : t ≠ []) :
    outline (chain cs t) = (outline t).map (Outline.behind cs) := by
  rw [outline, outline, elements_nameless hcs]
  cases he : elements t with
  | error f => rfl
  | ok es =>
    obtain ⟨init, last, rfl, -⟩ := elements_cases he ht
    simp [Except.map, Outline.behind, ← List.append_assoc]
    omega

end Chains

theorem wraps_behind (cs : List Constructor) (outer inner : Outline) :
    (outer.behind cs).wraps (inner.behind cs) = outer.wraps inner := by
  simp [Outline.wraps, Outline.behind]

theorem same_behind (cs : List Constructor) (o o' : Outline) :
    (o.behind cs).whole.same (o'.behind cs).whole = o.whole.same o'.whole := by
  rw [Bool.eq_iff_iff, MeasuredText.same_iff, MeasuredText.same_iff]
  exact chain_right_inj cs

theorem dropQualifiers_of_isQualifier (h : isQualifier t = false) : dropQualifiers t = .ok t := by
  unfold dropQualifiers
  rw [dif_neg (by rw [h]; exact Bool.false_ne_true)]

theorem dropQualifiers_written (hw : Unbracketed w) (t : CType) :
    dropQualifiers (written 'q' w ++ t) = dropQualifiers t := by
  have hc : (Constructor.qualifier w).IsNameless := hw
  have hnext : next (written 'q' w ++ t) = .ok (written 'q' w, t) :=
    next_eq_ok_iff.mpr (hc.dotted.cut t)
  have hq : isQualifier (written 'q' w ++ t) = true :=
    Text.startsWith_iff.mpr ⟨w ++ ").".toList ++ t, rfl⟩
  rw [dropQualifiers, dif_pos hq]
  split
  · rename_i f hf
    cases hnext.symm.trans hf
  · rename_i parts hparts
    cases hnext.symm.trans hparts
    rfl

/-- No part of the local form depends on a qualifier. -/
theorem localElements_qualifier (fs es : List Text) (w : Text) (kept first : Bool) :
    localElements kept first (fs ++ written 'q' w :: es) = localElements kept first (fs ++ es) := by
  induction fs generalizing kept first with
  | nil =>
    have hq : Kind.of (written 'q' w) = .qualifier := kind_written
    rw [List.nil_append, localElements, hq]
    rfl
  | cons f fs ih =>
    rw [List.cons_append, List.cons_append, localElements, localElements]
    cases Kind.of f <;> simp only [ih]

/-- Behind a constructor that is no qualifier nothing is expanded any more. -/
theorem localType_behind (hc : c.IsNameless) (hq : ∀ w, c ≠ .qualifier w) (t : CType) :
    localType r (c.text ++ t) =
      (elements t).map fun es => (localElements false true (c.text :: es)).flatten := by
  have hbare : isQualifier (c.text ++ t) = false := by
    cases c with
    | qualifier w => exact absurd rfl (hq w)
    | function ps => cases hc
    | memberPointer owner => cases hc
    | _ => rfl
  have helements : elements (c.text ++ t) = (elements t).map (c.text :: ·) := hc.dotted.elements t
  rw [localType, dropQualifiers_of_isQualifier hbare]
  show (if isSimple (c.text ++ t) = true then _ else pure (c.text ++ t) >>= _ :
    Except Fault CType) = _
  rw [hc.isSimple t]
  show (elements (c.text ++ t) >>= _ : Except Fault CType) = _
  rw [helements]
  cases elements t <;> rfl

/-- A qualifier makes no difference to the local form, wherever it stands. -/
theorem localType_chain_qualifier (hcs : ∀ c ∈ cs, c.IsNameless) (hw : Unbracketed w) (t : CType) :
    localType r (chain cs (written 'q' w ++ t)) = localType r (chain cs t) := by
  induction cs with
  | nil =>
    rw [chain_nil, chain_nil, localType, localType, dropQualifiers_written hw]
  | cons c cs ih =>
    obtain ⟨hc, hrest⟩ := List.forall_mem_cons.mp hcs
    rw [chain_cons, chain_cons]
    by_cases hq : ∃ v, c = .qualifier v
    · obtain ⟨v, rfl⟩ := hq
      have hdrop : ∀ u : CType,
          localType r ((Constructor.qualifier v).text ++ u) = localType r u := by
        intro u
        rw [localType, localType, Constructor.text, dropQualifiers_written hc]
      rw [hdrop, hdrop, ih hrest]
    · have hnot : ∀ v, c ≠ .qualifier v := fun v hv => hq ⟨v, hv⟩
      have hdotted : Dotted (written 'q' w) := Constructor.IsNameless.dotted (c := .qualifier w) hw
      rw [localType_behind hc hnot, localType_behind hc hnot, elements_nameless hrest,
        elements_nameless hrest, hdotted.elements]
      cases elements t with
      | error f => rfl
      | ok es =>
        have hlocal := localElements_qualifier (c.text :: cs.map Constructor.text) es w false true
        exact congrArg (fun es => Except.ok (List.flatten es)) hlocal

/-- In the local form a reference in front is a pointer. -/
theorem localType_reference (t : CType) :
    localType r (Constructor.reference.text ++ t) =
      localType r (Constructor.pointer.text ++ t) := by
  have hlocal : ∀ es, localElements false true (Constructor.reference.text :: es) =
      localElements false true (Constructor.pointer.text :: es) := by
    intro es
    have hreference : Kind.of Constructor.reference.text = .reference := by decide
    have hpointer : Kind.of Constructor.pointer.text = .pointer := by decide
    rw [localElements, localElements, hreference, hpointer]
    rfl
  rw [localType_behind (c := .reference) trivial (by simp),
    localType_behind (c := .pointer) trivial (by simp)]
  simp only [hlocal]

/-- Types whose resolutions have one local form share a runtime name. -/
theorem runtimeName_of_localType {f k : CType → CType} (ht : r.resolve t = (r.resolve x).map f)
    (hu : r.resolve u = (r.resolve x).map k) (h : ∀ y, localType r (f y) = localType r (k y)) :
    runtimeName r t = runtimeName r u := by
  rw [runtimeName, runtimeName, ht, hu]
  cases r.resolve x with
  | error fault => rfl
  | ok y =>
    simp only [Except.map, bind, Except.bind, h]

end BindingTypes.CType

import BindingTypes.Generalize
import BindingTypes.Proofs.CType.WellFormed
import Mathlib.Algebra.GroupWithZero.Nat
import Mathlib.Data.List.TakeWhile

namespace BindingTypes.CType

/-- The type is generalized `n` times and is then as general as it can be. -/
inductive Generalizes : Nat → CType → CType → Prop
  | done {t : CType} (h : generalize? .none t = .ok none) : Generalizes 0 t t
  | step {n : Nat} {t u v : CType} (h : generalize? .none t = .ok (some u))
      (hrest : Generalizes n u v) : Generalizes (n + 1) t v

def Constructor.IsIndirect (c : Constructor) : Prop := c = .pointer ∨ c = .reference

/-- The number of steps that a constructor can take. -/
def Constructor.weight : Constructor → Nat
  | .array d => if d = "ANY".toList then 3 else if d = [] then 2 else 4
  | .memberPointer owner => if owner = "CLASS".toList then 2 else 3
  | _ => 1

def baseWeight (b : Text) : Nat :=
  if b = wildcard then 0 else if b = "enum SWIGTYPE".toList then 1 else 2

def weight (cs : List Constructor) (b : Text) : Nat :=
  (cs.map Constructor.weight).sum + baseWeight b

/-- A well-formed type below the weight, with dots only where there were dots. -/
structure Lighter (bound : Nat) (b : Text) (cs' : List Constructor) (b' : Text) : Prop where
  readable : ∀ c ∈ cs', c.IsReadable
  base : IsBase b'
  dots : b' = varargs → b = varargs
  weight : weight cs' b' < bound

variable {b : Text} {c : Constructor} {cs : List Constructor} {bound n : Nat}

theorem Constructor.weight_pos (c : Constructor) : 0 < c.weight := by
  unfold Constructor.weight
  split
  · split_ifs <;> decide
  · split_ifs <;> decide
  · decide

theorem isBase_wildcard : IsBase wildcard :=
  isBase_of_unbracketed (by decide)

theorem isBase_enum : IsBase "enum SWIGTYPE".toList :=
  isBase_of_unbracketed (by decide)

theorem isBase_varargs : IsBase varargs where
  closed := ⟨.zero, rfl, rfl⟩
  plain := by decide

/-- The wildcard is the only type without weight. -/
theorem weight_pos (h : chain cs b ≠ wildcard) : 0 < weight cs b := by
  cases cs with
  | nil =>
    have hb : b ≠ wildcard := h
    simp only [weight, baseWeight, List.map_nil, List.sum_nil, if_neg hb]
    split_ifs <;> decide
  | cons c cs =>
    have hc := c.weight_pos
    simp only [weight, List.map_cons, List.sum_cons]
    omega

theorem weight_cons (c : Constructor) (cs : List Constructor) (b : Text) :
    weight (c :: cs) b = c.weight + weight cs b := by
  simp only [weight, List.map_cons, List.sum_cons, Nat.add_assoc]

namespace Lighter

theorem wildcard (h : 0 < bound) : Lighter bound b [] wildcard := by
  refine ⟨nofun, isBase_wildcard, fun h => ?_, h⟩
  cases h

theorem mono {m : Nat} {cs' : List Constructor} {b' : Text} (h : Lighter bound b cs' b')
    (hm : bound ≤ m) : Lighter m b cs' b' :=
  ⟨h.readable, h.base, h.dots, Nat.lt_of_lt_of_le h.weight hm⟩

theorem cons {cs' : List Constructor} {b' : Text} (h : Lighter bound b cs' b')
    (hc : c.IsReadable) : Lighter (c.weight + bound) b (c :: cs') b' where
  readable := List.forall_mem_cons.mpr ⟨hc, h.readable⟩
  base := h.base
  dots := h.dots
  weight := by
    rw [weight_cons]
    have hweight := h.weight
    omega

end Lighter

/-- A type stays as it is, if it has dots or is the wildcard, or becomes lighter. -/
def Loosened (cs : List Constructor) (b : Text) (cs' : List Constructor) (b' : Text) : Prop :=
  (cs' = cs ∧ b' = b ∧ (b = varargs ∨ chain cs b = wildcard)) ∨ Lighter (weight cs b) b cs' b'

/-- The next more general type is lighter, and only dots and the wildcard have none. -/
def Loosens (n : Nat) (cs : List Constructor) (b : Text) : Prop :=
  (generalizeFrom .none n (chain cs b) = .ok none ∧ (b = varargs ∨ chain cs b = wildcard)) ∨
  ∃ cs' b', generalizeFrom .none n (chain cs b) = .ok (some (chain cs' b')) ∧
    Lighter (weight cs b) b cs' b'

theorem qualified_or (hb : IsBase b) (cs : List Constructor) :
    (∃ w ds, cs = .qualifier w :: ds) ∨ isQualifier (chain cs b) = false := by
  cases cs with
  | nil => exact Or.inr hb.not_qualifier
  | cons c cs =>
    cases c with
    | qualifier w => exact Or.inl ⟨w, cs, rfl⟩
    | _ => exact Or.inr (by rw [chain_cons, isQualifier_text]; rfl)

/-- Below a constructor a type stays as it is or becomes lighter. -/
theorem generalizeUnder_chain (c : Constructor) (hcs : ∀ c ∈ cs, c.IsReadable) (hb : IsBase b)
    (again : ∀ ds : List Constructor, ds.length ≤ cs.length → (∀ c ∈ ds, c.IsReadable) →
      Loosens n ds b) :
    ∃ cs' b', generalizeUnder (generalizeFrom .none n) c.text (chain cs b) =
      .ok (chain (c :: cs') b') ∧ Loosened cs b cs' b' := by
  unfold generalizeUnder
  by_cases hw : chain cs b = wildcard
  · rw [if_pos hw]
    exact ⟨cs, b, by rw [chain_cons, hw]; rfl, Or.inl ⟨rfl, rfl, Or.inr hw⟩⟩
  rw [if_neg hw]
  rcases qualified_or hb cs with ⟨w, ds, rfl⟩ | hq
  · obtain ⟨hqualifier, hds⟩ := List.forall_mem_cons.mp hcs
    have hq : isQualifier (chain (.qualifier w :: ds) b) = true := by
      rw [chain_cons, isQualifier_text]
      rfl
    have hnext : next (chain (.qualifier w :: ds) b) = .ok (written 'q' w, chain ds b) := by
      rw [chain_cons]
      exact next_readable hqualifier _
    have hlight : weight ds b < weight (.qualifier w :: ds) b := by
      rw [weight_cons]
      exact Nat.lt_add_of_pos_left (Constructor.weight_pos _)
    have hbare : ∃ cs' b', (.ok (c.text ++ chain ds b) : Except Fault CType) =
        .ok (chain (c :: cs') b') ∧ Loosened (.qualifier w :: ds) b cs' b' :=
      ⟨ds, b, by rw [chain_cons], Or.inr ⟨hds, hb, id, hlight⟩⟩
    simp only [hq, hnext, bind, Except.bind, if_true, Bool.true_and]
    by_cases hwild : (chain ds b).has wildcard = true
    · rw [if_pos hwild]
      exact hbare
    rw [if_neg hwild]
    rcases again ds (Nat.le_succ _) hds with ⟨hnone, -⟩ | ⟨cs', b', hsome, hlighter⟩
    · simp only [hnone]
      exact hbare
    · simp only [hsome]
      split
      · exact ⟨cs', b', by rw [chain_cons]; rfl, Or.inr (hlighter.mono (Nat.le_of_lt hlight))⟩
      · refine ⟨.qualifier w :: cs', b', ?_, Or.inr ?_⟩
        · rw [chain_cons, chain_cons, List.append_assoc]
          rfl
        · rw [weight_cons]
          exact hlighter.cons hqualifier
  · simp only [hq, pure, Except.pure, bind, Except.bind, Bool.false_eq_true, if_false,
      Bool.false_and, List.nil_append, List.append_nil, ite_self]
    rcases again cs (Nat.le_refl _) hcs with ⟨hnone, hend⟩ | ⟨cs', b', hsome, hlighter⟩
    · simp only [hnone]
      exact ⟨cs, b, by rw [chain_cons], Or.inl ⟨rfl, rfl, hend⟩⟩
    · simp only [hsome]
      exact ⟨cs', b', by rw [chain_cons], Or.inr hlighter⟩

section Dimensions

/-- The leading arrays of a type, and the rest. -/
theorem cutArrays_chain (hcs : ∀ c ∈ cs, c.IsReadable) (hb : IsBase b) :
    cutArrays (chain cs b) = .ok ((cs.takeWhile (·.kind = .array)).map Constructor.text,
      chain (cs.dropWhile (·.kind = .array)) b) := by
  induction cs with
  | nil =>
    rw [chain_nil, cutArrays]
    split
    · rename_i hnil
      rw [hnil]
      rfl
    · split
      · rename_i f hf
        cases hb.next.symm.trans hf
      · rename_i element rest hnext
        cases hb.next.symm.trans hnext
        rw [hb.kind]
        rfl
  | cons c cs ih =>
    obtain ⟨hc, hcs⟩ := List.forall_mem_cons.mp hcs
    have hnext := next_readable hc (chain cs b)
    have hne : c.text ++ chain cs b ≠ [] := by simp [text_ne_nil]
    rw [chain_cons, cutArrays, dif_neg hne]
    split
    · rename_i f hf
      cases hnext.symm.trans hf
    · rename_i element rest hnext'
      cases hnext.symm.trans hnext'
      rw [kind_text, ih hcs, List.takeWhile_cons, List.dropWhile_cons]
      by_cases hk : c.kind = .array
      · simp [hk, Except.map]
      · simp [hk, chain_cons]

theorem hasEmptyDimension_chain {d : Text} (hd : Balanced d) (hcs : ∀ c ∈ cs, c.IsReadable)
    (hb : IsBase b) :
    ∃ empty : Bool, hasEmptyDimension (chain (.array d :: cs) b) = .ok empty ∧
      (d = [] → empty = true) ∧ (d = "ANY".toList → empty = false) := by
  have harray : (Constructor.array d).IsReadable := hd
  have hcut := cutArrays_chain (List.forall_mem_cons.mpr ⟨harray, hcs⟩) hb
  have hothers : ∀ e ∈ (cs.takeWhile (·.kind = .array)).map Constructor.text,
      ∃ x, argument e = .ok x := by
    intro e he
    obtain ⟨c, hc, rfl⟩ := List.mem_map.mp he
    have hkind := List.mem_takeWhile_imp hc
    have hread := hcs c ((List.takeWhile_sublist _).subset hc)
    cases c with
    | array x => exact ⟨x, argument_written (by decide) hread⟩
    | _ => cases hkind
  obtain ⟨xs, hxs⟩ := exists_forall₂ hothers
  have hall : ((Constructor.array d :: cs).takeWhile (·.kind = .array)).map Constructor.text =
      written 'a' d :: (cs.takeWhile (·.kind = .array)).map Constructor.text := rfl
  have hwritten : argument (written 'a' d) = .ok d := argument_written (by decide) hd
  have hdimensions := mapM_of_forall₂ (.cons hwritten hxs)
  refine ⟨(d :: xs).contains [] && !(chain (.array d :: cs) b).startsWith "a(ANY).".toList,
    ?_, ?_, ?_⟩
  · unfold hasEmptyDimension
    rw [hcut, hall]
    show (List.mapM argument (written 'a' d :: _) >>= _ : Except Fault Bool) = _
    rw [hdimensions]
    rfl
  · rintro rfl
    rw [chain_cons]
    rfl
  · rintro rfl
    rw [chain_cons]
    have hstarts : Text.startsWith ((Constructor.array "ANY".toList).text ++ chain cs b)
        "a(ANY).".toList = true := Text.startsWith_iff.mpr ⟨chain cs b, rfl⟩
    rw [hstarts]
    simp

end Dimensions

theorem loosened_wildcard (h : 0 < weight cs b) : Loosened cs b [] wildcard :=
  Or.inr (Lighter.wildcard h)

/-- Below a constructor that stays, or in whose place a lighter one stands. -/
theorem Loosened.cons {d : Constructor} {ds cs' : List Constructor} {b' : Text}
    (h : Loosened ds b cs' b') (hc : c.IsReadable) (hds : ∀ c ∈ ds, c.IsReadable) (hb : IsBase b)
    (hd : c = d ∧ chain ds b ≠ wildcard ∨ c.weight < d.weight) :
    Loosened (d :: ds) b (c :: cs') b' := by
  have hle : c.weight ≤ d.weight := by
    rcases hd with ⟨rfl, -⟩ | hlt
    · exact Nat.le_refl _
    · exact Nat.le_of_lt hlt
  rcases h with ⟨rfl, rfl, hend⟩ | h
  · rcases hd with ⟨rfl, hw⟩ | hlt
    · exact Or.inl ⟨rfl, rfl, Or.inl (hend.resolve_right hw)⟩
    · refine Or.inr ⟨List.forall_mem_cons.mpr ⟨hc, hds⟩, hb, id, ?_⟩
      rw [weight_cons, weight_cons]
      omega
  · refine Or.inr ((h.cons hc).mono ?_)
    rw [weight_cons]
    omega

section Loosen

variable {again : CType → Except Fault (Option CType)} {t u : CType}

theorem ne_of_flag {p : CType → Bool} (ht : p t = false) (hu : p u = true) : t ≠ u := by
  rintro rfl
  exact Bool.false_ne_true (ht.symm.trans hu)

theorem loosen_pointer (hp : isPointer t = true) : loosen again t =
    if t = "p.SWIGTYPE".toList then .ok wildcard
    else delPointer t >>= generalizeUnder again "p.".toList := by
  have hr : t ≠ "r.SWIGTYPE".toList := by
    rintro rfl
    cases hp
  unfold loosen
  by_cases h : t = "p.SWIGTYPE".toList
  · simp [h]
    rfl
  · simp only [h, hr, hp, decide_false, Bool.or_self, Bool.false_eq_true, if_false, if_true]

variable (hp : isPointer t = false)
include hp

theorem loosen_reference (hr : isReference t = true) : loosen again t =
    if t = "r.SWIGTYPE".toList then .ok wildcard
    else delReference t >>= generalizeUnder again "r.".toList := by
  have hpointer : t ≠ "p.SWIGTYPE".toList := ne_of_flag hp rfl
  unfold loosen
  by_cases h : t = "r.SWIGTYPE".toList
  · simp [h]
    rfl
  · simp only [h, hpointer, hp, hr, decide_false, Bool.or_self, Bool.false_eq_true, if_false,
      if_true]

variable (hr : isReference t = false)
include hr

theorem loosen_array (ha : isArray t = true) : loosen again t =
    if t = "a().SWIGTYPE".toList then .ok "p.SWIGTYPE".toList
    else if t = "a(ANY).SWIGTYPE".toList then .ok "a().SWIGTYPE".toList
    else hasEmptyDimension t >>= fun empty => delArray t >>=
      generalizeUnder again (if empty then "a().".toList else "a(ANY).".toList) := by
  have hpointer : t ≠ "p.SWIGTYPE".toList := ne_of_flag hp rfl
  have hreference : t ≠ "r.SWIGTYPE".toList := ne_of_flag hr rfl
  unfold loosen
  simp only [hpointer, hreference, hp, hr, ha, decide_false, Bool.or_self, Bool.false_eq_true,
    if_false, if_true]
  rfl

variable (ha : isArray t = false)
include ha

theorem loosen_member (hm : isMemberPointer t = true) : loosen again t =
    .ok (if t = "m(CLASS).SWIGTYPE".toList then "p.SWIGTYPE".toList
      else "m(CLASS).SWIGTYPE".toList) := by
  have hpointer : t ≠ "p.SWIGTYPE".toList := ne_of_flag hp rfl
  have hreference : t ≠ "r.SWIGTYPE".toList := ne_of_flag hr rfl
  have harray : t ≠ "a().SWIGTYPE".toList := ne_of_flag ha rfl
  have hany : t ≠ "a(ANY).SWIGTYPE".toList := ne_of_flag ha rfl
  unfold loosen
  simp only [hpointer, hreference, harray, hany, hp, hr, ha, hm, decide_false, Bool.or_self,
    Bool.false_eq_true, if_false, if_true]
  split <;> rfl

theorem loosen_name (hm : isMemberPointer t = false) : loosen again t =
    .ok (if t ≠ "enum SWIGTYPE".toList ∧ isEnum t then "enum SWIGTYPE".toList else wildcard) := by
  have hpointer : t ≠ "p.SWIGTYPE".toList := ne_of_flag hp rfl
  have hreference : t ≠ "r.SWIGTYPE".toList := ne_of_flag hr rfl
  have harray : t ≠ "a().SWIGTYPE".toList := ne_of_flag ha rfl
  have hany : t ≠ "a(ANY).SWIGTYPE".toList := ne_of_flag ha rfl
  have hmember : t ≠ "m(CLASS).SWIGTYPE".toList := ne_of_flag hm rfl
  unfold loosen
  simp only [hpointer, hreference, harray, hany, hmember, hp, hr, ha, hm, decide_false,
    Bool.or_self, Bool.false_eq_true, if_false]
  by_cases h : t = "enum SWIGTYPE".toList
  · simp [h]
    rfl
  · simp only [h, if_false, ne_eq, not_false_eq_true, true_and]
    split <;> rfl

end Loosen

theorem delPointer_text (t : CType) : delPointer (Constructor.pointer.text ++ t) = .ok t := by
  have hafter : Text.after? (Constructor.pointer.text ++ t) "p.".toList = some t :=
    Text.after?_eq_some_iff.mpr rfl
  have hq : isQualifier (Constructor.pointer.text ++ t) = false := isQualifier_text .pointer t
  simp only [delPointer, hq, Bool.false_eq_true, if_false, pure_bind, hafter]
  rfl

theorem delReference_text (t : CType) :
    delReference (Constructor.reference.text ++ t) = .ok t := by
  have hafter : Text.after? (Constructor.reference.text ++ t) "r.".toList = some t :=
    Text.after?_eq_some_iff.mpr rfl
  rw [delReference, hafter]

theorem Constructor.IsIndirect.readable (hc : c.IsIndirect) : c.IsReadable := by
  rcases hc with rfl | rfl <;> trivial

/-- Pointers and references loosen what they lead to, until that is the wildcard. -/
theorem loosen_indirect {again : CType → Except Fault (Option CType)} (hc : c.IsIndirect)
    (u : CType) : loosen again (c.text ++ u) =
      if u = wildcard then .ok wildcard else generalizeUnder again c.text u := by
  rcases hc with rfl | rfl
  · have hlast : Constructor.pointer.text ++ u = "p.SWIGTYPE".toList ↔ u = wildcard :=
      List.append_right_inj "p.".toList
    rw [loosen_pointer (isPointer_text ..), delPointer_text]
    simp only [hlast]
    rfl
  · have hlast : Constructor.reference.text ++ u = "r.SWIGTYPE".toList ↔ u = wildcard :=
      List.append_right_inj "r.".toList
    rw [loosen_reference (isPointer_text ..) (isReference_text ..), delReference_text]
    simp only [hlast]
    rfl

/-- An array that is not at the end of its steps loosens what it holds, under the dimension that it
goes on with. -/
theorem loosen_array_chain (again : CType → Except Fault (Option CType)) {d : Text}
    {ds : List Constructor} (hd : Balanced d) (hds : ∀ c ∈ ds, c.IsReadable) (hb : IsBase b) :
    ∃ empty, (d = [] → empty = true) ∧ (d = "ANY".toList → empty = false) ∧
      loosen again (chain (.array d :: ds) b) =
        if chain (.array d :: ds) b = "a().SWIGTYPE".toList then .ok "p.SWIGTYPE".toList
        else if chain (.array d :: ds) b = "a(ANY).SWIGTYPE".toList then .ok "a().SWIGTYPE".toList
        else generalizeUnder again (if empty then "a().".toList else "a(ANY).".toList)
          (chain ds b) := by
  obtain ⟨empty, hdimension, hnil, hanything⟩ := hasEmptyDimension_chain hd hds hb
  have harray : isArray (chain (.array d :: ds) b) = true := by
    rw [chain_cons, isArray_text]
    rfl
  have hdel : delArray (chain (.array d :: ds) b) = .ok (chain ds b) := by
    rw [delArray, if_pos harray, chain_cons, rest, next_readable (c := .array d) hd]
    rfl
  refine ⟨empty, hnil, hanything, ?_⟩
  rw [loosen_array (by rw [chain_cons, isPointer_text]; rfl)
    (by rw [chain_cons, isReference_text]; rfl) harray, hdimension, hdel]
  rfl

section Kinds

variable {d : Text} {ds : List Constructor} (hds : ∀ c ∈ ds, c.IsReadable) (hb : IsBase b)
  (again : ∀ es : List Constructor, es.length ≤ ds.length → (∀ c ∈ es, c.IsReadable) →
    Loosens n es b)

theorem ne_wildcard {c : Constructor} {t : CType} (h : c.text ++ t ≠ c.text ++ wildcard) :
    t ≠ wildcard := fun ht => h (by rw [ht])

theorem weight_cons_pos (c : Constructor) (ds : List Constructor) (b : Text) :
    0 < weight (c :: ds) b := by
  rw [weight_cons]
  exact Nat.add_pos_left c.weight_pos _

include hds hb again

theorem loosened_indirect (hc : c.IsIndirect) :
    ∃ cs' b', loosen (generalizeFrom .none n) (chain (c :: ds) b) = .ok (chain cs' b') ∧
      Loosened (c :: ds) b cs' b' := by
  rw [chain_cons, loosen_indirect hc]
  by_cases hlast : chain ds b = wildcard
  · rw [if_pos hlast]
    exact ⟨[], wildcard, rfl, loosened_wildcard (weight_cons_pos ..)⟩
  · obtain ⟨cs', b', hunder, hloose⟩ := generalizeUnder_chain c hds hb again
    rw [if_neg hlast]
    exact ⟨c :: cs', b', hunder, hloose.cons hc.readable hds hb (Or.inl ⟨rfl, hlast⟩)⟩

theorem loosened_array (hd : Balanced d) :
    ∃ cs' b', loosen (generalizeFrom .none n) (chain (.array d :: ds) b) = .ok (chain cs' b') ∧
      Loosened (.array d :: ds) b cs' b' := by
  have hcs : ∀ c ∈ Constructor.array d :: ds, c.IsReadable :=
    List.forall_mem_cons.mpr ⟨hd, hds⟩
  have hany : (Constructor.array "ANY".toList).IsReadable := (by decide : Balanced "ANY".toList)
  obtain ⟨empty, hnil, hanything, hloosen⟩ := loosen_array_chain (generalizeFrom .none n) hd hds hb
  rw [hloosen]
  by_cases hempty : chain (.array d :: ds) b = "a().SWIGTYPE".toList
  · rw [if_pos hempty]
    have hread : chain (.array d :: ds) b = chain [.array []] wildcard := hempty
    obtain ⟨hlist, rfl⟩ := readable_inj hcs
      (by simp [Constructor.IsReadable, balanced_nil]) hb isBase_wildcard hread
    rw [hlist]
    exact ⟨[.pointer], wildcard, rfl,
      Or.inr ⟨by simp [Constructor.IsReadable], hb, id, by decide⟩⟩
  rw [if_neg hempty]
  by_cases hfull : chain (.array d :: ds) b = "a(ANY).SWIGTYPE".toList
  · rw [if_pos hfull]
    have hread : chain (.array d :: ds) b = chain [.array "ANY".toList] wildcard := hfull
    obtain ⟨hlist, rfl⟩ := readable_inj hcs (List.forall_mem_singleton.mpr hany) hb
      isBase_wildcard hread
    rw [hlist]
    exact ⟨[.array []], wildcard, rfl,
      Or.inr ⟨by simp [Constructor.IsReadable, balanced_nil], hb, id, by decide⟩⟩
  rw [if_neg hfull]
  cases empty with
  | true =>
    obtain ⟨cs', b', hunder, hloose⟩ := generalizeUnder_chain (.array []) hds hb again
    have hnot : d ≠ "ANY".toList := fun h => Bool.false_ne_true (hanything h).symm
    refine ⟨.array [] :: cs', b', hunder, hloose.cons balanced_nil hds hb ?_⟩
    by_cases hd : d = []
    · rw [hd, chain_cons] at hempty
      exact Or.inl ⟨by rw [hd], ne_wildcard hempty⟩
    · rw [Constructor.weight, Constructor.weight, if_neg hnot, if_neg hd]
      exact Or.inr (by decide)
  | false =>
    obtain ⟨cs', b', hunder, hloose⟩ := generalizeUnder_chain (.array "ANY".toList) hds hb again
    have hnot : d ≠ [] := fun h => Bool.false_ne_true (hnil h)
    refine ⟨.array "ANY".toList :: cs', b', hunder, hloose.cons hany hds hb ?_⟩
    by_cases hd : d = "ANY".toList
    · rw [hd, chain_cons] at hfull
      exact Or.inl ⟨by rw [hd], ne_wildcard hfull⟩
    · rw [Constructor.weight, Constructor.weight, if_neg hnot, if_neg hd, if_pos rfl]
      exact Or.inr (by decide)

end Kinds

theorem loosened_member {o : Text} {ds : List Constructor} (ho : Balanced o)
    (hds : ∀ c ∈ ds, c.IsReadable) (hb : IsBase b) :
    ∃ cs' b', loosen (generalizeFrom .none n) (chain (.memberPointer o :: ds) b) =
        .ok (chain cs' b') ∧ Loosened (.memberPointer o :: ds) b cs' b' := by
  have hcs : ∀ c ∈ Constructor.memberPointer o :: ds, c.IsReadable :=
    List.forall_mem_cons.mpr ⟨ho, hds⟩
  have hclass : ∀ c ∈ [Constructor.memberPointer "CLASS".toList], c.IsReadable :=
    List.forall_mem_singleton.mpr (by decide : Balanced "CLASS".toList)
  have hmember : isMemberPointer (chain (.memberPointer o :: ds) b) = true := by
    rw [chain_cons, isMember_text]
    rfl
  rw [loosen_member (by rw [chain_cons, isPointer_text]; rfl)
    (by rw [chain_cons, isReference_text]; rfl) (by rw [chain_cons, isArray_text]; rfl) hmember]
  by_cases hlast : chain (.memberPointer o :: ds) b = "m(CLASS).SWIGTYPE".toList
  · rw [if_pos hlast]
    obtain ⟨hlist, rfl⟩ := readable_inj hcs hclass hb isBase_wildcard hlast
    rw [hlist]
    exact ⟨[.pointer], wildcard, rfl,
      Or.inr ⟨by simp [Constructor.IsReadable], hb, id, by decide⟩⟩
  · rw [if_neg hlast]
    refine ⟨[.memberPointer "CLASS".toList], wildcard, rfl,
      Or.inr ⟨hclass, isBase_wildcard, fun h => ?_, ?_⟩⟩
    · cases h
    · have hshort : weight [.memberPointer "CLASS".toList] wildcard = 2 := by decide
      rw [hshort, weight_cons]
      by_cases hclass : o = "CLASS".toList
      · rw [hclass, chain_cons] at hlast
        have hpositive : 0 < weight ds b := weight_pos (ne_wildcard hlast)
        simp only [Constructor.weight, if_pos hclass]
        omega
      · simp only [Constructor.weight, if_neg hclass]
        omega

theorem loosened_base (hb : IsBase b) :
    ∃ b', loosen (generalizeFrom .none n) b = .ok b' ∧ Loosened [] b [] b' := by
  have hname : loosen (generalizeFrom .none n) b = _ :=
    loosen_name hb.not_pointer hb.not_reference hb.not_array hb.not_memberPointer
  by_cases henum : b ≠ "enum SWIGTYPE".toList ∧ isEnum b
  · rw [if_pos henum] at hname
    have hw : b ≠ wildcard := by
      rintro rfl
      cases henum.2
    refine ⟨"enum SWIGTYPE".toList, hname, Or.inr ⟨nofun, isBase_enum, fun h => ?_, ?_⟩⟩
    · cases h
    · simp only [weight, List.map_nil, List.sum_nil, baseWeight, if_neg hw, if_neg henum.1]
      decide
  · rw [if_neg henum] at hname
    refine ⟨wildcard, hname, ?_⟩
    by_cases hw : b = wildcard
    · exact Or.inl ⟨rfl, hw.symm, Or.inr hw⟩
    · exact loosened_wildcard (weight_pos hw)

theorem loosen_chain (hcs : ∀ c ∈ cs, c.IsReadable) (hb : IsBase b)
    (again : ∀ ds : List Constructor, ds.length < cs.length → (∀ c ∈ ds, c.IsReadable) →
      Loosens n ds b) :
    ∃ cs' b', loosen (generalizeFrom .none n) (chain cs b) = .ok (chain cs' b') ∧
      Loosened cs b cs' b' := by
  cases cs with
  | nil =>
    obtain ⟨b', hb'⟩ := loosened_base hb
    exact ⟨[], b', hb'⟩
  | cons c ds =>
    obtain ⟨hc, hds⟩ := List.forall_mem_cons.mp hcs
    have hagain : ∀ es : List Constructor, es.length ≤ ds.length → (∀ c ∈ es, c.IsReadable) →
        Loosens n es b := fun es hes => again es (Nat.lt_succ_of_le hes)
    have hplain : isPointer (chain (c :: ds) b) = false → isReference (chain (c :: ds) b) = false →
        isArray (chain (c :: ds) b) = false → isMemberPointer (chain (c :: ds) b) = false →
        isEnum (chain (c :: ds) b) = false → ∃ cs' b',
          loosen (generalizeFrom .none n) (chain (c :: ds) b) = .ok (chain cs' b') ∧
            Loosened (c :: ds) b cs' b' := fun hp hr ha hm he => by
      refine ⟨[], wildcard, ?_, loosened_wildcard (weight_cons_pos ..)⟩
      rw [loosen_name hp hr ha hm, he, if_neg fun h => Bool.false_ne_true h.2]
      rfl
    cases c with
    | pointer => exact loosened_indirect hds hb hagain (Or.inl rfl)
    | reference => exact loosened_indirect hds hb hagain (Or.inr rfl)
    | array d => exact loosened_array hds hb hagain hc
    | memberPointer o => exact loosened_member hc hds hb
    | qualifier w =>
      simp only [chain_cons] at hplain ⊢
      exact hplain (isPointer_text ..) (isReference_text ..) (isArray_text ..) (isMember_text ..)
        rfl
    | function ps =>
      simp only [chain_cons] at hplain ⊢
      exact hplain (isPointer_text ..) (isReference_text ..) (isArray_text ..) (isMember_text ..)
        rfl

theorem ne_of_lighter {cs' : List Constructor} {b' : Text} (h : Lighter (weight cs b) b cs' b')
    (hcs : ∀ c ∈ cs, c.IsReadable) (hb : IsBase b) : chain cs' b' ≠ chain cs b := by
  intro hsame
  obtain ⟨rfl, rfl⟩ := readable_inj h.readable hcs h.base hb hsame
  exact Nat.lt_irrefl _ h.weight

/-- One step: the next more general type is lighter, and only dots and the wildcard have none. -/
theorem generalizeFrom_chain (hn : cs.length < n) (hcs : ∀ c ∈ cs, c.IsReadable) (hb : IsBase b) :
    Loosens n cs b := by
  induction n generalizing cs with
  | zero => cases hn
  | succ n ih =>
    unfold Loosens generalizeFrom
    by_cases hdots : isVarargs (chain cs b) = true
    · have hread : chain cs b = chain [] varargs := of_decide_eq_true hdots
      obtain ⟨rfl, rfl⟩ := readable_inj hcs (List.forall_mem_nil _) hb isBase_varargs
        hread
      exact Or.inl ⟨rfl, Or.inl rfl⟩
    rw [if_neg hdots]
    rcases qualified_or hb cs with ⟨w, ds, rfl⟩ | hq
    · obtain ⟨hw, hds⟩ := List.forall_mem_cons.mp hcs
      have hn : ds.length < n := Nat.lt_of_succ_lt_succ hn
      have hq : isQualifier (chain (.qualifier w :: ds) b) = true := by
        rw [chain_cons, isQualifier_text]
        rfl
      have hrest : rest (chain (.qualifier w :: ds) b) = .ok (chain ds b) := by
        rw [chain_cons, rest, next_readable hw]
        rfl
      have hlight : Lighter (weight (.qualifier w :: ds) b) b ds b := by
        refine ⟨hds, hb, id, ?_⟩
        rw [weight_cons]
        exact Nat.lt_add_of_pos_left (Constructor.weight_pos _)
      obtain ⟨cs', b', hloosen, hloose⟩ := loosen_chain hds hb fun es hes hread =>
        ih (Nat.lt_trans hes hn) hread
      have hnext : Lighter (weight (.qualifier w :: ds) b) b cs' b' := by
        rcases hloose with ⟨rfl, rfl, -⟩ | h
        · exact hlight
        · exact h.mono (Nat.le_of_lt hlight.weight)
      have hresolve : Resolver.none.resolve (chain (.qualifier w :: ds) b) = .ok _ := rfl
      refine Or.inr ?_
      simp only [hresolve, bind, Except.bind, hq, hrest, hloosen, if_true, Bool.true_and,
        if_neg (ne_of_lighter hnext hcs hb)]
      split
      · exact ⟨ds, b, rfl, hlight⟩
      · exact ⟨cs', b', rfl, hnext⟩
    · obtain ⟨cs', b', hloosen, hloose⟩ := loosen_chain hcs hb fun es hes hread =>
        ih (Nat.lt_of_lt_of_le hes (Nat.le_of_lt_succ hn)) hread
      have hresolve : Resolver.none.resolve (chain cs b) = .ok _ := rfl
      simp only [hresolve, bind, Except.bind, hq, pure, Except.pure, Bool.false_and,
        Bool.false_eq_true, if_false, hloosen]
      rcases hloose with ⟨rfl, rfl, hend⟩ | h
      · exact Or.inl ⟨by rw [if_pos rfl], hend⟩
      · exact Or.inr ⟨cs', b', by rw [if_neg (ne_of_lighter h hcs hb)], h⟩

theorem length_le_chain (cs : List Constructor) (b : Text) : cs.length ≤ (chain cs b).length := by
  induction cs with
  | nil => exact Nat.zero_le _
  | cons c cs ih =>
    have hc := List.length_pos_iff.mpr (text_ne_nil c)
    rw [chain_cons, List.length_append, List.length_cons]
    omega

/-- A run: the steps come to an end, for want of weight. -/
theorem generalizes_chain (hcs : ∀ c ∈ cs, c.IsReadable) (hb : IsBase b) :
    ∃ n u, Generalizes n (chain cs b) u ∧ (b ≠ varargs → u = wildcard) := by
  induction hw : weight cs b using Nat.strongRecOn generalizing cs b with
  | ind m ih =>
    have hbudget : cs.length < Resolver.none.budget + (chain cs b).length + 1 := by
      have hlength := length_le_chain cs b
      omega
    rcases generalizeFrom_chain hbudget hcs hb with ⟨hnone, hend⟩ | ⟨cs', b', hsome, hlighter⟩
    · exact ⟨0, chain cs b, .done hnone, fun hdots => hend.resolve_left hdots⟩
    · obtain ⟨n, u, hrun, hu⟩ := ih _ (hw ▸ hlighter.weight) hlighter.readable hlighter.base rfl
      exact ⟨n + 1, u, .step hsome hrun, fun hdots => hu fun h => hdots (hlighter.dots h)⟩

end BindingTypes.CType

import BindingTypes.Proofs.Scope.Fronts
import BindingTypes.Proofs.Scope.Outer
import BindingTypes.Proofs.Scope.PlainTypedefs
import BindingTypes.Proofs.Scope.Trail
import Mathlib.Algebra.GroupWithZero.Nat
import Mathlib.Algebra.Order.BigOperators.Group.List
import Mathlib.Algebra.Order.Group.Nat

namespace BindingTypes

namespace PlainTypedef

/-- `m` is mentioned in a type that `n` is declared for. -/
def MentionedBy (ds : List PlainTypedef) (m n : Text) : Prop :=
  ∃ d ∈ ds, d.name = n ∧ m ∈ d.mentions

def declaring (ds : List PlainTypedef) (n : Text) : List PlainTypedef :=
  ds.filter fun d => d.name = n

variable {ds : List PlainTypedef} {d : PlainTypedef} {m n : Text} {ns : List Text}
  {W : Text → Nat}

theorem mem_declaring : d ∈ declaring ds n ↔ d ∈ ds ∧ d.name = n := by
  rw [declaring, List.mem_filter, decide_eq_true_iff]

theorem mentionedBy_of_declaring (hd : d ∈ declaring ds n) (hm : m ∈ d.mentions) :
    MentionedBy ds m n :=
  ⟨d, (mem_declaring.mp hd).1, (mem_declaring.mp hd).2, hm⟩

/-- Typedefs that stand higher than what they mention do not mention each other in a circle. -/
theorem wellFounded_mentionedBy (height : Text → Nat)
    (h : ∀ d ∈ ds, ∀ m ∈ d.mentions, height m < height d.name) : WellFounded (MentionedBy ds) := by
  refine Subrelation.wf (r := fun m n => height m < height n) ?_ (measure height).wf
  rintro m n ⟨d, hd, rfl, hm⟩
  exact h d hd m hm

/-- Every typedef weighs more than all the words in its type together, and what is no typedef
weighs nothing. -/
structure Weighs (ds : List PlainTypedef) (W : Text → Nat) : Prop where
  plain : ∀ n, (∀ d ∈ ds, d.name ≠ n) → W n = 0
  typedef : ∀ d ∈ ds, (d.mentions.map W).sum < W d.name

section Weight

variable (hwf : WellFounded (MentionedBy ds))

/-- One more than the words in the types that a name is declared for, all of them together. -/
noncomputable def weight : Text → Nat :=
  hwf.fix fun n weigh => ((declaring ds n).attach.map fun d =>
    1 + (d.1.mentions.attach.map fun m =>
      weigh m.1 (mentionedBy_of_declaring d.2 m.2)).sum).sum

theorem weight_eq (n : Text) : weight hwf n =
    ((declaring ds n).map fun d => 1 + (d.mentions.map (weight hwf)).sum).sum := by
  have hinner : ∀ d : PlainTypedef, (d.mentions.attach.map fun m => weight hwf m.1) =
      d.mentions.map (weight hwf) := fun d => List.attach_map_val
  refine (hwf.fix_eq _ n).trans ?_
  show ((declaring ds n).attach.map fun d =>
    1 + (d.1.mentions.attach.map fun m => weight hwf m.1).sum).sum = _
  simp only [hinner]
  exact congrArg List.sum
    (List.attach_map_val (f := fun d : PlainTypedef => 1 + (d.mentions.map (weight hwf)).sum))

theorem weighs_weight : Weighs ds (weight hwf) where
  plain n hn := by
    have hnone : declaring ds n = [] :=
      List.eq_nil_iff_forall_not_mem.mpr fun d hd =>
        hn d (mem_declaring.mp hd).1 (mem_declaring.mp hd).2
    rw [weight_eq, hnone]
    rfl
  typedef d hd := by
    have hle := List.single_le_sum (fun _ _ => Nat.zero_le _) _
      (List.mem_map_of_mem (f := fun d => 1 + (d.mentions.map (weight hwf)).sum)
        (mem_declaring.mpr ⟨hd, rfl⟩))
    rw [weight_eq hwf d.name]
    omega

end Weight

namespace Weighs

theorem weight_le (hn : n ∈ ns) : W n ≤ (ns.map W).sum :=
  List.single_le_sum (fun _ _ => Nat.zero_le _) _ (List.mem_map_of_mem hn)

variable (hW : Weighs ds W) (hd : d ∈ ds)
include hW hd

/-- Nothing is a typedef for itself. -/
theorem type_ne_name : d.type ≠ d.name := by
  intro hself
  have hmentions : d.mentions = [d.name] :=
    hself ▸ d.plain.of_word (hself ▸ d.isName.isWord)
  have hlt := hW.typedef d hd
  simp [hmentions] at hlt

theorem varargs_lt : W CType.varargs < W d.name := by
  have hnone : W CType.varargs = 0 := by
    refine hW.plain _ fun d' _ hname => ?_
    exact absurd (hname ▸ d'.isName) (by decide)
  have hlt := hW.typedef d hd
  omega

end Weighs

end PlainTypedef

namespace ScopeGraph

open CType PlainTypedef

variable {g : ScopeGraph} {ds : List PlainTypedef} {resolve : CType → Except Fault CType}
  {W : Text → Nat} {t u v f b : Text} {ns ms : List Text}

/-- The base of `t` weighs more than the base of `u`, or they have the same base under as many
elements. -/
def Above (W : Text → Nat) (t u : CType) : Prop :=
  ∃ fs b gs c, Composed t fs b ∧ Composed u gs c ∧ (W c < W b ∨ c = b ∧ gs.length = fs.length)

namespace Above

theorem trans (h : Above W t u) (h' : Above W u v) : Above W t v := by
  obtain ⟨fs, b, gs, c, ht, hu, hbase⟩ := h
  obtain ⟨gs', c', hs, e, hu', hv, hbase'⟩ := h'
  obtain ⟨rfl, rfl⟩ := hu.unique hu'
  refine ⟨fs, b, hs, e, ht, hv, ?_⟩
  rcases hbase with hless | ⟨rfl, hlength⟩
  · rcases hbase' with hless' | ⟨rfl, -⟩
    · exact Or.inl (hless'.trans hless)
    · exact Or.inl hless
  · exact hbase'.imp_right fun h => ⟨h.1, h.2.trans hlength⟩

/-- The loop never takes the later type for one that grows around the earlier one. -/
theorem wraps (h : Above W t u) : CType.wraps u t = .ok false := by
  obtain ⟨fs, b, gs, c, ht, hu, hbase⟩ := h
  have hwraps := wraps_of_outline hu.outline ht.outline
  cases hcase : Outline.wraps ⟨u.measured, gs.length + 1, c.measured⟩
      ⟨t.measured, fs.length + 1, b.measured⟩ with
  | false => rw [hwraps, hcase]
  | true =>
    rw [hcase] at hwraps
    obtain ⟨hlength, rfl⟩ := (hu.wraps_iff ht).mp hwraps
    omega

theorem under (h : Above W t u) (hf : Dotted f) : Above W (f ++ t) (f ++ u) := by
  obtain ⟨fs, b, gs, c, ht, hu, hbase⟩ := h
  exact ⟨_, b, _, c, ht.cons hf, hu.cons hf, hbase.imp_right fun h => ⟨h.1, by simp [h.2]⟩⟩

/-- An element in place of another. -/
theorem of_front {e : Text} (hf : Dotted f) (he : Dotted e) (ht : Mentions t ns) :
    Above W (f ++ t) (e ++ t) := by
  obtain ⟨fs, b, hcomposed, -, -⟩ := ht.composed
  exact ⟨_, b, _, b, hcomposed.cons hf, hcomposed.cons he, Or.inr ⟨rfl, by simp⟩⟩

end Above

/-- What one expansion does to a text with the words `ns`: nothing, and none of them is a typedef,
or it comes to a good text whose words weigh less together. -/
inductive Progress (g : ScopeGraph) (resolve : CType → Except Fault CType) (ds : List PlainTypedef)
    (W : Text → Nat) (good : CType → List Text → Prop) (t : CType) (ns : List Text) : Prop
  | spent (h : g.expandType resolve t = .ok none) (hns : ∀ n ∈ ns, ∀ d ∈ ds, d.name ≠ n) :
      Progress g resolve ds W good t ns
  | lowered {u : CType} {ms : List Text} (h : g.expandType resolve t = .ok (some u))
      (hgood : good u ms) (hless : (ms.map W).sum < (ns.map W).sum) :
      Progress g resolve ds W good t ns

/-- A type is expanded to a type that is built from plain words again, and its base becomes
lighter if it changes. -/
abbrev Lightens (g : ScopeGraph) (resolve : CType → Except Fault CType) (ds : List PlainTypedef)
    (W : Text → Nat) (t : CType) (ns : List Text) : Prop :=
  Progress g resolve ds W (fun u ms => Mentions u ms ∧ Above W t u) t ns

/-- In front of a type the element adds the words `ms`. -/
structure Adds (f : Text) (ms : List Text) : Prop where
  front : IsFront f
  mentions : ∀ {t : CType} {ns : List Text}, Mentions t ns → Mentions (f ++ t) (ms ++ ns)

theorem adds_nameless {c : Constructor} (hc : c.IsNameless) : Adds c.text [] :=
  ⟨.nameless hc, fun ht => .nameless hc ht⟩

theorem adds_memberPointer {owner : CType} (ho : Mentions owner ms) :
    Adds (written 'm' owner) ms :=
  ⟨.memberPointer ho.listable.balanced, fun ht => .memberPointer ho ht⟩

theorem adds_function {ps : List (CType × List Text)} (hps : ∀ p ∈ ps, Mentions p.1 p.2) :
    Adds (written 'f' (Text.commaJoin (ps.map (·.1)))) (ps.map (·.2)).flatten :=
  ⟨.function (Mentions.balanced_parameters hps), fun ht => .function hps ht⟩

section Fronts

variable {owner : CType} {ps : List (CType × List Text)}

theorem nameless_progress {c : Constructor} (hc : c.IsNameless) :
    Progress g resolve ds W Adds c.text [] :=
  .spent (expandType_nameless hc) (List.forall_mem_nil _)

theorem memberPointer_progress (ho : Mentions owner ms) (h : Lightens g resolve ds W owner ms) :
    Progress g resolve ds W Adds (written 'm' owner) ms := by
  have hexpand : g.expandType resolve (written 'm' owner) =
      (g.expandType resolve owner).map fun r => r.map (written 'm') :=
    expandType_memberPointer ho.listable.balanced ho.less_notMem
  cases h with
  | spent h hns =>
    refine .spent ?_ hns
    rw [hexpand, h]
    rfl
  | @lowered u ms' h hgood hless =>
    refine .lowered (u := written 'm' u) ?_ (adds_memberPointer hgood.1) hless
    rw [hexpand, h]
    rfl

/-- Either no parameter changes, or there is a first one that does. -/
theorem parameters_cases (h : ∀ p ∈ ps, Lightens g resolve ds W p.1 p.2) :
    (∀ p ∈ ps, g.expandType resolve p.1 = .ok none ∧ ∀ n ∈ p.2, ∀ d ∈ ds, d.name ≠ n) ∨
    ∃ (before after : List (CType × List Text)) (p q : CType × List Text),
      ps = before ++ p :: after ∧ (∀ p ∈ before, g.expandType resolve p.1 = .ok none) ∧
      g.expandType resolve p.1 = .ok (some q.1) ∧ Mentions q.1 q.2 ∧
      (q.2.map W).sum < (p.2.map W).sum := by
  induction ps with
  | nil => exact Or.inl (List.forall_mem_nil _)
  | cons p ps ih =>
    obtain ⟨hp, hps⟩ := List.forall_mem_cons.mp h
    cases hp with
    | spent hp hns =>
      rcases ih hps with hall | ⟨before, after, p', q, rfl, hbefore, hq⟩
      · exact Or.inl (List.forall_mem_cons.mpr ⟨⟨hp, hns⟩, hall⟩)
      · exact Or.inr ⟨p :: before, after, p', q, rfl, List.forall_mem_cons.mpr ⟨hp, hbefore⟩, hq⟩
    | @lowered u ms hp hgood hless =>
      exact Or.inr ⟨[], ps, p, (u, ms), rfl, List.forall_mem_nil _, hp, hgood.1, hless⟩

theorem function_progress (hps : ∀ p ∈ ps, Mentions p.1 p.2)
    (h : ∀ p ∈ ps, Lightens g resolve ds W p.1 p.2) :
    Progress g resolve ds W Adds (written 'f' (Text.commaJoin (ps.map (·.1))))
      (ps.map (·.2)).flatten := by
  have hlistable : ∀ p ∈ ps.map (·.1), Listable p :=
    List.forall_mem_map.mpr fun p hp => (hps p hp).listable
  have hne : ∀ p ∈ ps.map (·.1), p ≠ [] := List.forall_mem_map.mpr fun p hp => (hps p hp).ne_nil
  have hless : ∀ p ∈ ps.map (·.1), '<' ∉ p :=
    List.forall_mem_map.mpr fun p hp => (hps p hp).less_notMem
  rcases parameters_cases h with hall | ⟨before, after, p, q, rfl, hbefore, hp, hq, hlower⟩
  · refine .spent (expandType_function_none hlistable hne hless
      (List.forall_mem_map.mpr fun p hp => (hall p hp).1)) fun n hn => ?_
    obtain ⟨ns, hns, hn⟩ := List.mem_flatten.mp hn
    obtain ⟨p, hp, rfl⟩ := List.mem_map.mp hns
    exact (hall p hp).2 n hn
  · have hqs : ∀ p ∈ before ++ q :: after, Mentions p.1 p.2 := by
      obtain ⟨hfirst, hrest⟩ := List.forall_mem_append.mp hps
      exact List.forall_mem_append.mpr
        ⟨hfirst, List.forall_mem_cons.mpr ⟨hq, (List.forall_mem_cons.mp hrest).2⟩⟩
    refine .lowered ?_ (adds_function hqs) ?_
    · rw [List.map_append, List.map_cons] at hlistable hne hless ⊢
      rw [List.map_append, List.map_cons]
      exact expandType_function_some _ _ hlistable hne hless (List.forall_mem_map.mpr hbefore) hp
    · simpa using hlower

/-- Behind an element stands a type that is expanded first. -/
theorem under_lightens (hnil : g.expandType resolve [] = .ok none) (hf : Adds f ms)
    (hfront : Progress g resolve ds W Adds f ms) (ht : Mentions t ns)
    (h : Lightens g resolve ds W t ns) : Lightens g resolve ds W (f ++ t) (ms ++ ns) := by
  obtain ⟨fs, b, hcomposed, hfs, -⟩ := ht.composed
  have hexpand := expandType_under hnil hf.front hcomposed hfs
  -- The element gets its turn only where the type behind it has nothing left to expand.
  cases h with
  | @lowered u ns' h hgood hless =>
    refine .lowered (u := f ++ u) ?_ ⟨hf.mentions hgood.1, hgood.2.under hf.front.dotted⟩ ?_
    · rw [hexpand, h]
      rfl
    · simpa using hless
  | spent h hns =>
    rw [h] at hexpand
    cases hfront with
    | spent hf hms =>
      refine .spent ?_ (List.forall_mem_append.mpr ⟨hms, hns⟩)
      rw [hexpand]
      show (g.expandType resolve f).map _ = _
      rw [hf]
      rfl
    | @lowered e ms' he hadds hless =>
      refine .lowered (u := e ++ t) ?_ ⟨hadds.mentions ht,
        .of_front hf.front.dotted hadds.front.dotted ht⟩ ?_
      · rw [hexpand]
        show (g.expandType resolve f).map _ = _
        rw [he]
        rfl
      · simpa using hless

end Fronts

namespace Flat

variable (hg : g.Flat ds) (hW : Weighs ds W)
include hg

theorem expandType_nil : g.expandType resolve [] = .ok none := by
  have hnone : (g.scope globalScope).typedefs.get? [] = none := by
    cases he : (g.scope globalScope).typedefs.get? [] with
    | none => rfl
    | some e =>
      obtain ⟨d, -, hname, -, -⟩ := hg.declared _ _ he
      exact absurd hname d.isName.1
  exact ScopeGraph.expandType_nil (hg.current ▸ hnone) (hg.current ▸ hg.lookup_eq_none hnone)

include hW

theorem word_lightens (hb : IsWord b) : Lightens g resolve ds W b [b] := by
  cases he : (g.scope globalScope).typedefs.get? b with
  | none =>
    refine .spent (expandType_undeclared hb (hg.current ▸ he) (hg.current ▸ hg.lookup_eq_none he))
      (List.forall_mem_singleton.mpr fun d hd hname => ?_)
    have hknown := hg.known d hd (hW.type_ne_name hd)
    obtain ⟨e, he'⟩ := Table.contains_iff.mp (hname ▸ hknown)
    cases he.symm.trans he'
  | some e =>
    obtain ⟨d, hd, rfl, htype, hne⟩ := hg.declared b e he
    have hexpand : g.expandType resolve d.name = .ok (some e.type) :=
      expandType_declared hb (hg.current ▸ he) (htype ▸ hne)
    have hsum := hW.typedef d hd
    obtain ⟨gs, c, hcomposed, -, hc⟩ := d.plain.composed
    have hless : W c < W d.name := by
      rcases hc with ⟨-, hc⟩ | rfl
      · exact (Weighs.weight_le hc).trans_lt hsum
      · exact hW.varargs_lt hd
    have hsingle : Composed d.name [] d.name :=
      ⟨rfl, List.forall_mem_nil _, elements_unbracketed hb.unbracketed hb.1, hb.1⟩
    exact .lowered (htype ▸ hexpand)
      ⟨d.plain, [], _, gs, c, hsingle, hcomposed, Or.inl hless⟩ (by simpa using hsum)

/-- One expansion makes a type lighter, or it has no typedef left in it. -/
theorem lightens (ht : Mentions t ns) : Lightens g resolve ds W t ns := by
  have hnil : g.expandType resolve [] = .ok none := hg.expandType_nil
  induction ht with
  | word hb => exact hg.word_lightens hW hb
  | varargs =>
    have hsingle : elements CType.varargs = .ok [CType.varargs] :=
      elements_of_past (by decide) (by decide)
    exact .spent (expandType_single hsingle) (List.forall_mem_nil _)
  | nameless hc ht ih => exact under_lightens hnil (adds_nameless hc) (nameless_progress hc) ht ih
  | function hps ht ihps ih =>
    exact under_lightens hnil (adds_function hps) (function_progress hps ihps) ht ih
  | memberPointer ho ht iho ih =>
    exact under_lightens hnil (adds_memberPointer ho) (memberPointer_progress ho iho) ht ih

/-- From a type that is below all earlier ones the loop goes on to a type with no typedef in it. -/
theorem trail_ends {ts : List CType} (ht : Mentions t ns) (hl : g.Trail (t :: ts))
    (hbelow : ∀ s ∈ ts, Above W s t ∧ ∃ ms, Mentions s ms ∧ (ns.map W).sum < (ms.map W).sum) :
    ∃ a u ms, g.Trail (a ++ t :: ts) ∧ (a ++ t :: ts).head? = some u ∧
      g.Expansion u (.ok none) ∧ Mentions u ms ∧ ∀ m ∈ ms, ∀ d ∈ ds, d.name ≠ m := by
  -- Every expansion lowers the weight of the words, so no earlier type comes back; what is below
  -- an earlier type does not wrap it either.
  induction hk : (ns.map W).sum using Nat.strongRecOn generalizing t ns ts with
  | ind k ih =>
    subst hk
    have hstep : Lightens (g.withBudget 0) ((g.withBudget 0).resolveTo .never 0) ds W t ns :=
      (hg.withBudget 0).lightens hW ht
    cases hstep with
    | spent h hns =>
      exact ⟨[], t, ns, hl, rfl, expansion_of_expandType h (by simp), ht, hns⟩
    | @lowered u ms h hgood hless =>
      have hnext : g.Becomes t u := expansion_of_expandType h (by simp)
      have hbelow' : ∀ s ∈ t :: ts,
          Above W s u ∧ ∃ ns', Mentions s ns' ∧ (ms.map W).sum < (ns'.map W).sum := by
        refine List.forall_mem_cons.mpr ⟨⟨hgood.2, ns, ht, hless⟩, fun s hs => ?_⟩
        obtain ⟨habove, ns', hs', hlight⟩ := hbelow s hs
        exact ⟨habove.trans hgood.2, ns', hs', hless.trans hlight⟩
      have hnew : u ∉ t :: ts := fun hu => by
        obtain ⟨-, ns', hu', hlight⟩ := hbelow' u hu
        rw [hgood.1.unique hu'] at hlight
        exact Nat.lt_irrefl _ hlight
      have hlonger := hl.cons hnext (fun s hs => (hbelow' s hs).1.wraps) hnew
      obtain ⟨a, v, ns', ha, hv, hend⟩ := ih _ hless hgood.1 hlonger hbelow' rfl
      exact ⟨a ++ [u], v, ns', by simpa using ha, by simpa using hv, hend⟩

end Flat

/-- Where typedefs do not mention each other in a circle, resolving a type comes to an end, and no
typedef is left in the result, be it as its base, in a function or as the class of a member
pointer. -/
theorem acyclic_typedefs_resolve (budget : Nat) (hwf : WellFounded (MentionedBy ds))
    (ht : Mentions t ns) :
    ∃ u ms, (PlainTypedef.graph budget ds).Resolves t (.ok u) ∧
      (PlainTypedef.graph budget ds).Expansion u (.ok none) ∧
      Mentions u ms ∧ ∀ m ∈ ms, ∀ d ∈ ds, d.name ≠ m := by
  obtain ⟨a, u, ms, hl, hu, hspent, hmentions, hnone⟩ := (flat_graph budget ds).trail_ends
    (weighs_weight hwf) ht (Trail.single _ t) (List.forall_mem_nil _)
  obtain ⟨l, heq⟩ := List.head?_eq_some_iff.mp hu
  have hlast : (a ++ [t]).getLast? = some t := by simp
  exact ⟨u, ms, resolves_iff_trail.mpr ⟨_, hl, hlast, heq ▸ .spent hspent⟩, hspent, hmentions,
    hnone⟩

/-- `A` is a function of `B` and a pointer to members of `B`. -/
def nestedTypedefs : List PlainTypedef :=
  [{ name := "B".toList
     type := "K".toList
     mentions := ["K".toList]
     isName := by decide
     plain := .word (by decide) },
   { name := "A".toList
     type := "f(B,v(...)).m(B).int".toList
     mentions := ["B".toList, "B".toList, "int".toList]
     isName := by decide
     plain := @Mentions.function [("B".toList, ["B".toList]), (CType.varargs, [])] _ _
       (List.forall_mem_cons.mpr ⟨.word (by decide), List.forall_mem_singleton.mpr .varargs⟩)
       (.memberPointer (.word (b := "B".toList) (by decide))
         (.word (b := "int".toList) (by decide))) }]

theorem nested_typedefs_resolve : ∃ ms,
    (PlainTypedef.graph 5 nestedTypedefs).Resolves "p.A".toList
      (.ok "p.f(K,v(...)).m(K).int".toList) ∧
    (PlainTypedef.graph 5 nestedTypedefs).Expansion "p.f(K,v(...)).m(K).int".toList (.ok none) ∧
    Mentions "p.f(K,v(...)).m(K).int".toList ms ∧
    ∀ m ∈ ms, ∀ d ∈ nestedTypedefs, d.name ≠ m := by
  let height (n : Text) : Nat := if n = "A".toList then 2 else if n = "B".toList then 1 else 0
  have hheight : ∀ d ∈ nestedTypedefs, ∀ m ∈ d.mentions, height m < height d.name := by decide
  have hwf := wellFounded_mentionedBy height hheight
  have ht : Mentions "p.A".toList ["A".toList] :=
    .nameless (c := .pointer) trivial (.word (b := "A".toList) (by decide))
  obtain ⟨u, ms, hu, hspent, hmentions, hnone⟩ := acyclic_typedefs_resolve 5 hwf ht
  have hresolve : (PlainTypedef.graph 5 nestedTypedefs).resolve "p.A".toList =
      .ok "p.f(K,v(...)).m(K).int".toList := by decide +kernel
  obtain rfl := Except.ok.inj
    (Settles.unique hu ((resolves_iff_resolve (by simp)).mpr ⟨5, hresolve⟩))
  exact ⟨ms, hu, hspent, hmentions, hnone⟩

end ScopeGraph

end BindingTypes

import BindingTypes.Proofs.CType.Listing
import BindingTypes.Proofs.CType.Nameless
import BindingTypes.Proofs.Scope.Vocabulary

namespace BindingTypes.CType

/-- The type is built from plain words by pointers, references, arrays, qualifiers, functions and
member pointers, and these are all the words in it: its base, those in the parameters of functions,
and those in the classes of member pointers. -/
inductive Mentions : CType → List Text → Prop
  | word {b : Text} (hb : IsWord b) : Mentions b [b]
  | varargs : Mentions varargs []
  | nameless {c : Constructor} {t : CType} {ns : List Text} (hc : c.IsNameless)
      (ht : Mentions t ns) : Mentions (c.text ++ t) ns
  | function {ps : List (CType × List Text)} {t : CType} {ns : List Text}
      (hps : ∀ p ∈ ps, Mentions p.1 p.2) (ht : Mentions t ns) :
      Mentions ((Constructor.function (ps.map (·.1))).text ++ t) ((ps.map (·.2)).flatten ++ ns)
  | memberPointer {owner t : CType} {ms ns : List Text} (ho : Mentions owner ms)
      (ht : Mentions t ns) : Mentions ((Constructor.memberPointer owner).text ++ t) (ms ++ ns)

/-- An element in front of a base, as such types have it. -/
inductive IsFront : Text → Prop
  | nameless {c : Constructor} (hc : c.IsNameless) : IsFront c.text
  | function {x : Text} (hx : Balanced x) : IsFront (written 'f' x)
  | memberPointer {x : Text} (hx : Balanced x) : IsFront (written 'm' x)

variable {c : Constructor} {e f t u b x y : Text} {fs ps : List Text} {ns ms : List Text}

theorem IsFront.dotted (h : IsFront f) : Dotted f := by
  cases h with
  | nameless hc => exact hc.dotted
  | function hx => exact dotted_written (by decide) hx
  | memberPointer hx => exact dotted_written (by decide) hx

theorem Dotted.append_inj (h : Dotted e) (h' : Dotted f) (heq : e ++ t = f ++ u) :
    e = f ∧ t = u := by
  have hcut : cutElement .zero (e ++ t) = .ok (f, u) := heq ▸ h'.cut u
  exact Prod.mk.inj (Except.ok.inj ((h.cut t).symm.trans hcut))

theorem written_right_inj {a : Char} (h : written a x = written a y) : x = y := by
  simpa [written] using h

theorem Composed.cons (h : Composed t fs b) (hf : Dotted f) : Composed (f ++ t) (f :: fs) b where
  eq := by rw [h.eq, List.flatten_cons, List.append_assoc]
  dotted := List.forall_mem_cons.mpr ⟨hf, h.dotted⟩
  single := h.single
  ne_nil := h.ne_nil

theorem Constructor.IsNameless.listable (h : c.IsNameless) : Listable c.text := by
  cases c with
  | pointer => exact Listable.of_plain (by simp [Constructor.text])
  | reference => exact Listable.of_plain (by simp [Constructor.text])
  | array text => exact Listable.written (by decide) (balanced_of_unbracketed h)
  | qualifier text => exact Listable.written (by decide) (balanced_of_unbracketed h)
  | function ps => cases h
  | memberPointer owner => cases h

theorem Constructor.IsNameless.text_ne {a : Char} (h : c.IsNameless) (ha : a ∉ "praq".toList) :
    c.text ++ t ≠ a :: u := by
  intro heq
  cases c <;> first | exact ha ((List.cons.inj heq).1 ▸ by decide) | cases h

theorem notMem_commaJoin {a : Char} (ha : a ≠ ',') (h : ∀ p ∈ ps, a ∉ p) :
    a ∉ Text.commaJoin ps :=
  Text.commaJoin_of_forall (P := (a ∉ ·)) List.not_mem_nil List.not_mem_append
    (fun hm => ha (List.mem_singleton.mp hm)) h

theorem listable_word (h : IsWord b) : Listable b := by
  refine Listable.of_plain fun a ha => ⟨?_, ?_, ?_⟩
  · rintro rfl
    rcases h.2.1 _ ha with hc | hc <;> cases hc
  · rintro rfl
    exact h.unbracketed _ ha (by decide)
  · rintro rfl
    exact h.unbracketed _ ha (by decide)

namespace Mentions

theorem ne_nil (h : Mentions t ns) : t ≠ [] := by
  cases h with
  | word hb => exact hb.1
  | varargs => decide
  | nameless hc ht =>
    have hne := hc.dotted.ne_nil
    simp [hne]
  | function hps ht => simp [Constructor.text, written]
  | memberPointer ho ht => simp [Constructor.text, written]

theorem listable (h : Mentions t ns) : Listable t := by
  induction h with
  | word hb => exact listable_word hb
  | varargs =>
    have hletter : Listable ['v'] := .of_plain (by simp)
    have hdots : Listable ('(' :: ("...".toList ++ [')'])) := .group (by decide)
    exact hletter.append hdots
  | nameless hc ht ih => exact hc.listable.append ih
  | @function ps t ns hps ht ihps ih =>
    have hjoined : Balanced (Text.commaJoin (ps.map (·.1))) :=
      balanced_commaJoin (List.forall_mem_map.mpr fun p hp => (ihps p hp).balanced)
    exact (Listable.written (by decide) hjoined).append ih
  | memberPointer ho ht iho ih => exact (Listable.written (by decide) iho.balanced).append ih

theorem less_notMem (h : Mentions t ns) : '<' ∉ t := by
  induction h with
  | word hb => exact notMem_less_of_unbracketed hb.unbracketed
  | varargs => decide
  | nameless hc ht ih => exact List.not_mem_append hc.less_notMem ih
  | @function ps t ns hps ht ihps ih =>
    have hjoined : '<' ∉ Text.commaJoin (ps.map (·.1)) :=
      notMem_commaJoin (by decide) (List.forall_mem_map.mpr ihps)
    simp [Constructor.text, written, hjoined, ih]
  | memberPointer ho ht iho ih => simp [Constructor.text, written, iho, ih]

theorem isTemplate (h : Mentions t ns) : isTemplate t = false := by
  have hcut : t.cut? "<(".toList = none := cut?_eq_none_of_notMem h.less_notMem
  rw [CType.isTemplate, Text.has, hcut]
  rfl

/-- A word mentions itself only. -/
theorem of_word (h : Mentions t ns) (ht : IsWord t) : ns = [t] := by
  have hdot : ∀ {c : Constructor} {u : Text}, c.text ++ u = t → False := by
    intro c u htext
    have hm : '.' ∈ t := htext ▸ List.mem_append_left u (dot_mem_text c)
    exact ht.unbracketed _ hm (by decide)
  cases h with
  | word hb => rfl
  | varargs => exact absurd (by decide) (ht.unbracketed '.' (by decide))
  | nameless hc ht => exact (hdot rfl).elim
  | function hps ht => exact (hdot rfl).elim
  | memberPointer ho ht => exact (hdot rfl).elim

theorem of_varargs (h : Mentions t ns) (ht : t = CType.varargs) : ns = [] := by
  cases h with
  | word hb => exact absurd hb (ht ▸ by decide)
  | varargs => rfl
  | nameless hc hu => exact absurd ht (hc.text_ne (by decide : 'v' ∉ _))
  | function hps hu => cases ht
  | memberPointer ho hu => cases ht

section Parameters

variable {ps qs : List (CType × List Text)} (hps : ∀ p ∈ ps, Mentions p.1 p.2)
include hps

theorem balanced_parameters : Balanced (Text.commaJoin (ps.map (·.1))) :=
  balanced_commaJoin (List.forall_mem_map.mpr fun p hp => (hps p hp).listable.balanced)

theorem listed_parameters : listed (Text.commaJoin (ps.map (·.1))) = ps.map (·.1) :=
  listed_commaJoin (List.forall_mem_map.mpr fun p hp => (hps p hp).listable)
    (List.forall_mem_map.mpr fun p hp => (hps p hp).ne_nil)

theorem dotted_function : Dotted (Constructor.function (ps.map (·.1))).text :=
  dotted_written (by decide) (balanced_parameters hps)

omit hps

/-- Parameters are the same where their texts are, if the texts of the ones determine the words. -/
theorem eq_of_texts (hunique : ∀ p ∈ ps, ∀ {ms}, Mentions p.1 ms → p.2 = ms)
    (hqs : ∀ q ∈ qs, Mentions q.1 q.2) (h : ps.map (·.1) = qs.map (·.1)) : ps = qs := by
  induction ps generalizing qs with
  | nil => exact (List.map_eq_nil_iff.mp h.symm).symm
  | cons p ps ih =>
    obtain ⟨q, qs, rfl, hq, hrest⟩ := List.map_eq_cons_iff.mp h.symm
    obtain ⟨hp, hunique⟩ := List.forall_mem_cons.mp hunique
    obtain ⟨hmentions, hqs⟩ := List.forall_mem_cons.mp hqs
    have htext : q.1 = p.1 := hq
    rw [ih hunique hqs hrest.symm, Prod.ext htext.symm (hp (htext ▸ hmentions))]

end Parameters

theorem dotted_memberPointer {owner : CType} (h : Mentions owner ns) :
    Dotted (Constructor.memberPointer owner).text :=
  dotted_written (by decide) h.listable.balanced

/-- The text of a type determines the words in it. -/
theorem unique (h : Mentions t ns) (h' : Mentions t ms) : ns = ms := by
  -- Two readings begin with the same element, as the letter in front tells the constructors apart.
  induction h generalizing ms with
  | word hb => exact (h'.of_word hb).symm
  | varargs => exact (h'.of_varargs rfl).symm
  | @nameless c t ns hc ht ih =>
    generalize hu : c.text ++ t = u at h'
    cases h' with
    | word hb => exact hu ▸ (Mentions.nameless hc ht).of_word (hu ▸ hb)
    | varargs => exact (Mentions.nameless hc ht).of_varargs hu
    | nameless hc' ht' =>
      obtain ⟨-, rfl⟩ := hc.dotted.append_inj hc'.dotted hu
      exact ih ht'
    | function hps' ht' => exact absurd hu (hc.text_ne (by decide : 'f' ∉ _))
    | memberPointer ho' ht' => exact absurd hu (hc.text_ne (by decide : 'm' ∉ _))
  | @function ps t ns hps ht ihps ih =>
    generalize hu : (Constructor.function (ps.map (·.1))).text ++ t = u at h'
    cases h' with
    | word hb => exact hu ▸ (Mentions.function hps ht).of_word (hu ▸ hb)
    | varargs => exact (Mentions.function hps ht).of_varargs hu
    | nameless hc ht' => exact absurd hu.symm (hc.text_ne (by decide : 'f' ∉ _))
    | @function qs t' _ hqs ht' =>
      obtain ⟨htext, rfl⟩ := (dotted_function hps).append_inj (dotted_function hqs) hu
      have htexts : ps.map (·.1) = qs.map (·.1) := by
        rw [← listed_parameters hps, ← listed_parameters hqs, written_right_inj htext]
      rw [eq_of_texts ihps hqs htexts, ih ht']
    | memberPointer ho' ht' => cases hu
  | @memberPointer owner t ms ns ho ht iho ih =>
    generalize hu : (Constructor.memberPointer owner).text ++ t = u at h'
    cases h' with
    | word hb => exact hu ▸ (Mentions.memberPointer ho ht).of_word (hu ▸ hb)
    | varargs => exact (Mentions.memberPointer ho ht).of_varargs hu
    | nameless hc ht' => exact absurd hu.symm (hc.text_ne (by decide : 'm' ∉ _))
    | function hps' ht' => cases hu
    | memberPointer ho' ht' =>
      obtain ⟨htext, rfl⟩ := (dotted_memberPointer ho).append_inj (dotted_memberPointer ho') hu
      obtain rfl := written_right_inj htext
      rw [iho ho', ih ht']

/-- The base is one of the words, or the dots that end a parameter list. -/
theorem composed (h : Mentions t ns) : ∃ fs b, Composed t fs b ∧ (∀ f ∈ fs, IsFront f) ∧
    (IsWord b ∧ b ∈ ns ∨ b = CType.varargs) := by
  induction h with
  | @word b hb =>
    have hsingle : Composed b [] b :=
      ⟨rfl, List.forall_mem_nil _, elements_unbracketed hb.unbracketed hb.1, hb.1⟩
    exact ⟨[], b, hsingle, List.forall_mem_nil _, Or.inl ⟨hb, List.mem_singleton_self b⟩⟩
  | varargs =>
    have hsingle : Composed CType.varargs [] CType.varargs :=
      ⟨rfl, List.forall_mem_nil _, elements_of_past (by decide) (by decide), by decide⟩
    exact ⟨[], _, hsingle, List.forall_mem_nil _, Or.inr rfl⟩
  | nameless hc ht ih =>
    obtain ⟨fs, b, hcomposed, hfs, hb⟩ := ih
    exact ⟨_, b, hcomposed.cons hc.dotted, List.forall_mem_cons.mpr ⟨.nameless hc, hfs⟩, hb⟩
  | function hps ht _ ih =>
    obtain ⟨fs, b, hcomposed, hfs, hb⟩ := ih
    have hf : IsFront _ := .function (balanced_parameters hps)
    exact ⟨_, b, hcomposed.cons hf.dotted, List.forall_mem_cons.mpr ⟨hf, hfs⟩,
      hb.imp_left fun hb => ⟨hb.1, List.mem_append_right _ hb.2⟩⟩
  | memberPointer ho ht _ ih =>
    obtain ⟨fs, b, hcomposed, hfs, hb⟩ := ih
    have hf : IsFront _ := .memberPointer ho.listable.balanced
    exact ⟨_, b, hcomposed.cons hf.dotted, List.forall_mem_cons.mpr ⟨hf, hfs⟩,
      hb.imp_left fun hb => ⟨hb.1, List.mem_append_right _ hb.2⟩⟩

end Mentions

end BindingTypes.CType

import BindingTypes.Proofs.Declaration.Brackets
import BindingTypes.Proofs.Declaration.Grammar

namespace BindingTypes.Declaration

open CType

/-- The text ends as a name does. -/
def EndsName (t : Text) : Prop := ∃ c, t.getLast? = some c ∧ c ≠ '.' ∧ c ≠ ' '

/-- A type whose parentheses close and which is spelled, as far as `matching` and `strict` ask. -/
structure Typed (matching strict : Prop) (t : CType) : Prop where
  ends : EndsName t
  listable : matching → Listable t
  spelled : matching → strict → ∃ s, spelling t = .ok s

/-- What may stand in front of a type. -/
structure Constructs (matching strict : Prop) (c : CType) : Prop where
  dotted : c = [] ∨ c.getLast? = some '.'
  typed : ∀ t, Typed matching strict t → Typed matching strict (c ++ t)

/-- A name with its template arguments. -/
structure Named (matching strict : Prop) (b : Text) : Prop where
  ends : EndsName b
  listable : matching → Listable b
  past : matching → Depth.zero.past b = some .zero
  spelled : matching → strict → ∃ s, nameSpelling b = .ok s

/-- A template argument, which is read as a list of types where it is copied text. -/
structure Argument (matching strict : Prop) (a : Text) : Prop where
  balanced : matching → Balanced a
  spelled : matching → strict → ∀ p ∈ listed a, ∃ s, spelling p = .ok s

/-- A component of a name, with or without another one behind it. -/
structure Component (matching strict : Prop) (w : Text) : Prop where
  named : Named matching strict w
  extended : ∀ b, Named matching strict b → Named matching strict (w ++ "::".toList ++ b)

variable {matching strict : Prop} {t e b w back x source : Text} {c d : CType} {letter : Char}
  {args types : List CType} {ws parts : List Text}

section Names

theorem EndsName.append (h : EndsName t) (w : Text) : EndsName (w ++ t) := by
  obtain ⟨c, hlast, hc⟩ := h
  exact ⟨c, by simp [List.getLast?_append, hlast], hc⟩

theorem EndsName.ne_nil (h : EndsName t) : t ≠ [] := by
  rintro rfl
  obtain ⟨c, hlast, -⟩ := h
  cases hlast

theorem EndsName.not_dot (h : EndsName t) : t.getLast? ≠ some '.' := by
  obtain ⟨c, hlast, hdot, -⟩ := h
  rw [hlast]
  exact fun h => hdot (Option.some.inj h)

theorem EndsName.not_blank (h : EndsName t) : t.getLast? ≠ some ' ' := by
  obtain ⟨c, hlast, -, hblank⟩ := h
  rw [hlast]
  exact fun h => hblank (Option.some.inj h)

theorem endsName_of_chars (hne : w ≠ []) (h : ∀ c ∈ w, isIdentChar c = true) : EndsName w := by
  have hlast := List.getLast?_eq_some_getLast hne
  have hchar := h _ (List.getLast_mem hne)
  refine ⟨w.getLast hne, hlast, fun hdot => ?_, fun hblank => ?_⟩
  · rw [hdot] at hchar
    cases hchar
  · rw [hblank] at hchar
    cases hchar

theorem templateParts_append {found : Option TemplateParts} (hw : '<' ∉ w)
    (h : templateParts t = .ok found) : templateParts (w ++ t) =
      .ok (found.map fun parts => { parts with stem := w ++ parts.stem }) := by
  have hcut : (w ++ t).cut? "<(".toList = (t.cut? "<(".toList).map fun r => (w ++ r.1, r.2) :=
    cut?_of_notMem hw
  obtain ⟨hnone, rfl⟩ | ⟨own, opened, rfl, hown, hclose⟩ := templateParts_eq_ok_iff.mp h
  · exact templateParts_eq_ok_iff.mpr (Or.inl ⟨by rw [hcut, hnone]; rfl, rfl⟩)
  · exact templateParts_eq_ok_some_iff.mpr ⟨opened, by rw [hcut, hown]; rfl, hclose⟩

/-- Words before a name change nothing about its template arguments. -/
theorem nameSpelling_append (hw : '<' ∉ w) (h : ∃ s, nameSpelling t = .ok s) :
    ∃ s, nameSpelling (w ++ t) = .ok s := by
  obtain ⟨parts, hparts, hargs⟩ := nameSpelling_returns_iff.mp h
  refine nameSpelling_returns_iff.mpr ⟨_, templateParts_append hw hparts, fun ps hps => ?_⟩
  obtain ⟨ps', rfl, rfl⟩ := Option.map_eq_some_iff.mp hps
  exact hargs ps' rfl

theorem nameSpelling_angled (hw : '<' ∉ w) (hargs : ∀ a ∈ args, Argument True True a) :
    ∃ s, nameSpelling (w ++ angled args ++ back) = .ok s := by
  have hbalanced : ∀ a ∈ args, Balanced a := fun a ha => (hargs a ha).balanced trivial
  refine nameSpelling_returns_iff.mpr ⟨_, templateParts_angled hw hbalanced, fun ps hps p hp => ?_⟩
  cases hps
  rcases mem_listed_commaJoin hbalanced hp with rfl | ⟨a, ha, hp⟩
  · exact spelling_of_noOpening rfl (noOpening_of_notMem List.not_mem_nil)
  · exact (hargs a ha).spelled trivial trivial p hp

theorem less_notMem_of_isWording (h : isWording t = true) : '<' ∉ t :=
  notMem_of_isWording h (by decide)

theorem past_of_isWording (h : isWording t = true) : Depth.zero.past t = some .zero :=
  past_plain (unbracketed_of_isWording h)

namespace Named

theorem word (hw : isWording w = true) (hends : EndsName w) : Named matching strict w where
  ends := hends
  listable _ := listable_of_isWording hw
  past _ := past_of_isWording hw
  spelled _ _ := ⟨w, nameSpelling_plain (less_notMem_of_isWording hw)⟩

theorem behind (h : Named matching strict b) (hw : isWording w = true) :
    Named matching strict (w ++ b) where
  ends := h.ends.append w
  listable hm := (listable_of_isWording hw).append (h.listable hm)
  past hm := by rw [past_append, past_of_isWording hw, Option.bind_some, h.past hm]
  spelled hm hs := nameSpelling_append (less_notMem_of_isWording hw) (h.spelled hm hs)

theorem template (hw : isWording w = true) (hargs : ∀ a ∈ args, Argument matching strict a)
    (hends : EndsName (angled args ++ back)) (hlistable : matching → Listable back)
    (hpast : matching → Depth.zero.past back = some .zero) :
    Named matching strict (w ++ angled args ++ back) where
  ends := by
    rw [List.append_assoc]
    exact hends.append w
  listable hm :=
    ((listable_of_isWording hw).append (listable_angled fun a ha => (hargs a ha).balanced hm)).append
      (hlistable hm)
  past hm := by
    rw [past_append, past_append, past_of_isWording hw, Option.bind_some,
      past_angled (balanced_commaJoin fun a ha => (hargs a ha).balanced hm), Option.bind_some,
      hpast hm]
  spelled hm hs := nameSpelling_angled (less_notMem_of_isWording hw) fun a ha =>
    ⟨fun _ => (hargs a ha).balanced hm, fun _ _ => (hargs a ha).spelled hm hs⟩

theorem typed (h : Named matching strict b) : Typed matching strict b where
  ends := h.ends
  listable := h.listable
  spelled hm hs := by
    have hes := elements_of_past (h.past hm) h.ends.ne_nil
    refine (declare_returns_iff hes []).mpr (List.forall_mem_singleton.mpr fun _ => ?_)
    exact (mark_base_returns_iff (kind_base h.ends.not_dot)).mpr (h.spelled hm hs)

end Named

theorem Component.word (hw : isWording w = true) (hends : EndsName w) :
    Component matching strict w where
  named := .word hw hends
  extended _ hb := hb.behind (isWording_append hw (by decide))

theorem Component.template (hw : isWording w = true)
    (hargs : ∀ a ∈ args, Argument matching strict a) :
    Component matching strict (w ++ angled args) where
  named := by
    have hends : EndsName (angled args ++ []) := by
      rw [List.append_nil, angled_eq, ← List.cons_append]
      exact EndsName.append ⟨'>', rfl, by decide, by decide⟩ _
    have hnamed : Named matching strict (w ++ angled args ++ []) :=
      .template hw hargs hends (fun _ => .nil) fun _ => rfl
    rwa [List.append_nil] at hnamed
  extended b hb := by
    have hscope := hb.behind (w := "::".toList) (by decide)
    rw [List.append_assoc]
    exact .template hw hargs (hscope.ends.append _) hscope.listable hscope.past

theorem named_words (hne : parts ≠ []) (hparts : ∀ p ∈ parts, p ∈ builtinWords) :
    Named matching strict (List.intercalate [' '] parts) := by
  have hall : ∀ p ∈ builtinWords, p ≠ [] ∧ p.all isIdentChar = true := by decide
  have hchars : ∀ {p}, p ∈ builtinWords → ∀ c ∈ p, isIdentChar c = true := fun hp =>
    List.all_eq_true.mp (hall _ hp).2
  induction parts with
  | nil => exact absurd rfl hne
  | cons p parts ih =>
    obtain ⟨hp, hparts⟩ := List.forall_mem_cons.mp hparts
    have hw := isWording_of_chars (hchars hp)
    cases parts with
    | nil => simpa using Named.word hw (endsName_of_chars (hall p hp).1 (hchars hp))
    | cons q parts =>
      rw [List.intercalate_cons_cons]
      exact (ih (by simp) hparts).behind (isWording_append hw (by decide))

theorem named_canonicalBuiltin (hw : ∀ w ∈ ws, w ∈ builtinWords) :
    Named matching strict (canonicalBuiltin ws) := by
  obtain ⟨parts, hne, hparts, heq⟩ := canonicalBuiltin_parts hw
  rw [heq]
  exact named_words hne hparts

end Names

section Types

namespace Typed

theorem led (h : Typed matching strict t) (he : matching → Dotted e ∧ Listable e)
    (hmark : matching → strict → ∃ m, mark e = .ok m) : Typed matching strict (e ++ t) where
  ends := h.ends.append e
  listable hm := (he hm).2.append (h.listable hm)
  spelled hm hs := by
    obtain ⟨es, hes⟩ := elements_of_balanced (h.listable hm).balanced
    have hmarks := (declare_returns_iff hes []).mp (h.spelled hm hs)
    have helements := (he hm).1.elements t
    rw [hes] at helements
    exact (declare_returns_iff helements []).mpr
      (List.forall_mem_cons.mpr ⟨fun _ => hmark hm hs, hmarks⟩)

theorem argument (h : Typed matching strict t) : Argument matching strict t where
  balanced hm := (h.listable hm).balanced
  spelled hm hs := by
    have hlisted : listed (Text.commaJoin [t]) = [t] :=
      listed_commaJoin (List.forall_mem_singleton.mpr (h.listable hm))
        (List.forall_mem_singleton.mpr h.ends.ne_nil)
    rw [commaJoin_singleton] at hlisted
    rw [hlisted]
    exact List.forall_mem_singleton.mpr (h.spelled hm hs)

end Typed

theorem typed_varargs : Typed matching strict varargs where
  ends := ⟨')', rfl, by decide, by decide⟩
  listable _ := listable_varargs
  spelled _ _ := ⟨_, declare_varargs⟩

/-- Copied text in which no parenthesis follows an angle bracket holds no template. -/
theorem Argument.copied (hb : matching → Balanced w) (hno : matching → strict → NoOpening w) :
    Argument matching strict w where
  balanced := hb
  spelled hm hs p hp :=
    spelling_of_noOpening ((hb hm).listed p hp) ((hno hm hs).of_within (infix_of_mem_listed hp))

namespace Constructs

theorem nil : Constructs matching strict [] := ⟨Or.inl rfl, fun _ h => h⟩

theorem append (hc : Constructs matching strict c) (hd : Constructs matching strict d) :
    Constructs matching strict (c ++ d) where
  dotted := by
    rcases hd.dotted with rfl | hlast
    · simpa using hc.dotted
    · exact Or.inr (by simp [List.getLast?_append, hlast])
  typed t ht := by
    rw [List.append_assoc]
    exact hc.typed _ (hd.typed t ht)

theorem pointer : Constructs matching strict "p.".toList :=
  ⟨Or.inr rfl, fun _ h => h.led (fun _ => dotted_listable_pointer) fun _ _ => ⟨_, mark_pointer⟩⟩

theorem reference : Constructs matching strict "r.".toList :=
  ⟨Or.inr rfl, fun _ h => h.led (fun _ => dotted_listable_reference) fun _ _ => ⟨_, mark_reference⟩⟩

theorem written (hletter : letter ∈ "afqm".toList) (hx : matching → Balanced x)
    (hmark : matching → strict → ∃ m, mark (written letter x) = .ok m) :
    Constructs matching strict (CType.written letter x) :=
  ⟨Or.inr (getLast?_written letter x), fun _ h =>
    h.led (fun hm => dotted_listable_written hletter (hx hm)) hmark⟩

theorem array (hx : matching → Balanced x) : Constructs matching strict (CType.written 'a' x) :=
  written (by decide) hx fun hm _ => ⟨_, mark_array (hx hm)⟩

theorem qualifier (hx : matching → Balanced x) : Constructs matching strict (CType.written 'q' x) :=
  written (by decide) hx fun hm _ => ⟨_, mark_qualifier (hx hm)⟩

theorem memberPointer (hx : matching → Balanced x) : Constructs matching strict (CType.written 'm' x) :=
  written (by decide) hx fun hm _ => ⟨_, mark_memberPointer (hx hm)⟩

theorem function (h : ∀ p ∈ types, Typed matching strict p) :
    Constructs matching strict (CType.written 'f' (Text.commaJoin types)) := by
  have hlistable : matching → ∀ p ∈ types, Listable p := fun hm p hp => (h p hp).listable hm
  have hne : ∀ p ∈ types, p ≠ [] := fun p hp => (h p hp).ends.ne_nil
  refine written (by decide)
    (fun hm => balanced_commaJoin fun p hp => (hlistable hm p hp).balanced) fun hm hs => ?_
  obtain ⟨ss, hss⟩ := exists_forall₂ fun p hp => (h p hp).spelled hm hs
  exact ⟨_, mark_function (hlistable hm) hne hss⟩

theorem push (hc : Constructs matching strict c) (ht : Typed matching strict t) :
    Typed matching strict (push t c) := by
  rcases hc.dotted with rfl | hlast
  · exact ht
  · rw [push_of_dot hlast]
    exact hc.typed t ht

end Constructs

end Types

end BindingTypes.Declaration

import BindingTypes.Spelling
import BindingTypes.Proofs.CType.Listing
import Mathlib.Data.List.Forall2

namespace BindingTypes

theorem mapM_of_forall₂ {α β : Type} {f : α → Except Fault β} {l : List α} {bs : List β}
    (h : List.Forall₂ (fun a b => f a = .ok b) l bs) : l.mapM f = .ok bs := by
  induction h with
  | nil => rfl
  | cons hab _ ih =>
    rw [List.mapM_cons, hab, ih]
    rfl

theorem exists_forall₂ {α β : Type} {R : α → β → Prop} {l : List α} (h : ∀ a ∈ l, ∃ b, R a b) :
    ∃ bs, List.Forall₂ R l bs := by
  induction l with
  | nil => exact ⟨[], .nil⟩
  | cons a l ih =>
    obtain ⟨⟨b, hb⟩, hl⟩ := List.forall_mem_cons.mp h
    obtain ⟨bs, hbs⟩ := ih hl
    exact ⟨b :: bs, .cons hb hbs⟩

theorem exists_left_of_forall₂ {α β : Type} {R : α → β → Prop} {as : List α} {bs : List β}
    (h : List.Forall₂ R as bs) {b : β} (hb : b ∈ bs) : ∃ a ∈ as, R a b := by
  induction h with
  | nil => cases hb
  | @cons a b' as bs hab _ ih =>
    rcases List.mem_cons.mp hb with rfl | hb
    · exact ⟨a, List.mem_cons_self, hab⟩
    · obtain ⟨a', ha', hr⟩ := ih hb
      exact ⟨a', List.mem_cons_of_mem _ ha', hr⟩

/-- Two lists that are related to one list are equal where their items are. -/
theorem eq_of_forall₂ {α β : Type} {R S : α → β → Prop} {as as' : List α} {bs : List β}
    (h : List.Forall₂ R as bs) (h' : List.Forall₂ S as' bs)
    (heq : ∀ a ∈ as, ∀ a' ∈ as', ∀ b, R a b → S a' b → a = a') : as = as' := by
  induction h generalizing as' with
  | nil =>
    cases h'
    rfl
  | @cons a b as bs hab _ ih =>
    cases h' with
    | @cons a' _ as' _ hab' hrest =>
      rw [heq a List.mem_cons_self a' List.mem_cons_self b hab hab', ih hrest fun x hx y hy =>
        heq x (List.mem_cons_of_mem _ hx) y (List.mem_cons_of_mem _ hy)]

/-- Lists that are related to one list are related to each other. -/
theorem forall₂_through {α β γ : Type} {R : α → β → Prop} {S : α → γ → Prop} {T : β → γ → Prop}
    {as : List α} {bs : List β} {cs : List γ} (h : List.Forall₂ R as bs)
    (h' : List.Forall₂ S as cs) (hT : ∀ a b c, R a b → S a c → T b c) : List.Forall₂ T bs cs := by
  induction h generalizing cs with
  | nil =>
    cases h'
    exact .nil
  | cons hab _ ih =>
    cases h' with
    | cons hac hrest => exact .cons (hT _ _ _ hab hac) (ih hrest)

/-- A walk over bounded elements is one over the elements. -/
theorem mapM_of_values {α β : Type} {P : α → Prop} {f : α → Except Fault β}
    {l : List { a : α // P a }} {as : List α} {bs : List β} (hl : l.map (·.1) = as)
    (h : List.Forall₂ (fun a b => f a = .ok b) as bs) : (l.mapM fun a => f a.1) = .ok bs := by
  have hmap : (l.map (·.1)).mapM f = l.mapM fun a => f a.1 := List.mapM_map
  rw [← hmap, hl]
  exact mapM_of_forall₂ h

namespace CType

variable {letter : Char} {t x front back id : Text} {es ss : List Text} {ps args : List CType}
  {ms : List Mark}

/-- A declaration is put together from the marks of the elements. -/
theorem declare_of_elements (h : elements t = .ok es) (hes : varargs ∉ es)
    (hms : List.Forall₂ (fun e m => mark e = .ok m) es ms) (id : Text) :
    declare t id = .ok (assemble ms id).trimEnd := by
  obtain ⟨l, hl, hval⟩ := elementsWithin_of_elements h
  have hmark : List.Forall₂ (fun e m =>
      (if e = varargs then pure (.lead "...".toList) else mark e) = Except.ok m) es ms := by
    refine List.forall₂_iff_zip.mpr ⟨hms.length_eq, fun {e m} hem => ?_⟩
    have he : e ≠ varargs := by
      rintro rfl
      exact hes (List.of_mem_zip hem).1
    rw [if_neg he]
    exact (List.forall₂_iff_zip.mp hms).2 hem
  have hwalk := mapM_of_values hval hmark
  have hmarks : (l.mapM fun e => if e.1 = varargs then pure (.lead "...".toList)
      else markFrom e.1 fun p => declare p.1 []) = Except.ok ms := hwalk
  rw [declare, hl]
  show (l.mapM _ >>= _ : Except Fault Text) = _
  rw [hmarks]
  rfl

theorem declare_varargs : spelling varargs = .ok "...".toList := by
  have hpast : Depth.zero.past varargs = some .zero := rfl
  have helements := elements_of_past hpast (by decide)
  obtain ⟨l, hl, hval⟩ := elementsWithin_of_elements helements
  obtain ⟨e, rfl, he⟩ := List.map_eq_singleton_iff.mp hval
  rw [spelling, declare, hl]
  show ([e].mapM _ >>= _ : Except Fault Text) = _
  simp [he, assemble, Text.trimEnd, isBlank]
  rfl

/-- A last mark that is no suffix is written before the rest. -/
theorem assemble_concat {m : Mark} {s : Text} (hm : m = .lead s ∨ m = .operator s)
    (ms : List Mark) (out : Text) : assemble (ms ++ [m]) out = s ++ assemble ms out := by
  induction ms generalizing out with
  | nil => rcases hm with rfl | rfl <;> rfl
  | cons m' ms ih =>
    cases m' with
    | lead s' => exact ih _
    | suffix s' => exact ih _
    | operator s' =>
      have hnext : ((ms ++ [m]).head?.map Mark.isSuffix).getD false =
          (ms.head?.map Mark.isSuffix).getD false := by
        cases ms with
        | nil => rcases hm with rfl | rfl <;> rfl
        | cons m ms => rfl
      rw [List.cons_append, assemble, assemble, hnext, ih, ih]
      split <;> rfl

theorem assemble_lead (ms : List Mark) (s out : Text) :
    assemble (ms ++ [Mark.lead s]) out = s ++ assemble ms out :=
  assemble_concat (Or.inl rfl) ms out

section Kinds

theorem startsWith_written (c : Char) :
    (written letter x).startsWith [c, '('] = decide (c = letter) := by
  by_cases hc : c = letter <;> simp [Text.startsWith, Text.after?, written, hc]

theorem endsWith_written : (written letter x).endsWith ").".toList = true :=
  Text.endsWith_iff.mpr ⟨letter :: '(' :: x, by simp [written]⟩

theorem kind_written : Kind.of (written letter x) =
    if 'a' = letter then .array else if 'f' = letter then .function
    else if 'q' = letter then .qualifier else if 'm' = letter then .memberPointer else .base := by
  have hshort : written letter x ≠ "p.".toList ∧ written letter x ≠ "r.".toList := by
    constructor <;> simp [written]
  have hopens : ∀ c : Char, ((written letter x).startsWith [c, '('] &&
      (written letter x).endsWith ").".toList) = decide (c = letter) := by
    intro c
    rw [startsWith_written, endsWith_written, Bool.and_true]
  unfold Kind.of
  rw [if_neg hshort.1, if_neg hshort.2]
  show (if ((written letter x).startsWith ['a', '('] && _) = true then _
    else if ((written letter x).startsWith ['f', '('] && _) = true then _
    else if ((written letter x).startsWith ['q', '('] && _) = true then _
    else if ((written letter x).startsWith ['m', '('] && _) = true then _ else _) = _
  simp only [hopens, decide_eq_true_eq]

theorem kind_base (h : t.getLast? ≠ some '.') : Kind.of t = .base := by
  have hdot : ∀ s : Text, t ≠ s ++ ['.'] := by
    rintro s rfl
    exact h (by simp)
  have hshort : t ≠ "p.".toList ∧ t ≠ "r.".toList := ⟨hdot ['p'], hdot ['r']⟩
  have hends : t.endsWith ").".toList = false := by
    cases hends : t.endsWith ").".toList with
    | false => rfl
    | true =>
      obtain ⟨s, hs⟩ := Text.endsWith_iff.mp hends
      exact absurd (by rw [hs]; simp) (hdot (s ++ [')']))
  unfold Kind.of
  rw [if_neg hshort.1, if_neg hshort.2]
  simp only [hends, Bool.and_false, Bool.false_eq_true, if_false]

end Kinds

theorem argument_written (hletter : letter ≠ '(') (hx : Balanced x) :
    argument (written letter x) = .ok x := by
  rw [argument, group?_written hletter hx]
  rfl

theorem mark_pointer : mark "p.".toList = .ok (.operator ['*']) := rfl

theorem mark_reference : mark "r.".toList = .ok (.operator ['&']) := rfl

theorem mark_array (hx : Balanced x) :
    mark (written 'a' x) = .ok (.suffix ('[' :: x ++ [']'])) := by
  rw [mark, markFrom, kind_written]
  show (argument (written 'a' x) >>= _ : Except Fault Mark) = _
  rw [argument_written (by decide) hx]
  rfl

theorem mark_qualifier (hx : Balanced x) :
    mark (written 'q' x) = .ok (.lead (x ++ [' '])) := by
  rw [mark, markFrom, kind_written]
  show (argument (written 'q' x) >>= _ : Except Fault Mark) = _
  rw [argument_written (by decide) hx]
  rfl

theorem mark_memberPointer (hx : Balanced x) :
    mark (written 'm' x) = .ok (.operator (x ++ "::*".toList)) := by
  rw [mark, markFrom, kind_written]
  show (argument (written 'm' x) >>= _ : Except Fault Mark) = _
  rw [argument_written (by decide) hx]
  rfl

theorem mark_function (hps : ∀ p ∈ ps, Listable p) (hne : ∀ p ∈ ps, p ≠ [])
    (hss : List.Forall₂ (fun p s => spelling p = .ok s) ps ss) :
    mark (written 'f' (Text.commaJoin ps)) =
      .ok (.suffix ('(' :: Text.commaJoin ss ++ [')'])) := by
  have hbalanced := balanced_commaJoin fun p hp => (hps p hp).balanced
  have harguments : arguments (written 'f' (Text.commaJoin ps)) = .ok ps := by
    rw [arguments_written (by decide) hbalanced, listed_commaJoin hps hne]
  obtain ⟨l, hl, hval⟩ := argumentsWithin_of_arguments harguments
  rw [mark, markFrom, kind_written]
  show (argumentsWithin (written 'f' (Text.commaJoin ps)) >>= _ : Except Fault Mark) = _
  rw [hl]
  show (l.mapM (fun p => spelling p.1) >>= _ : Except Fault Mark) = _
  rw [mapM_of_values hval hss]
  rfl

theorem mark_base (h : t.getLast? ≠ some '.') {s : Text} (hs : nameSpelling t = .ok s) :
    mark t = .ok (.lead (s ++ [' '])) := by
  rw [mark, markFrom, kind_base h]
  show (nameSpelling t >>= _ : Except Fault Mark) = _
  rw [hs]
  rfl

theorem nameSpelling_plain (h : '<' ∉ t) : nameSpelling t = .ok t := by
  have hcut : t.cut? "<(".toList = none := cut?_eq_none_of_notMem h
  have htemplate : isTemplate t = false := by
    rw [isTemplate, Text.has, hcut]
    rfl
  rw [nameSpelling, nameFrom, templateWithin_of_isTemplate htemplate]
  rfl

/-- The first template arguments of a name are spelled in place. -/
theorem templateParts_angled (hfront : '<' ∉ front) (hargs : ∀ a ∈ args, Balanced a) :
    templateParts (front ++ angled args ++ back) =
      .ok (some ⟨front, Text.commaJoin args, back⟩) := by
  have hopen : ∀ u : Text, Text.cut? ('<' :: '(' :: u) "<(".toList = some ([], u) := by
    intro u
    simp [Text.cut?, Text.after?]
  have hblock : angled args ++ back =
      '<' :: '(' :: (Text.commaJoin args ++ ')' :: '>' :: back) := by simp [angled]
  have hclose := closeGroup_of_parensAfter (balanced_commaJoin hargs) ('>' :: back)
  have hcut : Text.cut? (front ++ angled args ++ back) "<(".toList =
      some (front, Text.commaJoin args ++ ')' :: '>' :: back) := by
    refine (congrArg (Text.cut? · _) (List.append_assoc ..)).trans ?_
    refine (cut?_of_notMem hfront).trans ?_
    rw [hblock]
    show ((Text.cut? _ "<(".toList).map _) = _
    rw [hopen]
    simp
  unfold templateParts
  rw [hcut]
  simp only [hclose]

theorem nameSpelling_template (hfront : '<' ∉ front) (hargs : ∀ a ∈ args, Listable a)
    (hne : ∀ a ∈ args, a ≠ []) (hss : List.Forall₂ (fun a s => spelling a = .ok s) args ss) :
    nameSpelling (front ++ angled args ++ back) =
      .ok (front ++ '<' :: Text.commaJoin ss ++ " >".toList ++ back) := by
  have hparts : templateParts (front ++ angled args ++ back) =
      .ok (some ⟨front, Text.commaJoin args, back⟩) :=
    templateParts_angled hfront fun a ha => (hargs a ha).balanced
  obtain ⟨within, hwithin, hstem, harguments, htail⟩ := templateWithin_of_templateParts hparts
  have hlisted : TemplateParts.arguments ⟨front, Text.commaJoin args, back⟩ = args :=
    listed_commaJoin hargs hne
  rw [nameSpelling, nameFrom, hwithin]
  show (within.arguments.mapM (fun p => spelling p.1) >>= _ : Except Fault Text) = _
  rw [mapM_of_values (harguments.trans hlisted) hss]
  show Except.ok (within.stem.1 ++ '<' :: Text.commaJoin ss ++ " >".toList ++ within.tail) = _
  rw [hstem, htail]

end CType

end BindingTypes

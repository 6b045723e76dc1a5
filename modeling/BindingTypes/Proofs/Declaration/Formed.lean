import BindingTypes.Proofs.Declaration.Headings

namespace BindingTypes.Declaration

open CType

/-- A constructor as declarators write it; parentheses in the dimension of an array close where
`plain` asks for it. -/
def Spelt (plain : Prop) : Constructor → Prop
  | .pointer => True
  | .reference => True
  | .array dimension => ClosesAll dimension ∧ (plain → Balanced dimension)
  | .function _ => True
  | .qualifier w => w ∈ qualifierWords
  | .memberPointer owner => ∀ c ∈ owner, isPathChar c = true

/-- A template argument that is copied. Where `plain` asks for it, it is one item of a list, has no
blank and no angle bracket outside brackets and is spelled as it stands. -/
structure Value (plain : Prop) (v : Text) : Prop where
  ne_nil : v ≠ []
  closes : ClosesAll v
  listable : plain → Listable v
  within : plain → Within ", <".toList v
  spelled : plain → spelling v = .ok v

/-- A type as declarations write it. Where `settled` asks for it, no qualifier stands directly in
front of an array or a function. -/
inductive Formed (plain settled : Prop) : CType → Prop
  | dots : Formed plain settled varargs
  | chain {cs : List Constructor} {h : Heading} {copied : List CType}
      (hcs : ∀ c ∈ cs, Spelt plain c) (hh : h.Proper plain)
      (horder : settled → cs.IsChain fun c d =>
        isQualifierElement c = true → isSuffixElement d = false)
      (hcopied : ∀ a ∈ copied, Value plain a)
      (hparameters : ∀ ps, .function ps ∈ cs → ∀ p ∈ ps, Formed plain settled p)
      (harguments : ∀ a ∈ h.arguments, a ∉ copied → Formed plain settled a) :
      Formed plain settled (CType.chain cs h.text)

abbrev LooseConstructor : Constructor → Prop := Spelt False

abbrev PlainConstructor : Constructor → Prop := Spelt True

abbrev LooseValue : Text → Prop := Value False

abbrev PlainValue : Text → Prop := Value True

/-- A type as it is parsed, whatever is copied into it. -/
abbrev LooseType : CType → Prop := Formed False False

/-- A type that copies only what is spelled as it stands. -/
abbrev PlainType : CType → Prop := Formed True False

/-- A plain type with its qualifiers where they are written. -/
abbrev SettledType : CType → Prop := Formed True True

/-- How an element is written around a declaration. -/
inductive Marks : Constructor → Mark → Prop
  | pointer : Marks .pointer (.operator ['*'])
  | reference : Marks .reference (.operator ['&'])
  | memberPointer (owner : Text) : Marks (.memberPointer owner) (.operator (owner ++ "::*".toList))
  | qualifier (w : Text) : Marks (.qualifier w) (.lead (w ++ [' ']))
  | array (d : Text) : Marks (.array d) (.suffix ('[' :: (d ++ [']'])))
  | function {ps : List CType} {ss : List Text}
    (hss : List.Forall₂ (fun p s => spelling p = .ok s) ps ss) :
    Marks (.function ps) (.suffix ('(' :: (Text.commaJoin ss ++ [')'])))

def sideOf : Constructor → Side
  | .pointer => .operator
  | .reference => .operator
  | .memberPointer _ => .operator
  | .qualifier _ => .lead
  | .array _ => .suffix
  | .function _ => .suffix

/-- The text begins with a path, which a dot, a blank or template arguments end. -/
def Opens (s : Text) : Prop :=
  ∃ r u, s = r ++ u ∧ (∀ c ∈ r, isPathChar c = true) ∧ ∀ c ∈ u.head?, c ∈ ". <".toList

/-- The spelling of a type, as it stands in a list. -/
structure IsSpelling (s : Text) : Prop where
  ne_nil : s ≠ []
  within : Within [','] s
  opens : Opens s

/-- How a chain of constructors in front of a heading is spelled: the mark of each of them, and the
spellings of the template arguments. -/
structure Writing (cs : List Constructor) (h : Heading) (ms : List Mark) (ss : List Text) :
    Prop where
  marks : List.Forall₂ Marks cs ms
  readable : ∀ m ∈ ms, Readable m
  arguments : List.Forall₂ (fun a s => spelling a = .ok s) h.arguments ss
  within : ∀ s ∈ ss, Within [','] s ∧ s ≠ []
  spelled : spelling (chain cs h.text) =
    .ok (Text.trimEnd (h.spelled ss ++ ' ' :: wound ms.reverse))

variable {plain settled : Prop} {s t : Text} {ss : List Text} {cs : List Constructor} {h : Heading}
  {d : Constructor} {ps : List CType} {m : Mark} {ms : List Mark}

section Marks

variable {d : Constructor} {ps : List CType}

theorem Opens.left (h : Opens (s ++ t)) : Opens s := by
  obtain ⟨r, u, heq, hr, hu⟩ := h
  rcases List.append_eq_append_iff.mp heq with ⟨v, rfl, -⟩ | ⟨v, rfl, rfl⟩
  · exact ⟨s, [], (List.append_nil s).symm, fun c hc => hr c (List.mem_append_left _ hc), by simp⟩
  · refine ⟨r, v, rfl, hr, fun c hc => hu c ?_⟩
    rw [List.head?_append, hc]
    rfl

/-- A list of types opens no brackets around an operator. -/
theorem not_opensOperator (h : ∀ s ∈ ss, IsSpelling s) : ¬ OpensOperator (Text.commaJoin ss) := by
  rintro ⟨r, c, u, heq, hr, hc⟩
  cases ss with
  | nil =>
    have hnil : [] = r ++ c :: u := heq
    simp at hnil
  | cons s ss =>
    obtain ⟨r', u', rfl, hr', hu'⟩ := (h s List.mem_cons_self).opens
    rw [commaJoin_cons, List.append_assoc] at heq
    have hother : ". <,".toList ⊆ breaks ∧ ∀ c ∈ ". <,".toList, c ∉ "*&".toList := by decide
    have hoperator : "*&".toList ⊆ breaks := by decide
    have hhead : ∀ d ∈ (u' ++ if ss = [] then [] else ',' :: Text.commaJoin ss).head?,
        d ∈ ". <,".toList := by
      intro d hd
      cases u' with
      | nil =>
        rw [List.nil_append] at hd
        split at hd
        · cases hd
        · cases hd
          decide
      | cons e u' =>
        have hmore : ". <".toList ⊆ ". <,".toList := by decide
        exact hmore (hu' d hd)
    obtain ⟨rfl, hrest⟩ := path_unique hr' hr (fun d hd => not_isPathChar (hother.1 (hhead d hd)))
      (fun d hd => by
        cases hd
        exact not_isPathChar (hoperator hc)) heq
    exact hother.2 c (hhead c (by rw [hrest]; rfl)) hc

theorem isSpelling_of_forall₂ (hss : List.Forall₂ (fun p s => spelling p = .ok s) ps ss)
    (hps : ∀ p ∈ ps, ∃ s, spelling p = .ok s ∧ IsSpelling s) : ∀ s ∈ ss, IsSpelling s := by
  intro s hs
  obtain ⟨p, hp, hspelled⟩ := exists_left_of_forall₂ hss hs
  obtain ⟨s', hs', his⟩ := hps p hp
  cases hspelled.symm.trans hs'
  exact his

namespace Marks

theorem side (hm : Marks d m) : m.side = sideOf d := by
  cases hm <;> rfl

theorem mark (hm : Marks d m) (hd : Spelt plain d) (hplain : plain)
    (hps : ∀ ps, d = .function ps → ∀ p ∈ ps, Listable p ∧ p ≠ []) : mark d.text = .ok m := by
  cases hm with
  | pointer => exact mark_pointer
  | reference => exact mark_reference
  | memberPointer owner =>
    exact mark_memberPointer (listable_of_isWording (isWording_of_path hd)).balanced
  | qualifier w =>
    have hpath := isWording_of_path (isPathChar_of_qualifier hd)
    exact mark_qualifier (listable_of_isWording hpath).balanced
  | array dimension => exact mark_array (hd.2 hplain)
  | @function ps ss hss =>
    have hparameters := hps ps rfl
    exact mark_function (fun p hp => (hparameters p hp).1) (fun p hp => (hparameters p hp).2) hss

theorem readable (hm : Marks d m) (hd : Spelt plain d)
    (hps : ∀ ps, d = .function ps → ∀ p ∈ ps, ∃ s, spelling p = .ok s ∧ IsSpelling s) :
    Readable m := by
  cases hm with
  | pointer => exact .operator (r := []) (by simp) (by decide)
  | reference => exact .operator (r := []) (by simp) (by decide)
  | memberPointer owner =>
    have htext : owner ++ "::*".toList = (owner ++ "::".toList) ++ ['*'] := by simp
    rw [htext]
    refine .operator (List.forall_mem_append.mpr ⟨hd, ?_⟩) (by decide)
    decide
  | qualifier w => exact .lead hd
  | array dimension => exact .array hd.1
  | @function ps ss hss =>
    have hall := isSpelling_of_forall₂ hss (hps ps rfl)
    exact .function (closesAll_commaJoin fun s hs => (hall s hs).within.closes)
      (not_opensOperator hall)

theorem exists_of (hps : ∀ ps, d = .function ps → ∀ p ∈ ps, ∃ s, spelling p = .ok s) :
    ∃ m, Marks d m := by
  cases d with
  | pointer => exact ⟨_, .pointer⟩
  | reference => exact ⟨_, .reference⟩
  | memberPointer owner => exact ⟨_, .memberPointer owner⟩
  | qualifier w => exact ⟨_, .qualifier w⟩
  | array dimension => exact ⟨_, .array dimension⟩
  | function ps =>
    obtain ⟨ss, hss⟩ := exists_forall₂ (hps ps rfl)
    exact ⟨_, .function hss⟩

end Marks

end Marks

section Types

theorem closesAll_written {letter : Char} {x : Text} (hletter : letter ∉ "()[]".toList)
    (hx : ClosesAll x) : ClosesAll (written letter x) := by
  have hparts : written letter x = [letter] ++ ('(' :: (x ++ [')']) ++ ['.']) := by simp [written]
  rw [hparts]
  refine (closesAll_of_plain (List.forall_mem_singleton.mpr hletter)).append ?_
  exact (ClosesAll.around (by decide) (by decide) hx).append (closesAll_of_plain (by decide))

/-- A constructor that is no pointer or reference is a letter with a group that closes its
brackets. -/
theorem Spelt.text_cases (hd : Spelt plain d)
    (hps : ∀ ps, d = .function ps → ∀ p ∈ ps, ClosesAll p) :
    d.text = "p.".toList ∨ d.text = "r.".toList ∨
      ∃ letter x, letter ∈ "afqm".toList ∧ d.text = written letter x ∧ ClosesAll x := by
  have hpath : ∀ {r : Text}, (∀ c ∈ r, isPathChar c = true) → ClosesAll r := by
    intro r hr
    have hwithin : Within [] r := within_path (List.nil_subset _) hr
    exact hwithin.closes
  cases d with
  | pointer => exact Or.inl rfl
  | reference => exact Or.inr (Or.inl rfl)
  | array dimension => exact Or.inr (Or.inr ⟨'a', dimension, by decide, rfl, hd.1⟩)
  | function ps =>
    exact Or.inr (Or.inr ⟨'f', _, by decide, rfl, closesAll_commaJoin (hps ps rfl)⟩)
  | qualifier w =>
    exact Or.inr (Or.inr ⟨'q', w, by decide, rfl, hpath (isPathChar_of_qualifier hd)⟩)
  | memberPointer owner => exact Or.inr (Or.inr ⟨'m', owner, by decide, rfl, hpath hd⟩)

theorem Spelt.closes (hd : Spelt plain d) (hps : ∀ ps, d = .function ps → ∀ p ∈ ps, ClosesAll p) :
    ClosesAll d.text := by
  have hplain : ∀ letter ∈ "afqm".toList, letter ∉ "()[]".toList := by decide
  rcases hd.text_cases hps with htext | htext | ⟨letter, x, hletter, htext, hx⟩
  · rw [htext]
    exact closesAll_of_plain (by decide)
  · rw [htext]
    exact closesAll_of_plain (by decide)
  · rw [htext]
    exact closesAll_written (hplain letter hletter) hx

theorem Spelt.text (hd : Spelt plain d) (hplain : plain)
    (hps : ∀ ps, d = .function ps → ∀ p ∈ ps, Balanced p) : Dotted d.text ∧ Listable d.text := by
  have hpath : ∀ {r : Text}, (∀ c ∈ r, isPathChar c = true) → Balanced r := fun hr =>
    (listable_of_isWording (isWording_of_path hr)).balanced
  cases d with
  | pointer => exact dotted_listable_pointer
  | reference => exact dotted_listable_reference
  | array dimension => exact dotted_listable_written (by decide) (hd.2 hplain)
  | function ps => exact dotted_listable_written (by decide) (balanced_commaJoin (hps ps rfl))
  | qualifier w => exact dotted_listable_written (by decide) (hpath (isPathChar_of_qualifier hd))
  | memberPointer owner => exact dotted_listable_written (by decide) (hpath hd)

theorem Formed.ne_nil (ht : Formed plain settled t) : t ≠ [] := by
  cases ht with
  | dots => decide
  | @chain cs h copied hcs hh horder hcopied hparameters harguments =>
    have hne := hh.text_ends.ne_nil
    simp [CType.chain, hne]

/-- A type closes its brackets. -/
theorem Formed.closes (ht : Formed plain settled t) : ClosesAll t := by
  induction ht with
  | dots => decide
  | @chain cs h copied hcs hh horder hcopied _ _ ihp iha =>
    have hbase : ClosesAll h.text := (hh.text_within fun a ha => by
      by_cases hcopy : a ∈ copied
      · exact (hcopied a hcopy).closes
      · exact iha a ha hcopy).closes
    refine ClosesAll.append (closesAll_flatten fun e he => ?_) hbase
    obtain ⟨c, hc, rfl⟩ := List.mem_map.mp he
    refine (hcs c hc).closes fun ps hps => ?_
    subst hps
    exact ihp ps hc

/-- Constructors in front of a path. -/
theorem Formed.of_path {r : Text} (hne : r ≠ []) (hr : ∀ c ∈ r, isPathChar c = true)
    (hcs : ∀ c ∈ cs, Spelt plain c)
    (horder : settled → cs.IsChain fun c d =>
      isQualifierElement c = true → isSuffixElement d = false)
    (hparameters : ∀ ps, .function ps ∈ cs → ∀ p ∈ ps, Formed plain settled p) :
    Formed plain settled (CType.chain cs r) := by
  rw [← Heading.text_path r]
  exact .chain hcs (.of_path hne hr) horder (List.forall_mem_nil _) hparameters
    (List.forall_mem_nil _)

theorem Formed.listable (ht : Formed plain settled t) (hplain : plain) : Listable t := by
  induction ht with
  | dots => exact listable_varargs
  | @chain cs h copied hcs hh horder hcopied _ _ ihp iha =>
    have hbase : Listable h.text := hh.listable hplain fun a ha => by
      by_cases hcopy : a ∈ copied
      · exact ((hcopied a hcopy).listable hplain).balanced
      · exact (iha a ha hcopy).balanced
    refine Listable.append (Listable.flatten fun e he => ?_) hbase
    obtain ⟨c, hc, rfl⟩ := List.mem_map.mp he
    refine ((hcs c hc).text hplain fun ps hps p hp => ?_).2
    subst hps
    exact (ihp ps hc p hp).balanced

/-- A heading is a path, or behind its first path stands a blank or an angle bracket. -/
theorem spelled_cases (hh : h.Proper plain) (ss : List Text) :
    (h.spelled ss = h.text ∧ ∀ c ∈ h.text, isPathChar c = true) ∨
      ∃ r c u, h.spelled ss = r ++ c :: u ∧ (∀ c ∈ r, isPathChar c = true) ∧ c ∈ " <".toList := by
  unfold Heading.spelled Heading.text Heading.block Heading.stem
  cases hw : h.words with
  | nil =>
    cases hb : h.template with
    | none => exact Or.inl ⟨by rw [Option.map_none, Option.map_none], by simpa using hh.front⟩
    | some b =>
      exact Or.inr ⟨h.front, '<', Text.commaJoin ss ++ " >".toList ++ b.2, by simp, hh.front,
        by decide⟩
  | cons w ws =>
    exact Or.inr ⟨w, ' ', ws.flatMap (· ++ [' ']) ++ h.front ++ (h.template.map fun b =>
      '<' :: Text.commaJoin ss ++ " >".toList ++ b.2).getD [], by simp,
      (hh.word (hw ▸ List.mem_cons_self)).2.1, by decide⟩

theorem opens_spelled (hh : h.Proper plain) (ss : List Text) (t : Text) :
    Opens (h.spelled ss ++ ' ' :: t) := by
  have hmore : " <".toList ⊆ ". <".toList := by decide
  rcases spelled_cases hh ss with ⟨hs, hpath⟩ | ⟨r, c, u, hs, hr, hc⟩
  · exact ⟨h.text, ' ' :: t, by rw [hs], hpath, by simp⟩
  · refine ⟨r, c :: u ++ ' ' :: t, by rw [hs, List.append_assoc], hr, ?_⟩
    rintro d ⟨⟩
    exact hmore hc

/-- A blank at the end is in no bracket. -/
theorem within_of_blank (h : Within [','] (t ++ [' '])) : Within [','] t := by
  have hblank : ∀ l l' : Level, Level.step [','] l ' ' = some l' → l = l' := by
    intro l l' hl
    unfold Level.step at hl
    rw [if_neg (by decide), if_neg (by decide)] at hl
    split at hl
    · exact Option.some.inj hl
    · rw [if_neg (fun h => absurd h.2 (by decide)), if_neg (by decide), if_neg (by decide)] at hl
      exact Option.some.inj hl
  obtain ⟨l, hl, hlast⟩ := Option.bind_eq_some_iff.mp (Level.after_append.symm.trans h)
  rw [Level.after_cons] at hlast
  obtain ⟨l', hl', hnil⟩ := Option.bind_eq_some_iff.mp hlast
  cases hnil
  rw [hblank l _ hl'] at hl
  exact hl

namespace Writing

theorem readable_reverse (hw : Writing cs h ms ss) : ∀ m ∈ ms.reverse, Readable m :=
  fun m hm => hw.readable m (List.mem_reverse.mp hm)

variable (hw : Writing cs h ms ss) (hh : h.Proper plain)
include hw hh

theorem trimmed : ∃ s, spelling (chain cs h.text) = .ok s ∧
    (s = h.spelled ss ++ ' ' :: wound ms.reverse ∨
      s ++ [' '] = h.spelled ss ++ ' ' :: wound ms.reverse) :=
  ⟨_, hw.spelled, (trim_declared (hh.spelled_ends ss) hw.readable_reverse).imp And.right And.right⟩

theorem isSpelling : ∃ s, spelling (chain cs h.text) = .ok s ∧ IsSpelling s := by
  obtain ⟨s, hs, htrim⟩ := hw.trimmed hh
  have hopens := opens_spelled hh ss (wound ms.reverse)
  have hwithin : Within [','] (h.spelled ss ++ ' ' :: wound ms.reverse) := by
    rw [List.append_cons]
    exact ((hh.spelled_within fun s hs => (hw.within s hs).1).append (.of_plain (by decide))).append
      (within_wound hw.readable_reverse)
  obtain ⟨u, c, hends, -⟩ := hh.spelled_ends ss
  refine ⟨s, hs, ?_⟩
  rcases htrim with rfl | htrim
  · exact ⟨by simp, hwithin, hopens⟩
  · rw [← htrim] at hopens hwithin
    refine ⟨?_, within_of_blank hwithin, hopens.left⟩
    rintro rfl
    have hlength := congrArg List.length htrim
    rw [hends] at hlength
    simp only [List.length_append, List.length_cons, List.length_nil] at hlength
    omega

end Writing

theorem Value.argument {v : Text} (hv : Value plain v) (hplain : plain) :
    Listable v ∧ v ≠ [] ∧ ∃ s, spelling v = .ok s ∧ Within [','] s ∧ s ≠ [] :=
  ⟨hv.listable hplain, hv.ne_nil, v, hv.spelled hplain,
    (hv.within hplain).mono (by decide), hv.ne_nil⟩

/-- A chain is spelled as its heading, with what its marks declare behind it. -/
theorem spelling_chain (hh : h.Proper plain) (hplain : plain) (hdotted : ∀ c ∈ cs, Dotted c.text)
    (hms : List.Forall₂ (fun c m => mark c.text = .ok m) cs ms)
    (hargs : ∀ a ∈ h.arguments, Listable a ∧ a ≠ [])
    (hss : List.Forall₂ (fun a s => spelling a = .ok s) h.arguments ss) :
    spelling (chain cs h.text) = .ok (Text.trimEnd (h.spelled ss ++ ' ' :: wound ms.reverse)) := by
  have hflat : ∀ e ∈ cs.map Constructor.text, Dotted e := List.forall_mem_map.mpr hdotted
  have helements : elements (chain cs h.text) = .ok (cs.map Constructor.text ++ [h.text]) := by
    rw [chain, elements_flatten hflat, hh.elements_text hplain fun a ha => (hargs a ha).1.balanced]
    rfl
  have hdot : h.text.getLast? ≠ some '.' := hh.text_ends.getLast?_ne_dot
  have hvarargs : varargs ∉ cs.map Constructor.text ++ [h.text] := by
    intro hmem
    rcases List.mem_append.mp hmem with hmem | hmem
    · obtain ⟨x, hx, -⟩ := hflat _ hmem
      have hlast := congrArg List.getLast? hx
      rw [List.getLast?_concat] at hlast
      cases hlast
    · have hlast : h.text.getLast? = some ')' := List.mem_singleton.mp hmem ▸ rfl
      exact absurd (by decide) (hh.text_ends.last hlast).1
  have hlead : mark h.text = .ok (.lead (h.spelled ss ++ [' '])) :=
    mark_base hdot (hh.nameSpelling hargs hss)
  have hmarks : List.Forall₂ (fun e m => mark e = .ok m) (cs.map Constructor.text ++ [h.text])
      (ms ++ [.lead (h.spelled ss ++ [' '])]) :=
    List.rel_append (List.forall₂_map_left_iff.mpr hms) (.cons hlead .nil)
  rw [spelling, declare_of_elements helements hvarargs hmarks [], assemble_lead,
    ← List.reverse_reverse ms, assemble_reverse, List.reverse_reverse]
  simp

theorem exists_writing {copied : List CType} (hplain : plain) (hcs : ∀ c ∈ cs, Spelt plain c)
    (hh : h.Proper plain) (hcopied : ∀ a ∈ copied, Value plain a)
    (hparameters : ∀ ps, .function ps ∈ cs → ∀ p ∈ ps,
      Formed plain settled p ∧ ∃ s, spelling p = .ok s ∧ IsSpelling s)
    (harguments : ∀ a ∈ h.arguments, a ∉ copied →
      Formed plain settled a ∧ ∃ s, spelling a = .ok s ∧ IsSpelling s) :
    ∃ ms ss, Writing cs h ms ss := by
  have hps : ∀ ps, .function ps ∈ cs → ∀ p ∈ ps, Listable p ∧ p ≠ [] := fun ps h p hp =>
    ⟨(hparameters ps h p hp).1.listable hplain, (hparameters ps h p hp).1.ne_nil⟩
  have hargs : ∀ a ∈ h.arguments,
      Listable a ∧ a ≠ [] ∧ ∃ s, spelling a = .ok s ∧ Within [','] s ∧ s ≠ [] := by
    intro a ha
    by_cases hcopy : a ∈ copied
    · exact (hcopied a hcopy).argument hplain
    · obtain ⟨hformed, s, hs, his⟩ := harguments a ha hcopy
      exact ⟨hformed.listable hplain, hformed.ne_nil, s, hs, his.within, his.ne_nil⟩
  have hmarked : ∀ c ∈ cs, ∃ m, Marks c m ∧ Readable m ∧ mark c.text = .ok m := by
    intro c hc
    obtain ⟨m, hm⟩ := Marks.exists_of (d := c) fun ps h p hp =>
      (hparameters ps (h ▸ hc) p hp).2.imp fun s hs => hs.1
    refine ⟨m, hm, hm.readable (hcs c hc) fun ps h p hp => (hparameters ps (h ▸ hc) p hp).2, ?_⟩
    exact hm.mark (hcs c hc) hplain fun ps h => hps ps (h ▸ hc)
  obtain ⟨ms, hms⟩ := exists_forall₂ hmarked
  have hspelled : ∀ a ∈ h.arguments, ∃ s, spelling a = .ok s ∧ Within [','] s ∧ s ≠ [] :=
    fun a ha => (hargs a ha).2.2
  obtain ⟨ss, hss⟩ := exists_forall₂ hspelled
  have hdotted : ∀ c ∈ cs, Dotted c.text := fun c hc =>
    ((hcs c hc).text hplain fun ps h p hp => (hps ps (h ▸ hc) p hp).1.balanced).1
  refine ⟨ms, ss, hms.imp fun c m h => h.1, fun m hm => ?_, hss.imp fun a s h => h.1,
    fun s hs => ?_, ?_⟩
  · obtain ⟨c, -, h⟩ := exists_left_of_forall₂ hms hm
    exact h.2.1
  · obtain ⟨a, -, h⟩ := exists_left_of_forall₂ hss hs
    exact h.2
  · exact spelling_chain hh hplain hdotted (hms.imp fun c m h => h.2.2)
      (fun a ha => ⟨(hargs a ha).1, (hargs a ha).2.1⟩) (hss.imp fun a s h => h.1)

theorem isSpelling_dots : IsSpelling "...".toList where
  ne_nil := by decide
  within := by decide
  opens := by
    refine ⟨[], "...".toList, rfl, by simp, ?_⟩
    rintro c ⟨⟩
    decide

theorem Formed.isSpelling (ht : Formed plain settled t) (hplain : plain) :
    ∃ s, spelling t = .ok s ∧ IsSpelling s := by
  induction ht with
  | dots => exact ⟨_, declare_varargs, isSpelling_dots⟩
  | chain hcs hh _ hcopied hparameters harguments ihp iha =>
    obtain ⟨ms, ss, hw⟩ := exists_writing hplain hcs hh hcopied
      (fun ps hps p hp => ⟨hparameters ps hps p hp, ihp ps hps p hp⟩)
      fun a ha hcopy => ⟨harguments a ha hcopy, iha a ha hcopy⟩
    exact hw.isSpelling hh

end Types

section Declarable

variable {b : Base}

/-- A path is spelled as it stands. -/
theorem spelling_path {r : Text} (hne : r ≠ []) (hr : ∀ c ∈ r, isPathChar c = true) :
    spelling r = .ok r := by
  have hh : Heading.Plain ⟨[], r, none⟩ := .of_path hne hr
  have hbare : ∀ c ∈ ([] : List Constructor), Dotted c.text := List.forall_mem_nil _
  have hspelled := spelling_chain hh trivial hbare .nil (List.forall_mem_nil _) .nil
  have hends : EndsWord (Heading.spelled ⟨[], r, none⟩ []) := hh.spelled_ends []
  have htext : Heading.spelled ⟨[], r, none⟩ [] = r := by
    simp [Heading.spelled, Heading.stem, Heading.block]
  rw [htext] at hspelled hends
  have htrim : Text.trimEnd (r ++ ' ' :: wound [].reverse) = r := hends.trimEnd.2
  rw [Heading.text_path, htrim] at hspelled
  exact hspelled

theorem IsNumber.plainValue (h : IsNumber t) : PlainValue t := by
  have hpath : ∀ c ∈ t, isPathChar c = true := fun c hc =>
    isPathChar_of_isIdentChar (List.all_eq_true.mp h.chars c hc)
  exact {
    ne_nil := h.1
    closes := (within_path (List.nil_subset _) hpath).closes
    listable := fun _ => h.listable
    within := fun _ => within_path (by decide) hpath
    spelled := fun _ => spelling_path h.1 hpath }

theorem IsSpellable.plainConstructor (hd : IsSpellable d) : PlainConstructor d := by
  cases d with
  | pointer => trivial
  | reference => trivial
  | function ps => trivial
  | qualifier w => exact hd
  | memberPointer owner =>
    obtain ⟨ns, -, hns, rfl⟩ := hd
    exact isPathChar_path hns
  | array dimension =>
    have hchars := List.all_eq_true.mp hd
    have hwithin : Within [] dimension := within_path (List.nil_subset _) fun c hc =>
      isPathChar_of_isIdentChar (hchars c hc)
    exact ⟨hwithin.closes, fun _ => (listable_of_isWording (isWording_of_chars hchars)).balanced⟩

namespace Base

/-- A base as it is written. -/
def heading : Base → Heading
  | builtin words => ⟨words.dropLast, words.getLast?.getD [], none⟩
  | named tag before stem none after => ⟨tag.toList, pathText (before ++ stem :: after), none⟩
  | named tag before stem (some arguments) after =>
    ⟨tag.toList, before.flatMap (· ++ "::".toList) ++ stem, some (arguments, back after)⟩

theorem arguments_heading (b : Base) : b.heading.arguments = b.arguments := by
  cases b with
  | builtin words => rfl
  | named tag before stem arguments after => cases arguments <;> rfl

theorem text_heading (hb : b.IsSpelled) : b.heading.text = b.text := by
  have htag : ∀ tag : Option Text, tag.toList.flatMap (· ++ [' ']) = tagText tag := by
    rintro (_ | w) <;> simp [tagText]
  cases b with
  | builtin words =>
    have hall : ∀ words ∈ builtinSpellings,
        (heading (builtin words)).text = text (builtin words) := by decide
    exact hall words hb
  | named tag before stem arguments after =>
    cases arguments with
    | none => simp [heading, text, Heading.text, Heading.stem, htag, component]
    | some args => simp [heading, text_named, Heading.text, Heading.stem, htag, front]

/-- No path of free names is a qualifier. -/
theorem path_unqualified {stem : Text} {before after : List Text}
    (h : ∀ n ∈ before ++ stem :: after, IsFreeName n) :
    pathText (before ++ stem :: after) ∉ qualifierWords := by
  intro hq
  have hwords : ∀ w ∈ qualifierWords, ':' ∉ w := by decide
  have hcolon := hwords _ hq
  rw [pathText, intercalate_around] at hq hcolon
  obtain rfl : before = [] := List.eq_nil_iff_forall_not_mem.mpr fun n hn => hcolon <| by
    simp only [List.mem_append, List.mem_flatMap]
    exact Or.inl (Or.inl ⟨n, hn, Or.inr (by decide)⟩)
  obtain rfl : after = [] := List.eq_nil_iff_forall_not_mem.mpr fun n hn => hcolon <| by
    simp only [List.mem_append, List.mem_flatMap]
    exact Or.inr ⟨n, hn, Or.inl (by decide)⟩
  have hstem : stem ∈ qualifierWords := by simpa using hq
  have hfree := (h stem (by simp)).notKeyword.1
  simp [hstem] at hfree

theorem plainHeading (hb : b.IsSpelled) : b.heading.Plain := by
  have htags : ∀ tag : Option Text, (∀ w ∈ tag, w ∈ typeTags) →
      ∀ w ∈ tag.toList, w ∈ typeTags ++ builtinWords := fun tag htag w hw =>
    List.mem_append_left _ (htag w (Option.mem_toList.mp hw))
  cases b with
  | builtin words =>
    have hall : ∀ words ∈ builtinSpellings,
        (∀ w ∈ words.dropLast, w ∈ typeTags ++ builtinWords) ∧ words.getLast?.getD [] ≠ [] ∧
          (words.getLast?.getD []).all isPathChar = true ∧
          words.getLast?.getD [] ∉ qualifierWords := by decide
    obtain ⟨hwords, hne, hpath, hq⟩ := hall words hb
    exact ⟨hwords, hne, List.all_eq_true.mp hpath, fun _ hb => absurd hb (Option.not_mem_none _),
      fun _ _ _ => hq⟩
  | named tag before stem arguments after =>
    obtain ⟨htag, hnames⟩ := hb
    have hpath := isPathChar_path hnames
    have hfront := hpath
    have hne := (hnames stem (by simp)).ne_nil
    rw [pathText, intercalate_around] at hfront
    obtain ⟨hstem, hback⟩ := List.forall_mem_append.mp hfront
    cases arguments with
    | none =>
      refine ⟨htags tag htag, fun hnil => ?_, hpath,
        fun _ hb => absurd hb (Option.not_mem_none _), fun _ _ _ => path_unqualified hnames⟩
      rw [heading, pathText, intercalate_around] at hnil
      simp [hne] at hnil
    | some args =>
      refine ⟨htags tag htag, by simp [heading, hne], hstem, fun c hc => ?_,
        fun _ _ hnone => absurd hnone (Option.some_ne_none _)⟩
      obtain rfl := Option.some.inj hc
      have hscopes : PlainScopes (back after ++ []) := .path hback .nil
      rwa [List.append_nil] at hscopes

end Base

/-- What C can write down is plain, and its qualifiers stand where they are written. -/
theorem Declarable.settledType (ht : Declarable t) : SettledType t := by
  classical
  induction ht with
  | @chain cs b hcs hb horder _ _ _ ihp iha =>
    rw [← Base.text_heading hb]
    have hcopied : ∀ a ∈ b.arguments.filter (IsNumber ·), PlainValue a := fun a ha =>
      (of_decide_eq_true (List.mem_filter.mp ha).2).plainValue
    refine .chain (fun c hc => (hcs c hc).plainConstructor) (Base.plainHeading hb)
      (fun _ => horder) hcopied (fun ps hps p hp => ?_) fun a ha hno => ?_
    · by_cases hvar : p = varargs
      · rw [hvar]
        exact .dots
      · exact ihp ps hps p hp hvar
    · rw [Base.arguments_heading] at ha
      exact iha a ha fun hn => hno (List.mem_filter.mpr ⟨ha, decide_eq_true hn⟩)

end Declarable

end BindingTypes.Declaration

import BindingTypes.Proofs.Declaration.Grammar
import BindingTypes.Proofs.Declaration.Lexing
import BindingTypes.Proofs.Declaration.Unwinding
import BindingTypes.Proofs.CType.Marks

namespace BindingTypes

namespace Text

variable {c : Char}

theorem trimEnd_concat (u : Text) (c : Char) :
    trimEnd (u ++ [c]) = if isBlank c then trimEnd u else u ++ [c] := by
  induction u with
  | nil => simp [trimEnd]
  | cons d u ih =>
    rw [List.cons_append, trimEnd, ih]
    cases hc : isBlank c with
    | true => rfl
    | false => cases u <;> rfl

end Text

namespace Declaration

open CType

/-- What stands behind the first template arguments of a name: paths and more arguments. -/
inductive Scopes (plain : Prop) : Text → Prop
  | nil : Scopes plain []
  | path {r t : Text} (hr : ∀ c ∈ r, isPathChar c = true) (h : Scopes plain t) :
    Scopes plain (r ++ t)
  | template {args : List CType} {t : Text}
    (hargs : ∀ a ∈ args, ClosesAll a ∧ (plain → Balanced a)) (h : Scopes plain t) :
    Scopes plain (angled args ++ t)

abbrev LooseScopes : Text → Prop := Scopes False

abbrev PlainScopes : Text → Prop := Scopes True

/-- A base as it is written: a tag or builtin words, the path up to the first template arguments,
those arguments and what stands behind them. -/
structure Heading where
  words : List Text
  front : Text
  template : Option (List CType × Text)

namespace Heading

def stem (h : Heading) : Text := h.words.flatMap (· ++ [' ']) ++ h.front

def text (h : Heading) : CType := h.stem ++ (h.template.map fun b => angled b.1 ++ b.2).getD []

def arguments (h : Heading) : List CType := (h.template.map Prod.fst).getD []

/-- The C spelling from the template arguments on. -/
def block (h : Heading) (ss : List Text) : Text :=
  (h.template.map fun b => '<' :: Text.commaJoin ss ++ " >".toList ++ b.2).getD []

/-- The C spelling, with the template arguments spelled. -/
def spelled (h : Heading) (ss : List Text) : Text := h.stem ++ h.block ss

/-- Where `plain` asks for it, no qualifier stands behind a tag in place of a name. -/
structure Proper (plain : Prop) (h : Heading) : Prop where
  words : ∀ w ∈ h.words, w ∈ typeTags ++ builtinWords
  ne_nil : h.front ≠ []
  front : ∀ c ∈ h.front, isPathChar c = true
  scopes : ∀ b ∈ h.template, Scopes plain b.2
  unqualified : plain → h.words ≠ [] → h.template = none → h.front ∉ qualifierWords

/-- A base as specifiers write it. -/
abbrev Loose : Heading → Prop := Proper False

/-- A base with a name of its own and types for template arguments. -/
abbrev Plain : Heading → Prop := Proper True

theorem text_path (r : Text) : text ⟨[], r, none⟩ = r := by
  simp [text, stem]

/-- A path is a base. -/
theorem Proper.of_path {plain : Prop} {r : Text} (hne : r ≠ [])
    (hr : ∀ c ∈ r, isPathChar c = true) : Proper plain ⟨[], r, none⟩ where
  words := List.forall_mem_nil _
  ne_nil := hne
  front := hr
  scopes := nofun
  unqualified _ hno := absurd rfl hno

theorem Proper.of_template {plain : Prop} {r t : Text} {args : List CType} (hne : r ≠ [])
    (hr : ∀ c ∈ r, isPathChar c = true) (ht : Scopes plain t) :
    Proper plain ⟨[], r, some (args, t)⟩ where
  words := List.forall_mem_nil _
  ne_nil := hne
  front := hr
  scopes _ hb := Option.some.inj hb ▸ ht
  unqualified _ hno := absurd rfl hno

end Heading

/-- The text ends as a name or its template arguments do. -/
def EndsWord (t : Text) : Prop := ∃ u c, t = u ++ [c] ∧ (isPathChar c = true ∨ c = '>')

/-- The text ends as an operator or what is written behind does. -/
def EndsMark (t : Text) : Prop := ∃ u c, t = u ++ [c] ∧ c ∈ "*&)]".toList

variable {plain settled : Prop} {r s t u v x y : Text} {args : List CType} {ss : List Text}
  {h : Heading} {c : Char} {m : Mark} {ms ns : List Mark}

section Ends

theorem EndsWord.behind (h : EndsWord t) (u : Text) : EndsWord (u ++ t) := by
  obtain ⟨v, c, rfl, hc⟩ := h
  exact ⟨u ++ v, c, by simp, hc⟩

theorem EndsMark.behind (h : EndsMark t) (u : Text) : EndsMark (u ++ t) := by
  obtain ⟨v, c, rfl, hc⟩ := h
  exact ⟨u ++ v, c, by simp, hc⟩

theorem endsWord_of_path (hne : r ≠ []) (hr : ∀ c ∈ r, isPathChar c = true) : EndsWord r :=
  ⟨r.dropLast, r.getLast hne, (List.dropLast_append_getLast hne).symm,
    Or.inl (hr _ (List.getLast_mem hne))⟩

theorem endsWord_angled (args : List CType) : EndsWord (angled args) := by
  rw [angled_eq, ← List.cons_append]
  exact ⟨_, '>', rfl, Or.inr rfl⟩

theorem EndsWord.last (h : EndsWord t) (hc : t.getLast? = some c) :
    c ∉ "*&)]. ".toList ∧ isBlank c = false := by
  obtain ⟨u, d, rfl, hd⟩ := h
  obtain rfl : d = c := by simpa using hc
  rcases hd with hd | rfl
  · refine ⟨fun hm => ?_, ?_⟩
    · have hbreaks : ∀ c ∈ "*&)]. ".toList, c ∈ breaks := by decide
      rw [not_isPathChar (hbreaks d hm)] at hd
      cases hd
    · rcases Bool.or_eq_true_iff.mp hd with hident | hcolon
      · exact isBlank_of_isIdentChar hident
      · rw [of_decide_eq_true hcolon]
        rfl
  · decide

theorem EndsWord.ne_nil (h : EndsWord t) : t ≠ [] := by
  obtain ⟨u, c, rfl, -⟩ := h
  simp

theorem EndsWord.getLast?_ne_dot (h : EndsWord t) : t.getLast? ≠ some '.' := fun hlast =>
  absurd (by decide) (h.last hlast).1

theorem EndsWord.not_endsMark (h : EndsWord t) : ¬ EndsMark t := by
  rintro ⟨u, c, rfl, hc⟩
  have hmore : "*&)]".toList ⊆ "*&)]. ".toList := by decide
  exact (h.last (by simp)).1 (hmore hc)

theorem EndsWord.trimEnd (h : EndsWord t) : Text.trimEnd t = t ∧ Text.trimEnd (t ++ [' ']) = t := by
  have hself : Text.trimEnd t = t := by
    obtain ⟨u, c, rfl, hc⟩ := h
    have hblank := (EndsWord.last ⟨u, c, rfl, hc⟩ List.getLast?_concat).2
    rw [Text.trimEnd_concat, hblank]
    rfl
  refine ⟨hself, ?_⟩
  rw [Text.trimEnd_concat]
  exact hself

theorem EndsMark.trimEnd (h : EndsMark t) : Text.trimEnd t = t := by
  obtain ⟨u, c, rfl, hc⟩ := h
  have hall : ∀ c ∈ "*&)]".toList, isBlank c = false := by decide
  rw [Text.trimEnd_concat, hall c hc]
  rfl

/-- What is declared ends with a qualifier and its blank, or with a mark. -/
theorem wound_ends (h : ∀ m ∈ ms, Readable m) :
    wound ms = [] ∨ EndsMark (wound ms) ∨ ∃ u, EndsWord u ∧ wound ms = u ++ [' '] := by
  have hbehind : ∀ {w t : Text}, (t = [] ∨ EndsMark t ∨ ∃ u, EndsWord u ∧ t = u ++ [' ']) →
      (t = [] → EndsMark (w ++ t) ∨ ∃ u, EndsWord u ∧ w ++ t = u ++ [' ']) →
      EndsMark (w ++ t) ∨ ∃ u, EndsWord u ∧ w ++ t = u ++ [' '] := by
    rintro w t (hnil | hmark | ⟨u, hu, rfl⟩) hw
    · exact hw hnil
    · exact Or.inl (hmark.behind w)
    · exact Or.inr ⟨w ++ u, hu.behind w, by simp⟩
  induction ms with
  | nil => exact Or.inl rfl
  | cons m ms ih =>
    obtain ⟨hm, hms⟩ := List.forall_mem_cons.mp h
    right
    cases hm with
    | lead hw =>
      have hne : ∀ w ∈ qualifierWords, w ≠ [] := by decide
      refine hbehind (ih hms) fun hnil => Or.inr ⟨_, endsWord_of_path (hne _ hw)
        (isPathChar_of_qualifier hw), ?_⟩
      rw [hnil, List.append_nil]
    | @operator r c hr hc =>
      have hmore : ∀ c ∈ "*&".toList, c ∈ "*&)]".toList := by decide
      refine hbehind (ih hms) fun hnil => Or.inl ⟨r, c, ?_, hmore c hc⟩
      rw [hnil, List.append_nil]
    | array hd =>
      exact Or.inl (EndsMark.behind ⟨'[' :: _, ']', rfl, by decide⟩ _)
    | function hx hno =>
      exact Or.inl (EndsMark.behind ⟨'(' :: _, ')', rfl, by decide⟩ _)

/-- A declaration of nothing loses the blank behind its last word, and no more. -/
theorem trim_declared (ht : EndsWord t) (h : ∀ m ∈ ms, Readable m) :
    (EndsMark (Text.trimEnd (t ++ ' ' :: wound ms)) ∧
      Text.trimEnd (t ++ ' ' :: wound ms) = t ++ ' ' :: wound ms) ∨
    (EndsWord (Text.trimEnd (t ++ ' ' :: wound ms)) ∧
      Text.trimEnd (t ++ ' ' :: wound ms) ++ [' '] = t ++ ' ' :: wound ms) := by
  have hblank : ∀ {u}, EndsWord u → EndsWord (Text.trimEnd (u ++ [' '])) ∧
      Text.trimEnd (u ++ [' ']) ++ [' '] = u ++ [' '] := fun hu => by
    rw [hu.trimEnd.2]
    exact ⟨hu, rfl⟩
  rcases wound_ends h with hnil | hmark | ⟨u, hu, hw⟩
  · rw [hnil]
    exact Or.inr (hblank ht)
  · left
    have hends : EndsMark (t ++ ' ' :: wound ms) := by
      rw [List.append_cons]
      exact hmark.behind _
    rw [hends.trimEnd]
    exact ⟨hends, rfl⟩
  · right
    have hwhole : t ++ ' ' :: wound ms = (t ++ ' ' :: u) ++ [' '] := by rw [hw]; simp
    rw [hwhole]
    refine hblank ?_
    rw [List.append_cons]
    exact hu.behind _

theorem trim_unique (ht : EndsWord t) (hu : EndsWord u) (hms : ∀ m ∈ ms, Readable m)
    (hns : ∀ n ∈ ns, Readable n)
    (h : Text.trimEnd (t ++ ' ' :: wound ms) = Text.trimEnd (u ++ ' ' :: wound ns)) :
    t ++ ' ' :: wound ms = u ++ ' ' :: wound ns := by
  rcases trim_declared ht hms with ⟨hm, hx⟩ | ⟨hw, hx⟩ <;>
    rcases trim_declared hu hns with ⟨hm', hy⟩ | ⟨hw', hy⟩
  · rw [← hx, ← hy, h]
  · exact absurd (h ▸ hm) hw'.not_endsMark
  · exact absurd (h ▸ hm') hw.not_endsMark
  · rw [← hx, ← hy, h]

end Ends

section Names

theorem isWording_of_path (hr : ∀ c ∈ r, isPathChar c = true) : isWording r = true :=
  List.all_eq_true.mpr fun c hc => by
    have hchar := Bool.or_eq_true_iff.mp (hr c hc)
    simpa using Or.inl hchar

theorem isPathChar_path {ns : List Text} (h : ∀ n ∈ ns, IsFreeName n) :
    ∀ c ∈ pathText ns, isPathChar c = true := by
  induction ns with
  | nil => exact List.forall_mem_nil _
  | cons n ns ih =>
    obtain ⟨hn, hns⟩ := List.forall_mem_cons.mp h
    have hname : ∀ c ∈ n, isPathChar c = true := fun c hc =>
      isPathChar_of_isIdentChar (hn.chars c hc)
    cases ns with
    | nil => simpa [pathText] using hname
    | cons m ns =>
      rw [pathText, List.intercalate_cons_cons]
      exact List.forall_mem_append.mpr
        ⟨List.forall_mem_append.mpr ⟨hname, isPathChar_colons⟩, ih hns⟩

theorem within_angled {stops : Text} (hless : '<' ∉ stops) (h : ∀ a ∈ args, ClosesAll a) :
    Within stops (angled args) := by
  have hgroup : Within [] ('(' :: (Text.commaJoin args ++ [')'])) :=
    .around (by decide) (by decide) (closesAll_commaJoin h)
  rw [angled_eq]
  exact .angled hless hgroup

namespace Scopes

theorem within {stops : Text} (h : Scopes plain t) (hstops : stops ⊆ breaks) (hless : '<' ∉ stops) :
    Within stops t := by
  induction h with
  | nil => exact .nil
  | path hr _ ih => exact (within_path hstops hr).append ih
  | template hargs _ ih => exact (within_angled hless fun a ha => (hargs a ha).1).append ih

theorem listable (h : Scopes plain t) (hplain : plain) : Listable t := by
  induction h with
  | nil => exact .nil
  | path hr _ ih => exact (listable_of_isWording (isWording_of_path hr)).append ih
  | template hargs _ ih => exact (listable_angled fun a ha => (hargs a ha).2 hplain).append ih

theorem past (h : Scopes plain t) (hplain : plain) : Depth.zero.past t = some .zero := by
  induction h with
  | nil => rfl
  | path hr _ ih =>
    rw [past_append, past_plain (unbracketed_of_isWording (isWording_of_path hr)),
      Option.bind_some, ih]
  | template hargs _ ih =>
    rw [past_append, past_angled (balanced_commaJoin fun a ha => (hargs a ha).2 hplain),
      Option.bind_some, ih]

theorem endsWord (h : Scopes plain t) (hu : EndsWord u) : EndsWord (u ++ t) := by
  induction h generalizing u with
  | nil => rwa [List.append_nil]
  | @path r t hr _ ih =>
    rw [← List.append_assoc]
    by_cases hne : r = []
    · rw [hne, List.append_nil]
      exact ih hu
    · exact ih ((endsWord_of_path hne hr).behind u)
  | @template args t _ _ ih =>
    rw [← List.append_assoc]
    exact ih ((endsWord_angled args).behind u)

end Scopes

namespace Heading.Proper

variable (hh : h.Proper plain)
include hh

theorem word {w : Text} (hw : w ∈ h.words) :
    w ≠ [] ∧ (∀ c ∈ w, isPathChar c = true) ∧ w ∉ qualifierWords := by
  have hall : ∀ w ∈ typeTags ++ builtinWords,
      w ≠ [] ∧ w.all isPathChar = true ∧ w ∉ qualifierWords := by decide
  obtain ⟨hne, hchars, hq⟩ := hall w (hh.words w hw)
  exact ⟨hne, List.all_eq_true.mp hchars, hq⟩

theorem stem_wording : isWording h.stem = true := by
  refine isWording_append (List.all_flatMap.trans (List.all_eq_true.mpr fun w hw => ?_))
    (isWording_of_path hh.front)
  exact isWording_append (isWording_of_path (hh.word hw).2.1) (by decide)

theorem stem_ends : EndsWord h.stem := (endsWord_of_path hh.ne_nil hh.front).behind _

theorem spelled_ends (ss : List Text) : EndsWord (h.spelled ss) := by
  unfold Heading.spelled Heading.block
  cases hb : h.template with
  | none => simpa using hh.stem_ends
  | some b =>
    have hclose : EndsWord (h.stem ++ ('<' :: Text.commaJoin ss ++ " >".toList)) :=
      EndsWord.behind ⟨'<' :: Text.commaJoin ss ++ [' '], '>', by simp, Or.inr rfl⟩ _
    have hends := (hh.scopes b hb).endsWord hclose
    simpa using hends

theorem text_ends : EndsWord h.text := by
  unfold Heading.text
  cases hb : h.template with
  | none => simpa using hh.stem_ends
  | some b =>
    have hends := (hh.scopes b hb).endsWord ((endsWord_angled b.1).behind h.stem)
    simpa using hends

theorem text_within (hargs : ∀ a ∈ h.arguments, ClosesAll a) : Within [] h.text := by
  have hstem : Within [] h.stem := by
    refine .of_plain fun c hc => ⟨fun hbracket => ?_, by simp⟩
    have hnone : ∀ d ∈ "()[]<>".toList, (isIdentChar d || d = ':' || d = ' ') = false := by decide
    exact notMem_of_isWording hh.stem_wording (hnone c hbracket) hc
  unfold Heading.text
  unfold Heading.arguments at hargs
  cases hb : h.template with
  | none => simpa using hstem
  | some b =>
    rw [hb] at hargs
    exact hstem.append ((within_angled (by decide) hargs).append
      ((hh.scopes b hb).within (by decide) (by decide)))

theorem spelled_within (hss : ∀ s ∈ ss, Within [','] s) : Within [','] (h.spelled ss) := by
  have hstem : Within [','] h.stem := by
    refine .of_plain fun c hc => ?_
    have hnone : ∀ d ∈ ",()[]<>".toList, (isIdentChar d || d = ':' || d = ' ') = false := by decide
    have hplain : c ∉ ",()[]<>".toList := fun hbracket =>
      notMem_of_isWording hh.stem_wording (hnone c hbracket) hc
    exact ⟨fun hbracket => hplain (List.mem_cons_of_mem _ hbracket), fun hcomma =>
      hplain (List.mem_singleton.mp hcomma ▸ List.mem_cons_self)⟩
  unfold Heading.spelled Heading.block
  cases hb : h.template with
  | none => simpa using hstem
  | some b =>
    have hlist : Within [] (Text.commaJoin ss ++ [' ']) :=
      (within_commaJoin fun s hs => (hss s hs).mono (List.nil_subset _)).append
        (.of_plain (by decide))
    have hblock : Within [','] ('<' :: (Text.commaJoin ss ++ [' '] ++ ['>'])) :=
      .angled (by decide) hlist
    have hscopes : Within [','] b.2 := (hh.scopes b hb).within (by decide) (by decide)
    have hwhole := hstem.append (hblock.append hscopes)
    simpa using hwhole

end Heading.Proper

namespace Heading.Proper

variable (hh : h.Proper plain) (hplain : plain) (hargs : ∀ a ∈ h.arguments, Balanced a)
include hh hplain hargs

theorem listable : Listable h.text := by
  have hstem := listable_of_isWording hh.stem_wording
  unfold Heading.text
  unfold Heading.arguments at hargs
  cases hb : h.template with
  | none => simpa using hstem
  | some b =>
    rw [hb] at hargs
    exact hstem.append ((listable_angled hargs).append ((hh.scopes b hb).listable hplain))

theorem past_text : Depth.zero.past h.text = some .zero := by
  have hstem := past_plain (d := .zero) (unbracketed_of_isWording hh.stem_wording)
  unfold Heading.text
  unfold Heading.arguments at hargs
  cases hb : h.template with
  | none => simpa using hstem
  | some b =>
    rw [hb] at hargs
    have hangled : Depth.zero.past (angled b.1) = some .zero :=
      past_angled (balanced_commaJoin hargs)
    show Depth.zero.past (h.stem ++ (angled b.1 ++ b.2)) = _
    rw [past_append, hstem, Option.bind_some, past_append, hangled, Option.bind_some,
      (hh.scopes b hb).past hplain]

theorem elements_text : elements h.text = .ok [h.text] :=
  elements_of_past (hh.past_text hplain hargs) hh.text_ends.ne_nil

end Heading.Proper

theorem Heading.Proper.nameSpelling (hh : h.Proper plain)
    (hargs : ∀ a ∈ h.arguments, Listable a ∧ a ≠ [])
    (hss : List.Forall₂ (fun a s => spelling a = .ok s) h.arguments ss) :
    nameSpelling h.text = .ok (h.spelled ss) := by
  have hfront : '<' ∉ h.stem := notMem_of_isWording hh.stem_wording (by decide)
  unfold Heading.text Heading.spelled Heading.block
  unfold Heading.arguments at hargs hss
  cases hb : h.template with
  | none => simpa using nameSpelling_plain hfront
  | some b =>
    rw [hb] at hargs hss
    have hname : CType.nameSpelling (h.stem ++ angled b.1 ++ b.2) =
        .ok (h.stem ++ '<' :: Text.commaJoin ss ++ " >".toList ++ b.2) :=
      nameSpelling_template hfront (fun a ha => (hargs a ha).1) (fun a ha => (hargs a ha).2) hss
    simpa using hname

end Names

end Declaration

end BindingTypes

import BindingTypes.Proofs.CType.Listing
import BindingTypes.Proofs.Declaration.Pointers
import Mathlib.Data.List.Chain

namespace BindingTypes.Declaration

open CType

/-- The builtin types, each in its one spelling. -/
def builtinSpellings : List (List Text) :=
  [["int"], ["unsigned", "int"], ["short"], ["unsigned", "short"], ["long"], ["unsigned", "long"],
    ["long", "long"], ["unsigned", "long", "long"], ["char"], ["signed", "char"],
    ["unsigned", "char"], ["float"], ["double"], ["long", "double"], ["void"], ["bool"],
    ["wchar_t"]].map fun words => words.map String.toList

/-- The tags that stay with a name. -/
def typeTags : List Text := ["struct", "class", "union", "enum"].map String.toList

/-- What constructors stand in front of: a builtin type, or a name with its scopes, one component
of which may have template arguments. -/
inductive Base where
  | builtin (words : List Text)
  | named (tag : Option Text) (before : List Text) (stem : Text)
      (arguments : Option (List CType)) (after : List Text)

namespace Base

def tagText (tag : Option Text) : Text := (tag.map (· ++ [' '])).getD []

def component (stem : Text) (arguments : Option (List CType)) : Text :=
  stem ++ (arguments.map angled).getD []

def text : Base → CType
  | builtin words => List.intercalate [' '] words
  | named tag before stem arguments after =>
    tagText tag ++ pathText (before ++ component stem arguments :: after)

def arguments : Base → List CType
  | builtin _ => []
  | named _ _ _ arguments _ => arguments.getD []

def IsSpelled : Base → Prop
  | builtin words => words ∈ builtinSpellings
  | named tag before stem _ after =>
    (∀ w ∈ tag, w ∈ typeTags) ∧ ∀ n ∈ before ++ stem :: after, IsFreeName n

/-- The text of a name up to its template arguments. -/
def front (tag : Option Text) (before : List Text) (stem : Text) : Text :=
  tagText tag ++ (before.flatMap (· ++ "::".toList) ++ stem)

/-- The text of a name behind its template arguments. -/
def back (after : List Text) : Text := after.flatMap ("::".toList ++ ·)

end Base

/-- An element that has a C spelling. -/
def IsSpellable : Constructor → Prop
  | .pointer => True
  | .reference => True
  | .array dimension => dimension.all isIdentChar = true
  | .function parameters => parameters ≠ ["void".toList]
  | .qualifier words => words ∈ qualifierWords
  | .memberPointer owner => ∃ ns, ns ≠ [] ∧ (∀ n ∈ ns, IsFreeName n) ∧ owner = pathText ns

def isQualifierElement : Constructor → Bool
  | .qualifier _ => true
  | _ => false

/-- An element that is written behind what it is applied to. -/
def isSuffixElement : Constructor → Bool
  | .array _ => true
  | .function _ => true
  | _ => false

def IsNumber (t : Text) : Prop := t ≠ [] ∧ t.all Char.isDigit = true

/-- The types that C can write down. No qualifier stands directly in front of an array or a
function, and only one directly in front of the base. -/
inductive Declarable : CType → Prop
  | chain {cs : List Constructor} {b : Base} (hcs : ∀ c ∈ cs, IsSpellable c) (hb : b.IsSpelled)
      (horder : cs.IsChain fun c d => isQualifierElement c = true → isSuffixElement d = false)
      (hlast : ∀ ds w w', cs ≠ ds ++ [.qualifier w, .qualifier w'])
      (hparameters : ∀ ps, .function ps ∈ cs → ∀ p ∈ ps, p ≠ varargs → Declarable p)
      (harguments : ∀ a ∈ b.arguments, ¬ IsNumber a → Declarable a) :
      Declarable (CType.chain cs b.text)

theorem intercalate_around {α : Type} (sep : List α) (before : List (List α)) (x : List α)
    (after : List (List α)) : List.intercalate sep (before ++ x :: after) =
      before.flatMap (· ++ sep) ++ x ++ after.flatMap (sep ++ ·) := by
  induction before with
  | nil =>
    induction after generalizing x with
    | nil => simp
    | cons y after ih =>
      have hrest := ih y
      simp only [List.nil_append, List.flatMap_nil, List.flatMap_cons] at hrest ⊢
      rw [List.intercalate_cons_cons, hrest]
      simp
  | cons y before ih =>
    have hcons : ∀ zs : List (List α), zs ≠ [] →
        List.intercalate sep (y :: zs) = y ++ sep ++ List.intercalate sep zs := by
      intro zs hne
      obtain ⟨z, zs, rfl⟩ := List.exists_cons_of_ne_nil hne
      exact List.intercalate_cons_cons
    rw [List.cons_append, hcons _ (by simp), ih]
    simp

/-- Words, scopes and the blanks between them. -/
def isWording (t : Text) : Bool := t.all fun c => isIdentChar c || c = ':' || c = ' '

variable {n t x w : Text} {ns before after : List Text} {tag : Option Text} {b : Base} {c : Char}
  {args : List CType} {arguments : Option (List CType)}

theorem isWording_append {u : Text} (ht : isWording t = true) (hu : isWording u = true) :
    isWording (t ++ u) = true := by
  rw [isWording, List.all_append]
  exact Bool.and_eq_true_iff.mpr ⟨ht, hu⟩

theorem isWording_of_chars (h : ∀ c ∈ n, isIdentChar c = true) : isWording n = true :=
  List.all_eq_true.mpr fun c hc => by simp [h c hc]

theorem notMem_of_isWording (h : isWording t = true) {d : Char}
    (hd : (isIdentChar d || d = ':' || d = ' ') = false) : d ∉ t := by
  intro hm
  have hc := List.all_eq_true.mp h d hm
  rw [hd] at hc
  cases hc

theorem unbracketed_of_isWording (h : isWording t = true) : Unbracketed t := by
  intro c hc hbracket
  have hnone : (".()<>".toList.any fun d => isIdentChar d || d = ':' || d = ' ') = false := by
    decide
  have hother := List.any_eq_false.mp hnone c hbracket
  exact hother (List.all_eq_true.mp h c hc)

theorem listable_of_isWording (h : isWording t = true) : Listable t := by
  refine Listable.of_plain fun c hc => ⟨?_, ?_, ?_⟩ <;>
  · rintro rfl
    exact notMem_of_isWording h (by decide) hc

theorem isWording_path (h : ∀ n ∈ ns, IsFreeName n) : isWording (pathText ns) = true := by
  induction ns with
  | nil => rfl
  | cons n ns ih =>
    obtain ⟨hn, hns⟩ := List.forall_mem_cons.mp h
    have hname := isWording_of_chars hn.chars
    cases ns with
    | nil => simpa [pathText] using hname
    | cons m ns =>
      rw [pathText, List.intercalate_cons_cons]
      exact isWording_append (isWording_append hname (by decide)) (ih hns)

theorem isWording_tag (h : ∀ w ∈ tag, w ∈ typeTags) : isWording (Base.tagText tag) = true := by
  cases tag with
  | none => rfl
  | some w =>
    have hall : (typeTags.all isWording) = true := by decide
    have hw := List.all_eq_true.mp hall w (h w rfl)
    exact isWording_append hw (by decide)

theorem isWording_front (htag : ∀ w ∈ tag, w ∈ typeTags) (hbefore : ∀ n ∈ before, IsFreeName n)
    (hn : IsFreeName n) : isWording (Base.front tag before n) = true := by
  have hpath : isWording (before.flatMap (· ++ "::".toList)) = true := by
    refine List.all_flatMap.trans (List.all_eq_true.mpr fun m hm => ?_)
    exact isWording_append (isWording_of_chars (hbefore m hm).chars) (by decide)
  have hname := isWording_of_chars hn.chars
  exact isWording_append (isWording_tag htag) (isWording_append hpath hname)

theorem isWording_back (hafter : ∀ n ∈ after, IsFreeName n) :
    isWording (Base.back after) = true := by
  refine List.all_flatMap.trans (List.all_eq_true.mpr fun m hm => ?_)
  exact isWording_append (by decide) (isWording_of_chars (hafter m hm).chars)

theorem isWording_builtin {words : List Text} (h : words ∈ builtinSpellings) :
    isWording (List.intercalate [' '] words) = true := by
  have hall : (builtinSpellings.all fun words => isWording (List.intercalate [' '] words)) = true := by
    decide
  exact List.all_eq_true.mp hall words h

namespace Base

theorem text_named (tag : Option Text) (before : List Text) (stem : Text)
    (arguments : Option (List CType)) (after : List Text) :
    text (named tag before stem arguments after) =
      front tag before stem ++ (arguments.map angled).getD [] ++ back after := by
  rw [text, pathText, intercalate_around, component, front, back]
  simp

theorem isWording_named {stem : Text} (h : IsSpelled (named tag before stem arguments after)) :
    isWording (front tag before stem) = true ∧ isWording (back after) = true := by
  obtain ⟨htag, hnames⟩ := h
  obtain ⟨hbefore, hnames⟩ := List.forall_mem_append.mp hnames
  obtain ⟨hstem, hafter⟩ := List.forall_mem_cons.mp hnames
  exact ⟨isWording_front htag hbefore hstem, isWording_back hafter⟩

theorem text_ne_nil (hb : b.IsSpelled) : b.text ≠ [] := by
  cases b with
  | builtin words =>
    have hall : (builtinSpellings.all fun words => List.intercalate [' '] words ≠ []) = true := by
      decide
    exact of_decide_eq_true (List.all_eq_true.mp hall words hb)
  | named tag before stem arguments after =>
    have hstem := (hb.2 stem (by simp)).ne_nil
    rw [text_named, front]
    simp [hstem]

end Base

theorem angled_eq (args : List CType) :
    angled args = '<' :: ('(' :: (Text.commaJoin args ++ [')']) ++ ['>']) := by
  simp [angled]

theorem listable_angled (h : ∀ a ∈ args, Balanced a) : Listable (angled args) := by
  have hless : Listable ['<'] := Listable.of_plain (by simp)
  have hgreater : Listable ['>'] := Listable.of_plain (by simp)
  rw [angled_eq, ← List.singleton_append]
  exact hless.append ((Listable.group (balanced_commaJoin h)).append hgreater)

theorem past_angled (h : Balanced (Text.commaJoin args)) :
    Depth.zero.past (angled args) = some .zero := by
  have hgroup : Depth.past ⟨0, 1⟩ ('(' :: (Text.commaJoin args ++ [')'])) = some ⟨0, 1⟩ :=
    past_group h
  have hless : Depth.zero.pastStep '<' = some ⟨0, 1⟩ := rfl
  have hgreater : Depth.past ⟨0, 1⟩ ['>'] = some .zero := rfl
  rw [angled_eq, past_cons, hless, Option.bind_some, past_append, hgroup, Option.bind_some,
    hgreater]

namespace Base

variable (hb : b.IsSpelled) (hargs : ∀ a ∈ b.arguments, Balanced a)
include hb hargs

theorem listable : Listable b.text := by
  cases b with
  | builtin words => exact listable_of_isWording (isWording_builtin hb)
  | named tag before stem arguments after =>
    obtain ⟨hfront, hback⟩ := isWording_named hb
    rw [text_named]
    refine Listable.append (Listable.append (listable_of_isWording hfront) ?_)
      (listable_of_isWording hback)
    cases arguments with
    | none => exact Listable.nil
    | some args => exact listable_angled hargs

theorem past_text : Depth.zero.past b.text = some .zero := by
  cases b with
  | builtin words => exact past_plain (unbracketed_of_isWording (isWording_builtin hb))
  | named tag before stem arguments after =>
    obtain ⟨hfront, hback⟩ := isWording_named hb
    have hmiddle : Depth.zero.past ((arguments.map angled).getD []) = some .zero := by
      cases arguments with
      | none => rfl
      | some args => exact past_angled (balanced_commaJoin hargs)
    rw [text_named, past_append, past_append, past_plain (unbracketed_of_isWording hfront),
      Option.bind_some, hmiddle, Option.bind_some, past_plain (unbracketed_of_isWording hback)]

theorem elements_text : elements b.text = .ok [b.text] :=
  elements_of_past (past_text hb hargs) (text_ne_nil hb)

end Base

/-- No base ends as an element does, or as the dots of an open parameter list. -/
theorem Base.getLast?_text (hb : b.IsSpelled) {d : Char} (hd : d ∈ ".)".toList) :
    b.text.getLast? ≠ some d := by
  have hother : (isIdentChar d || d = ':' || d = ' ') = false ∧ d ≠ '>' := by
    have hall : (".)".toList.all fun d => !(isIdentChar d || d = ':' || d = ' ') && d ≠ '>') = true := by
      decide
    simpa using List.all_eq_true.mp hall d hd
  have hwording : ∀ {t : Text}, isWording t = true → t.getLast? ≠ some d := fun ht hlast =>
    notMem_of_isWording ht hother.1 (List.mem_of_getLast? hlast)
  cases b with
  | builtin words => exact hwording (isWording_builtin hb)
  | named tag before stem arguments after =>
    obtain ⟨hfront, hback⟩ := isWording_named hb
    rw [text_named]
    cases arguments with
    | none => exact hwording (isWording_append (isWording_append hfront rfl) hback)
    | some args =>
      intro hlast
      have hending : front tag before stem ++ angled args ++ back after =
          front tag before stem ++ "<(".toList ++ Text.commaJoin args ++ [')'] ++
            ('>' :: back after) := by simp [angled]
      rw [Option.map_some, Option.getD_some, hending, List.getLast?_append_of_ne_nil _ (by simp)]
        at hlast
      rcases List.mem_cons.mp (List.mem_of_getLast? hlast) with hgreater | hmem
      · exact hother.2 hgreater
      · exact notMem_of_isWording hback hother.1 hmem

theorem dotted_listable_written {letter : Char} (hletter : letter ∈ "afqm".toList) (hx : Balanced x) :
    Dotted (written letter x) ∧ Listable (written letter x) := by
  have hall : ("afqm".toList.all fun c =>
      c ≠ '.' && c ≠ '(' && c ≠ ')' && c ≠ '<' && c ≠ '>' && c ≠ ',') = true := by decide
  have hplain := List.all_eq_true.mp hall letter hletter
  simp only [Bool.and_eq_true, decide_eq_true_eq] at hplain
  obtain ⟨⟨⟨⟨⟨hdot, hopen⟩, hclose⟩, hless⟩, hgreater⟩, hcomma⟩ := hplain
  exact ⟨dotted_written ⟨hdot, hopen, hclose, hless, hgreater⟩ hx,
    Listable.written ⟨hcomma, hopen, hclose⟩ hx⟩

theorem dotted_listable_pointer : Dotted "p.".toList ∧ Listable "p.".toList :=
  ⟨⟨['p'], rfl, rfl⟩, Listable.of_plain (by simp)⟩

theorem dotted_listable_reference : Dotted "r.".toList ∧ Listable "r.".toList :=
  ⟨⟨['r'], rfl, rfl⟩, Listable.of_plain (by simp)⟩

theorem IsSpellable.text {c : Constructor} (hc : IsSpellable c)
    (hps : ∀ ps, c = .function ps → ∀ p ∈ ps, Balanced p) : Dotted c.text ∧ Listable c.text := by
  cases c with
  | pointer => exact dotted_listable_pointer
  | reference => exact dotted_listable_reference
  | array d =>
    have hd := isWording_of_chars (List.all_eq_true.mp hc)
    exact dotted_listable_written (by decide) (listable_of_isWording hd).balanced
  | function ps => exact dotted_listable_written (by decide) (balanced_commaJoin (hps ps rfl))
  | qualifier w =>
    have hall : (qualifierWords.all isWording) = true := by decide
    have hw := List.all_eq_true.mp hall w hc
    exact dotted_listable_written (by decide) (listable_of_isWording hw).balanced
  | memberPointer owner =>
    obtain ⟨ns, -, hns, rfl⟩ := hc
    exact dotted_listable_written (by decide) (listable_of_isWording (isWording_path hns)).balanced

theorem IsNumber.chars (h : IsNumber t) : t.all isIdentChar = true := by
  refine List.all_eq_true.mpr fun c hc => ?_
  have hdigit := List.all_eq_true.mp h.2 c hc
  simp [isIdentChar, Char.isAlphanum, hdigit]

theorem IsNumber.listable (h : IsNumber t) : Listable t :=
  listable_of_isWording (isWording_of_chars (List.all_eq_true.mp h.chars))

theorem listable_varargs : Listable varargs := by
  have hletter : Listable ['v'] := Listable.of_plain (by simp)
  exact hletter.append (Listable.group (x := "...".toList) rfl)

theorem Declarable.listable (h : Declarable t) : Listable t := by
  induction h with
  | @chain cs b hcs hb horder hlast hparameters harguments ihp iha =>
    have hbase : Listable b.text := Base.listable hb fun a ha => by
      by_cases hnumber : IsNumber a
      · exact hnumber.listable.balanced
      · exact (iha a ha hnumber).balanced
    refine Listable.append (Listable.flatten fun e he => ?_) hbase
    obtain ⟨c, hc, rfl⟩ := List.mem_map.mp he
    refine ((hcs c hc).text fun ps hps p hp => ?_).2
    subst hps
    by_cases hvar : p = varargs
    · rw [hvar]
      exact listable_varargs.balanced
    · exact (ihp ps hc p hp hvar).balanced

theorem Declarable.ne_nil (h : Declarable t) : t ≠ [] := by
  cases h with
  | chain hcs hb horder hlast hparameters harguments =>
    simp [CType.chain, Base.text_ne_nil hb]

end BindingTypes.Declaration

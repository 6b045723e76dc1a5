import BindingTypes.Proofs.Declaration.Rules
import BindingTypes.Proofs.Declaration.Unambiguous

namespace BindingTypes.Declaration

open CType

/-- Tokens as a text falls into them: what begins as a name is one, and a bracket is a token of its
own. -/
def Worded (ts : List Token) : Prop :=
  ∀ token ∈ ts, (startsName token.text = true → ∀ c ∈ token.text, isIdentChar c = true) ∧
    (token.text ∈ brackets ∨ ∀ c ∈ token.text, c ∉ "()[]".toList)

/-- A template argument: copied text or a type. -/
def Given (a : CType) : Prop := LooseValue a ∨ LooseType a

/-- Constructors as declarators write them, with the types of their parameters. -/
def Declared (cs : List Constructor) : Prop :=
  ∀ d ∈ cs, LooseConstructor d ∧ ∀ ps, d = .function ps → ∀ p ∈ ps, LooseType p

/-- A base as specifiers write it. -/
def Based (h : Heading) : Prop := h.Loose ∧ ∀ a ∈ h.arguments, Given a

/-- What is recovered of the form of a type while it is read. -/
def Recovered : Kept where
  tokens _ ts := Worded ts
  type := LooseType
  specified t := ∃ cs h, t = chain cs h.text ∧ Declared cs ∧ Based h
  construct c := ∃ cs, c = (cs.map Constructor.text).flatten ∧ Declared cs
  base b := ∃ h, b = Heading.text h ∧ Based h
  name b := ∃ h, b = Heading.text h ∧ h.words = [] ∧ Based h
  component w := ∃ r, r ≠ [] ∧ (∀ c ∈ r, isPathChar c = true) ∧
    (w = r ∨ ∃ args, w = r ++ angled args ∧ ∀ a ∈ args, Given a)
  owner w := ∀ c ∈ w, isPathChar c = true
  argument := Given

variable {source raw owner w t : Text} {ts rest : List Token} {token : Token} {depth : Nat}
  {afterWord : Bool} {stops : List Text} {cs ds : List Constructor} {h : Heading} {a : CType}

section Tokens

theorem notMem_brackets_of_isIdentChar {c : Char} (h : isIdentChar c = true) :
    c ∉ "()[]".toList := by
  intro hc
  have hall : ∀ c ∈ "()[]".toList, isIdentChar c = false := by decide
  rw [hall c hc] at h
  cases h

/-- A bracket is a token of its own. -/
theorem bracket_of_token (c : Char) (cs : Text) :
    (c :: cs).take (tokenLength c cs) ∈ brackets ∨
      ∀ d ∈ (c :: cs).take (tokenLength c cs), d ∉ "()[]".toList := by
  by_cases hc : isIdentChar c = true
  · exact Or.inr fun d hd => notMem_brackets_of_isIdentChar (word_of_isIdentChar hc d hd)
  · rw [tokenLength, if_neg hc]
    split
    · rename_i hcolons
      obtain ⟨r, hr⟩ := Text.startsWith_iff.mp hcolons
      rw [hr]
      have hplain : ∀ d ∈ "::".toList, d ∉ "()[]".toList := by decide
      exact Or.inr hplain
    · split
      · rename_i hdots
        obtain ⟨r, hr⟩ := Text.startsWith_iff.mp hdots
        rw [hr]
        have hplain : ∀ d ∈ "...".toList, d ∉ "()[]".toList := by decide
        exact Or.inr hplain
      · rw [List.take_one, List.head?_cons, Option.toList_some]
        by_cases hb : c ∈ "()[]".toList
        · have hall : ∀ c ∈ "()[]".toList, [c] ∈ brackets := by decide
          exact Or.inl (hall c hb)
        · exact Or.inr (List.forall_mem_singleton.mpr hb)

theorem worded_tokens (source : Text) : Worded (tokens source) := by
  have hall := forall_mem_tokensFrom (P := fun w => w ∈ brackets ∨ ∀ c ∈ w, c ∉ "()[]".toList)
    bracket_of_token source 0
  exact fun token htoken =>
    ⟨word_of_mem_tokensFrom source 0 token htoken, hall token htoken⟩

namespace Worded

theorem tail (hb : Worded (token :: ts)) : Worded ts :=
  fun token' htoken' => hb token' (List.mem_cons_of_mem _ htoken')

theorem path (hb : Worded (token :: ts)) (hs : startsName token.text = true) :
    ∀ c ∈ token.text, isPathChar c = true :=
  fun c hc => isPathChar_of_isIdentChar ((hb token List.mem_cons_self).1 hs c hc)

/-- One token on, the open brackets are as many as its kind says. -/
theorem step (hb : Worded (token :: ts)) (hclosed : ¬ ((decide (token.text = [')']) ||
      decide (token.text = [']'])) && decide (depth = 0)) = true) :
    bracketsAfter depth token.text = some
      (if (decide (token.text = ['(']) || decide (token.text = ['['])) = true then depth + 1
      else if (decide (token.text = [')']) || decide (token.text = [']'])) = true then depth - 1
      else depth) := by
  rcases (hb token List.mem_cons_self).2 with hbracket | hplain
  · simp only [brackets, List.mem_cons, List.not_mem_nil, or_false] at hbracket
    rcases hbracket with h | h | h | h <;> rw [h] at hclosed ⊢
    · rfl
    · rfl
    all_goals
      have hpos : depth ≠ 0 := by simpa using hclosed
      simp [bracketStep, hpos]
  · have hne : ∀ c ∈ "()[]".toList, token.text ≠ [c] := by
      intro c hc h
      exact hplain c (h ▸ List.mem_cons_self) hc
    have hround := hne '(' (by decide)
    have hsquare := hne '[' (by decide)
    have hendRound := hne ')' (by decide)
    have hendSquare := hne ']' (by decide)
    rw [(closesAll_of_plain hplain).after]
    simp [hround, hsquare, hendRound, hendSquare]

end Worded

/-- What is copied up to a stop closes what is open. -/
theorem rawUntil_closes (hb : Worded ts)
    (h : rawUntil source stops depth afterWord ts = .ok (raw, rest)) :
    Worded rest ∧ bracketsAfter depth raw = some 0 := by
  induction ts generalizing depth afterWord raw with
  | nil => cases h
  | cons token ts ih =>
    unfold rawUntil at h
    split at h
    · rename_i hstop
      cases h
      exact ⟨hb, by rw [hstop.1]; rfl⟩
    · dsimp only at h
      split at h
      · cases h
      · rename_i hclosed
        obtain ⟨r, hr, he⟩ := map_eq_ok h
        cases he
        obtain ⟨hrest, hcloses⟩ := ih hb.tail hr
        have hgap : ClosesAll (if (afterWord && isWord token.text) = true then [' '] else []) := by
          split <;> decide
        refine ⟨hrest, ?_⟩
        rw [bracketsAfter_append, bracketsAfter_append, hgap.after, Option.bind_some,
          hb.step hclosed, Option.bind_some, hcloses]

end Tokens

section Forms

theorem Given.closes (ha : Given a) : ClosesAll a := ha.elim Value.closes Formed.closes

theorem exists_copied {args : List CType} (h : ∀ a ∈ args, Given a) :
    ∃ copied : List CType, (∀ a ∈ copied, LooseValue a) ∧
      ∀ a ∈ args, a ∉ copied → LooseType a := by
  classical
  refine ⟨args.filter fun a => decide (LooseValue a), fun a ha => ?_, fun a ha hno => ?_⟩
  · exact of_decide_eq_true (List.mem_filter.mp ha).2
  · exact (h a ha).resolve_left fun hv => hno (List.mem_filter.mpr ⟨ha, decide_eq_true hv⟩)

namespace Declared

theorem nil : Declared [] := List.forall_mem_nil _

theorem append (hcs : Declared cs) (hds : Declared ds) : Declared (cs ++ ds) :=
  List.forall_mem_append.mpr ⟨hcs, hds⟩

theorem construct {d : Constructor} (hd : LooseConstructor d)
    (hps : ∀ ps, d = .function ps → ∀ p ∈ ps, LooseType p) : Recovered.construct d.text :=
  ⟨[d], by simp, List.forall_mem_singleton.mpr ⟨hd, hps⟩⟩

theorem formed (hcs : Declared cs) (hh : Based h) : LooseType (chain cs h.text) := by
  obtain ⟨copied, hcopied, hargs⟩ := exists_copied hh.2
  exact .chain (fun d hd => (hcs d hd).1) hh.1 False.elim hcopied
    (fun ps hps => (hcs _ hps).2 ps rfl) hargs

end Declared

namespace Based

/-- A name without template arguments of its own is a path. -/
theorem of_path {r : Text} (hne : r ≠ []) (hr : ∀ c ∈ r, isPathChar c = true) :
    Based ⟨[], r, none⟩ where
  left := .of_path hne hr
  right := List.forall_mem_nil _

theorem of_template {r t : Text} {args : List CType} (hne : r ≠ [])
    (hr : ∀ c ∈ r, isPathChar c = true) (hargs : ∀ a ∈ args, Given a) (ht : LooseScopes t) :
    Based ⟨[], r, some (args, t)⟩ where
  left := .of_template hne hr ht
  right := hargs

theorem scopes (hh : Based h) (hw : h.words = []) : LooseScopes h.text := by
  obtain ⟨words, front, template⟩ := h
  obtain rfl : words = [] := hw
  have hfront := hh.1.front
  cases template with
  | none =>
    have hnil : LooseScopes [] := .nil
    simpa [Heading.text, Heading.stem] using hnil.path hfront
  | some b =>
    have hargs : ∀ a ∈ b.1, ClosesAll a ∧ (False → Balanced a) := fun a ha =>
      ⟨(hh.2 a ha).closes, False.elim⟩
    have hpath := Scopes.path hfront (.template hargs (hh.1.scopes b rfl))
    simpa [Heading.text, Heading.stem] using hpath

/-- A path in front of a name is a part of it. -/
theorem behind {r : Text} (hh : Based h) (hr : ∀ c ∈ r, isPathChar c = true) :
    Based { h with front := r ++ h.front } where
  left := {
    words := hh.1.words
    ne_nil := by simp [hh.1.ne_nil]
    front := List.forall_mem_append.mpr ⟨hr, hh.1.front⟩
    scopes := hh.1.scopes
    unqualified := False.elim }
  right := hh.2

theorem text_behind {r : Text} (hw : h.words = []) :
    Heading.text { h with front := r ++ h.front } = r ++ h.text := by
  simp [Heading.text, Heading.stem, hw]

theorem led {ws : List Text} (hh : Based h) (hws : ∀ w ∈ ws, w ∈ typeTags ++ builtinWords) :
    Based { h with words := ws } where
  left := { hh.1 with
    words := hws
    unqualified := False.elim }
  right := hh.2

/-- A name inside a component, which may have template arguments, is a name. -/
theorem exists_within {r : Text} (hh : Based h) (hwords : h.words = []) (hne : r ≠ [])
    (hr : ∀ c ∈ r, isPathChar c = true)
    (hw : w = r ∨ ∃ args, w = r ++ angled args ∧ ∀ a ∈ args, Given a) :
    ∃ h', w ++ "::".toList ++ h.text = Heading.text h' ∧ h'.words = [] ∧ Based h' := by
  obtain rfl | ⟨args, rfl, hargs⟩ := hw
  · refine ⟨_, ?_, ?_, hh.behind (List.forall_mem_append.mpr ⟨hr, isPathChar_colons⟩)⟩
    · exact (text_behind hwords).symm
    · exact hwords
  · refine ⟨_, ?_, rfl, .of_template hne hr hargs (.path isPathChar_colons (hh.scopes hwords))⟩
    simp [Heading.text, Heading.stem]

/-- The one spelling of builtin words is a base, with the last word in place of a name. -/
theorem exists_builtin {ws : List Text} (hw : ∀ w ∈ ws, w ∈ builtinWords) :
    ∃ h, canonicalBuiltin ws = Heading.text h ∧ Based h := by
  obtain ⟨parts, hne, hparts, heq⟩ := canonicalBuiltin_parts hw
  obtain ⟨init, last, rfl⟩ := (List.eq_nil_or_concat parts).resolve_left hne
  rw [List.concat_eq_append] at hparts heq
  obtain ⟨hinit, hlast⟩ := List.forall_mem_append.mp hparts
  have hall : ∀ w ∈ builtinWords, w ≠ [] ∧ w.all isPathChar = true := by decide
  obtain ⟨hne, hpath⟩ := hall last (hlast last List.mem_cons_self)
  refine ⟨_, ?_, (of_path hne (List.all_eq_true.mp hpath)).led fun w hw =>
    List.mem_append_right _ (hinit w hw)⟩
  rw [heq, intercalate_around]
  simp [Heading.text, Heading.stem]

end Based

theorem recovered_closed : Recovered.Closed where
  skip hb _ := hb.tail
  round hb _ := hb.tail
  square hb _ := hb.tail
  endRound hb _ := hb.tail
  endSquare hb _ := hb.tail
  raw hb h := (rawUntil_closes hb h).1
  copied hb h hne := Or.inl ⟨hne, (rawUntil_closes hb h).2, False.elim, False.elim, False.elim⟩
  array {_ _ _ _ w _} hb h :=
    Declared.construct (d := .array w) ⟨(rawUntil_closes hb h).2, False.elim⟩ nofun
  ownerWord hb hs := hb.path hs
  ownerScope hw ho :=
    List.forall_mem_append.mpr ⟨List.forall_mem_append.mpr ⟨hw, isPathChar_colons⟩, ho⟩
  ownerOutermost ho := List.forall_mem_append.mpr ⟨isPathChar_colons, ho⟩
  word {_ token _} hb hs :=
    ⟨token.text, fun hnil => by simp [hnil, startsName] at hs, hb.path hs, Or.inl rfl⟩
  template {_ token _ args} hb hs hargs :=
    ⟨token.text, fun hnil => by simp [hnil, startsName] at hs, hb.path hs,
      Or.inr ⟨args, rfl, hargs⟩⟩
  ends hw := by
    obtain ⟨r, hne, hr, rfl | ⟨args, rfl, hargs⟩⟩ := hw
    · exact ⟨_, by simp [Heading.text, Heading.stem], rfl, .of_path hne hr⟩
    · exact ⟨_, by simp [Heading.text, Heading.stem], rfl, .of_template hne hr hargs .nil⟩
  scope hw hb := by
    obtain ⟨r, hne, hr, hw⟩ := hw
    obtain ⟨h, rfl, hwords, hh⟩ := hb
    exact hh.exists_within hwords hne hr hw
  outermost hb := by
    obtain ⟨h, rfl, hwords, hh⟩ := hb
    exact ⟨_, (Based.text_behind hwords).symm, hwords, hh.behind isPathChar_colons⟩
  named hb := hb.imp fun h hh => ⟨hh.1, hh.2.2⟩
  tagged {w _} hw hne hb := by
    have hall : ∀ w ∈ tagKeywords, w ≠ "typename".toList → w ∈ typeTags ++ builtinWords := by decide
    obtain ⟨h, rfl, hwords, hh⟩ := hb
    refine ⟨_, ?_, hh.led (List.forall_mem_singleton.mpr (hall w hw hne))⟩
    simp [Heading.text, Heading.stem, hwords]
  builtin hw := Based.exists_builtin hw
  plain hb := by
    obtain ⟨h, rfl, hh⟩ := hb
    exact ⟨[], h, rfl, .nil, hh⟩
  qualified {w _} hw ht := by
    obtain ⟨cs, h, rfl, hcs, hh⟩ := ht
    refine ⟨.qualifier w :: cs, h, ?_, List.forall_mem_cons.mpr ⟨⟨hw, nofun⟩, hcs⟩, hh⟩
    have hpush := push_chain_text [.qualifier w] (chain cs h.text)
    simpa [addQualifier, apply, chain] using hpush
  pushed hc ht := by
    obtain ⟨cs, rfl, hcs⟩ := hc
    obtain ⟨ds, h, rfl, hds, hh⟩ := ht
    rw [push_chain_text]
    show LooseType (chain cs (chain ds h.text))
    rw [← chain_append]
    exact (hcs.append hds).formed hh
  dots := .dots
  typed ht := Or.inr ht
  nil := ⟨[], rfl, .nil⟩
  append hc hd := by
    obtain ⟨cs, rfl, hcs⟩ := hc
    obtain ⟨ds, rfl, hds⟩ := hd
    exact ⟨cs ++ ds, by simp, hcs.append hds⟩
  pointer := Declared.construct (d := .pointer) trivial nofun
  reference := Declared.construct (d := .reference) trivial nofun
  qualifier {w} hw := Declared.construct (d := .qualifier w) hw nofun
  memberPointer {o} ho := Declared.construct (d := .memberPointer o) ho nofun
  function {types} hps := Declared.construct (d := .function types) trivial fun ps h => by
    cases h
    exact hps

/-- What is parsed is formed as declarations are. -/
theorem formed_of_parse (h : parse source = .ok t) : LooseType t :=
  recovered_closed.parse (worded_tokens source) h

/-- What is parsed is formed as declarations are. Of the types of one spelling that are plain, one
is settled; so types that are plain and settled are told apart by what they are spelled as. -/
theorem parsed_told_apart {source source' : Text} {t t' : CType} (h : parse source = .ok t)
    (h' : parse source' = .ok t') :
    LooseType t ∧ LooseType t' ∧
      (PlainType t → ∃! u, SettledType u ∧ spelling u = spelling t) ∧
      (SettledType t → SettledType t' → spelling t = spelling t' → t = t') := by
  refine ⟨formed_of_parse h, formed_of_parse h', fun ht => ?_, Formed.eq_of_spelling⟩
  obtain ⟨u, hu, hs⟩ := ht.exists_settled
  exact ⟨u, ⟨hu, hs⟩, fun v hv => hv.1.eq_of_spelling hu (hv.2.trans hs.symm)⟩

/-- Pointers to rows of a table, and functions with an open parameter list that give them. -/
theorem formed_row {settled : Prop} (cs : List Constructor) (hcs : ∀ c ∈ cs, c = .pointer ∨
    c = .function ["p.q(const).char".toList, varargs]) :
    Formed True settled (chain cs "Table<(int,3)>::row".toList) := by
  have hint : Formed True settled (chain [] "int".toList) :=
    .of_path (by decide) (by decide +kernel) (by simp) (fun _ => .nil) (by simp)
  have hchar : Formed True settled (chain [.pointer, .qualifier "const".toList] "char".toList) := by
    refine .of_path (by decide) (by decide +kernel) ?_ (fun _ => ?_) (by simp)
    · simp [Spelt, qualifierWords]
    · simp [isQualifierElement]
  have hthree : PlainValue "3".toList :=
    ⟨by decide, by decide, fun _ => .of_plain (by decide), fun _ => by decide,
      fun _ => by decide +kernel⟩
  have hrow : Heading.Plain
      ⟨[], "Table".toList, some (["int".toList, "3".toList], "::row".toList)⟩ := by
    have hscopes : PlainScopes ("::row".toList ++ []) := .path (by decide +kernel) .nil
    exact .of_template (by decide) (by decide +kernel) hscopes
  show Formed True settled (chain cs
    (Heading.text ⟨[], "Table".toList, some (["int".toList, "3".toList], "::row".toList)⟩))
  refine .chain (fun c hc => ?_) hrow (fun _ => ?_)
    (List.forall_mem_singleton.mpr hthree) (fun ps hps p hp => ?_) fun a ha hno => ?_
  · rcases hcs c hc with rfl | rfl <;> trivial
  · refine (List.pairwise_of_forall_mem_list fun c hc d _ hq => ?_).isChain
    rcases hcs c hc with rfl | rfl <;> cases hq
  · obtain hps | hps := hcs _ hps
    · cases hps
    · cases hps
      rcases List.mem_pair.mp hp with rfl | rfl
      · exact hchar
      · exact .dots
  · rcases List.mem_pair.mp ha with rfl | rfl
    · exact hint
    · exact absurd List.mem_cons_self hno

/-- A pointer to a function is not spelled as a function that gives a pointer. -/
theorem callback_told_apart :
    parse "Table<int,3>::row (*)(const char *, ...)".toList =
        .ok "p.f(p.q(const).char,v(...)).Table<(int,3)>::row".toList ∧
      parse "Table<int,3>::row *(const char *, ...)".toList =
        .ok "f(p.q(const).char,v(...)).p.Table<(int,3)>::row".toList ∧
      (∃! u, SettledType u ∧
        spelling u = spelling "p.f(p.q(const).char,v(...)).Table<(int,3)>::row".toList) ∧
      spelling "p.f(p.q(const).char,v(...)).Table<(int,3)>::row".toList ≠
        spelling "f(p.q(const).char,v(...)).p.Table<(int,3)>::row".toList := by
  have hpointer : ∀ settled, Formed True settled
      "p.f(p.q(const).char,v(...)).Table<(int,3)>::row".toList := fun _ =>
    formed_row [.pointer, .function ["p.q(const).char".toList, varargs]] (by simp)
  have hfunction : SettledType "f(p.q(const).char,v(...)).p.Table<(int,3)>::row".toList :=
    formed_row [.function ["p.q(const).char".toList, varargs], .pointer] (by simp)
  have h : parse "Table<int,3>::row (*)(const char *, ...)".toList =
      .ok "p.f(p.q(const).char,v(...)).Table<(int,3)>::row".toList := by decide +kernel
  have h' : parse "Table<int,3>::row *(const char *, ...)".toList =
      .ok "f(p.q(const).char,v(...)).p.Table<(int,3)>::row".toList := by decide +kernel
  obtain ⟨-, -, hone, hsame⟩ := parsed_told_apart h h'
  exact ⟨h, h', hone (hpointer False), fun hs =>
    absurd (hsame (hpointer True) hfunction hs) (by decide)⟩

/-- The qualifier of a function is written where that of what it returns is. -/
theorem qualified_function_collides : ¬ ∀ source source' t t', parse source = .ok t →
    parse source' = .ok t' → spelling t = spelling t' → t = t' := by
  intro h
  have hqualified : parse "int () const".toList = .ok "q(const).f().int".toList := by decide +kernel
  have hresult : parse "const int ()".toList = .ok "f().q(const).int".toList := by decide +kernel
  have hspelled : spelling "q(const).f().int".toList = spelling "f().q(const).int".toList := by
    decide +kernel
  exact absurd (h _ _ _ _ hqualified hresult hspelled) (by decide)

/-- A qualifier in place of a tagged name, a parenthesis that a square bracket closes, and a value
that is spelled as a type collide with others too: none of them is plain. -/
example :
    (parse "typename struct const".toList = .ok "q(const).struct".toList ∧
      spelling "q(const).struct".toList = spelling "struct const".toList) ∧
    (parse "int [[)(3]]".toList = .ok "a([)(3]).int".toList ∧
      spelling "a([)(3]).int".toList = spelling "a([)(]).int".toList) ∧
    (parse "X<x: :y const>".toList = .ok "X<(x::y const)>".toList ∧
      spelling "X<(x::y const)>".toList = spelling "X<(q(const).x::y)>".toList) := by
  decide +kernel

end Forms

end BindingTypes.Declaration

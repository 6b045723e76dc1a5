import BindingTypes.Proofs.CType.LocalForm
import BindingTypes.Proofs.Declaration.Encoding

namespace BindingTypes.Declaration

open CType

/-- The parentheses of a type close, and it is split, declared with any name, brought into its local
form and named for run time. -/
structure Renders (t : CType) : Prop where
  balanced : Balanced t
  split : ∃ r, CType.split t = .ok r
  declared : ∀ id, ∃ out, declare t id = .ok out
  localized : ∃ l, localType .none t = .ok l
  named : ∃ name, runtimeName .none t = .ok name

variable {matching strict : Prop} {source : Text} {t : CType} {st : List Char} {token : Token}
  {ts : List Token}

/-- A token that starts a name is one. -/
theorem Bracketed.name (h : Bracketed matching strict st (token :: ts))
    (hs : startsName token.text = true) : isWording token.text = true ∧ EndsName token.text := by
  have hchars := h.words token List.mem_cons_self hs
  refine ⟨isWording_of_chars hchars, endsName_of_chars (fun hnil => ?_) hchars⟩
  rw [hnil] at hs
  cases hs

/-- The brackets that are left open, and what is spelled of what has been read. -/
def Rendered (matching strict : Prop) : Kept where
  tokens := Bracketed matching strict
  type := Typed matching strict
  specified := Typed matching strict
  construct := Constructs matching strict
  base := Named matching strict
  name := Named matching strict
  component := Component matching strict
  owner w := matching → Balanced w
  argument := Argument matching strict

theorem rendered_closed : (Rendered matching strict).Closed where
  skip hb hw := hb.skip hw
  round hb hw := hb.round hw
  square hb hw := hb.square hw
  endRound hb hw := (hb.endRound hw).1
  endSquare hb hw := (hb.endSquare hw).1
  raw hb h := (rawUntil_read hb h).1
  copied hb h _ := .copied (rawUntil_read hb h).2.1 (rawUntil_read hb h).2.2
  array hb h := .array (rawUntil_read hb h).2.1
  ownerWord hb hs hm := hb.plain hm (notMem_brackets_of_startsName hs)
  ownerScope hw ho hm := ((hw hm).append (by decide)).append (ho hm)
  ownerOutermost ho hm := Balanced.append (by decide) (ho hm)
  word hb hs := .word (hb.name hs).1 (hb.name hs).2
  template hb hs hargs := .template (hb.name hs).1 hargs
  ends hw := hw.named
  scope hw hb := hw.extended _ hb
  outermost hb := hb.behind (by decide)
  named hb := hb
  tagged {w b} hw _ hb := by
    have hall : ∀ w ∈ tagKeywords, isWording (w ++ [' ']) = true := by decide
    show Named matching strict (w ++ ' ' :: b)
    rw [List.append_cons]
    exact hb.behind (hall w hw)
  builtin hw := named_canonicalBuiltin hw
  plain hb := hb.typed
  qualified {w t} hw ht := by
    have hwords : ∀ w ∈ qualifierWords, Balanced w := by decide
    exact (Constructs.qualifier fun _ => hwords w hw).push ht
  pushed hc ht := hc.push ht
  dots := typed_varargs
  typed ht := ht.argument
  nil := .nil
  append hc hd := hc.append hd
  pointer := .pointer
  reference := .reference
  qualifier {w} hw := by
    have hwords : ∀ w ∈ qualifierWords, Balanced w := by decide
    exact .qualifier fun _ => hwords w hw
  memberPointer ho := .memberPointer ho
  function hps := .function hps

theorem typed_of_parse (hm : matching → Matched [] ((tokens source).map (·.text)))
    (hs : strict → Apart ((tokens source).map (·.text))) (h : parse source = .ok t) :
    Typed matching strict t := by
  have hb : Bracketed matching strict [] (tokens source) :=
    ⟨word_of_mem_tokensFrom source 0, hm, hs⟩
  exact rendered_closed.parse hb h

theorem renders_iff (hends : EndsName t) : Renders t ↔ Balanced t ∧ TemplatesClose t := by
  constructor
  · intro h
    exact (declare_returns_iff_closed []).mp (h.declared [])
  · rintro ⟨hb, hclose⟩
    exact {
      balanced := hb
      split := split_returns_iff.mpr hb
      declared := fun id => (declare_returns_iff_closed id).mpr ⟨hb, hclose⟩
      localized := localType_returns_iff.mpr hb
      named := runtimeName_of_closed hb hclose hends.not_dot hends.not_blank }

/-- What a text declares renders where its parentheses close and those of its template arguments do.
It has closing parentheses where round and square brackets match in the text, and it renders where
no parenthesis follows an angle bracket either. -/
theorem parse_renders_iff (h : parse source = .ok t) :
    (Renders t ↔ Balanced t ∧ TemplatesClose t) ∧
      ((∃ r, CType.split t = .ok r) ↔ Balanced t) ∧
      ((∃ l, localType .none t = .ok l) ↔ Balanced t) ∧
      (∀ id, (∃ out, declare t id = .ok out) ↔ Balanced t ∧ TemplatesClose t) ∧
      (Matched [] ((tokens source).map (·.text)) →
        Balanced t ∧ (Apart ((tokens source).map (·.text)) → Renders t)) := by
  have hread : Typed False False t := typed_of_parse False.elim False.elim h
  have hends := hread.ends
  refine ⟨renders_iff hends, split_returns_iff, localType_returns_iff, declare_returns_iff_closed,
    fun hmatched => ?_⟩
  have htyped : Typed True (Apart ((tokens source).map (·.text))) t :=
    typed_of_parse (fun _ => hmatched) id h
  have hbalanced := (htyped.listable trivial).balanced
  refine ⟨hbalanced, fun hapart => (renders_iff hends).mpr ?_⟩
  exact (declare_returns_iff_closed []).mp (htyped.spelled trivial hapart)

/-- A pointer to a function with an array in a template argument. -/
theorem callback_renders :
    parse "Table<int (*)[8], 3> &(*)(const char *)".toList =
        .ok "p.f(p.q(const).char).r.Table<(p.a(8).int,3)>".toList ∧
      Renders "p.f(p.q(const).char).r.Table<(p.a(8).int,3)>".toList := by
  have hparse : parse "Table<int (*)[8], 3> &(*)(const char *)".toList =
      .ok "p.f(p.q(const).char).r.Table<(p.a(8).int,3)>".toList := by decide +kernel
  obtain ⟨-, -, -, -, hrenders⟩ := parse_renders_iff hparse
  exact ⟨hparse, (hrenders (by decide +kernel)).2 (by decide +kernel)⟩

/-- A round bracket that a square one closes is left open in the encoding. -/
theorem brackets_cross : ¬ ∀ source t, parse source = .ok t → Renders t := by
  intro h
  have hparse : parse "int [(]]".toList = .ok "a((]).int".toList := by decide +kernel
  have hbalanced : ¬ Balanced "a((]).int".toList := by decide
  exact hbalanced (h _ _ hparse).balanced

/-- A comparison with a parenthesis in a value argument is read as a template. -/
example : parse "A<(x<(y)&&z>w)>".toList = .ok "A<((x<(y)&&z>w))>".toList ∧
    spelling "A<((x<(y)&&z>w))>".toList =
      .error (.malformed "(x<(y)&&z>w)".toList .templateNotClosed) := by decide +kernel

end BindingTypes.Declaration

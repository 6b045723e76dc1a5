import BindingTypes.Proofs.CType.Constructors
import BindingTypes.Proofs.CType.Nameless

namespace BindingTypes.CType

/-- What can stand behind the constructors of a type: no dot stands outside brackets, the
parentheses close, and it does not begin like a constructor with an argument. -/
structure IsBase (b : Text) : Prop where
  closed : ∃ d, Depth.zero.past b = some d ∧ d.parens = 0
  plain : ∀ letter ∈ "afqm".toList, b.startsWith [letter, '('] = false

instance (t : Text) : Decidable (Unbracketed t) :=
  decidable_of_iff ((t.all fun c => c ∉ ".()<>".toList) = true)
    (by simp only [List.all_eq_true, decide_eq_true_eq, Unbracketed])

def Constructor.kind : Constructor → Kind
  | .pointer => .pointer
  | .reference => .reference
  | .array _ => .array
  | .function _ => .function
  | .qualifier _ => .qualifier
  | .memberPointer _ => .memberPointer

variable {b t : Text} {c : Constructor} {cs : List Constructor}

theorem kind_text (c : Constructor) : Kind.of c.text = c.kind := by
  cases c with
  | pointer => rfl
  | reference => rfl
  | array d => exact kind_written
  | function ps => exact kind_written
  | qualifier w => exact kind_written
  | memberPointer o => exact kind_written

namespace IsBase

theorem not_array (h : IsBase b) : isArray b = false := h.plain 'a' (by decide)

theorem not_qualifier (h : IsBase b) : isQualifier b = false := h.plain 'q' (by decide)

theorem not_memberPointer (h : IsBase b) : isMemberPointer b = false := h.plain 'm' (by decide)

theorem not_dotted {x : Text} (h : IsBase b) (hx : Depth.zero.past x = some .zero) :
    b.startsWith (x ++ ['.']) = false := by
  rw [Bool.eq_false_iff]
  intro hstarts
  obtain ⟨u, rfl⟩ := Text.startsWith_iff.mp hstarts
  obtain ⟨d, hpast, -⟩ := h.closed
  rw [List.append_assoc, past_append, hx] at hpast
  cases hpast

theorem not_pointer (h : IsBase b) : isPointer b = false := h.not_dotted (x := ['p']) rfl

theorem not_reference (h : IsBase b) : isReference b = false := h.not_dotted (x := ['r']) rfl

theorem kind (h : IsBase b) : Kind.of b = .base := by
  have hpointer : b ≠ "p.".toList := by
    rintro rfl
    cases h.not_pointer
  have hreference : b ≠ "r.".toList := by
    rintro rfl
    cases h.not_reference
  have ha := h.plain 'a' (by decide)
  have hf := h.plain 'f' (by decide)
  have hq := h.plain 'q' (by decide)
  have hm := h.plain 'm' (by decide)
  unfold Kind.of
  rw [if_neg hpointer, if_neg hreference]
  simp only [show "a(".toList = ['a', '('] from rfl, show "f(".toList = ['f', '('] from rfl,
    show "q(".toList = ['q', '('] from rfl, show "m(".toList = ['m', '('] from rfl, ha, hf, hq, hm,
    Bool.false_and, Bool.false_eq_true, if_false]

theorem next (h : IsBase b) : next b = .ok (b, []) := by
  obtain ⟨d, hpast, hd⟩ := h.closed
  exact next_of_past hpast hd

/-- A base is one element, unless it is empty. -/
theorem elements (h : IsBase b) : elements b = .ok (if b = [] then [] else [b]) := by
  by_cases hb : b = []
  · rw [if_pos hb, hb, elements_nil]
  · rw [if_neg hb, elements_of_next h.next hb, elements_nil]
    rfl

end IsBase

theorem isBase_of_unbracketed (h : Unbracketed b) : IsBase b where
  closed := ⟨.zero, past_plain h, rfl⟩
  plain letter _ := by
    rw [Bool.eq_false_iff]
    intro hstarts
    obtain ⟨u, rfl⟩ := Text.startsWith_iff.mp hstarts
    exact h '(' (by simp) (by decide)

/-- The elements of a type are its constructors, and its base if that is not empty. -/
theorem elements_readable (hcs : ∀ c ∈ cs, c.IsReadable) (hb : IsBase b) :
    elements (chain cs b) = .ok (cs.map Constructor.text ++ if b = [] then [] else [b]) := by
  have hdotted : ∀ f ∈ cs.map Constructor.text, Dotted f := by
    intro f hf
    obtain ⟨c, hc, rfl⟩ := List.mem_map.mp hf
    exact (hcs c hc).dotted
  rw [chain, elements_flatten hdotted, hb.elements]
  rfl

theorem balanced_chain (hcs : ∀ c ∈ cs, c.IsReadable) (hb : IsBase b) : Balanced (chain cs b) :=
  balanced_of_elements (elements_readable hcs hb)

theorem next_readable (hc : c.IsReadable) (t : CType) : next (c.text ++ t) = .ok (c.text, t) :=
  next_eq_ok_iff.mpr (hc.dotted.cut t)

theorem text_inj_of_readable {c d : Constructor} (hc : c.IsReadable) (hd : d.IsReadable)
    (h : c.text = d.text) : c = d := by
  have hread := Constructor.ofElement?_text hc
  rw [h, Constructor.ofElement?_text hd] at hread
  exact (Option.some.inj (Except.ok.inj hread)).symm

theorem text_ne_base (c : Constructor) (hb : IsBase b) : c.text ≠ b := by
  intro h
  have hkind := kind_text c
  rw [h, hb.kind] at hkind
  cases c <;> cases hkind

/-- A type is read in one way only. -/
theorem readable_inj {ds : List Constructor} {e : Text} (hcs : ∀ c ∈ cs, c.IsReadable)
    (hds : ∀ c ∈ ds, c.IsReadable) (hb : IsBase b) (he : IsBase e) (h : chain cs b = chain ds e) :
    cs = ds ∧ b = e := by
  have hne : ∀ {c : Constructor} {ds : List Constructor} {b e : Text}, c.IsReadable → IsBase b →
      b ≠ chain (c :: ds) e := by
    intro c ds b e hc hb h
    have hnext := hb.next
    rw [h, chain_cons, next_readable hc] at hnext
    have htext := (Prod.mk.inj (Except.ok.inj hnext)).1
    exact text_ne_base c hb (htext.trans (by rw [h, chain_cons]))
  induction cs generalizing ds with
  | nil =>
    cases ds with
    | nil => exact ⟨rfl, h⟩
    | cons d ds => exact absurd h (hne (hds d List.mem_cons_self) hb)
  | cons c cs ih =>
    obtain ⟨hc, hcs⟩ := List.forall_mem_cons.mp hcs
    cases ds with
    | nil => exact absurd h.symm (hne hc he)
    | cons d ds =>
      obtain ⟨hd, hds⟩ := List.forall_mem_cons.mp hds
      have hnext := next_readable hc (chain cs b)
      rw [← chain_cons, h, chain_cons, next_readable hd] at hnext
      obtain ⟨htext, hrest⟩ := Prod.mk.inj (Except.ok.inj hnext)
      obtain ⟨rfl, hb⟩ := ih hcs hds hrest.symm
      exact ⟨by rw [text_inj_of_readable hd hc htext], hb⟩

section FirstCharacters

variable (c : Constructor) (t : CType)

/-- The first characters of a constructor tell its kind. -/
theorem isQualifier_text : isQualifier (c.text ++ t) = decide (c.kind = .qualifier) := by
  cases c <;> simp [isQualifier, Text.startsWith, Text.after?, Constructor.text, written,
    Constructor.kind]

theorem isPointer_text : isPointer (c.text ++ t) = decide (c.kind = .pointer) := by
  cases c <;> simp [isPointer, Text.startsWith, Text.after?, Constructor.text, written,
    Constructor.kind]

theorem isReference_text : isReference (c.text ++ t) = decide (c.kind = .reference) := by
  cases c <;> simp [isReference, Text.startsWith, Text.after?, Constructor.text, written,
    Constructor.kind]

theorem isArray_text : isArray (c.text ++ t) = decide (c.kind = .array) := by
  cases c <;> simp [isArray, Text.startsWith, Text.after?, Constructor.text, written,
    Constructor.kind]

theorem isMember_text : isMemberPointer (c.text ++ t) = decide (c.kind = .memberPointer) := by
  cases c <;> simp [isMemberPointer, Text.startsWith, Text.after?, Constructor.text, written,
    Constructor.kind]

end FirstCharacters

end BindingTypes.CType

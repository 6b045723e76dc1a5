import BindingTypes.Fault
import BindingTypes.Text.Measured

namespace BindingTypes

/-- A C or C++ type, written as a chain: outermost constructor first, base last.
`p.q(const).char` is a pointer to a constant character. -/
abbrev CType := Text

namespace CType

/-- Brackets open at a place in a type. Angle brackets count outside parentheses only. -/
structure Depth where
  parens : Nat
  angles : Nat
deriving DecidableEq

def Depth.zero : Depth := ⟨0, 0⟩

/-- The depth behind a character; nothing for a parenthesis that closes none. -/
def Depth.step (d : Depth) (c : Char) : Option Depth :=
  if c = '(' then some ⟨d.parens + 1, d.angles⟩
  else if c = ')' then if d.parens = 0 then none else some ⟨d.parens - 1, d.angles⟩
  else if d.parens ≠ 0 then some d
  else if c = '<' then some ⟨0, d.angles + 1⟩
  else if c = '>' then some ⟨0, d.angles - 1⟩
  else some d

/-- The text up to and with the first dot outside brackets, and what follows it. -/
def cutElement (d : Depth) : Text → Except Defect (Text × Text)
  | [] => if d.parens = 0 then .ok ([], []) else .error .unclosed
  | c :: cs =>
    if c = '.' ∧ d = Depth.zero then .ok ([c], cs)
    else
      match d.step c with
      | none => .error .unopened
      | some d' => (cutElement d' cs).map fun r => (c :: r.1, r.2)

theorem append_of_cutElement {d : Depth} {t e rest : Text}
    (h : cutElement d t = .ok (e, rest)) : e ++ rest = t := by
  induction t generalizing d e rest with
  | nil =>
    unfold cutElement at h
    split at h <;> cases h
    rfl
  | cons c cs ih =>
    unfold cutElement at h
    split at h
    next => cases h; rfl
    next =>
      split at h
      next => cases h
      next d' _ =>
        cases hr : cutElement d' cs with
        | error x => rw [hr] at h; cases h
        | ok r =>
          rw [hr] at h
          cases h
          simpa using ih hr

theorem ne_nil_of_cutElement {d : Depth} {t e rest : Text}
    (h : cutElement d t = .ok (e, rest)) (ht : t ≠ []) : e ≠ [] := by
  cases t with
  | nil => exact absurd rfl ht
  | cons c cs =>
    unfold cutElement at h
    split at h
    next => cases h; simp
    next =>
      split at h
      next => cases h
      next d' _ =>
        cases hr : cutElement d' cs with
        | error x => rw [hr] at h; cases h
        | ok r =>
          rw [hr] at h
          cases h
          simp

/-- The outermost element and the rest; the empty type has an empty one. -/
def next (t : CType) : Except Fault (Text × CType) :=
  match cutElement Depth.zero t with
  | .error d => .error (.malformed t d)
  | .ok r => .ok r

theorem next_eq_ok_iff {t e rest : Text} :
    next t = .ok (e, rest) ↔ cutElement Depth.zero t = .ok (e, rest) := by
  unfold next
  split <;> simp_all

theorem next_append {t e rest : Text} (h : next t = .ok (e, rest)) : e ++ rest = t :=
  append_of_cutElement (next_eq_ok_iff.mp h)

theorem next_rest_lt {t e rest : Text} (h : next t = .ok (e, rest)) (ht : t ≠ []) :
    rest.length < t.length := by
  have he := ne_nil_of_cutElement (next_eq_ok_iff.mp h) ht
  have hl := congrArg List.length (next_append h)
  have := List.length_pos_iff.mpr he
  simp only [List.length_append] at hl
  omega

/-- Elements in order, constructors first and base last. -/
def elements (t : CType) : Except Fault (List Text) :=
  if _ht : t = [] then .ok []
  else
    match _h : next t with
    | .error f => .error f
    | .ok r => (elements r.2).map (r.1 :: ·)
termination_by t.length
decreasing_by exact next_rest_lt _h _ht

theorem elements_nil : elements [] = .ok [] := by simp [elements]

theorem elements_of_next {t e rest : Text} (h : next t = .ok (e, rest)) (ht : t ≠ []) :
    elements t = (elements rest).map (e :: ·) := by
  rw [elements, dif_neg ht]
  split <;> simp_all

theorem flatten_of_elements {t : CType} {es : List Text} (h : elements t = .ok es) :
    es.flatten = t := by
  induction hn : t.length using Nat.strongRecOn generalizing t es with
  | ind n ih =>
    by_cases ht : t = []
    · subst ht; rw [elements_nil] at h; cases h; rfl
    · cases hx : next t with
      | error f => rw [elements, dif_neg ht] at h; split at h <;> simp_all
      | ok r =>
        rw [elements_of_next hx ht] at h
        cases hr : elements r.2 with
        | error f => rw [hr] at h; cases h
        | ok tail =>
          rw [hr] at h
          cases h
          simp [ih _ (hn ▸ next_rest_lt hx ht) hr rfl, next_append hx]

theorem length_le_of_mem_elements {t : CType} {es : List Text} (h : elements t = .ok es)
    {e : Text} (he : e ∈ es) : e.length ≤ t.length := by
  rw [← flatten_of_elements h]
  exact (List.sublist_flatten_of_mem he).length_le

/-- The elements up to the first malformed one, and what is wrong there. -/
def scan (t : CType) : List Text × Option Fault :=
  if _ht : t = [] then ([], none)
  else
    match _h : next t with
    | .error f => ([], some f)
    | .ok r => let tail := scan r.2; (r.1 :: tail.1, tail.2)
termination_by t.length
decreasing_by exact next_rest_lt _h _ht

theorem scan_of_next {t e rest : Text} (h : next t = .ok (e, rest)) (ht : t ≠ []) :
    scan t = (e :: (scan rest).1, (scan rest).2) := by
  rw [scan, dif_neg ht]
  split <;> simp_all

theorem scan_of_error {t : Text} {f : Fault} (h : next t = .error f) (ht : t ≠ []) :
    scan t = ([], some f) := by
  rw [scan, dif_neg ht]
  split <;> simp_all

theorem elements_of_error {t : Text} {f : Fault} (h : next t = .error f) (ht : t ≠ []) :
    elements t = .error f := by
  rw [elements, dif_neg ht]
  split <;> simp_all

theorem scan_of_elements {t : CType} {es : List Text} (h : elements t = .ok es) :
    scan t = (es, none) := by
  induction hn : t.length using Nat.strongRecOn generalizing t es with
  | ind n ih =>
    by_cases ht : t = []
    · subst ht; rw [elements_nil] at h; cases h; simp [scan]
    · cases hx : next t with
      | error f => rw [elements_of_error hx ht] at h; cases h
      | ok r =>
        rw [elements_of_next hx ht] at h
        cases hr : elements r.2 with
        | error f => rw [hr] at h; cases h
        | ok tail =>
          rw [hr] at h
          cases h
          rw [scan_of_next hx ht, ih _ (hn ▸ next_rest_lt hx ht) hr rfl]

theorem length_le_of_mem_scan {t : CType} {e : Text} (he : e ∈ (scan t).1) :
    e.length ≤ t.length := by
  induction hn : t.length using Nat.strongRecOn generalizing t with
  | ind n ih =>
    by_cases ht : t = []
    · subst ht; simp [scan] at he
    · cases hx : next t with
      | error f => rw [scan_of_error hx ht] at he; cases he
      | ok r =>
        rw [scan_of_next hx ht] at he
        have hl := congrArg List.length (next_append hx)
        simp only [List.length_append] at hl
        rcases List.mem_cons.mp he with rfl | he
        · omega
        · have := ih _ (hn ▸ next_rest_lt hx ht) he rfl
          omega

theorem ne_nil_of_mem_elements {t : CType} {es : List Text} (h : elements t = .ok es)
    {e : Text} (he : e ∈ es) : e ≠ [] := by
  induction hn : t.length using Nat.strongRecOn generalizing t es with
  | ind n ih =>
    by_cases ht : t = []
    · subst ht; rw [elements_nil] at h; cases h; cases he
    · cases hx : next t with
      | error f => rw [elements_of_error hx ht] at h; cases h
      | ok r =>
        rw [elements_of_next hx ht] at h
        cases hr : elements r.2 with
        | error f => rw [hr] at h; cases h
        | ok tail =>
          rw [hr] at h
          cases h
          rcases List.mem_cons.mp he with rfl | he
          · exact ne_nil_of_cutElement (next_eq_ok_iff.mp hx) ht
          · exact ih _ (hn ▸ next_rest_lt hx ht) hr he rfl

/-- The outermost element. -/
def first (t : CType) : Except Fault Text := (next t).map (·.1)

/-- The type behind its outermost element. -/
def rest (t : CType) : Except Fault CType := (next t).map (·.2)

/-- Every element but the last, and the last. -/
def split (t : CType) : Except Fault (CType × CType) :=
  (elements t).map fun es => (es.dropLast.flatten, es.getLastD [])

theorem split_append {t front base : CType} (h : split t = .ok (front, base)) :
    front ++ base = t := by
  cases he : elements t with
  | error f => rw [split, he] at h; cases h
  | ok es =>
    rw [split, he] at h
    cases h
    rw [← flatten_of_elements he]
    rcases List.eq_nil_or_concat es with rfl | ⟨init, last, rfl⟩ <;> simp

theorem split_base_ne_nil {t front base : CType} (h : split t = .ok (front, base))
    (ht : t ≠ []) : base ≠ [] := by
  cases he : elements t with
  | error f => rw [split, he] at h; cases h
  | ok es =>
    rw [split, he] at h
    cases h
    rcases List.eq_nil_or_concat es with rfl | ⟨init, last, rfl⟩
    · exact absurd (flatten_of_elements he).symm ht
    · simpa using ne_nil_of_mem_elements he (e := last) (by simp)

/-- The last element. -/
def base (t : CType) : Except Fault CType := (split t).map (·.2)

/-- Every element but the last. -/
def front (t : CType) : Except Fault CType := (split t).map (·.1)

/-- Another base under the same constructors. -/
def withBase (t base : CType) : Except Fault CType := (front t).map (· ++ base)

/-- A type, the number of its elements, and its base. -/
structure Outline where
  whole : MeasuredText
  size : Nat
  base : MeasuredText
deriving DecidableEq, Repr

def outline (t : CType) : Except Fault Outline :=
  (elements t).map fun es => ⟨t.measured, es.length, Text.measured (es.getLastD [])⟩

/-- The same base under more elements. -/
def Outline.wraps (outer inner : Outline) : Bool :=
  inner.size < outer.size && outer.base.same inner.base

def wraps (t inner : CType) : Except Fault Bool := do
  return (← outline t).wraps (← outline inner)

/-- The shape of a single element. -/
inductive Kind where
  | pointer | reference | array | function | qualifier | memberPointer | base
deriving DecidableEq, Repr

def Kind.of (element : Text) : Kind :=
  let opens (head : Text) := element.startsWith head && element.endsWith ").".toList
  if element = "p.".toList then .pointer
  else if element = "r.".toList then .reference
  else if opens "a(".toList then .array
  else if opens "f(".toList then .function
  else if opens "q(".toList then .qualifier
  else if opens "m(".toList then .memberPointer
  else .base

end CType

end BindingTypes

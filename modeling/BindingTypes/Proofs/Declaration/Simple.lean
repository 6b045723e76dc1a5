import BindingTypes.Proofs.CType.Crossing
import BindingTypes.Proofs.CType.Dots
import BindingTypes.Proofs.CType.WellFormed
import BindingTypes.Proofs.Declaration.Parsed

namespace BindingTypes.Declaration

open CType

/-- No dot of the text stands outside the angle brackets, or ends an element. -/
structure Undotted (t : Text) : Prop where
  past : Depth.zero.past t = some .zero
  simple : isSimple t = true
  angles : Balanced (t.map roundAngle)

variable {plain settled : Prop} {source t u : Text} {args : List CType} {h : Heading}
  {c : Constructor} {cs : List Constructor}

namespace Undotted

theorem append (ht : Undotted t) (hu : Undotted u) : Undotted (t ++ u) where
  past := by rw [past_append, ht.past, Option.bind_some, hu.past]
  simple := by
    rw [isSimple, simpleFrom_append ht.angles, Bool.and_eq_true_iff]
    exact ⟨ht.simple, hu.simple⟩
  angles := by
    rw [List.map_append]
    exact ht.angles.append hu.angles

theorem of_wording (ht : isWording t = true) : Undotted t where
  past := past_plain (unbracketed_of_isWording ht)
  simple := isSimple_unbracketed (unbracketed_of_isWording ht)
  angles := by
    have hbare : Bare t := fun c hc hm => by
      have hnone : ∀ d ∈ ".()<>,".toList, (isIdentChar d || d = ':' || d = ' ') = false := by decide
      exact notMem_of_isWording ht (hnone c hm) hc
    exact (Closed.of_bare hbare).angles

theorem of_angled (hargs : Nests (Text.commaJoin args)) : Undotted (angled args) where
  past := past_angled hargs.balanced
  simple := isSimple_angled hargs.angles
  angles := Closed.angles_angled hargs.angles

end Undotted

theorem plain_of_wording (ht : isWording t = true) : ∀ c ∈ t, c ∉ "()[]<>".toList := by
  intro c hc hm
  have hnone : ∀ d ∈ "()[]<>".toList, (isIdentChar d || d = ':' || d = ' ') = false := by decide
  exact notMem_of_isWording ht (hnone c hm) hc

theorem Scopes.undotted (ht : Scopes plain t) (hnests : Nests t) : Undotted t := by
  induction ht with
  | nil => exact ⟨rfl, rfl, rfl⟩
  | path hr _ ih =>
    have hwording := isWording_of_path hr
    exact (Undotted.of_wording hwording).append
      (ih (hnests.of_plain_append (plain_of_wording hwording)))
  | template hargs _ ih =>
    obtain ⟨hinside, hrest⟩ := hnests.of_angled_append fun a ha => (hargs a ha).1
    exact (Undotted.of_angled hinside).append (ih hrest)

theorem Heading.Proper.undotted (hh : h.Proper plain) (hargs : ∀ a ∈ h.arguments, ClosesAll a)
    (hnests : Nests h.text) : Undotted h.text := by
  have hstem := Undotted.of_wording hh.stem_wording
  unfold Heading.text at hnests ⊢
  unfold Heading.arguments at hargs
  cases hb : h.template with
  | none => simpa using hstem
  | some b =>
    rw [hb] at hargs hnests
    have hblock := hnests.of_plain_append (plain_of_wording hh.stem_wording)
    obtain ⟨hinside, hrest⟩ := hblock.of_angled_append hargs
    exact hstem.append ((Undotted.of_angled hinside).append ((hh.scopes b hb).undotted hrest))

/-- Where brackets nest, a constructor is an element, and its dot stands outside angle brackets. -/
theorem Spelt.outside (hc : Spelt plain c)
    (hps : ∀ ps, c = .function ps → ∀ p ∈ ps, ClosesAll p) (hnests : Nests (c.text ++ u)) :
    Dotted c.text ∧ isSimple (c.text ++ u) = false := by
  rcases hc.text_cases hps with htext | htext | ⟨letter, x, hletter, htext, hx⟩
  · rw [htext]
    exact ⟨dotted_listable_pointer.1, rfl⟩
  · rw [htext]
    exact ⟨dotted_listable_reference.1, rfl⟩
  · have hplain : ∀ d ∈ "afqm".toList, d ∉ "()[]<>".toList := by decide
    rw [htext] at hnests ⊢
    obtain ⟨hinside, -⟩ := hnests.of_written_append (hplain letter hletter) hx
    have hclosed := Closed.written hletter hinside.balanced hinside.angles
    refine ⟨(dotted_listable_written hletter hinside.balanced).1, ?_⟩
    rw [hclosed.isSimple_append, isSimple_written hletter hinside.angles, Bool.false_and]

/-- Where brackets nest, a name is what is written without constructors. -/
theorem Formed.simple_iff_of_nests (ht : Formed plain settled t) (hdots : t ≠ varargs)
    (hnests : Nests t) : isSimple t = true ↔ IsName t := by
  cases ht with
  | dots => exact absurd rfl hdots
  | @chain cs h copied hcs hh horder hcopied hparameters harguments =>
    cases cs with
    | nil =>
      have harg : ∀ a ∈ h.arguments, ClosesAll a := fun a ha => by
        by_cases hcopy : a ∈ copied
        · exact (hcopied a hcopy).closes
        · exact (harguments a ha hcopy).closes
      have hname : Undotted h.text := hh.undotted harg hnests
      exact iff_of_true hname.simple ⟨h.text, elements_of_past hname.past hh.text_ends.ne_nil,
        kind_base hh.text_ends.getLast?_ne_dot⟩
    | cons c cs =>
      rw [chain_cons] at hnests ⊢
      obtain ⟨hdotted, hsimple⟩ := (hcs c List.mem_cons_self).outside
        (fun ps hps p hp => (hparameters ps (hps ▸ List.mem_cons_self) p hp).closes) hnests
      refine iff_of_false (Bool.eq_false_iff.mp hsimple) ?_
      rintro ⟨e, he, hbase⟩
      rw [hdotted.elements] at he
      obtain ⟨es, -, hone⟩ := map_eq_ok he
      obtain ⟨rfl, -⟩ := List.cons.inj hone
      rw [kind_text] at hbase
      cases c <;> cases hbase

theorem Formed.ends (ht : Formed plain settled t) (hdots : t ≠ varargs) : EndsWord t := by
  cases ht with
  | dots => exact absurd rfl hdots
  | chain hcs hh => exact hh.text_ends.behind _

/-- Both scans judge a parsed type by what stands in front of its dots: one asks for an open angle
bracket, the other for one that is open as elements are read. They agree where brackets nest. -/
theorem simple_agrees (h : parse source = .ok t) (hdots : t ≠ varargs) :
    (isSimple t = true ↔ DotsBehind AngleOpen t) ∧
      (IsName t ↔ Balanced t ∧ DotsBehind ElementOpen t) ∧
      (Nests t → (isSimple t = true ↔ IsName t)) := by
  have hformed := formed_of_parse h
  have hends : EndsWord t := hformed.ends hdots
  exact ⟨isSimple_iff, isName_iff hends.ne_nil hends.getLast?_ne_dot,
    hformed.simple_iff_of_nests hdots⟩

/-- A comparison among template arguments leaves the dot of a number outside the angle brackets. -/
example : parse "A<(x>1.0)>".toList = .ok "A<((x>1.0))>".toList ∧
    isSimple "A<((x>1.0))>".toList = false ∧
    elements "A<((x>1.0))>".toList = .ok ["A<((x>1.0))>".toList] := by decide +kernel

theorem simple_agrees_on_row :
    parse "Table<int (*)(char, ...), 1.5>::row".toList =
        .ok "Table<(p.f(char,v(...)).int,1.5)>::row".toList ∧
      "Table<(p.f(char,v(...)).int,1.5)>::row".toList ≠ varargs ∧
      Nests "Table<(p.f(char,v(...)).int,1.5)>::row".toList ∧
      DotsBehind AngleOpen "Table<(p.f(char,v(...)).int,1.5)>::row".toList ∧
      DotsBehind ElementOpen "Table<(p.f(char,v(...)).int,1.5)>::row".toList ∧
      IsName "Table<(p.f(char,v(...)).int,1.5)>::row".toList := by
  have h : parse "Table<int (*)(char, ...), 1.5>::row".toList =
      .ok "Table<(p.f(char,v(...)).int,1.5)>::row".toList := by decide +kernel
  have hdots : "Table<(p.f(char,v(...)).int,1.5)>::row".toList ≠ varargs := by decide
  have hnests : Nests "Table<(p.f(char,v(...)).int,1.5)>::row".toList := by decide
  have hsimple : isSimple "Table<(p.f(char,v(...)).int,1.5)>::row".toList = true := by decide
  obtain ⟨hangles, helement, hagree⟩ := simple_agrees h hdots
  have hname := (hagree hnests).mp hsimple
  exact ⟨h, hdots, hnests, hangles.mp hsimple, (helement.mp hname).2, hname⟩

/-- Behind a comparison in a dimension no dot counts. -/
theorem comparison_not_simple : ¬ ∀ source t, parse source = .ok t → t ≠ varargs →
    (isSimple t = true ↔ IsName t) := by
  intro hall
  have h : parse "int [a<b]".toList = .ok "a(a<b).int".toList := by decide +kernel
  obtain ⟨e, he, -⟩ := (hall _ _ h (by decide)).mp (by decide +kernel)
  have htwo : elements "a(a<b).int".toList = .ok ["a(a<b).".toList, "int".toList] := by
    decide +kernel
  cases he.symm.trans htwo

end BindingTypes.Declaration

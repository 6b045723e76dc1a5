import BindingTypes.CType.Constructor
import BindingTypes.QualifiedName
import BindingTypes.Text.Identifier

namespace BindingTypes.CType

/-- No bracket and no dot. -/
def Unbracketed (t : Text) : Prop := ∀ c ∈ t, c ∉ ".()<>".toList

theorem Unbracketed.head {c : Char} {cs : Text} (h : Unbracketed (c :: cs)) :
    c ≠ '.' ∧ c ≠ '(' ∧ c ≠ ')' ∧ c ≠ '<' ∧ c ≠ '>' := by
  have hc := h c List.mem_cons_self
  refine ⟨?_, ?_, ?_, ?_, ?_⟩ <;> rintro rfl <;> exact hc (by decide)

theorem Unbracketed.tail {c : Char} {cs : Text} (h : Unbracketed (c :: cs)) : Unbracketed cs :=
  fun d hd => h d (List.mem_cons_of_mem _ hd)

theorem cutElement_unbracketed {t : Text} (h : Unbracketed t) :
    cutElement .zero t = .ok (t, []) := by
  induction t with
  | nil => rfl
  | cons c cs ih =>
    obtain ⟨hdot, hopen, hclose, hless, hgreater⟩ := h.head
    have hstep : Depth.zero.step c = some .zero := by
      simp [Depth.step, Depth.zero, hopen, hclose, hless, hgreater]
    unfold cutElement
    rw [if_neg fun hd => hdot hd.1, hstep]
    simp only [ih h.tail]
    rfl

theorem next_unbracketed {t : Text} (h : Unbracketed t) : next t = .ok (t, []) :=
  next_eq_ok_iff.mpr (cutElement_unbracketed h)

theorem elements_unbracketed {t : Text} (h : Unbracketed t) (ht : t ≠ []) :
    elements t = .ok [t] := by
  rw [elements_of_next (next_unbracketed h) ht, elements_nil]
  rfl

theorem isSimple_unbracketed {t : Text} (h : Unbracketed t) : isSimple t = true := by
  unfold isSimple
  induction t with
  | nil => rfl
  | cons c cs ih =>
    obtain ⟨hdot, -, -, hless, hgreater⟩ := h.head
    unfold simpleFrom
    rw [if_neg hless, if_neg hgreater, if_neg fun hd => hdot hd.1]
    exact ih h.tail

/-- What does not have the first letter of the needle is passed. -/
theorem cut?_of_notMem {c : Char} {t u needle : Text} (h : c ∉ t) :
    (t ++ u).cut? (c :: needle) = (u.cut? (c :: needle)).map fun r => (t ++ r.1, r.2) := by
  induction t with
  | nil =>
    show u.cut? (c :: needle) = _
    cases u.cut? (c :: needle) <;> rfl
  | cons d t ih =>
    have hd : ¬ c = d := fun hcd => h (hcd ▸ List.mem_cons_self)
    have ht : c ∉ t := fun hm => h (List.mem_cons_of_mem _ hm)
    rw [List.cons_append, Text.cut?]
    have hafter : Text.after? (d :: (t ++ u)) (c :: needle) = none := by simp [Text.after?, hd]
    rw [hafter]
    simp only [ih ht]
    cases u.cut? (c :: needle) <;> rfl

theorem cut?_eq_none_of_notMem {c : Char} {t needle : Text} (h : c ∉ t) :
    t.cut? (c :: needle) = none := by
  rw [← List.append_nil t, cut?_of_notMem h]
  rfl

theorem notMem_less_of_unbracketed {t : Text} (h : Unbracketed t) : '<' ∉ t :=
  fun hm => h '<' hm (by decide)

theorem isTemplate_unbracketed {t : Text} (h : Unbracketed t) : isTemplate t = false := by
  have hcut : t.cut? "<(".toList = none := cut?_eq_none_of_notMem (notMem_less_of_unbracketed h)
  rw [isTemplate, Text.has, hcut]
  rfl

theorem templateWithin_of_isTemplate {t : Text} (h : isTemplate t = false) :
    templateWithin t = .ok none := by
  have hcut : t.cut? "<(".toList = none := by simpa [isTemplate, Text.has] using h
  have hparts : templateParts t = .ok none := by
    unfold templateParts
    rw [hcut]
  unfold templateWithin
  split
  · rename_i f hf
    rw [hparts] at hf
    cases hf
  · rfl
  · rename_i parts hp
    rw [hparts] at hp
    cases hp

theorem closeGroup_append {k : Nat} {t inside rest : Text}
    (h : closeGroup k t = some (inside, rest)) (u : Text) :
    closeGroup k (t ++ u) = some (inside, rest ++ u) := by
  induction t generalizing k inside rest with
  | nil => cases h
  | cons c cs ih =>
    unfold closeGroup at h
    rw [List.cons_append]
    unfold closeGroup
    split at h
    · rename_i hc
      rw [if_pos hc]
      cases k with
      | zero =>
        cases h
        rfl
      | succ k =>
        obtain ⟨r, hr, he⟩ := Option.map_eq_some_iff.mp h
        cases he
        simp only [ih hr]
        rfl
    · rename_i hc
      rw [if_neg hc]
      obtain ⟨r, hr, he⟩ := Option.map_eq_some_iff.mp h
      cases he
      rw [ih hr]
      rfl

/-- Nothing inside parentheses ends an element. -/
theorem cutElement_of_closeGroup {k : Nat} {t inside rest : Text}
    (h : closeGroup k t = some (inside, rest)) :
    cutElement ⟨k + 1, 0⟩ t =
      (cutElement .zero rest).map fun r => (inside ++ ')' :: r.1, r.2) := by
  induction t generalizing k inside rest with
  | nil => cases h
  | cons c cs ih =>
    have hopen : ¬ (c = '.' ∧ (⟨k + 1, 0⟩ : Depth) = Depth.zero) := by
      rintro ⟨-, hd⟩
      cases hd
    unfold closeGroup at h
    rw [cutElement, if_neg hopen]
    split at h
    · rename_i hc
      subst hc
      cases k with
      | zero =>
        cases h
        have hstep : Depth.step ⟨0 + 1, 0⟩ ')' = some .zero := rfl
        rw [hstep]
        rfl
      | succ k =>
        obtain ⟨r, hr, he⟩ := Option.map_eq_some_iff.mp h
        cases he
        have hstep : Depth.step ⟨k + 1 + 1, 0⟩ ')' = some ⟨k + 1, 0⟩ := rfl
        rw [hstep]
        simp only [ih hr]
        cases cutElement .zero r.2 <;> rfl
    · rename_i hc
      obtain ⟨r, hr, he⟩ := Option.map_eq_some_iff.mp h
      cases he
      have hstep : Depth.step ⟨k + 1, 0⟩ c =
          some ⟨(if c = '(' then k + 1 else k) + 1, 0⟩ := by
        by_cases hp : c = '(' <;> simp [Depth.step, hp, hc]
      rw [hstep]
      simp only [ih hr]
      cases cutElement .zero r.2 <;> rfl

/-- A constructor of an object type. The dimension of an array closes all its brackets; where its
angle brackets do not close, as in `1<<4`, it has neither template arguments nor a name that is
qualified outside brackets. -/
def Constructor.IsPlain : Constructor → Prop
  | .pointer => True
  | .reference => True
  | .array d => closeGroup 0 (d ++ [')']) = some (d, []) ∧
      (isSimple (written 'a' d) = true →
        isTemplate (written 'a' d) = false ∧ QualifiedName.cutLast? 0 (written 'a' d) = none)
  | .qualifier words => words = "const".toList
  | .function _ => False
  | .memberPointer _ => False

theorem plain_nil : ∀ c ∈ ([] : List Constructor), c.IsPlain :=
  fun _ hc => absurd hc List.not_mem_nil

theorem plain_append {cs cs' : List Constructor} (hcs : ∀ c ∈ cs, c.IsPlain)
    (hcs' : ∀ c ∈ cs', c.IsPlain) : ∀ c ∈ cs ++ cs', c.IsPlain := by
  intro c hc
  rcases List.mem_append.mp hc with hc | hc
  · exact hcs c hc
  · exact hcs' c hc

/-- Constructors in front of a base. -/
def chain (cs : List Constructor) (base : CType) : CType := (cs.map Constructor.text).flatten ++ base

theorem chain_nil (base : CType) : chain [] base = base := rfl

theorem chain_append (cs cs' : List Constructor) (base : CType) :
    chain (cs ++ cs') base = chain cs (chain cs' base) := by
  simp [chain]

theorem chain_right_inj (cs : List Constructor) {t u : CType} : chain cs t = chain cs u ↔ t = u :=
  List.append_right_inj _

theorem closeGroup_dimension {d : Text} (h : closeGroup 0 (d ++ [')']) = some (d, [])) (t : Text) :
    closeGroup 0 (d ++ ").".toList ++ t) = some (d, '.' :: t) := by
  have ha := closeGroup_append h ('.' :: t)
  have he : d ++ ").".toList ++ t = d ++ [')'] ++ '.' :: t := by simp
  rw [he]
  exact ha

theorem next_constructor {c : Constructor} (hc : c.IsPlain) (t : CType) :
    next (c.text ++ t) = .ok (c.text, t) := by
  rw [next_eq_ok_iff]
  cases c with
  | pointer => rfl
  | reference => rfl
  | array d =>
    have hcut := cutElement_of_closeGroup (closeGroup_dimension hc.1 t)
    have hdot : cutElement .zero ('.' :: t) = .ok (['.'], t) := rfl
    rw [hdot] at hcut
    have hstart : cutElement .zero (Constructor.text (.array d) ++ t) =
        ((cutElement ⟨0 + 1, 0⟩ (d ++ ").".toList ++ t)).map
          fun r => ('(' :: r.1, r.2)).map fun r => ('a' :: r.1, r.2) := rfl
    rw [hstart, hcut]
    have htext : Constructor.text (.array d) = 'a' :: '(' :: (d ++ ")".toList ++ ['.']) := by
      simp [Constructor.text, written]
    rw [htext]
    simp [Except.map]
  | qualifier words =>
    cases hc
    rfl
  | function ps => cases hc
  | memberPointer c => cases hc

theorem text_ne_nil (c : Constructor) : c.text ≠ [] := by
  cases c <;> simp [Constructor.text, written]

theorem after?_text (c : Constructor) : c.text.after? "::".toList = none := by
  cases c <;> rfl

theorem dot_mem_text (c : Constructor) : '.' ∈ c.text := by
  cases c <;> simp [Constructor.text, written]

theorem dot_mem_chain {cs : List Constructor} (hcs : cs ≠ []) (base : CType) :
    '.' ∈ chain cs base := by
  obtain ⟨c, cs', rfl⟩ := List.exists_cons_of_ne_nil hcs
  simp [chain, dot_mem_text]

theorem elements_chain {cs : List Constructor} (hcs : ∀ c ∈ cs, c.IsPlain) (base : CType) :
    elements (chain cs base) = (elements base).map (cs.map Constructor.text ++ ·) := by
  induction cs with
  | nil =>
    rw [chain_nil]
    cases elements base <;> rfl
  | cons c cs ih =>
    have hnext : next (chain (c :: cs) base) = .ok (c.text, chain cs base) := by
      have h := next_constructor (hcs c List.mem_cons_self) (chain cs base)
      simpa [chain] using h
    have hne : chain (c :: cs) base ≠ [] := by
      simp [chain, text_ne_nil]
    rw [elements_of_next hnext hne, ih fun c hc => hcs c (List.mem_cons_of_mem _ hc)]
    cases elements base <;> rfl

theorem split_chain {cs : List Constructor} (hcs : ∀ c ∈ cs, c.IsPlain) {base : CType}
    (hb : Unbracketed base) (hne : base ≠ []) :
    split (chain cs base) = .ok (chain cs [], base) := by
  rw [split, elements_chain hcs, elements_unbracketed hb hne]
  simp [Except.map, chain]

theorem outline_chain {cs : List Constructor} (hcs : ∀ c ∈ cs, c.IsPlain) {base : CType}
    (hb : Unbracketed base) (hne : base ≠ []) :
    outline (chain cs base) =
      .ok ⟨(chain cs base).measured, cs.length + 1, base.measured⟩ := by
  rw [outline, elements_chain hcs, elements_unbracketed hb hne]
  simp [Except.map]

theorem outline_unbracketed {t : CType} (ht : Unbracketed t) (hne : t ≠ []) :
    outline t = .ok ⟨t.measured, 1, t.measured⟩ := by
  rw [outline, elements_unbracketed ht hne]
  rfl

/-- Only the dimension of an array can hide the dot of its element. -/
theorem eq_array_of_isSimple {c : Constructor} (hc : c.IsPlain) (h : isSimple c.text = true) :
    ∃ d, c = .array d := by
  cases c with
  | pointer => cases h
  | reference => cases h
  | array d => exact ⟨d, rfl⟩
  | qualifier words =>
    cases hc
    cases h
  | function ps => cases hc
  | memberPointer c => cases hc

theorem text_inj {c c' : Constructor} (hc : c.IsPlain) (h : c.text = c'.text) : c = c' := by
  cases c with
  | pointer => cases c' <;> simp [Constructor.text, written] at h ⊢
  | reference => cases c' <;> simp [Constructor.text, written] at h ⊢
  | array d =>
    cases c' <;> simp [Constructor.text, written] at h ⊢
    exact h
  | qualifier words =>
    cases c' <;> simp [Constructor.text, written] at h ⊢
    exact h
  | function ps => cases hc
  | memberPointer c => cases hc

/-- The elements that types stand in are not plain. -/
theorem nameless_text {c : Constructor} (hc : c.IsPlain) :
    isFunction c.text = false ∧ isMemberPointer c.text = false := by
  cases c with
  | pointer => exact ⟨rfl, rfl⟩
  | reference => exact ⟨rfl, rfl⟩
  | array d => exact ⟨rfl, rfl⟩
  | qualifier words =>
    cases hc
    exact ⟨rfl, rfl⟩
  | function ps => cases hc
  | memberPointer c => cases hc

theorem parameter_array {d : Text} (hc : (Constructor.array d).IsPlain) :
    parameter (Constructor.array d).text = .ok d := by
  have hnext : next (Constructor.array d).text = .ok ((Constructor.array d).text, []) := by
    have h := next_constructor hc []
    rwa [List.append_nil] at h
  have hcut : Text.cut? (Constructor.array d).text ['('] = some (['a'], d ++ ").".toList) := by
    simp [Constructor.text, written, Text.cut?, Text.after?]
  have hclose : closeGroup 0 (d ++ ").".toList) = some (d, ['.']) := by
    have h := closeGroup_dimension hc.1 []
    rwa [List.append_nil] at h
  have hgroup : group? (Constructor.array d).text = .ok (some d) := by
    rw [group?, hcut]
    simp only [hclose]
  rw [parameter, first, hnext]
  show argument (Constructor.array d).text = .ok d
  rw [argument, hgroup]
  rfl

theorem map_text_inj {cs cs' : List Constructor} (hcs : ∀ c ∈ cs, c.IsPlain)
    (h : cs.map Constructor.text = cs'.map Constructor.text) :
    cs = cs' := by
  induction cs generalizing cs' with
  | nil =>
    have hnil := List.map_eq_nil_iff.mp h.symm
    rw [hnil]
  | cons c cs ih =>
    cases cs' with
    | nil => cases h
    | cons c' cs' =>
      obtain ⟨hhead, htail⟩ := List.cons.inj h
      have hc := text_inj (hcs c List.mem_cons_self) hhead
      have hrest := ih (fun c hc => hcs c (List.mem_cons_of_mem _ hc)) htail
      rw [hc, hrest]

/-- A type is read in one way only. -/
theorem chain_inj {cs cs' : List Constructor} (hcs : ∀ c ∈ cs, c.IsPlain)
    (hcs' : ∀ c ∈ cs', c.IsPlain) {b b' : CType} (hb : Unbracketed b) (hb' : Unbracketed b')
    (hne : b ≠ []) (hne' : b' ≠ []) (h : chain cs b = chain cs' b') : cs = cs' ∧ b = b' := by
  have he := elements_chain hcs b
  have he' := elements_chain hcs' b'
  rw [h, he', elements_unbracketed hb hne, elements_unbracketed hb' hne'] at he
  have hlist := Except.ok.inj he
  obtain ⟨hmap, hbase⟩ := List.append_inj' hlist rfl
  exact ⟨map_text_inj hcs hmap.symm, (List.cons.inj hbase).1.symm⟩

/-- A base is determined by the text of the whole type. -/
theorem base_of_outline {t u : CType} {o o' : Outline} (ho : outline t = .ok o)
    (ho' : outline u = .ok o') (h : o.whole.same o'.whole = true) :
    o.base.text = o'.base.text := by
  have hwhole : ∀ {t : CType} {o : Outline}, outline t = .ok o → o.whole.text = t := by
    intro t o ho
    unfold outline at ho
    cases he : elements t with
    | error f =>
      rw [he] at ho
      cases ho
    | ok es =>
      rw [he] at ho
      cases ho
      rfl
  have htu : t = u := by
    rw [← hwhole ho, ← hwhole ho']
    exact MeasuredText.same_iff.mp h
  subst htu
  rw [ho] at ho'
  cases ho'
  rfl

end BindingTypes.CType

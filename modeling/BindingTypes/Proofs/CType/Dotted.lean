import BindingTypes.Proofs.CType.Balance

namespace BindingTypes.CType

/-- The depth behind a character that ends no element. -/
def Depth.pastStep (d : Depth) (c : Char) : Option Depth :=
  if c = '.' ∧ d = Depth.zero then none else d.step c

def Depth.past (d : Depth) (t : Text) : Option Depth := t.foldlM Depth.pastStep d

/-- An element that its own dot ends, whatever follows. -/
def Dotted (e : Text) : Prop := ∃ x, e = x ++ ['.'] ∧ Depth.zero.past x = some .zero

variable {d d' : Depth} {k m : Nat} {c : Char} {t u x y e rest front base : Text} {es fs : List Text}

@[simp] theorem past_nil : d.past [] = some d := rfl

@[simp] theorem past_cons : d.past (c :: t) = (d.pastStep c).bind (Depth.past · t) :=
  List.foldlM_cons

@[simp] theorem past_append : d.past (t ++ u) = (d.past t).bind (Depth.past · u) :=
  List.foldlM_append

theorem pastStep_eq_some (h : d.pastStep c = some d') :
    ¬ (c = '.' ∧ d = Depth.zero) ∧ d.step c = some d' := by
  unfold Depth.pastStep at h
  split at h
  · cases h
  · rename_i hc
    exact ⟨hc, h⟩

theorem parens_step : (d.step c).map (·.parens) = parensStep d.parens c := by
  unfold Depth.step parensStep
  by_cases ho : c = '('
  · simp [ho]
  · by_cases hc : c = ')'
    · by_cases hp : d.parens = 0 <;> simp [hc, hp]
    · by_cases hp : d.parens = 0
      · by_cases hl : c = '<'
        · simp [hl, hp]
        · by_cases hg : c = '>' <;> simp [ho, hc, hl, hg, hp]
      · simp [ho, hc, hp]

theorem parensStep_of_step (h : d.step c = some d') : parensStep d.parens c = some d'.parens := by
  rw [← parens_step, h]
  rfl

theorem parensAfter_of_past (h : d.past t = some d') : parensAfter d.parens t = some d'.parens :=
  foldlM_follows Depth.parens (fun hstep => parensStep_of_step (pastStep_eq_some hstep).2) h

/-- Inside parentheses no element ends and no angle bracket counts. -/
theorem pastStep_inside (h : parensStep k c = some m) (a : Nat) :
    Depth.pastStep ⟨k + 1, a⟩ c = some ⟨m + 1, a⟩ := by
  have hopen : ¬ (c = '.' ∧ (⟨k + 1, a⟩ : Depth) = Depth.zero) := by
    rintro ⟨-, hd⟩
    cases hd
  unfold parensStep at h
  rw [Depth.pastStep, if_neg hopen, Depth.step]
  split at h
  · rename_i ho
    cases h
    rw [if_pos ho]
  · rename_i ho
    rw [if_neg ho]
    split at h
    · rename_i hc
      rw [if_pos hc]
      split at h
      · cases h
      · rename_i hk
        cases h
        have hpred : k + 1 - 1 = k - 1 + 1 := by omega
        simp [hpred]
    · rename_i hc
      cases h
      rw [if_neg hc]
      simp

theorem past_inside (h : parensAfter k t = some m) (a : Nat) :
    Depth.past ⟨k + 1, a⟩ t = some ⟨m + 1, a⟩ :=
  foldlM_follows (fun k => (⟨k + 1, a⟩ : Depth)) (fun hstep => pastStep_inside hstep a) h

theorem past_group (hx : Balanced x) : d.past ('(' :: (x ++ [')'])) = some d := by
  have hopen : ∀ a, (⟨d.parens + 1, a⟩ : Depth).past x = some ⟨d.parens + 1, a⟩ :=
    past_inside (hx.after d.parens)
  have hstep : d.pastStep '(' = some ⟨d.parens + 1, d.angles⟩ := by
    simp [Depth.pastStep, Depth.step]
  have hclose : Depth.pastStep ⟨d.parens + 1, d.angles⟩ ')' = some d := by
    simp [Depth.pastStep, Depth.step]
  rw [past_cons, hstep]
  show (Depth.past ⟨d.parens + 1, d.angles⟩ (x ++ [')'])) = some d
  rw [past_append, hopen]
  show (Depth.past ⟨d.parens + 1, d.angles⟩ [')']) = some d
  rw [past_cons, hclose]
  rfl

theorem cutElement_past (h : d.past x = some d') (u : Text) :
    cutElement d (x ++ u) = (cutElement d' u).map fun r => (x ++ r.1, r.2) := by
  induction x generalizing d with
  | nil =>
    cases h
    show cutElement d' u = _
    cases cutElement d' u <;> rfl
  | cons c cs ih =>
    rw [past_cons] at h
    obtain ⟨n, hn, h⟩ := Option.bind_eq_some_iff.mp h
    obtain ⟨hdot, hstep⟩ := pastStep_eq_some hn
    rw [List.cons_append, cutElement, if_neg hdot, hstep]
    simp only [ih h]
    cases cutElement d' u <;> rfl

/-- An element is ended by a dot, or by the end of the text. -/
theorem cutElement_cases (h : cutElement d t = .ok (e, rest)) :
    (∃ x, e = x ++ ['.'] ∧ d.past x = some .zero) ∨
    (rest = [] ∧ ∃ d', d.past e = some d' ∧ d'.parens = 0) := by
  induction t generalizing d e rest with
  | nil =>
    unfold cutElement at h
    split at h
    · rename_i hp
      cases h
      exact Or.inr ⟨rfl, d, rfl, hp⟩
    · cases h
  | cons c cs ih =>
    unfold cutElement at h
    split at h
    · rename_i hdot
      cases h
      obtain ⟨rfl, rfl⟩ := hdot
      exact Or.inl ⟨[], rfl, rfl⟩
    · rename_i hdot
      split at h
      · cases h
      · rename_i n hn
        obtain ⟨r, hr, he⟩ := map_eq_ok h
        cases he
        have hstep : d.pastStep c = some n := by
          rw [Depth.pastStep, if_neg hdot, hn]
        rcases ih hr with ⟨x, hx, hpast⟩ | ⟨hrest, d', hpast, hp⟩
        · refine Or.inl ⟨c :: x, by rw [hx]; rfl, ?_⟩
          rw [past_cons, hstep]
          exact hpast
        · refine Or.inr ⟨hrest, d', ?_, hp⟩
          rw [past_cons, hstep]
          exact hpast

theorem cutElement_of_parensAfter (h : parensAfter d.parens t = some 0) :
    ∃ r, cutElement d t = .ok r ∧ Balanced r.2 := by
  induction t generalizing d with
  | nil =>
    have hp : d.parens = 0 := Option.some.inj h
    refine ⟨([], []), ?_, rfl⟩
    unfold cutElement
    rw [if_pos hp]
  | cons c cs ih =>
    rw [parensAfter_cons] at h
    obtain ⟨n, hn, h⟩ := Option.bind_eq_some_iff.mp h
    unfold cutElement
    split
    · rename_i hdot
      obtain ⟨rfl, rfl⟩ := hdot
      cases hn
      exact ⟨_, rfl, h⟩
    · cases hd : d.step c with
      | none =>
        rw [← parens_step, hd] at hn
        cases hn
      | some d' =>
        have hp := parensStep_of_step hd
        rw [hn] at hp
        cases hp
        obtain ⟨r, hr, hrest⟩ := ih h
        exact ⟨(c :: r.1, r.2), by simp [hr, Except.map], hrest⟩

namespace Dotted

theorem cut (h : Dotted e) (u : Text) : cutElement .zero (e ++ u) = .ok (e, u) := by
  obtain ⟨x, rfl, hx⟩ := h
  rw [List.append_assoc, cutElement_past hx]
  rfl

theorem ne_nil (h : Dotted e) : e ≠ [] := by
  obtain ⟨x, rfl, -⟩ := h
  simp

theorem getLast? (h : Dotted e) : e.getLast? = some '.' := by
  obtain ⟨x, rfl, -⟩ := h
  simp

theorem balanced (h : Dotted e) : Balanced e := by
  obtain ⟨x, rfl, hx⟩ := h
  exact Balanced.append (parensAfter_of_past hx) (by decide)

theorem elements (h : Dotted e) (u : Text) :
    CType.elements (e ++ u) = (CType.elements u).map (e :: ·) :=
  elements_of_next (next_eq_ok_iff.mpr (h.cut u)) (by simp [h.ne_nil])

theorem single (h : Dotted e) : CType.elements e = .ok [e] := by
  have hcut := h.elements []
  rwa [List.append_nil, elements_nil] at hcut

end Dotted

theorem elements_flatten (h : ∀ f ∈ fs, Dotted f) (u : Text) :
    elements (fs.flatten ++ u) = (elements u).map (fs ++ ·) := by
  induction fs with
  | nil =>
    show elements u = _
    cases elements u <;> rfl
  | cons f fs ih =>
    obtain ⟨hf, hfs⟩ := List.forall_mem_cons.mp h
    rw [List.flatten_cons, List.append_assoc, hf.elements, ih hfs]
    cases elements u <;> rfl

/-- A type that is not empty is a base behind elements that their own dots end. -/
theorem elements_cases (h : elements t = .ok es) (ht : t ≠ []) :
    ∃ fs b, es = fs ++ [b] ∧ (∀ f ∈ fs, Dotted f) ∧ elements b = .ok [b] ∧ b ≠ [] := by
  induction hn : t.length using Nat.strongRecOn generalizing t es with
  | ind n ih =>
    cases hx : next t with
    | error f =>
      rw [elements_of_error hx ht] at h
      cases h
    | ok r =>
      obtain ⟨e, rest⟩ := r
      rw [elements_of_next hx ht] at h
      obtain ⟨tail, hr, rfl⟩ := map_eq_ok h
      have hcut := next_eq_ok_iff.mp hx
      by_cases hrest : rest = []
      · subst hrest
        rw [elements_nil] at hr
        cases hr
        have het : e = t := by simpa using append_of_cutElement hcut
        subst het
        exact ⟨[], e, rfl, nofun, by rw [elements_of_next hx ht, elements_nil]; rfl, ht⟩
      · obtain ⟨fs, b, rfl, hfs, hb, hbne⟩ := ih _ (hn ▸ next_rest_lt hx ht) hr hrest rfl
        rcases cutElement_cases hcut with he | ⟨hnil, -⟩
        · exact ⟨e :: fs, b, rfl, List.forall_mem_cons.mpr ⟨he, hfs⟩, hb, hbne⟩
        · exact absurd hnil hrest

theorem balanced_of_elements_singleton (h : elements t = .ok [t]) (ht : t ≠ []) : Balanced t := by
  cases hx : next t with
  | error f =>
    rw [elements_of_error hx ht] at h
    cases h
  | ok r =>
    obtain ⟨e, rest⟩ := r
    rw [elements_of_next hx ht] at h
    obtain ⟨tail, -, he⟩ := map_eq_ok h
    obtain ⟨rfl, -⟩ := List.cons.inj he
    rcases cutElement_cases (next_eq_ok_iff.mp hx) with he | ⟨-, d', hpast, hp⟩
    · exact Dotted.balanced he
    · have hparens := parensAfter_of_past hpast
      rw [hp] at hparens
      exact hparens

theorem balanced_flatten (h : ∀ f ∈ fs, Balanced f) : Balanced fs.flatten :=
  Text.flatten_of_forall balanced_nil Balanced.append h

theorem balanced_of_elements (h : elements t = .ok es) : Balanced t := by
  by_cases ht : t = []
  · rw [ht]
    exact balanced_nil
  · obtain ⟨fs, b, rfl, hfs, hb, hbne⟩ := elements_cases h ht
    have hflat := flatten_of_elements h
    rw [List.flatten_append, List.flatten_singleton] at hflat
    rw [← hflat]
    exact (balanced_flatten fun f hf => (hfs f hf).balanced).append
      (balanced_of_elements_singleton hb hbne)

theorem elements_of_balanced (h : Balanced t) : ∃ es, elements t = .ok es := by
  induction hn : t.length using Nat.strongRecOn generalizing t with
  | ind n ih =>
    by_cases ht : t = []
    · rw [ht, elements_nil]
      exact ⟨[], rfl⟩
    · obtain ⟨r, hr, hrest⟩ := cutElement_of_parensAfter (d := .zero) h
      have hx := next_eq_ok_iff.mpr hr
      obtain ⟨es, hes⟩ := ih _ (hn ▸ next_rest_lt hx ht) hrest rfl
      rw [elements_of_next hx ht, hes]
      exact ⟨_, rfl⟩

end BindingTypes.CType

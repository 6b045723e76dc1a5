import BindingTypes.CType.Shape
import BindingTypes.Proofs.Outcome

namespace BindingTypes.CType

/-- The number of parentheses open behind a character; nothing where it closes none. -/
def parensStep (k : Nat) (c : Char) : Option Nat :=
  if c = '(' then some (k + 1)
  else if c = ')' then if k = 0 then none else some (k - 1)
  else some k

def parensAfter (k : Nat) (t : Text) : Option Nat := t.foldlM parensStep k

def Balanced (t : Text) : Prop := parensAfter 0 t = some 0

instance (t : Text) : Decidable (Balanced t) := inferInstanceAs (Decidable (_ = _))

section Scans

variable {σ τ : Type} {step : σ → Char → Option σ} {step' : τ → Char → Option τ} {s s' : σ}
  {t : Text}

/-- A scan that no character moves ends where it began. -/
theorem foldlM_stays (h : ∀ c ∈ t, step s c = some s) : t.foldlM step s = some s := by
  induction t with
  | nil => rfl
  | cons c t ih =>
    obtain ⟨hc, ht⟩ := List.forall_mem_cons.mp h
    rw [List.foldlM_cons, hc]
    exact ih ht

/-- Where one scan follows another step by step, reading its states through `f`, it follows it to
the end. -/
theorem foldlM_follows (f : σ → τ)
    (hstep : ∀ {s s' c}, step s c = some s' → step' (f s) c = some (f s'))
    (h : t.foldlM step s = some s') : t.foldlM step' (f s) = some (f s') := by
  induction t generalizing s with
  | nil =>
    cases h
    rfl
  | cons c t ih =>
    rw [List.foldlM_cons] at h ⊢
    obtain ⟨between, hc, h⟩ := Option.bind_eq_some_iff.mp h
    rw [hstep hc]
    exact ih h

end Scans

section Parens

variable {k m : Nat} {t u x y : Text}

@[simp] theorem parensAfter_nil : parensAfter k [] = some k := rfl

@[simp] theorem parensAfter_cons {c : Char} :
    parensAfter k (c :: t) = (parensStep k c).bind (parensAfter · t) := List.foldlM_cons

@[simp] theorem parensAfter_append :
    parensAfter k (t ++ u) = (parensAfter k t).bind (parensAfter · u) := List.foldlM_append

@[simp] theorem parensStep_open : parensStep k '(' = some (k + 1) := rfl

@[simp] theorem parensStep_close : parensStep (k + 1) ')' = some k := rfl

theorem parensStep_other {c : Char} (ho : c ≠ '(') (hc : c ≠ ')') : parensStep k c = some k := by
  simp [parensStep, ho, hc]

theorem parensStep_add {c : Char} (h : parensStep k c = some m) (j : Nat) :
    parensStep (k + j) c = some (m + j) := by
  unfold parensStep at h ⊢
  split at h
  · cases h
    simp [*]
    omega
  · split at h
    · split at h
      · cases h
      · cases h
        have hkj : k + j ≠ 0 := by omega
        simp [*]
        omega
    · cases h
      simp [*]

theorem parensAfter_add (h : parensAfter k t = some m) (j : Nat) :
    parensAfter (k + j) t = some (m + j) :=
  foldlM_follows (· + j) (fun hstep => parensStep_add hstep j) h

theorem Balanced.after (h : Balanced t) (k : Nat) : parensAfter k t = some k := by
  have hk := parensAfter_add h k
  rwa [Nat.zero_add] at hk

theorem balanced_nil : Balanced [] := rfl

theorem balanced_of_notMem (ho : '(' ∉ t) (hc : ')' ∉ t) : Balanced t :=
  foldlM_stays fun _ hm =>
    parensStep_other (ne_of_mem_of_not_mem hm ho) (ne_of_mem_of_not_mem hm hc)

theorem Balanced.append (ht : Balanced t) (hu : Balanced u) : Balanced (t ++ u) := by
  unfold Balanced
  rw [parensAfter_append, ht]
  exact hu

theorem Balanced.right (h : Balanced (t ++ u)) (ht : Balanced t) : Balanced u := by
  unfold Balanced at h
  rwa [parensAfter_append, ht] at h

theorem parensAfter_group (hx : Balanced x) :
    parensAfter k ('(' :: (x ++ ')' :: u)) = parensAfter k u := by
  simp [hx.after]

theorem Balanced.group (hx : Balanced x) : Balanced ('(' :: (x ++ [')'])) := parensAfter_group hx

/-- What stands inside a pair of parentheses does not matter outside. -/
theorem Balanced.replace (h : Balanced (t ++ '(' :: (x ++ ')' :: u))) (hx : Balanced x)
    (hy : Balanced y) : Balanced (t ++ '(' :: (y ++ ')' :: u)) := by
  unfold Balanced at h ⊢
  rw [parensAfter_append] at h ⊢
  simp only [parensAfter_group hx] at h
  simpa only [parensAfter_group hy] using h

theorem parensAfter_of_closeGroup {inside rest : Text} (h : closeGroup k t = some (inside, rest)) :
    parensAfter k inside = some 0 := by
  induction t generalizing k inside rest with
  | nil => cases h
  | cons c cs ih =>
    unfold closeGroup at h
    split at h
    · rename_i hc
      subst hc
      cases k with
      | zero =>
        cases h
        rfl
      | succ k =>
        obtain ⟨r, hr, he⟩ := Option.map_eq_some_iff.mp h
        cases he
        rw [parensAfter_cons, parensStep_close]
        exact ih hr
    · rename_i hc
      obtain ⟨r, hr, he⟩ := Option.map_eq_some_iff.mp h
      cases he
      have hstep : parensStep k c = some (if c = '(' then k + 1 else k) := by
        by_cases ho : c = '(' <;> simp [parensStep, ho, hc]
      rw [parensAfter_cons, hstep]
      exact ih hr

theorem closeGroup_of_parensAfter (h : parensAfter k x = some 0) (u : Text) :
    closeGroup k (x ++ ')' :: u) = some (x, u) := by
  induction x generalizing k with
  | nil =>
    cases h
    rfl
  | cons c cs ih =>
    rw [parensAfter_cons] at h
    obtain ⟨n, hn, h⟩ := Option.bind_eq_some_iff.mp h
    have hrest := ih h
    rw [List.cons_append]
    unfold closeGroup
    unfold parensStep at hn
    split at hn
    · rename_i ho
      cases hn
      have hc : c ≠ ')' := by
        rw [ho]
        decide
      rw [if_neg hc, if_pos ho, hrest]
      rfl
    · rename_i ho
      split at hn
      · rename_i hc
        split at hn
        · cases hn
        · cases hn
          obtain ⟨j, rfl⟩ : ∃ j, k = j + 1 := ⟨k - 1, by omega⟩
          rw [if_pos hc]
          simp only [Nat.add_sub_cancel] at hrest
          simp only [hrest]
          rfl
      · rename_i hc
        cases hn
        rw [if_neg hc, if_neg ho, hrest]
        rfl

theorem group?_cases {inside : Text} (h : group? t = .ok (some inside)) :
    ∃ front rest, t = front ++ '(' :: (inside ++ ')' :: rest) ∧ Balanced inside := by
  unfold group? at h
  split at h
  · cases h
  · rename_i front opened hcut
    split at h
    · rename_i inside' rest hclose
      cases h
      refine ⟨front, rest, ?_, parensAfter_of_closeGroup hclose⟩
      rw [Text.eq_of_cut? hcut, append_of_closeGroup hclose]
      simp
    · cases h

theorem templateParts_cases {parts : TemplateParts} (h : templateParts t = .ok (some parts)) :
    t = parts.stem ++ '<' :: '(' :: (parts.inside ++ ')' :: '>' :: parts.tail) ∧
      Balanced parts.inside := by
  obtain ⟨opened, hcut, hclose⟩ := templateParts_eq_ok_some_iff.mp h
  refine ⟨?_, parensAfter_of_closeGroup hclose⟩
  rw [Text.eq_of_cut? hcut, append_of_closeGroup hclose]
  simp

/-- Where no parenthesis closes too much, its depth can be counted without a check. -/
theorem depth_of_parensStep {c : Char} (h : parensStep k c = some m) :
    (if c = '(' then k + 1 else if c = ')' then k - 1 else k) = m := by
  unfold parensStep at h
  split at h
  · rename_i ho
    cases h
    rw [if_pos ho]
  · rename_i ho
    rw [if_neg ho]
    split at h
    · rename_i hc
      rw [if_pos hc]
      split at h
      · cases h
      · cases h
        rfl
    · rename_i hc
      cases h
      rw [if_neg hc]

theorem balanced_commaPieces (h : parensAfter k t = some 0) :
    parensAfter k (commaPieces k t).1 = some 0 ∧ ∀ p ∈ (commaPieces k t).2, Balanced p := by
  induction t generalizing k with
  | nil => exact ⟨h, fun p hp => absurd hp List.not_mem_nil⟩
  | cons c cs ih =>
    rw [parensAfter_cons] at h
    obtain ⟨n, hn, h⟩ := Option.bind_eq_some_iff.mp h
    unfold commaPieces
    split
    · rename_i hc
      obtain ⟨rfl, rfl⟩ := hc
      cases hn
      obtain ⟨hfirst, hothers⟩ := ih h
      exact ⟨rfl, List.forall_mem_cons.mpr ⟨hfirst, hothers⟩⟩
    · obtain ⟨hfirst, hothers⟩ := ih h
      rw [depth_of_parensStep hn]
      refine ⟨?_, hothers⟩
      rw [parensAfter_cons, hn]
      exact hfirst

theorem Balanced.listed (h : Balanced t) : ∀ p ∈ listed t, Balanced p := by
  unfold CType.listed
  split
  · exact fun p hp => absurd hp List.not_mem_nil
  · obtain ⟨hfirst, hothers⟩ := balanced_commaPieces h
    exact List.forall_mem_cons.mpr ⟨hfirst, hothers⟩

theorem balanced_commaJoin {ps : List Text} (h : ∀ p ∈ ps, Balanced p) :
    Balanced (Text.commaJoin ps) :=
  Text.commaJoin_of_forall balanced_nil Balanced.append (by decide) h

end Parens

end BindingTypes.CType

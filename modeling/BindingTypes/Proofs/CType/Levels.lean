import BindingTypes.Proofs.CType.Listing

namespace BindingTypes.CType

/-- What is said of the characters in a text is decided along the text, not over all characters. -/
instance (priority := high) decidableForallMem (t : Text) (p : Char → Prop) [DecidablePred p] :
    Decidable (∀ c ∈ t, p c) := List.decidableBAll p t

/-- Two texts that a scan leaves where it began, each up to a character at which the scan stops, are
one text. -/
theorem eq_of_scans {σ : Type} {step : σ → Char → Option σ} {start : σ} {x y r s : Text}
    (hx : x.foldlM step start = some start) (hy : y.foldlM step start = some start)
    (hr : ∀ c ∈ r.head?, step start c = none) (hs : ∀ c ∈ s.head?, step start c = none)
    (h : x ++ r = y ++ s) : x = y ∧ r = s := by
  -- what is left over of the longer text begins where the scan stops
  have hnil : ∀ {x z r : Text}, x.foldlM step start = some start →
      (x ++ z).foldlM step start = some start → (∀ c ∈ (z ++ r).head?, step start c = none) →
      z = [] := by
    intro x z r hx hxz hr
    cases z with
    | nil => rfl
    | cons c z =>
      have hstop := hr c rfl
      rw [List.foldlM_append, hx, Option.bind_eq_bind, Option.bind_some, List.foldlM_cons, hstop]
        at hxz
      cases hxz
  rcases List.append_eq_append_iff.mp h with ⟨z, rfl, rfl⟩ | ⟨z, rfl, rfl⟩
  · obtain rfl := hnil hx hy hr
    exact ⟨(List.append_nil x).symm, rfl⟩
  · obtain rfl := hnil hy hx hs
    exact ⟨List.append_nil y, rfl⟩

/-- The number of brackets open behind a character, round and square ones alike; nothing where it
closes none. -/
def bracketStep (k : Nat) (c : Char) : Option Nat :=
  if c = '(' ∨ c = '[' then some (k + 1)
  else if c = ')' ∨ c = ']' then if k = 0 then none else some (k - 1)
  else some k

def bracketsAfter (k : Nat) (t : Text) : Option Nat := t.foldlM bracketStep k

/-- The text closes as many brackets as it opens, and none before it is open. -/
def ClosesAll (t : Text) : Prop := bracketsAfter 0 t = some 0

instance (t : Text) : Decidable (ClosesAll t) := inferInstanceAs (Decidable (_ = _))

/-- How many brackets are open at a place of a declaration, and how many angle brackets outside
them. -/
structure Level where
  brackets : Nat
  angles : Nat
deriving DecidableEq

namespace Level

def ground : Level := ⟨0, 0⟩

/-- The level behind a character; nothing where it closes what is not open, or where one of `stops`
stands outside all brackets. -/
def step (stops : Text) (l : Level) (c : Char) : Option Level :=
  if c = '(' ∨ c = '[' then some { l with brackets := l.brackets + 1 }
  else if c = ')' ∨ c = ']' then
    if l.brackets = 0 then none else some { l with brackets := l.brackets - 1 }
  else if l.brackets ≠ 0 then some l
  else if l.angles = 0 ∧ c ∈ stops then none
  else if c = '<' then some { l with angles := l.angles + 1 }
  else if c = '>' then if l.angles = 0 then none else some { l with angles := l.angles - 1 }
  else some l

def after (stops : Text) (l : Level) (t : Text) : Option Level := t.foldlM (step stops) l

end Level

/-- The text closes what it opens, and has none of `stops` outside brackets. -/
def Within (stops t : Text) : Prop := Level.after stops .ground t = some .ground

instance (stops t : Text) : Decidable (Within stops t) := inferInstanceAs (Decidable (_ = _))

variable {stops stops' t u x y r s : Text} {k m : Nat} {l l' : Level} {c : Char} {xs ys : List Text}

section Brackets

@[simp] theorem bracketsAfter_nil : bracketsAfter k [] = some k := rfl

@[simp] theorem bracketsAfter_cons :
    bracketsAfter k (c :: t) = (bracketStep k c).bind (bracketsAfter · t) := List.foldlM_cons

@[simp] theorem bracketsAfter_append :
    bracketsAfter k (t ++ u) = (bracketsAfter k t).bind (bracketsAfter · u) := List.foldlM_append

theorem bracketStep_add (h : bracketStep k c = some m) (j : Nat) :
    bracketStep (k + j) c = some (m + j) := by
  unfold bracketStep at h ⊢
  split at h
  · cases h
    rw [if_pos ‹_›, Nat.add_right_comm]
  · rw [if_neg ‹_›]
    split at h
    · rw [if_pos ‹_›]
      split at h
      · cases h
      · cases h
        rw [if_neg (by omega)]
        congr 1
        omega
    · cases h
      rw [if_neg ‹_›]

theorem bracketsAfter_add (h : bracketsAfter k t = some m) (j : Nat) :
    bracketsAfter (k + j) t = some (m + j) :=
  foldlM_follows (· + j) (fun hstep => bracketStep_add hstep j) h

theorem closesAll_nil : ClosesAll [] := rfl

theorem ClosesAll.append (ht : ClosesAll t) (hu : ClosesAll u) : ClosesAll (t ++ u) := by
  unfold ClosesAll
  rw [bracketsAfter_append, ht]
  exact hu

theorem ClosesAll.after (h : ClosesAll t) (k : Nat) : bracketsAfter k t = some k := by
  have hk := bracketsAfter_add h k
  rwa [Nat.zero_add] at hk

theorem bracketStep_plain (h : c ∉ "()[]".toList) (k : Nat) : bracketStep k c = some k := by
  have hne : (c ≠ '(' ∧ c ≠ ')') ∧ c ≠ '[' ∧ c ≠ ']' := by simpa [not_or, and_assoc] using h
  obtain ⟨⟨hopen, hclose⟩, hopen', hclose'⟩ := hne
  rw [bracketStep, if_neg (not_or.mpr ⟨hopen, hopen'⟩), if_neg (not_or.mpr ⟨hclose, hclose'⟩)]

theorem closesAll_of_plain (h : ∀ c ∈ t, c ∉ "()[]".toList) : ClosesAll t :=
  foldlM_stays fun c hc => bracketStep_plain (h c hc) 0

theorem ClosesAll.around {o e : Char} (ho : o ∈ "([".toList) (he : e ∈ ")]".toList)
    (h : ClosesAll x) : ClosesAll (o :: (x ++ [e])) := by
  have hopen : ∀ o ∈ "([".toList, bracketStep 0 o = some 1 := by decide
  have hclose : ∀ e ∈ ")]".toList, bracketStep 1 e = some 0 := by decide
  simp [ClosesAll, hopen o ho, h.after, hclose e he]

/-- What stands in front of a closing bracket ends there. -/
theorem ClosesAll.unique {e : Char} (he : e ∈ ")]".toList) (hx : ClosesAll x) (hy : ClosesAll y)
    (h : x ++ e :: r = y ++ e :: s) : x = y ∧ r = s := by
  have hstop : ∀ e ∈ ")]".toList, bracketStep 0 e = none := by decide
  have hends : ∀ t : Text, ∀ c ∈ (e :: t).head?, bracketStep 0 c = none := by
    rintro t c ⟨⟩
    exact hstop e he
  obtain ⟨hxy, hrs⟩ := eq_of_scans hx hy (hends r) (hends s) h
  exact ⟨hxy, (List.cons_eq_cons.mp hrs).2⟩

end Brackets

section Levels

@[simp] theorem Level.after_nil : Level.after stops l [] = some l := rfl

@[simp] theorem Level.after_cons :
    Level.after stops l (c :: t) = (l.step stops c).bind (Level.after stops · t) := List.foldlM_cons

@[simp] theorem Level.after_append :
    Level.after stops l (t ++ u) = (Level.after stops l t).bind (Level.after stops · u) :=
  List.foldlM_append

/-- A step changes the brackets as it does where angle brackets are not counted. -/
theorem Level.bracketStep_of_step (h : l.step stops c = some l') :
    bracketStep l.brackets c = some l'.brackets := by
  unfold Level.step at h
  unfold bracketStep
  split at h
  · cases h
    rw [if_pos ‹_›]
  · rw [if_neg ‹_›]
    split at h
    · rw [if_pos ‹_›]
      split at h
      · cases h
      · cases h
        rw [if_neg ‹_›]
    · rw [if_neg ‹_›]
      repeat' split at h
      all_goals cases h
      all_goals rfl

theorem Level.bracketsAfter_of_after (h : Level.after stops l t = some l') :
    bracketsAfter l.brackets t = some l'.brackets :=
  foldlM_follows Level.brackets Level.bracketStep_of_step h

theorem Within.closes (h : Within stops t) : ClosesAll t := Level.bracketsAfter_of_after h

/-- Inside brackets nothing but brackets is counted. -/
theorem Level.step_in_brackets (h : bracketStep k c = some m) (j a : Nat) :
    Level.step stops ⟨k + (j + 1), a⟩ c = some ⟨m + (j + 1), a⟩ := by
  unfold bracketStep at h
  unfold Level.step
  split at h
  · cases h
    rw [if_pos ‹_›]
    simp only [Option.some.injEq, Level.mk.injEq, and_true]
    omega
  · rw [if_neg ‹_›]
    split at h
    · rw [if_pos ‹_›, if_neg (by dsimp only; omega)]
      split at h
      · cases h
      · cases h
        simp only [Option.some.injEq, Level.mk.injEq, and_true]
        omega
    · cases h
      rw [if_neg ‹_›, if_pos (by dsimp only; omega)]

theorem Level.after_in_brackets (h : bracketsAfter k t = some m) (j a : Nat) :
    Level.after stops ⟨k + (j + 1), a⟩ t = some ⟨m + (j + 1), a⟩ :=
  foldlM_follows (fun k => (⟨k + (j + 1), a⟩ : Level))
    (fun hstep => Level.step_in_brackets hstep j a) h

/-- Inside angle brackets nothing is stopped at. -/
theorem Level.step_in_angles (h : l.step stops' c = some l') (j : Nat) :
    Level.step stops { l with angles := l.angles + (j + 1) } c =
      some { l' with angles := l'.angles + (j + 1) } := by
  unfold Level.step at h ⊢
  split at h
  · cases h
    rw [if_pos ‹_›]
  · rw [if_neg ‹_›]
    split at h
    · rw [if_pos ‹_›]
      split at h
      · cases h
      · cases h
        rw [if_neg ‹_›]
    · rw [if_neg ‹_›]
      split at h
      · cases h
        rw [if_pos ‹_›]
      · rw [if_neg ‹_›, if_neg (by simp)]
        split at h
        · cases h
        · split at h
          · cases h
            rw [if_pos ‹_›]
            simp only [Option.some.injEq, Level.mk.injEq, true_and]
            omega
          · rw [if_neg ‹_›]
            split at h
            · rw [if_pos ‹_›, if_neg (by simp)]
              split at h
              · cases h
              · cases h
                simp only [Option.some.injEq, Level.mk.injEq, true_and]
                omega
            · cases h
              rw [if_neg ‹_›]

theorem Level.after_in_angles (h : Level.after stops' l t = some l') (j : Nat) :
    Level.after stops { l with angles := l.angles + (j + 1) } t =
      some { l' with angles := l'.angles + (j + 1) } :=
  foldlM_follows (fun l : Level => Level.mk l.brackets (l.angles + (j + 1)))
    (fun hstep => Level.step_in_angles hstep j) h

theorem Level.step_mono (hs : stops ⊆ stops') (h : l.step stops' c = some l') :
    l.step stops c = some l' := by
  unfold Level.step at h ⊢
  split at h
  · rw [if_pos ‹_›]
    exact h
  · rw [if_neg ‹_›]
    split at h
    · rw [if_pos ‹_›]
      exact h
    · rw [if_neg ‹_›]
      split at h
      · rw [if_pos ‹_›]
        exact h
      · rw [if_neg ‹_›]
        split at h
        · cases h
        · rename_i hstop
          rw [if_neg fun hc => hstop ⟨hc.1, hs hc.2⟩]
          exact h

theorem Level.after_mono (hs : stops ⊆ stops') (h : Level.after stops' l t = some l') :
    Level.after stops l t = some l' :=
  foldlM_follows id (Level.step_mono hs) h

namespace Within

theorem nil : Within stops [] := rfl

theorem mono (hs : stops ⊆ stops') (h : Within stops' t) : Within stops t := Level.after_mono hs h

theorem append (ht : Within stops t) (hu : Within stops u) : Within stops (t ++ u) := by
  unfold Within
  rw [Level.after_append, ht]
  exact hu

theorem of_plain (h : ∀ c ∈ t, c ∉ "()[]<>".toList ∧ c ∉ stops) : Within stops t := by
  refine foldlM_stays fun c hmem => ?_
  obtain ⟨hc, hstop⟩ := h c hmem
  have hne : ((c ≠ '(' ∧ c ≠ ')') ∧ c ≠ '[' ∧ c ≠ ']') ∧ c ≠ '<' ∧ c ≠ '>' := by
    simpa [not_or, and_assoc] using hc
  obtain ⟨⟨⟨hopen, hclose⟩, hopen', hclose'⟩, hless, hgreater⟩ := hne
  simp [Level.step, Level.ground, hopen, hclose, hopen', hclose', hless, hgreater, hstop]

/-- What stands in brackets has only to close its own. -/
theorem around {o e : Char} (ho : o ∈ "([".toList) (he : e ∈ ")]".toList) (h : ClosesAll x) :
    Within stops (o :: (x ++ [e])) := by
  have hopen : Level.ground.step stops o = some ⟨1, 0⟩ := by
    have hone : o = '(' ∨ o = '[' := by simpa using ho
    rcases hone with rfl | rfl <;> rfl
  have hclose : Level.step stops ⟨1, 0⟩ e = some .ground := by
    have hone : e = ')' ∨ e = ']' := by simpa using he
    rcases hone with rfl | rfl <;> rfl
  have hinside : Level.after stops ⟨1, 0⟩ x = some ⟨1, 0⟩ := Level.after_in_brackets h 0 0
  simp [Within, hopen, hinside, hclose]

/-- What stands in angle brackets may have stops outside brackets. -/
theorem angled (hless : '<' ∉ stops) (h : Within stops' x) :
    Within stops ('<' :: (x ++ ['>'])) := by
  have hopen : Level.ground.step stops '<' = some ⟨0, 1⟩ := by
    simp [Level.step, Level.ground, hless]
  have hinside : Level.after stops ⟨0, 1⟩ x = some ⟨0, 1⟩ := Level.after_in_angles h 0
  have hclose : Level.step stops ⟨0, 1⟩ '>' = some .ground := by simp [Level.step, Level.ground]
  simp [Within, hopen, hinside, hclose]

/-- Two texts without stops in front of stops are one text. -/
theorem unique (hx : Within stops x) (hy : Within stops y)
    (hr : ∀ c ∈ r.head?, Level.ground.step stops c = none)
    (hs : ∀ c ∈ s.head?, Level.ground.step stops c = none) (h : x ++ r = y ++ s) :
    x = y ∧ r = s := eq_of_scans hx hy hr hs h

theorem step_stop (hc : c ∈ stops) (hplain : c ∉ "([".toList) :
    Level.ground.step stops c = none := by
  have hopen : ¬ (c = '(' ∨ c = '[') := by simpa using hplain
  unfold Level.step
  rw [if_neg hopen]
  split
  · rfl
  · rw [if_neg fun h => h rfl, if_pos ⟨rfl, hc⟩]

/-- No stop stands behind a text that closes what it opens. -/
theorem not_closed_before (h : Within stops (x ++ c :: y)) (hc : c ∈ stops)
    (hplain : c ∉ "([".toList) : ¬ Within [] x := by
  intro hx
  obtain ⟨l, hl, hrest⟩ := Option.bind_eq_some_iff.mp (Level.after_append.symm.trans h)
  have hground : l = .ground :=
    Option.some.inj ((Level.after_mono (List.nil_subset stops) hl).symm.trans hx)
  rw [hground, Level.after_cons, step_stop hc hplain] at hrest
  cases hrest

end Within

end Levels

section Lists

theorem within_commaJoin (h : ∀ x ∈ xs, Within [] x) : Within [] (Text.commaJoin xs) :=
  Text.commaJoin_of_forall .nil Within.append (.of_plain (by decide)) h

theorem closesAll_flatten (h : ∀ x ∈ xs, ClosesAll x) : ClosesAll xs.flatten :=
  Text.flatten_of_forall closesAll_nil ClosesAll.append h

theorem closesAll_commaJoin (h : ∀ x ∈ xs, ClosesAll x) : ClosesAll (Text.commaJoin xs) :=
  Text.commaJoin_of_forall closesAll_nil ClosesAll.append (closesAll_of_plain (by decide)) h

theorem commaJoin_cons (x : Text) (xs : List Text) : Text.commaJoin (x :: xs) =
    x ++ if xs = [] then [] else ',' :: Text.commaJoin xs := by
  cases xs with
  | nil => simp [Text.commaJoin]
  | cons y xs =>
    rw [if_neg (by simp), Text.commaJoin, List.intercalate_cons_cons]
    simp [Text.commaJoin]

/-- A list is read back from its items, which have no comma outside brackets. -/
theorem commaJoin_unique (hxs : ∀ x ∈ xs, Within [','] x ∧ x ≠ [])
    (hys : ∀ y ∈ ys, Within [','] y ∧ y ≠ []) (h : Text.commaJoin xs = Text.commaJoin ys) :
    xs = ys := by
  have hends : ∀ zs : List Text, ∀ c ∈ (if zs = [] then [] else ',' :: Text.commaJoin zs).head?,
      Level.ground.step [','] c = none := by
    intro zs c hc
    split at hc
    · cases hc
    · cases hc
      rfl
  induction xs generalizing ys with
  | nil =>
    cases ys with
    | nil => rfl
    | cons y ys =>
      rw [commaJoin_cons] at h
      exact absurd (List.append_eq_nil_iff.mp h.symm).1 (hys y List.mem_cons_self).2
  | cons x xs ih =>
    obtain ⟨⟨hx, hne⟩, hxs⟩ := List.forall_mem_cons.mp hxs
    cases ys with
    | nil =>
      rw [commaJoin_cons] at h
      exact absurd (List.append_eq_nil_iff.mp h).1 hne
    | cons y ys =>
      obtain ⟨⟨hy, -⟩, hrest⟩ := List.forall_mem_cons.mp hys
      rw [commaJoin_cons, commaJoin_cons] at h
      obtain ⟨rfl, htail⟩ := hx.unique hy (hends xs) (hends ys) h
      by_cases hxnil : xs = []
      · by_cases hynil : ys = []
        · rw [hxnil, hynil]
        · rw [if_pos hxnil, if_neg hynil] at htail
          cases htail
      · by_cases hynil : ys = []
        · rw [if_neg hxnil, if_pos hynil] at htail
          cases htail
        · rw [if_neg hxnil, if_neg hynil] at htail
          rw [ih hxs hrest (List.cons_eq_cons.mp htail).2]

end Lists

end BindingTypes.CType

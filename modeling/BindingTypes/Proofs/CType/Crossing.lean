import BindingTypes.Proofs.CType.Levels
import BindingTypes.Proofs.CType.Pieces

namespace BindingTypes.CType

/-- The bracket that a closing bracket closes. -/
def opener? : Char → Option Char
  | ')' => some '('
  | ']' => some '['
  | '>' => some '<'
  | _ => none

/-- The brackets open behind a character, the innermost first; nothing where it closes another than
the innermost one. -/
def nestStep (opened : Text) (c : Char) : Option Text :=
  match opener? c with
  | some o => if opened.head? = some o then some opened.tail else none
  | none => if c ∈ "([<".toList then some (c :: opened) else some opened

def nestAfter (opened t : Text) : Option Text := t.foldlM nestStep opened

/-- The brackets of the text do not cross: round, square and angle brackets each close the one that
was opened last. -/
def Nests (t : Text) : Prop := nestAfter [] t = some []

instance (t : Text) : Decidable (Nests t) := inferInstanceAs (Decidable (_ = _))

/-- The number of round and square brackets among open ones. -/
def bracketsAmong (opened : Text) : Nat := opened.countP (· ≠ '<')

variable {a a' b opened opened' r t u x : Text} {args : List Text} {c letter o : Char} {k m : Nat}

section Steps

@[simp] theorem nestAfter_nil : nestAfter opened [] = some opened := rfl

@[simp] theorem nestAfter_cons :
    nestAfter opened (c :: t) = (nestStep opened c).bind (nestAfter · t) := List.foldlM_cons

@[simp] theorem nestAfter_append :
    nestAfter opened (t ++ u) = (nestAfter opened t).bind (nestAfter · u) := List.foldlM_append

theorem opener?_eq_some_iff : opener? c = some o ↔
    (c = ')' ∧ o = '(') ∨ (c = ']' ∧ o = '[') ∨ (c = '>' ∧ o = '<') := by
  constructor
  · intro h
    unfold opener? at h
    split at h <;> cases h <;> simp
  · rintro (⟨rfl, rfl⟩ | ⟨rfl, rfl⟩ | ⟨rfl, rfl⟩) <;> rfl

theorem opener?_of_plain (h : c ∉ "()[]<>".toList) : opener? c = none := by
  cases hc : opener? c with
  | none => rfl
  | some o =>
    rcases opener?_eq_some_iff.mp hc with ⟨rfl, -⟩ | ⟨rfl, -⟩ | ⟨rfl, -⟩ <;> exact absurd (by decide) h

theorem nestStep_close (h : opener? c = some o) (opened : Text) :
    nestStep (o :: opened) c = some opened := by
  simp [nestStep, h]

theorem nestStep_open (h : c ∈ "([<".toList) (opened : Text) :
    nestStep opened c = some (c :: opened) := by
  have hnone : ∀ c ∈ "([<".toList, opener? c = none := by decide
  simp only [nestStep, hnone c h, if_pos h]

theorem nestStep_plain (h : c ∉ "()[]<>".toList) (opened : Text) :
    nestStep opened c = some opened := by
  have hmore : "([<".toList ⊆ "()[]<>".toList := by decide
  simp only [nestStep, opener?_of_plain h, if_neg fun hc => h (hmore hc)]

/-- A character opens a bracket, closes the innermost one, or is none. -/
theorem nestStep_cases (h : nestStep opened c = some opened') :
    (c ∈ "([<".toList ∧ opened' = c :: opened) ∨
      (∃ o, opener? c = some o ∧ opened = o :: opened') ∨
      (c ∉ "()[]<>".toList ∧ opened' = opened) := by
  by_cases hopen : c ∈ "([<".toList
  · rw [nestStep_open hopen] at h
    exact Or.inl ⟨hopen, (Option.some.inj h).symm⟩
  by_cases hplain : c ∉ "()[]<>".toList
  · rw [nestStep_plain hplain] at h
    exact Or.inr (Or.inr ⟨hplain, (Option.some.inj h).symm⟩)
  have hclose : ∀ c ∈ "()[]<>".toList, c ∉ "([<".toList → (opener? c).isSome := by decide
  obtain ⟨o, ho⟩ := Option.isSome_iff_exists.mp (hclose c (not_not.mp hplain) hopen)
  simp only [nestStep, ho] at h
  split at h
  · cases h
    exact Or.inr (Or.inl ⟨o, ho, (List.cons_head?_tail ‹_›).symm⟩)
  · cases h

theorem nestAfter_plain (h : ∀ c ∈ r, c ∉ "()[]<>".toList) (opened : Text) :
    nestAfter opened r = some opened :=
  foldlM_stays fun c hc => nestStep_plain (h c hc) opened

end Steps

section Counting

/-- Brackets of one kind are counted along as `read` shows them. -/
theorem parensStep_of_nestStep (read : Char → Char) (ho : o ∈ "([<".toList)
    (hopen : ∀ c, read c = '(' ↔ c = o) (hclose : ∀ c, read c = ')' ↔ opener? c = some o)
    (h : nestStep opened c = some opened') :
    parensStep (opened.count o) (read c) = some (opened'.count o) := by
  have hnone : ∀ c ∈ "([<".toList, opener? c = none := by decide
  have hother : c ≠ o → opener? c ≠ some o → parensStep (opened.count o) (read c) =
      some (opened.count o) := fun hc hoc =>
    parensStep_other (fun hread => hc ((hopen c).mp hread)) fun hread => hoc ((hclose c).mp hread)
  rcases nestStep_cases h with ⟨hc, rfl⟩ | ⟨p, hp, rfl⟩ | ⟨hc, rfl⟩
  · by_cases heq : c = o
    · rw [(hopen c).mpr heq, heq, List.count_cons_self]
      rfl
    · rw [hother heq (by rw [hnone c hc]; nofun), List.count_cons_of_ne heq]
  · have hne : c ≠ o := by
      rintro rfl
      rw [hnone c ho] at hp
      cases hp
    by_cases heq : p = o
    · subst heq
      rw [(hclose c).mpr hp, List.count_cons_self]
      rfl
    · rw [List.count_cons_of_ne heq] at hother ⊢
      exact hother hne fun hoc => heq (Option.some.inj (hp.symm.trans hoc))
  · have hmore : "([<".toList ⊆ "()[]<>".toList := by decide
    refine hother (fun heq => hc (hmore (heq ▸ ho))) ?_
    rw [opener?_of_plain hc]
    nofun

theorem parensAfter_of_nestAfter (read : Char → Char) (ho : o ∈ "([<".toList)
    (hopen : ∀ c, read c = '(' ↔ c = o) (hclose : ∀ c, read c = ')' ↔ opener? c = some o)
    (h : nestAfter opened t = some opened') :
    parensAfter (opened.count o) (t.map read) = some (opened'.count o) := by
  rw [parensAfter, List.foldlM_map]
  refine foldlM_follows (·.count o) (fun hstep => ?_) h
  exact parensStep_of_nestStep read ho hopen hclose hstep

theorem Nests.balanced (h : Nests t) : Balanced t := by
  have hclose : ∀ c, c = ')' ↔ opener? c = some '(' := fun c => by simp [opener?_eq_some_iff]
  have hafter := parensAfter_of_nestAfter id (by decide) (fun _ => Iff.rfl) hclose h
  rwa [List.map_id] at hafter

theorem Nests.angles (h : Nests t) : Balanced (t.map roundAngle) := by
  have hopen : ∀ c, roundAngle c = '(' ↔ c = '<' := by
    intro c
    unfold roundAngle
    split_ifs <;> simp_all
  have hclose : ∀ c, roundAngle c = ')' ↔ opener? c = some '<' := by
    intro c
    rw [opener?_eq_some_iff]
    unfold roundAngle
    split_ifs <;> simp_all
  exact parensAfter_of_nestAfter roundAngle (by decide) hopen hclose h

end Counting

section Groups

theorem bracketStep_of_opener? (h : opener? c = some o) (opened : Text)
    (hk : bracketStep (bracketsAmong (o :: opened)) c = some m) : bracketsAmong opened = m := by
  rcases opener?_eq_some_iff.mp h with ⟨rfl, rfl⟩ | ⟨rfl, rfl⟩ | ⟨rfl, rfl⟩ <;>
    simpa [bracketStep, bracketsAmong] using hk

/-- While the round and square brackets of a text close what it opened itself, a round or square
bracket that was open before stays open, and nothing behind it matters. -/
theorem nestStep_frame (ho : o ≠ '<') (h : nestStep (a ++ o :: b) c = some opened)
    (hk : bracketStep (bracketsAmong a) c = some m) :
    ∃ a', opened = a' ++ o :: b ∧ nestStep a c = some a' ∧ bracketsAmong a' = m := by
  rcases nestStep_cases h with ⟨hc, rfl⟩ | ⟨p, hp, heq⟩ | ⟨hc, rfl⟩
  · refine ⟨c :: a, rfl, nestStep_open hc a, ?_⟩
    have hcases : c = '(' ∨ c = '[' ∨ c = '<' := by simpa using hc
    rcases hcases with rfl | rfl | rfl <;> simpa [bracketStep, bracketsAmong] using hk
  · cases a with
    | nil =>
      -- the bracket below would be closed, which the count forbids
      obtain ⟨rfl, -⟩ := List.cons.inj heq
      rcases opener?_eq_some_iff.mp hp with ⟨rfl, rfl⟩ | ⟨rfl, rfl⟩ | ⟨rfl, rfl⟩
      · cases hk
      · cases hk
      · exact absurd rfl ho
    | cons q a =>
      obtain ⟨rfl, rfl⟩ := List.cons.inj heq
      exact ⟨a, rfl, nestStep_close hp a, bracketStep_of_opener? hp a hk⟩
  · have hmore : "()[]".toList ⊆ "()[]<>".toList := by decide
    rw [bracketStep_plain fun hm => hc (hmore hm)] at hk
    exact ⟨a, rfl, nestStep_plain hc a, Option.some.inj hk⟩

theorem nestAfter_frame (ho : o ≠ '<') (h : nestAfter (a ++ o :: b) t = some opened)
    (hk : bracketsAfter (bracketsAmong a) t = some m) :
    ∃ a', opened = a' ++ o :: b ∧ nestAfter a t = some a' ∧ bracketsAmong a' = m := by
  induction t generalizing a with
  | nil =>
    cases h
    cases hk
    exact ⟨a, rfl, rfl, rfl⟩
  | cons c t ih =>
    obtain ⟨between, hstep, h⟩ := Option.bind_eq_some_iff.mp (nestAfter_cons.symm.trans h)
    obtain ⟨n, hn, hk⟩ := Option.bind_eq_some_iff.mp (bracketsAfter_cons.symm.trans hk)
    obtain ⟨a₁, rfl, ha₁, rfl⟩ := nestStep_frame ho hstep hn
    rw [nestAfter_cons, ha₁]
    exact ih h hk

/-- Where brackets nest, those of a group nest by themselves. -/
theorem nestAfter_group (hx : ClosesAll x)
    (h : nestAfter opened ('(' :: (x ++ ')' :: u)) = some opened') :
    Nests x ∧ nestAfter opened u = some opened' := by
  rw [nestAfter_cons, nestStep_open (by decide), Option.bind_some, nestAfter_append] at h
  obtain ⟨between, hinside, h⟩ := Option.bind_eq_some_iff.mp h
  obtain ⟨a, rfl, ha, hk⟩ := nestAfter_frame (a := []) (by decide) hinside hx
  rw [nestAfter_cons] at h
  obtain ⟨after, hclose, h⟩ := Option.bind_eq_some_iff.mp h
  cases a with
  | nil =>
    rw [List.nil_append, nestStep_close rfl] at hclose
    cases hclose
    exact ⟨ha, h⟩
  | cons p a =>
    -- an angle bracket is open there, and a parenthesis does not close it
    have hp : p = '<' := by
      by_contra hp
      simp [bracketsAmong, hp] at hk
    subst hp
    cases hclose

theorem Nests.of_plain_append (hr : ∀ c ∈ r, c ∉ "()[]<>".toList) (h : Nests (r ++ u)) :
    Nests u := by
  unfold Nests at h
  rwa [nestAfter_append, nestAfter_plain hr] at h

theorem Nests.of_written_append (hletter : letter ∉ "()[]<>".toList) (hx : ClosesAll x)
    (h : Nests (written letter x ++ u)) : Nests x ∧ Nests u := by
  have hparts : written letter x ++ u = [letter] ++ ('(' :: (x ++ ')' :: ('.' :: u))) := by
    simp [written]
  rw [hparts] at h
  have hgroup := Nests.of_plain_append (List.forall_mem_singleton.mpr hletter) h
  obtain ⟨hinside, hrest⟩ := nestAfter_group hx hgroup
  exact ⟨hinside, hrest⟩

theorem Nests.of_angled_append (hargs : ∀ a ∈ args, ClosesAll a)
    (h : Nests (angled args ++ u)) : Nests (Text.commaJoin args) ∧ Nests u := by
  have hparts : angled args ++ u = '<' :: '(' :: (Text.commaJoin args ++ ')' :: ('>' :: u)) := by
    simp [angled]
  unfold Nests at h
  rw [hparts, nestAfter_cons, nestStep_open (by decide), Option.bind_some] at h
  obtain ⟨hinside, hrest⟩ := nestAfter_group (closesAll_commaJoin hargs) h
  exact ⟨hinside, hrest⟩

end Groups

end BindingTypes.CType

import BindingTypes.CType.Element

namespace BindingTypes.CType

/-- The text up to the parenthesis that closes an opened one, and what follows it. -/
def closeGroup : (depth : Nat) → Text → Option (Text × Text)
  | _, [] => none
  | depth, c :: cs =>
    if c = ')' then
      match depth with
      | 0 => some ([], cs)
      | d + 1 => (closeGroup d cs).map fun r => (c :: r.1, r.2)
    else (closeGroup (if c = '(' then depth + 1 else depth) cs).map fun r => (c :: r.1, r.2)

theorem append_of_closeGroup {d : Nat} {t inside rest : Text}
    (h : closeGroup d t = some (inside, rest)) : t = inside ++ ')' :: rest := by
  induction t generalizing d inside rest with
  | nil => simp [closeGroup] at h
  | cons c cs ih =>
    unfold closeGroup at h
    split at h
    next hc =>
      subst hc
      split at h
      next => cases h; rfl
      next =>
        obtain ⟨r, hr, he⟩ := Option.map_eq_some_iff.mp h
        cases he
        simp [ih hr]
    next =>
      obtain ⟨r, hr, he⟩ := Option.map_eq_some_iff.mp h
      cases he
      simp [ih hr]

/-- The inside of the first parenthesised group, if there is one. -/
def group? (t : Text) : Except Fault (Option Text) :=
  match t.cut? ['('] with
  | none => .ok none
  | some (_, opened) =>
    match closeGroup 0 opened with
    | some (inside, _) => .ok (some inside)
    | none => .error (.malformed t .unclosed)

theorem length_lt_of_group? {t inside : Text} (h : group? t = .ok (some inside)) :
    inside.length < t.length := by
  unfold group? at h
  split at h
  next => cases h
  next before opened hc =>
    split at h
    next inside' rest hg =>
      cases h
      rw [Text.eq_of_cut? hc, append_of_closeGroup hg]
      simp
      omega
    next => cases h

/-- The pieces between commas outside parentheses. -/
def commaPieces : (depth : Nat) → Text → Text × List Text
  | _, [] => ([], [])
  | depth, c :: cs =>
    if c = ',' ∧ depth = 0 then
      let r := commaPieces 0 cs
      ([], r.1 :: r.2)
    else
      let r := commaPieces
        (if c = '(' then depth + 1 else if c = ')' then depth - 1 else depth) cs
      (c :: r.1, r.2)

theorem length_le_of_commaPieces (d : Nat) (t : Text) :
    (commaPieces d t).1.length ≤ t.length ∧
      ∀ p ∈ (commaPieces d t).2, p.length ≤ t.length := by
  induction t generalizing d with
  | nil => simp [commaPieces]
  | cons c cs ih =>
    unfold commaPieces
    split
    next =>
      refine ⟨by simp, fun p hp => ?_⟩
      rcases List.mem_cons.mp hp with rfl | hp
      · exact Nat.le_succ_of_le (ih 0).1
      · exact Nat.le_succ_of_le ((ih 0).2 p hp)
    next =>
      refine ⟨?_, fun p hp => ?_⟩
      · simpa using (ih _).1
      · exact Nat.le_succ_of_le ((ih _).2 p hp)

/-- The types listed in an argument text; an empty text lists none. -/
def listed (inside : Text) : List CType :=
  if inside = [] then [] else (commaPieces 0 inside).1 :: (commaPieces 0 inside).2

theorem length_le_of_mem_listed {inside p : Text} (h : p ∈ listed inside) :
    p.length ≤ inside.length := by
  unfold listed at h
  split at h
  next => cases h
  next =>
    rcases List.mem_cons.mp h with rfl | h
    · exact (length_le_of_commaPieces 0 inside).1
    · exact (length_le_of_commaPieces 0 inside).2 p h

/-- The text inside the first parenthesised group. -/
def argument (t : Text) : Except Fault Text := do
  match ← group? t with
  | some inside => return inside
  | none => throw (.malformed t .noArgument)

/-- The types listed in the first parenthesised group. -/
def arguments (t : Text) : Except Fault (List CType) := do
  match ← group? t with
  | some inside => return listed inside
  | none => throw (.malformed t .noArguments)

theorem group?_of_argument {t x : Text} (h : argument t = .ok x) : group? t = .ok (some x) := by
  unfold argument at h
  cases hg : group? t with
  | error f => rw [hg] at h; cases h
  | ok g =>
    rw [hg] at h
    cases g with
    | none => cases h
    | some inside => cases h; rfl

theorem group?_of_arguments {t : Text} {ps : List CType} (h : arguments t = .ok ps) :
    ∃ inside, group? t = .ok (some inside) ∧ ps = listed inside := by
  unfold arguments at h
  cases hg : group? t with
  | error f => rw [hg] at h; cases h
  | ok g =>
    rw [hg] at h
    cases g with
    | none => cases h
    | some inside => cases h; exact ⟨inside, rfl, rfl⟩

theorem length_lt_of_mem_arguments {t p : Text} {ps : List CType} (h : arguments t = .ok ps)
    (hp : p ∈ ps) : p.length < t.length := by
  obtain ⟨inside, hg, rfl⟩ := group?_of_arguments h
  exact Nat.lt_of_le_of_lt (length_le_of_mem_listed hp) (length_lt_of_group? hg)

/-- The argument text of the outermost element. -/
def parameter (t : CType) : Except Fault Text := do argument (← first t)

theorem length_lt_of_parameter {t p : Text} (h : parameter t = .ok p) :
    p.length < t.length := by
  cases hn : next t with
  | error f => simp [parameter, first, hn, Except.map, bind, Except.bind] at h
  | ok r =>
    have hl := congrArg List.length (next_append hn)
    simp only [List.length_append] at hl
    simp only [parameter, first, hn, Except.map, bind, Except.bind] at h
    have := length_lt_of_group? (group?_of_argument h)
    omega

/-- A name around its template arguments: stem and tail of `Foo<(int)>::Bar` are `Foo`
and `::Bar`. -/
structure TemplateParts where
  stem : Text
  inside : Text
  tail : Text
deriving DecidableEq

/-- The parts of a text with template arguments, cut at its first `<(`. -/
def templateParts (t : CType) : Except Fault (Option TemplateParts) :=
  match t.cut? "<(".toList with
  | none => .ok none
  | some (stem, opened) =>
    match closeGroup 0 opened with
    | none => .error (.malformed t .templateUnterminated)
    | some (inside, '>' :: tail) => .ok (some ⟨stem, inside, tail⟩)
    | some _ => .error (.malformed t .templateNotClosed)

/-- There are no parts where no brackets open, and there are where the brackets are closed. -/
theorem templateParts_eq_ok_iff {t : CType} {found : Option TemplateParts} :
    templateParts t = .ok found ↔ t.cut? "<(".toList = none ∧ found = none ∨
      ∃ own opened, found = some own ∧ t.cut? "<(".toList = some (own.stem, opened) ∧
        closeGroup 0 opened = some (own.inside, '>' :: own.tail) := by
  unfold templateParts
  constructor
  · intro h
    split at h
    next hcut =>
      cases h
      exact Or.inl ⟨hcut, rfl⟩
    next stem opened hcut =>
      split at h
      next => cases h
      next inside tail hclose =>
        cases h
        exact Or.inr ⟨_, opened, rfl, hcut, hclose⟩
      next => cases h
  · rintro (⟨hcut, rfl⟩ | ⟨own, opened, rfl, hcut, hclose⟩)
    · simp only [hcut]
    · simp only [hcut, hclose]

theorem templateParts_eq_ok_some_iff {t : CType} {own : TemplateParts} :
    templateParts t = .ok (some own) ↔ ∃ opened, t.cut? "<(".toList = some (own.stem, opened) ∧
      closeGroup 0 opened = some (own.inside, '>' :: own.tail) := by
  simp [templateParts_eq_ok_iff]

theorem lengths_of_templateParts {t : CType} {parts : TemplateParts}
    (h : templateParts t = .ok (some parts)) :
    parts.stem.length < t.length ∧ parts.inside.length < t.length := by
  obtain ⟨opened, hcut, hclose⟩ := templateParts_eq_ok_some_iff.mp h
  rw [Text.eq_of_cut? hcut, append_of_closeGroup hclose]
  simp
  omega

theorem split_lengths {t : CType} {r : CType × CType} (h : split t = .ok r) :
    r.2.length ≤ t.length ∧ (r.1 ≠ [] → r.1.length < t.length) := by
  have hl := congrArg List.length (split_append h)
  simp only [List.length_append] at hl
  refine ⟨by omega, fun hf => ?_⟩
  have ht : t ≠ [] := by
    rintro rfl
    exact hf (by simp at hl; exact hl.1)
  have := List.length_pos_iff.mpr (split_base_ne_nil h ht)
  omega

def TemplateParts.arguments (parts : TemplateParts) : List CType := listed parts.inside

/-- Arguments in template brackets. -/
def angled (args : List Text) : Text := "<(".toList ++ Text.commaJoin args ++ ")>".toList

def isTemplate (t : CType) : Bool := t.has "<(".toList

/-- The text before the template arguments. -/
def templateStem (t : CType) : Except Fault Text :=
  (templateParts t).map fun parts => (parts.map (·.stem)).getD t

/-- The text behind the template arguments. -/
def templateTail (t : CType) : Except Fault Text :=
  (templateParts t).map fun parts => (parts.map (·.tail)).getD []

/-- The template arguments with their brackets. -/
def templateBlock (t : CType) : Except Fault Text :=
  (templateParts t).map fun parts =>
    (parts.map fun p => "<(".toList ++ p.inside ++ ")>".toList).getD []

def templateArguments (t : CType) : Except Fault (List CType) :=
  (templateParts t).map fun parts => (parts.map (·.arguments)).getD []

/-- The elements of a type, each with its bound. -/
def elementsWithin (t : CType) : Except Fault (List { e : Text // e.length ≤ t.length }) :=
  match h : elements t with
  | .error f => .error f
  | .ok es => .ok (es.attach.map fun e => ⟨e.1, length_le_of_mem_elements h e.2⟩)

/-- Each element in turn becomes a text, and the texts are put together. What is malformed behind
an element is found only after that element. -/
def concatMap {m : Type → Type} [Monad m] [MonadLiftT (Except Fault) m] (t : CType)
    (f : { e : Text // e.length ≤ t.length } → m Text) : m Text := do
  let texts ← ((scan t).1.attach.map fun e =>
    (⟨e.1, length_le_of_mem_scan e.2⟩ : { e : Text // e.length ≤ t.length })).mapM f
  match (scan t).2 with
  | some fault => fault.raise
  | none => return texts.flatten

/-- The listed types of an element, each with its bound. -/
def argumentsWithin (t : Text) : Except Fault (List { p : CType // p.length < t.length }) :=
  match h : arguments t with
  | .error f => .error f
  | .ok ps => .ok (ps.attach.map fun p => ⟨p.1, length_lt_of_mem_arguments h p.2⟩)

/-- The argument of the outermost element, with its bound. -/
def parameterWithin (t : CType) : Except Fault { p : Text // p.length < t.length } :=
  match h : parameter t with
  | .error f => .error f
  | .ok p => .ok ⟨p, length_lt_of_parameter h⟩

/-- The elements before the last and the last, with their bounds. -/
def splitWithin (t : CType) : Except Fault { r : CType × CType //
    r.2.length ≤ t.length ∧ (r.1 ≠ [] → r.1.length < t.length) } :=
  match h : split t with
  | .error f => .error f
  | .ok r => .ok ⟨r, split_lengths h⟩

/-- The parts of a template name, each shorter than `bound`. -/
structure PartsWithin (bound : Nat) where
  stem : { s : CType // s.length < bound }
  arguments : List { p : CType // p.length < bound }
  tail : Text

/-- The template parts of a name with their bounds. -/
def templateWithin (t : CType) : Except Fault (Option (PartsWithin t.length)) :=
  match h : templateParts t with
  | .error f => .error f
  | .ok none => .ok none
  | .ok (some parts) =>
    .ok (some ⟨⟨parts.stem, (lengths_of_templateParts h).1⟩,
      parts.arguments.attach.map fun p => ⟨p.1,
        Nat.lt_of_le_of_lt (length_le_of_mem_listed p.2) (lengths_of_templateParts h).2⟩,
      parts.tail⟩)

end BindingTypes.CType

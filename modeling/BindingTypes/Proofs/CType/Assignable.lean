import BindingTypes.Proofs.CType.FlatTypedefs
import BindingTypes.Proofs.CType.Signature

namespace BindingTypes.CType

def Constructor.saysConst : Constructor → Bool
  | .qualifier w => w.has "const".toList
  | _ => false

/-- What a value cannot be assigned to. -/
def Constructor.IsPlace (c : Constructor) : Prop := c.kind = .array ∨ c.kind = .reference

/-- Behind the name, and names it stands for that can all be seen through, such a constructor comes
first. -/
inductive Behind (T : Table CType) (through : Text → Prop) (P : Constructor → Prop) : Text → Prop
  | here {k b : Text} {c : Constructor} {cs : List Constructor} (hk : through k)
    (h : Expands T k (c :: cs) b) (hc : P c) : Behind T through P k
  | deeper {k b : Text} (hk : through k) (h : Expands T k [] b) (hb : Behind T through P b) :
    Behind T through P k

/-- Simple names are all that a constant is looked for behind. -/
def HidesConst (T : Table CType) : Text → Prop :=
  Behind T (isSimple · = true) (·.saysConst = true)

def HidesPlace (T : Table CType) : Text → Prop := Behind T (fun _ => True) Constructor.IsPlace

variable {T : Table CType} {past : List Text} {k n m : Nat} {b b' z t : Text}
  {c : Constructor} {cs ds : List Constructor} {through : Text → Prop} {P : Constructor → Prop}

theorem behind_iff (h : Expands T b cs b') : Behind T through P b ↔
    through b ∧ ((∃ c ds, cs = c :: ds ∧ P c) ∨ (cs = [] ∧ Behind T through P b')) := by
  constructor
  · rintro (⟨hk, h', hc⟩ | ⟨hk, h', hb⟩)
    · obtain ⟨rfl, -⟩ := h.inj h'
      exact ⟨hk, Or.inl ⟨_, _, rfl, hc⟩⟩
    · obtain ⟨rfl, rfl⟩ := h.inj h'
      exact ⟨hk, Or.inr ⟨rfl, hb⟩⟩
  · rintro ⟨hk, ⟨c, ds, rfl, hc⟩ | ⟨rfl, hb⟩⟩
    · exact .here hk h hc
    · exact .deeper hk h hb

theorem not_behind (h : T.get? b = none) : ¬ Behind T through P b := by
  rintro (⟨-, h', -⟩ | ⟨-, h', -⟩) <;> cases h.symm.trans h'.1

/-- The first constructor of the resolved name. -/
theorem first_of_unfolding (h : Unfolding T past n b ds z) :
    (∃ c cs, ds = c :: cs ∧ P c) ↔ Behind T (fun _ => True) P b := by
  induction h with
  | rest hnone =>
    refine ⟨?_, fun hb => absurd hb (not_behind hnone)⟩
    rintro ⟨c, cs, h, -⟩
    cases h
  | @step past n b b' z cs ds h hfresh hrest ih =>
    rw [behind_iff h, ← ih]
    cases cs with
    | nil => simp
    | cons c cs => simp

section Const

/-- Whether the outermost element is a constant qualifier. -/
def startsConst (t : CType) : Except Fault Bool :=
  if isQualifier t then (parameter t).map (Text.has · "const".toList) else .ok false

theorem startsConst_text (hc : c.IsReadable) (u : CType) :
    startsConst (c.text ++ u) = .ok c.saysConst := by
  rw [startsConst, isQualifier_text]
  cases c with
  | qualifier w =>
    have hparameter : parameter ((Constructor.qualifier w).text ++ u) = .ok w := by
      rw [parameter, first, next_readable hc]
      exact argument_written (by decide) hc
    rw [hparameter]
    rfl
  | _ => rfl

variable {r : Resolver} {seen : List CType} {said : Bool}

theorem isConstFrom_succ (h : startsConst t = .ok said) :
    isConstFrom r (n + 1) seen t =
      if said then .ok true else if !isSimple t || seen.contains t then .ok false
      else r.expand? t >>= fun o =>
        match o with
        | some next => isConstFrom r n (t :: seen) next
        | none => .ok false := by
  unfold startsConst at h
  conv_lhs => unfold isConstFrom
  by_cases hq : isQualifier t = true
  · rw [if_pos hq] at h ⊢
    obtain ⟨w, hw, rfl⟩ := map_eq_ok h
    rw [hw]
    rfl
  · rw [if_neg hq] at h ⊢
    cases h
    rfl

variable (hT : IsTypedefTable T)
include hT

/-- Where a constructor comes first, it alone tells whether a type is constant. -/
theorem isConstFrom_cons (h : Unfolding T past n b ds z) (hn : n < m)
    (hcs : ∀ e ∈ c :: cs, e.IsReadable) (hb : IsBase b) (seen : List CType) :
    isConstFrom (Resolver.flat T k) m seen (chain (c :: cs) b) = .ok c.saysConst := by
  induction h generalizing m cs seen with
  | @rest past b hnone =>
    obtain ⟨m, rfl⟩ : ∃ j, m = j + 1 := ⟨m - 1, by omega⟩
    have hsays := startsConst_text (hcs c List.mem_cons_self) (chain cs b)
    have hexpand : (Resolver.flat T k).expand? (chain (c :: cs) b) = .ok none := by
      have h := flatExpand?_chain hT hcs hb
      rwa [hnone] at h
    rw [← chain_cons] at hsays
    rw [isConstFrom_succ hsays, hexpand]
    cases c.saysConst
    · exact ite_self _
    · rfl
  | @step past n b b' z cs' ds hexpands hfresh hrest ih =>
    obtain ⟨m, rfl⟩ : ∃ j, m = j + 1 := ⟨m - 1, by omega⟩
    obtain ⟨hget, hcs', hb'⟩ := hexpands
    have hall : ∀ e ∈ c :: (cs ++ cs'), e.IsReadable :=
      List.forall_mem_append.mpr ⟨hcs, hcs'⟩
    have hsays := startsConst_text (hcs c List.mem_cons_self) (chain cs b)
    have hexpand : (Resolver.flat T k).expand? (chain (c :: cs) b) =
        .ok (some (chain (c :: (cs ++ cs')) b')) := by
      have h := flatExpand?_chain hT hcs hb
      rw [hget] at h
      refine h.trans ?_
      rw [← List.cons_append, chain_append]
      rfl
    rw [← chain_cons] at hsays
    rw [isConstFrom_succ hsays, hexpand]
    show (if c.saysConst = true then _ else if _ then _ else isConstFrom _ m _ _) = _
    rw [ih (by omega) hall hb']
    cases c.saysConst
    · exact ite_self _
    · rfl

/-- A name is constant if a constant is behind it. -/
theorem isConstFrom_base (h : Unfolding T past n b ds z) (hn : n < m) (hb : IsBase b)
    (hseen : seen ⊆ past) (hfresh : b ∉ past) :
    ∃ answer, isConstFrom (Resolver.flat T k) m seen b = .ok answer ∧
      (answer = true ↔ HidesConst T b) := by
  induction h generalizing m seen with
  | @rest past b hnone =>
    obtain ⟨m, rfl⟩ : ∃ j, m = j + 1 := ⟨m - 1, by omega⟩
    have hsays : startsConst b = .ok false := if_neg (by rw [hb.not_qualifier]; exact nofun)
    have hexpand : (Resolver.flat T k).expand? b = .ok none := by
      have h := flatExpand?_base hT hb
      rwa [hnone] at h
    refine ⟨false, ?_, fun h => absurd h Bool.false_ne_true, fun h => absurd h (not_behind hnone)⟩
    rw [isConstFrom_succ hsays, hexpand]
    exact ite_self _
  | @step past n b b' z cs ds hexpands hfresh' hrest ih =>
    obtain ⟨m, rfl⟩ : ∃ j, m = j + 1 := ⟨m - 1, by omega⟩
    have hsays : startsConst b = .ok false := if_neg (by rw [hb.not_qualifier]; exact nofun)
    have hexpand : (Resolver.flat T k).expand? b = .ok (some (chain cs b')) := by
      have h := flatExpand?_base hT hb
      rwa [hexpands.1] at h
    have hnew : seen.contains b = false := by
      rw [Bool.eq_false_iff, ne_eq, List.contains_iff_mem]
      exact fun hm => hfresh (hseen hm)
    rw [isConstFrom_succ hsays, hexpand, hnew, Bool.or_false, HidesConst, behind_iff hexpands]
    cases hs : isSimple b with
    | false => exact ⟨false, rfl, by simp⟩
    | true =>
      show ∃ answer, isConstFrom _ m (b :: seen) (chain cs b') = _ ∧ _
      cases cs with
      | nil =>
        obtain ⟨answer, hanswer, hiff⟩ := ih (m := m) (by omega) hexpands.2.2
          (List.cons_subset_cons b hseen) hfresh'
        exact ⟨answer, hanswer, by simpa [HidesConst] using hiff⟩
      | cons c cs =>
        exact ⟨c.saysConst, isConstFrom_cons hT hrest (by omega) hexpands.2.1 hexpands.2.2 _,
          by simp⟩

end Const

theorem readable_of_unfolding (h : Unfolding T past n b ds z) (hb : IsBase b) :
    (∀ c ∈ ds, c.IsReadable) ∧ IsBase z := by
  induction h with
  | rest hnone => exact ⟨nofun, hb⟩
  | step h hfresh hrest ih =>
    obtain ⟨hds, hz⟩ := ih h.2.2
    exact ⟨List.forall_mem_append.mpr ⟨h.2.1, hds⟩, hz⟩

theorem startsPlace_iff (hb : IsBase b) (cs : List Constructor) :
    (isArray (chain cs b) || isReference (chain cs b)) = true ↔
      ∃ c ds, cs = c :: ds ∧ c.IsPlace := by
  cases cs with
  | nil =>
    rw [chain_nil, hb.not_array, hb.not_reference]
    simp
  | cons c cs =>
    rw [chain_cons, isArray_text, isReference_text]
    simp [Constructor.IsPlace]

/-- A variable of the type can be assigned to. -/
def Assignable (r : Resolver) (t : CType) : Prop :=
  isConst r t = .ok false ∧
    ∃ v, r.resolve t = .ok v ∧ isReference v = false ∧ isArray v = false

section Budget

variable (hT : IsTypedefTable T) (hacyclic : Acyclic T) (hn : T.size ≤ n)
include hT hacyclic hn

theorem isConst_chain (hcs : ∀ c ∈ cs, c.IsReadable) (hb : IsBase b) :
    ∃ answer, isConst (Resolver.flat T n) (chain cs b) = .ok answer ∧
      (answer = true ↔
        (∃ c ds, cs = c :: ds ∧ c.saysConst = true) ∨ (cs = [] ∧ HidesConst T b)) := by
  obtain ⟨k, ds, z, hunfold, hk⟩ := exists_unfolding hT hacyclic b
  have hbudget : k < (Resolver.flat T n).budget + 1 := by
    show k < n + 1
    omega
  cases cs with
  | nil =>
    obtain ⟨answer, hanswer, hiff⟩ := isConstFrom_base (k := n) hT hunfold hbudget hb
      (List.nil_subset _) List.not_mem_nil
    exact ⟨answer, hanswer, by simpa using hiff⟩
  | cons c cs =>
    exact ⟨c.saysConst, isConstFrom_cons hT hunfold hbudget hcs hb [], by simp⟩

theorem resolve_chain (hcs : ∀ c ∈ cs, c.IsReadable) (hb : IsBase b) :
    ∃ v, (Resolver.flat T n).resolve (chain cs b) = .ok v ∧
      ((isArray v || isReference v) = true ↔
        (∃ c ds, cs = c :: ds ∧ c.IsPlace) ∨ (cs = [] ∧ HidesPlace T b)) := by
  obtain ⟨k, ds, z, hunfold, hk⟩ := exists_unfolding hT hacyclic b
  obtain ⟨hds, hz⟩ := readable_of_unfolding hunfold hb
  refine ⟨chain (cs ++ ds) z, chase_unfolding hT hunfold (m := n + 1) (by omega) nofun hcs hb nofun,
    ?_⟩
  rw [startsPlace_iff hz, HidesPlace, ← first_of_unfolding hunfold]
  cases cs <;> simp

/-- A type can be assigned to, unless its first constructor forbids it, or what its bare name
hides. -/
theorem assignable_chain_iff (hcs : ∀ c ∈ cs, c.IsReadable) (hb : IsBase b) :
    Assignable (Resolver.flat T n) (chain cs b) ↔
      (∀ c ds, cs = c :: ds → c.saysConst = false ∧ ¬ c.IsPlace) ∧
      (cs = [] → ¬ HidesConst T b ∧ ¬ HidesPlace T b) := by
  obtain ⟨answer, hconst, hanswer⟩ := isConst_chain hT hacyclic hn hcs hb
  obtain ⟨v, hresolve, hplace⟩ := resolve_chain hT hacyclic hn hcs hb
  have hassign : Assignable (Resolver.flat T n) (chain cs b) ↔
      ¬ answer = true ∧ ¬ (isArray v || isReference v) = true := by
    unfold Assignable
    rw [hconst, hresolve]
    simp only [Except.ok.injEq, exists_eq_left', Bool.not_eq_true, Bool.or_eq_false_iff]
    exact and_congr_right' and_comm
  rw [hassign, hanswer, hplace]
  cases cs with
  | nil => simp
  | cons c cs => simp

end Budget

/-- What the local form is taken of: a simple type may be replaced by its expansion. -/
def shown (r : Resolver) (bare : CType) : Except Fault CType :=
  if isSimple bare then
    r.expand? bare >>= fun o =>
      match o with
      | some expanded =>
        isUnassignable r expanded >>= fun hides => .ok (if hides then expanded else bare)
      | none => .ok bare
  else .ok bare

theorem localType_eq (r : Resolver) (t : CType) : localType r t =
    (dropQualifiers t).bind fun bare => (shown r bare).bind fun visible =>
      (elements visible).map fun es => (localElements false true es).flatten := by
  have helements : ∀ visible : CType, (elements visible >>= fun es =>
      (pure (localElements false true es).flatten : Except Fault CType)) =
      (elements visible).map fun es => (localElements false true es).flatten := by
    intro visible
    cases elements visible <;> rfl
  unfold localType shown
  cases dropQualifiers t with
  | error f => rfl
  | ok bare =>
    simp only [helements]
    dsimp only [bind, Except.bind, pure, Except.pure]
    split
    · cases r.expand? bare with
      | error f => rfl
      | ok o =>
        cases o with
        | none => rfl
        | some expanded =>
          dsimp only
          cases isUnassignable r expanded with
          | error f => rfl
          | ok hides => cases hides <;> rfl
    · rfl

/-- The name is replaced by what its typedef stands for. -/
def Replaced (T : Table CType) (k : Text) (cs : List Constructor) (b : Text) : Prop :=
  isSimple k = true ∧ Expands T k cs b ∧
    ((∃ c ds, cs = c :: ds ∧ (c.saysConst = true ∨ c.IsPlace)) ∨ (cs = [] ∧ HidesConst T b))

section Shown

variable (hT : IsTypedefTable T) (hacyclic : Acyclic T) (hn : T.size ≤ n)
include hT hacyclic hn

theorem isUnassignable_chain (hcs : ∀ c ∈ cs, c.IsReadable) (hb : IsBase b) :
    ∃ hides, isUnassignable (Resolver.flat T n) (chain cs b) = .ok hides ∧
      (hides = true ↔ (∃ c ds, cs = c :: ds ∧ (c.saysConst = true ∨ c.IsPlace)) ∨
        (cs = [] ∧ HidesConst T b)) := by
  obtain ⟨answer, hconst, hanswer⟩ := isConst_chain hT hacyclic hn hcs hb
  refine ⟨answer || isArray (chain cs b) || isReference (chain cs b), ?_, ?_⟩
  · rw [isUnassignable, hconst]
    rfl
  · rw [Bool.or_assoc, Bool.or_eq_true, hanswer, startsPlace_iff hb]
    cases cs with
    | nil => simp
    | cons c cs => simp

/-- A name is shown as it is, or as the expansion that replaces it. -/
theorem shown_base (hb : IsBase b) :
    ∃ ds b', shown (Resolver.flat T n) b = .ok (chain ds b') ∧ (∀ d ∈ ds, d.IsReadable) ∧
      IsBase b' ∧ (Replaced T b ds b' ∨ (ds = [] ∧ b' = b ∧ ∀ es e, ¬ Replaced T b es e)) := by
  have hkept : (∀ es e, ¬ Replaced T b es e) → ∃ ds b', (.ok b : Except Fault CType) =
      .ok (chain ds b') ∧ (∀ d ∈ ds, d.IsReadable) ∧ IsBase b' ∧
        (Replaced T b ds b' ∨ (ds = [] ∧ b' = b ∧ ∀ es e, ¬ Replaced T b es e)) := fun h =>
    ⟨[], b, rfl, nofun, hb, Or.inr ⟨rfl, rfl, h⟩⟩
  have hexpand : (Resolver.flat T n).expand? b = .ok (T.get? b) := flatExpand?_base hT hb
  unfold shown
  cases hs : isSimple b with
  | false => exact hkept fun es e h => Bool.false_ne_true (hs.symm.trans h.1)
  | true =>
    rw [if_pos rfl, hexpand]
    cases hget : T.get? b with
    | none => exact hkept fun es e h => by cases hget.symm.trans h.2.1.1
    | some u =>
      obtain ⟨ds, b', rfl, hds, hb'⟩ := hT.target hget
      have hexpands : Expands T b ds b' := ⟨hget, hds, hb'⟩
      obtain ⟨hides, hunassignable, hiff⟩ := isUnassignable_chain hT hacyclic hn hds hb'
      show ∃ _ _, (isUnassignable _ (chain ds b') >>= _ : Except Fault CType) = _ ∧ _
      rw [hunassignable]
      cases hides with
      | true => exact ⟨ds, b', rfl, hds, hb', Or.inl ⟨hs, hexpands, hiff.mp rfl⟩⟩
      | false =>
        refine hkept fun es e h => ?_
        obtain ⟨rfl, rfl⟩ := hexpands.inj h.2.1
        exact Bool.false_ne_true (hiff.mpr h.2.2)

/-- A constructor in front stays there. -/
theorem shown_cons (hcs : ∀ e ∈ c :: cs, e.IsReadable) (hb : IsBase b) :
    ∃ ds b', shown (Resolver.flat T n) (chain (c :: cs) b) = .ok (chain (c :: ds) b') ∧
      (∀ e ∈ c :: ds, e.IsReadable) ∧ IsBase b' := by
  have hkept : ∃ ds b', (.ok (chain (c :: cs) b) : Except Fault CType) = .ok (chain (c :: ds) b') ∧
      (∀ e ∈ c :: ds, e.IsReadable) ∧ IsBase b' := ⟨cs, b, rfl, hcs, hb⟩
  have hexpand : (Resolver.flat T n).expand? (chain (c :: cs) b) =
      .ok ((T.get? b).map (chain (c :: cs) ·)) := flatExpand?_chain hT hcs hb
  unfold shown
  rw [hexpand]
  split
  · cases hget : T.get? b with
    | none => exact hkept
    | some u =>
      obtain ⟨es, b', rfl, hes, hb'⟩ := hT.target hget
      have hall : ∀ e ∈ c :: (cs ++ es), e.IsReadable := List.forall_mem_append.mpr ⟨hcs, hes⟩
      obtain ⟨hides, hunassignable, -⟩ := isUnassignable_chain hT hacyclic hn hall hb'
      have hjoined : chain (c :: cs) (chain es b') = chain (c :: (cs ++ es)) b' := by
        rw [← List.cons_append, chain_append]
      show ∃ _ _, (isUnassignable _ (chain (c :: cs) (chain es b')) >>= _ :
        Except Fault CType) = _ ∧ _
      rw [hjoined, hunassignable]
      cases hides with
      | true => exact ⟨cs ++ es, b', congrArg Except.ok hjoined, hall, hb'⟩
      | false => exact hkept
  · exact hkept

end Shown

/-- Without its qualifiers in front, a type begins with another constructor, or is its base. -/
theorem dropWhile_cases (cs : List Constructor) :
    ((∀ c ∈ cs, c.kind = .qualifier) ∧ cs.dropWhile (·.kind = .qualifier) = []) ∨
    ∃ c ds, cs.dropWhile (·.kind = .qualifier) = c :: ds ∧ c.kind ≠ .qualifier ∧
      ¬ ∀ c ∈ cs, c.kind = .qualifier := by
  induction cs with
  | nil => exact Or.inl ⟨nofun, rfl⟩
  | cons c cs ih =>
    rw [List.dropWhile_cons, List.forall_mem_cons]
    by_cases hc : c.kind = .qualifier
    · simpa [hc] using ih
    · exact Or.inr ⟨c, cs, by simp [hc], hc, fun h => hc h.1⟩

/-- A local form begins with neither a qualifier nor a reference nor an array. -/
theorem localConstructors_cases (cs : List Constructor) :
    ((∀ c ∈ cs, c.kind = .qualifier) ∧ localConstructors false true cs = []) ∨
    ((¬ ∀ c ∈ cs, c.kind = .qualifier) ∧ ∃ c ds, localConstructors false true cs = c :: ds ∧
      c.saysConst = false ∧ ¬ c.IsPlace) := by
  induction cs with
  | nil => exact Or.inl ⟨nofun, rfl⟩
  | cons c cs ih =>
    rw [List.forall_mem_cons]
    cases c with
    | qualifier w =>
      rcases ih with ⟨hall, hlocal⟩ | ⟨hsome, hlocal⟩
      · exact Or.inl ⟨⟨rfl, hall⟩, hlocal⟩
      · exact Or.inr ⟨fun hall => hsome hall.2, hlocal⟩
    | _ =>
      refine Or.inr ⟨by simp [Constructor.kind], _, _, rfl, ?_⟩
      simp [Constructor.saysConst, Constructor.IsPlace, Constructor.kind]

/-- The name that is all that is left of a type in its local form. -/
inductive Lone (T : Table CType) (cs : List Constructor) (b : Text) : Text → Prop
  | kept (hcs : ∀ c ∈ cs, c.kind = .qualifier) (h : ∀ ds e, ¬ Replaced T b ds e) :
    Lone T cs b (localBase false b)
  | replaced {ds : List Constructor} {e : Text} (hcs : ∀ c ∈ cs, c.kind = .qualifier)
    (h : Replaced T b ds e) (hds : ∀ d ∈ ds, d.kind = .qualifier) : Lone T cs b (localBase false e)

theorem isBase_localBase (hb : IsBase b) (kept : Bool) : IsBase (localBase kept b) := by
  unfold localBase
  split
  · exact isBase_of_unbracketed (by decide)
  · exact hb

/-- A type in its local form, from what is shown of it. -/
theorem localType_of_shown {r : Resolver} (hcs : ∀ c ∈ cs, c.IsReadable) (hb : IsBase b)
    (hds : ∀ d ∈ ds, d.IsReadable) (hb' : IsBase b')
    (h : shown r (chain (cs.dropWhile (·.kind = .qualifier)) b) = .ok (chain ds b')) :
    localType r (chain cs b) = .ok (chain (localConstructors false true ds)
      (localBase (ds.any (·.kind = .function)) b')) := by
  rw [localType_eq, dropQualifiers_chain hcs hb]
  show (shown r _).bind _ = _
  rw [h]
  show (elements _).map _ = _
  rw [elements_readable hds hb']
  show Except.ok (List.flatten _) = _
  rw [flatten_localElements hb']

/-- The bare name of a local form, if a bare name is shown. -/
theorem lone_iff (hcs : ∀ c ∈ cs, c.kind = .qualifier) (hds : ∀ d ∈ ds, d.kind = .qualifier)
    (h : Replaced T b ds b' ∨ (ds = [] ∧ b' = b ∧ ∀ es e, ¬ Replaced T b es e)) :
    Lone T cs b z ↔ z = localBase false b' := by
  rcases h with h | ⟨rfl, rfl, hkept⟩
  · constructor
    · rintro (⟨-, hkept⟩ | ⟨-, h', -⟩)
      · exact absurd h (hkept _ _)
      · rw [(h.2.1.inj h'.2.1).2]
    · rintro rfl
      exact .replaced hcs h hds
  · constructor
    · rintro (⟨-, -⟩ | ⟨-, h', -⟩)
      · rfl
      · exact absurd h' (hkept _ _)
    · rintro rfl
      exact .kept hcs hkept

/-- Where a constructor is left, the local form is no bare name. -/
theorem not_lone (hds : ¬ ∀ d ∈ ds, d.kind = .qualifier)
    (h : Replaced T b ds b' ∨ (ds = [] ∧ b' = b ∧ ∀ es e, ¬ Replaced T b es e)) :
    ¬ Lone T cs b z := by
  rcases h with h | ⟨rfl, -, -⟩
  · rintro (⟨-, hkept⟩ | ⟨-, h', hds'⟩)
    · exact hkept _ _ h
    · obtain ⟨rfl, -⟩ := h.2.1.inj h'.2.1
      exact hds hds'
  · exact absurd nofun hds

/-- The local form of what is shown can be assigned to, unless it is a bare name behind which a
constant, an array or a reference is hidden. -/
theorem assignable_of_shown (hT : IsTypedefTable T) (hacyclic : Acyclic T) (hn : T.size ≤ n)
    (hcs : ∀ c ∈ cs, c.IsReadable) (hb : IsBase b) (hds : ∀ d ∈ ds, d.IsReadable)
    (hb' : IsBase b')
    (hshown : shown (Resolver.flat T n) (chain (cs.dropWhile (·.kind = .qualifier)) b) =
      .ok (chain ds b')) :
    ∃ u, localType (Resolver.flat T n) (chain cs b) = .ok u ∧
      (∃ answer, isConst (Resolver.flat T n) u = .ok answer) ∧
      (∃ v, (Resolver.flat T n).resolve u = .ok v) ∧
      (Assignable (Resolver.flat T n) u ↔ ((∀ d ∈ ds, d.kind = .qualifier) →
        ¬ HidesConst T (localBase false b') ∧ ¬ HidesPlace T (localBase false b'))) := by
  have hread : ∀ d ∈ localConstructors false true ds, d.IsReadable :=
    localConstructors_readable hds
  have hbase := isBase_localBase hb' (ds.any (·.kind = .function))
  obtain ⟨answer, hanswer, -⟩ := isConst_chain hT hacyclic hn hread hbase
  obtain ⟨v, hv, -⟩ := resolve_chain hT hacyclic hn hread hbase
  refine ⟨_, localType_of_shown hcs hb hds hb' hshown, ⟨answer, hanswer⟩, ⟨v, hv⟩, ?_⟩
  rw [assignable_chain_iff hT hacyclic hn hread hbase]
  rcases localConstructors_cases ds with ⟨hall, hnil⟩ | ⟨hsome, c, es, hcons, hc⟩
  · have hnone : ds.any (·.kind = .function) = false := by
      refine List.any_eq_false.mpr fun d hd => ?_
      rw [hall d hd]
      decide
    rw [hnil, hnone]
    exact ⟨fun h _ => h.2 rfl, fun h => ⟨nofun, fun _ => h hall⟩⟩
  · rw [hcons]
    refine ⟨fun _ hall => absurd hall hsome, fun _ => ⟨fun c' es' h => ?_, nofun⟩⟩
    obtain ⟨rfl, -⟩ := List.cons.inj h
    exact hc

/-- The local form can be assigned to, unless it is a bare name behind which a constant, an array
or a reference is still hidden. -/
theorem local_form_assignable_iff (hT : IsTypedefTable T) (hacyclic : Acyclic T) (hn : T.size ≤ n)
    (hcs : ∀ c ∈ cs, c.IsReadable) (hb : IsBase b) :
    ∃ u, localType (Resolver.flat T n) (chain cs b) = .ok u ∧
      (∃ answer, isConst (Resolver.flat T n) u = .ok answer) ∧
      (∃ v, (Resolver.flat T n).resolve u = .ok v) ∧
      (Assignable (Resolver.flat T n) u ↔
        ∀ z, Lone T cs b z → ¬ HidesConst T z ∧ ¬ HidesPlace T z) := by
  rcases dropWhile_cases cs with ⟨hall, hnil⟩ | ⟨c, es, hcons, hc, hsome⟩
  · obtain ⟨ds, b', hshown, hds, hb', hcase⟩ := shown_base hT hacyclic hn hb
    obtain ⟨u, hu, hanswer, hv, hassign⟩ := assignable_of_shown hT hacyclic hn hcs hb hds hb'
      (by rw [hnil]; exact hshown)
    refine ⟨u, hu, hanswer, hv, hassign.trans ?_⟩
    by_cases hqualifier : ∀ d ∈ ds, d.kind = .qualifier
    · have hlone := fun z => lone_iff (z := z) hall hqualifier hcase
      refine ⟨fun h z hz => ?_, fun h _ => h _ ((hlone _).mpr rfl)⟩
      rw [(hlone z).mp hz]
      exact h hqualifier
    · exact ⟨fun _ z hz => absurd hz (not_lone hqualifier hcase),
        fun _ h => absurd h hqualifier⟩
  · have hrest : ∀ e ∈ c :: es, e.IsReadable := fun e he =>
      hcs e ((List.dropWhile_sublist _).subset (hcons ▸ he))
    obtain ⟨ds, b', hshown, hds, hb'⟩ := shown_cons hT hacyclic hn hrest hb
    obtain ⟨u, hu, hanswer, hv, hassign⟩ := assignable_of_shown hT hacyclic hn hcs hb hds hb'
      (by rw [hcons]; exact hshown)
    refine ⟨u, hu, hanswer, hv, hassign.trans ⟨fun _ z hz => ?_, fun _ h =>
      absurd (h c List.mem_cons_self) hc⟩⟩
    rcases hz with ⟨hall, -⟩ | ⟨hall, -, -⟩ <;> exact absurd hall hsome

/-- An array with a name, and another name for that name. -/
def renamedArray : Table CType :=
  .ofList [("A".toList, "B".toList), ("B".toList, "a(3).int".toList)]

theorem renamedArray_get? (k : Text) : renamedArray.get? k =
    if k = "B".toList then some "a(3).int".toList
    else if k = "A".toList then some "B".toList else none := by
  rw [renamedArray, Table.ofList, List.foldl_cons, List.foldl_cons, List.foldl_nil,
    Table.get?_insert, Table.get?_insert]
  rfl

theorem expands_renamedArray_iff : Expands renamedArray b cs b' ↔
    (b = "B".toList ∧ cs = [.array "3".toList] ∧ b' = "int".toList) ∨
      (b = "A".toList ∧ cs = [] ∧ b' = "B".toList) := by
  have hB : IsBase "B".toList := isBase_of_unbracketed (by decide)
  have hint : IsBase "int".toList := isBase_of_unbracketed (by decide)
  have harray : ∀ c ∈ [Constructor.array "3".toList], c.IsReadable :=
    List.forall_mem_singleton.mpr (by decide : Balanced "3".toList)
  have hfirst : Expands renamedArray "B".toList [.array "3".toList] "int".toList :=
    ⟨by rw [renamedArray_get?]; rfl, harray, hint⟩
  have hsecond : Expands renamedArray "A".toList [] "B".toList :=
    ⟨by rw [renamedArray_get?]; rfl, nofun, hB⟩
  constructor
  · intro h
    have hget := h.1
    rw [renamedArray_get?] at hget
    split at hget
    · rename_i hk
      subst hk
      obtain ⟨rfl, rfl⟩ := h.inj hfirst
      exact Or.inl ⟨rfl, rfl, rfl⟩
    · split at hget
      · rename_i hk
        subst hk
        obtain ⟨rfl, rfl⟩ := h.inj hsecond
        exact Or.inr ⟨rfl, rfl, rfl⟩
      · cases hget
  · rintro (⟨rfl, rfl, rfl⟩ | ⟨rfl, rfl, rfl⟩)
    · exact hfirst
    · exact hsecond

theorem isTypedefTable_renamedArray : IsTypedefTable renamedArray := by
  have hA : IsBase "A".toList := isBase_of_unbracketed (by decide)
  have hB : IsBase "B".toList := isBase_of_unbracketed (by decide)
  have hint : IsBase "int".toList := isBase_of_unbracketed (by decide)
  have harray : (Constructor.array "3".toList).IsReadable := (by decide : Balanced "3".toList)
  constructor
  · intro k u h
    rw [renamedArray_get?] at h
    split at h
    · rename_i hk
      exact hk ▸ ⟨hB, by decide⟩
    · split at h
      · rename_i hk
        exact hk ▸ ⟨hA, by decide⟩
      · cases h
  · intro k u h
    rw [renamedArray_get?] at h
    split at h
    · cases h
      exact ⟨[.array "3".toList], "int".toList, rfl, List.forall_mem_singleton.mpr harray, hint⟩
    · split at h
      · cases h
        exact ⟨[], "B".toList, rfl, nofun, hB⟩
      · cases h

theorem acyclic_renamedArray : Acyclic renamedArray := by
  refine acyclic_of_rank (fun k => if k = "A".toList then 2 else if k = "B".toList then 1 else 0)
    fun k b hkb => ?_
  obtain ⟨cs, h⟩ := hkb
  rcases expands_renamedArray_iff.mp h with ⟨rfl, -, rfl⟩ | ⟨rfl, -, rfl⟩ <;> decide

theorem named_array_assignable :
    ∃ u, localType (Resolver.flat renamedArray 2) "q(const).B".toList = .ok u ∧
      Assignable (Resolver.flat renamedArray 2) u := by
  have hB : IsBase "B".toList := isBase_of_unbracketed (by decide)
  have hconst : (Constructor.qualifier "const".toList).IsReadable :=
    (by decide : Balanced "const".toList)
  have hexpands : Expands renamedArray "B".toList [.array "3".toList] "int".toList :=
    expands_renamedArray_iff.mpr (Or.inl ⟨rfl, rfl, rfl⟩)
  have hreplaced : Replaced renamedArray "B".toList [.array "3".toList] "int".toList :=
    ⟨by decide, hexpands, Or.inl ⟨_, _, rfl, Or.inr (Or.inl rfl)⟩⟩
  obtain ⟨u, hu, -, -, hassign⟩ := local_form_assignable_iff isTypedefTable_renamedArray
    acyclic_renamedArray (n := 2) (by decide) (List.forall_mem_singleton.mpr hconst) hB
  refine ⟨u, hu, hassign.mpr fun z hz => ?_⟩
  rcases hz with ⟨-, hkept⟩ | ⟨-, h, hqualifier⟩
  · exact absurd hreplaced (hkept _ _)
  · obtain ⟨rfl, -⟩ := h.2.1.inj hexpands
    exact absurd (hqualifier _ List.mem_cons_self) (by decide)

/-- Only one expansion is looked at: the name of a name of an array stays. -/
theorem renamed_array_not_assignable :
    ¬ ∀ (T : Table CType) (n : Nat) (cs : List Constructor) (b : Text), IsTypedefTable T →
      Acyclic T → T.size ≤ n → (∀ k u, T.get? k = some u → u ≠ []) →
      (∀ k ds b', Expands T k ds b' → ∀ d ∈ ds, d.kind ≠ .function) →
      (∀ c ∈ cs, c.IsReadable) → (∀ c ∈ cs, c.kind ≠ .function) → IsBase b →
      ∃ u, localType (Resolver.flat T n) (chain cs b) = .ok u ∧
        Assignable (Resolver.flat T n) u := by
  intro h
  have hA : IsBase "A".toList := isBase_of_unbracketed (by decide)
  have htargets : ∀ k u, renamedArray.get? k = some u → u ≠ [] := by
    intro k u hget
    rw [renamedArray_get?] at hget
    split at hget
    · cases hget
      decide
    · split at hget
      · cases hget
        decide
      · cases hget
  have hfunctions : ∀ k ds b', Expands renamedArray k ds b' → ∀ d ∈ ds, d.kind ≠ .function := by
    intro k ds b' hexpands
    rcases expands_renamedArray_iff.mp hexpands with ⟨-, rfl, -⟩ | ⟨-, rfl, -⟩ <;> decide
  obtain ⟨u, hu, -, v, hv, -, harray⟩ := h renamedArray 2 [] "A".toList
    isTypedefTable_renamedArray acyclic_renamedArray (by decide) htargets hfunctions nofun nofun hA
  have hlocal : localType (Resolver.flat renamedArray 2) "A".toList = .ok "A".toList := by
    decide +kernel
  have hresolve : (Resolver.flat renamedArray 2).resolve "A".toList =
      .ok "a(3).int".toList := by decide +kernel
  cases hlocal.symm.trans hu
  cases hresolve.symm.trans hv
  cases harray

end BindingTypes.CType

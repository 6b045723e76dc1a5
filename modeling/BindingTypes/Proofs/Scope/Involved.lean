import BindingTypes.Proofs.CType.Constructors
import BindingTypes.Proofs.CType.Levels
import BindingTypes.Proofs.Scope.Finding
import BindingTypes.Proofs.Scope.SingleName

namespace BindingTypes

namespace Text

/-- A word of the first text runs on into the second. -/
def Glued (t u : Text) : Prop :=
  ∃ c ∈ t.getLast?, ∃ d ∈ u.head?, isIdentChar c = true ∧ isIdentChar d = true

/-- `u` stands in `t`, and no word is cut at its ends. -/
def IsPiece (u t : Text) : Prop := ∃ a b, t = a ++ u ++ b ∧ ¬ Glued a u ∧ ¬ Glued u b

variable {a b t u v : Text} {c d : Char} {ts : List Text}

theorem not_glued_nil_left (u : Text) : ¬ Glued [] u := by
  rintro ⟨c, hc, -⟩
  cases hc

theorem not_glued_nil_right (u : Text) : ¬ Glued u [] := by
  rintro ⟨-, -, d, hd, -⟩
  cases hd

theorem not_glued_left (h : ∀ c ∈ t.getLast?, isIdentChar c = false) (u : Text) : ¬ Glued t u := by
  rintro ⟨c, hc, -, -, hident, -⟩
  rw [h c hc] at hident
  cases hident

theorem not_glued_right (h : ∀ d ∈ u.head?, isIdentChar d = false) (t : Text) : ¬ Glued t u := by
  rintro ⟨-, -, d, hd, -, hident⟩
  rw [h d hd] at hident
  cases hident

theorem not_glued_append_left (h : ¬ Glued b u) (ha : ¬ Glued a (b ++ u)) : ¬ Glued (a ++ b) u := by
  rintro ⟨c, hc, d, hd, hident⟩
  cases b using List.reverseRecOn with
  | nil => exact ha ⟨c, by simpa using hc, d, hd, hident⟩
  | append_singleton b e => exact h ⟨c, by simpa [← List.append_assoc] using hc, d, hd, hident⟩

theorem not_glued_append_right (h : ¬ Glued u a) (hb : ¬ Glued (u ++ a) b) :
    ¬ Glued u (a ++ b) := by
  rintro ⟨c, hc, d, hd, hident⟩
  cases a with
  | nil => exact hb ⟨c, by simpa using hc, d, hd, hident⟩
  | cons e a => exact h ⟨c, hc, d, hd, hident⟩

namespace IsPiece

theorem refl (t : Text) : IsPiece t t :=
  ⟨[], [], by simp, not_glued_nil_left t, not_glued_nil_right t⟩

theorem trans (h : IsPiece u v) (h' : IsPiece v t) : IsPiece u t := by
  obtain ⟨a, b, rfl, ha, hb⟩ := h
  obtain ⟨a', b', rfl, ha', hb'⟩ := h'
  refine ⟨a' ++ a, b ++ b', by simp, not_glued_append_left ha fun hglued => ha' ?_,
    not_glued_append_right hb fun hglued => hb' ?_⟩
  · obtain ⟨c, hc, d, hd, hident⟩ := hglued
    exact ⟨c, hc, d, by rw [List.head?_append, hd]; rfl, hident⟩
  · obtain ⟨c, hc, hrest⟩ := hglued
    exact ⟨c, by rw [List.append_assoc, List.getLast?_append, hc]; rfl, hrest⟩

theorem behind (h : ¬ Glued t u) : IsPiece u (t ++ u) :=
  ⟨t, [], by simp, h, not_glued_nil_right u⟩

theorem before (h : ¬ Glued u t) : IsPiece u (u ++ t) :=
  ⟨[], t, by simp, not_glued_nil_left u, h⟩

theorem between (hc : isIdentChar c = false) (hd : isIdentChar d = false) (a u b : Text) :
    IsPiece u (a ++ c :: (u ++ d :: b)) := by
  refine ⟨a ++ [c], d :: b, by simp, not_glued_left ?_ u, not_glued_right ?_ u⟩
  · rintro e he
    rw [List.getLast?_concat] at he
    cases he
    exact hc
  · rintro e ⟨⟩
    exact hd

theorem behind_colons (a u : Text) : IsPiece u (a ++ "::".toList ++ u) := by
  refine behind (not_glued_left ?_ u)
  rintro c hc
  rw [List.getLast?_append_of_ne_nil _ (by decide)] at hc
  cases hc
  rfl

theorem before_colons (u b : Text) : IsPiece u (u ++ ':' :: b) := by
  refine before (not_glued_right ?_ u)
  rintro c ⟨⟩
  rfl

theorem commaJoin (h : u ∈ ts) : IsPiece u (Text.commaJoin ts) := by
  induction ts with
  | nil => cases h
  | cons t ts ih =>
    rw [CType.commaJoin_cons]
    rcases List.mem_cons.mp h with rfl | h
    · refine before (not_glued_right ?_ u)
      split
      · rintro c ⟨⟩
      · rintro c ⟨⟩
        rfl
    · rw [if_neg (List.ne_nil_of_mem h), List.append_cons]
      refine (ih h).trans (behind (not_glued_left ?_ _))
      rintro c hc
      rw [List.getLast?_concat] at hc
      cases hc
      rfl

/-- An identifier has no pieces but itself and the empty one. -/
theorem eq_of_identifier (ht : IsIdentifier t) (h : IsPiece u t) : u = t ∨ u = [] := by
  obtain ⟨a, b, rfl, ha, hb⟩ := h
  have hident := ht.2
  by_cases hu : u = []
  · exact Or.inr hu
  refine Or.inl ?_
  have hnil : a = [] := by
    by_contra hne
    refine ha ⟨a.getLast hne, List.getLast?_eq_some_getLast hne, u.head hu,
      List.head?_eq_some_head hu, hident _ ?_, hident _ ?_⟩
    · simp
    · simp
  have hnil' : b = [] := by
    by_contra hne
    refine hb ⟨u.getLast hu, List.getLast?_eq_some_getLast hu, b.head hne,
      List.head?_eq_some_head hne, hident _ ?_, hident _ ?_⟩
    · simp
    · simp
  rw [hnil, hnil']
  simp

theorem eq_nil (h : IsPiece u []) : u = [] := by
  obtain ⟨a, b, hnil, -, -⟩ := h
  simp_all

end IsPiece

end Text

namespace QualifiedName

open Text

variable {n name scope last w N M : Text}

theorem isPiece_within (N n : Text) : IsPiece n (within N n) := by
  unfold within
  split
  · exact .refl n
  · exact .behind_colons N n

/-- A name without colons stands in what has the same full name. -/
theorem isPiece_of_within (hn : ':' ∉ n) (h : within N w = within M n) : IsPiece n w := by
  have hlast : ∀ {v x y : Text}, x ++ "::".toList = y ++ v → ∀ c ∈ v.getLast?, c = ':' := by
    intro v x y heq c hc
    have hends := congrArg List.getLast? heq
    rw [List.getLast?_append_of_ne_nil _ (by decide), List.getLast?_append, hc] at hends
    cases hends
    rfl
  by_cases hN : N = []
  · rw [within, if_pos hN] at h
    exact h ▸ isPiece_within M n
  by_cases hM : M = []
  · rw [within, if_neg hN, within, if_pos hM] at h
    exact absurd (by simp [← h]) hn
  rw [within, if_neg hN, within, if_neg hM] at h
  rcases List.append_eq_append_iff.mp h with ⟨v, heq, rfl⟩ | ⟨v, heq, rfl⟩
  · refine .behind (not_glued_left (fun c hc => ?_) n)
    rw [hlast heq c hc]
    rfl
  · cases hv : v.getLast? with
    | none =>
      rw [List.getLast?_eq_none_iff.mp hv]
      exact .refl w
    | some c =>
      have hcolon := hlast heq c hv
      exact absurd (List.mem_append_left w (hcolon ▸ List.mem_of_getLast? hv)) hn

theorem isPiece_of_split (h : split name = (some scope, last)) :
    IsPiece scope name ∧ IsPiece last name := by
  rw [append_of_split h]
  refine ⟨.before_colons scope (':' :: last), ?_⟩
  have hcolons := IsPiece.behind_colons scope last
  simpa using hcolons

end QualifiedName

namespace CType

open Text

variable {t front b p : CType}

theorem isPiece_of_listed {inside : Text} (h : p ∈ listed inside) : IsPiece p inside := by
  rw [← commaJoin_listed inside]
  exact .commaJoin h

theorem not_glued_of_split (h : split t = .ok (front, b)) (u : Text) : ¬ Glued front u := by
  by_cases ht : t = []
  · subst ht
    have hfront := (List.append_eq_nil_iff.mp (split_append h)).1
    rw [hfront]
    exact not_glued_nil_left u
  obtain ⟨es, hes, -⟩ := map_eq_ok h
  obtain ⟨fs, b', hcomposed⟩ := composed_of_elements hes ht
  cases hcomposed.split.symm.trans h
  refine not_glued_left (fun c hc => ?_) u
  cases fs using List.reverseRecOn with
  | nil => cases hc
  | append_singleton fs f =>
    have hdot := (hcomposed.dotted f (by simp)).getLast?
    rw [List.flatten_append, List.flatten_singleton, List.getLast?_append, hdot] at hc
    cases hc
    rfl

theorem isPiece_of_split (h : split t = .ok (front, b)) : IsPiece front t ∧ IsPiece b t := by
  rw [← split_append h]
  exact ⟨.before (not_glued_of_split h b), .behind (not_glued_of_split h b)⟩

theorem isPiece_of_group {inside : Text} (h : group? t = .ok (some inside)) :
    IsPiece inside t := by
  obtain ⟨f, rest, rfl, -⟩ := group?_cases h
  exact .between (by decide) (by decide) f inside rest

theorem isPiece_of_argumentsWithin {ps : List { p : CType // p.length < t.length }}
    (h : argumentsWithin t = .ok ps) : ∀ p ∈ ps, IsPiece p.1 t := by
  intro p hp
  obtain ⟨inside, hgroup, hlisted⟩ := argumentsWithin_cases h
  exact (isPiece_of_listed (hlisted p hp)).trans (isPiece_of_group hgroup)

theorem isPiece_of_templateWithin {parts : PartsWithin t.length}
    (h : templateWithin t = .ok (some parts)) : ∀ p ∈ parts.arguments, IsPiece p.1 t := by
  intro p hp
  obtain ⟨inside, hshape, -, hlisted⟩ := templateWithin_cases h
  have hinside : IsPiece inside t := by
    rw [hshape, List.append_cons]
    exact .between (by decide) (by decide) _ inside _
  exact (isPiece_of_listed (hlisted p hp)).trans hinside

theorem isPiece_of_parameterWithin {p : { p : CType // p.length < t.length }}
    (h : parameterWithin t = .ok p) : IsPiece p.1 t := by
  unfold parameterWithin at h
  split at h
  · cases h
  · rename_i x hx
    cases h
    obtain ⟨e, he, hx⟩ := bind_eq_ok hx
    obtain ⟨⟨e', rest⟩, hnext, rfl⟩ := map_eq_ok he
    obtain ⟨f, r, hshape, -⟩ := group?_cases (group?_of_argument hx)
    have hshape : e' = f ++ '(' :: (x ++ ')' :: r) := hshape
    have hwhole : t = f ++ '(' :: (x ++ ')' :: (r ++ rest)) := by
      rw [← next_append hnext, hshape]
      simp
    show IsPiece x t
    rw [hwhole]
    exact .between (by decide) (by decide) f x _

end CType

namespace ScopeGraph

open CType Relation Text

variable {g g' g'' : ScopeGraph} {n q t u w front b found : CType} {k m : Nat}
  {id start y : ScopeId} {r : Except Fault (Option CType)}

/-- Resolution to a bounded depth, with a bounded number of expansions. -/
abbrev resolveWithin (g : ScopeGraph) (k m : Nat) : CType → Except Fault CType :=
  (g.withBudget k).resolveTo .never m

/-- What comes up while `t` is expanded: pieces of it, and what they stand for. -/
def Involves (g : ScopeGraph) : CType → CType → Prop :=
  ReflTransGen fun t u => IsPiece u t ∨ g.Becomes t u

theorem Involves.piece (h : g.Involves t u) (hw : IsPiece w u) : g.Involves t w :=
  h.tail (Or.inl hw)

theorem involves_of_piece (h : IsPiece u t) : g.Involves t u := .single (Or.inl h)

theorem involves_of_reached (h : ReflTransGen g.Becomes t u) : g.Involves t u :=
  ReflTransGen.mono (fun _ _ => Or.inr) _ _ h

/-- An identifier that stands for nothing leads nowhere, where the empty text does not either. -/
theorem Involves.of_identifier (ht : IsIdentifier t) (hspent : g.Expansion t (.ok none))
    (hnil : g.Expansion [] (.ok none)) (h : g.Involves t u) : u = t ∨ u = [] := by
  induction h with
  | refl => exact Or.inl rfl
  | tail _ hstep ih =>
    rcases ih with rfl | rfl
    · rcases hstep with hpiece | hbecomes
      · exact hpiece.eq_of_identifier ht
      · exact absurd hspent hbecomes.not_spent
    · rcases hstep with hpiece | hbecomes
      · exact Or.inr hpiece.eq_nil
      · exact absurd hnil hbecomes.not_spent

theorem isPiece_of_after {name : Text} (h : Text.after? t "::".toList = some name) :
    IsPiece name t := by
  have hbehind := IsPiece.behind_colons [] name
  rw [Text.after?_eq_some_iff.mp h]
  simpa using hbehind

theorem isPiece_origin (g : ScopeGraph) (q : Text) : IsPiece (g.origin q).2 q := by
  unfold origin
  split
  · rename_i name hcolons
    exact isPiece_of_after hcolons
  · exact .refl q

theorem InRange.origin_lt (hg : InRange g) (q : Text) : (g.origin q).1 < g.scopes.length := by
  unfold origin
  split
  · exact Nat.lt_of_le_of_lt (Nat.zero_le _) hg.current
  · exact hg.current

section Found

variable (hs : split t = .ok (front, b)) (hsimple : isSimple b = true)
  (h : (g.withBudget k).lookupName (g.resolveWithin k m) (g.origin b).1 (g.origin b).2 =
    .ok (some (some (found, y))))
include hs hsimple h

theorem becomes_of_lookupName (hne : found ≠ (g.origin b).2) : g.Becomes t (front ++ found) := by
  refine expansion_of_expandType (k := k) (m := m) ?_ (by simp)
  rw [expandType_of_split hs, expandBase_of_lookupName (g := g.withBudget k) hsimple h]
  have hkept : ((g.withBudget k).origin b).2 = (g.origin b).2 := rfl
  rw [hkept, if_neg hne]
  rfl

/-- What the tables answer for the base of a type comes up. -/
theorem involves_of_lookupName : g.Involves t found := by
  by_cases hne : found = (g.origin b).2
  · rw [hne]
    exact involves_of_piece ((isPiece_origin g b).trans (isPiece_of_split hs).2)
  · have hbecomes := becomes_of_lookupName hs hsimple h hne
    exact .tail (.single (Or.inr hbecomes)) (Or.inl (.behind (not_glued_of_split hs found)))

end Found

theorem expandType_of_split_error {resolve : CType → Except Fault CType} {f : Fault}
    (h : split t = .error f) : g.expandType resolve t = .error f := by
  have hwithin : splitWithin t = .error f := by
    unfold splitWithin
    split
    · rename_i e he
      cases h.symm.trans he
      rfl
    · rename_i p hp
      cases h.symm.trans hp
  unfold expandType
  rw [expandStep, hwithin]
  rfl

theorem reaches_of_resolveWithin (h : g.resolveWithin k m t = .ok u) :
    ReflTransGen g.Becomes t u := by
  cases m with
  | zero => cases h
  | succ m =>
    change Resolver.chase ((g.withBudget k).expandType (g.resolveWithin k m)) (k + 1) [] t = .ok u
      at h
    obtain ⟨a, hl, hu⟩ := trail_of_chase (Trail.single g t) .nil h
    have hlast : (a ++ [t]).getLast? = some t := by simp
    generalize a ++ [t] = l at hl hu hlast
    cases hu with
    | spent _ => exact hl.reached hlast List.mem_cons_self
    | wrapped _ _ _ => exact hl.reached hlast List.mem_cons_self
    | repeated hstep _ _ => exact (hl.reached hlast List.mem_cons_self).tail hstep

theorem isPiece_qualifyExpansion (id : ScopeId) (t : CType) :
    IsPiece t (g.qualifyExpansion id t) := by
  unfold ScopeGraph.qualifyExpansion
  split
  · exact QualifiedName.isPiece_within _ t
  · exact .refl t

theorem InRange.findScopeFrom_lt {resolve : CType → Except Fault CType} (hg : InRange g)
    (h : g.findScopeFrom resolve start w = .ok (some id)) : id < g.scopes.length := by
  have hnamed : ∀ plain, g.findNamed start plain = some id → id < g.scopes.length := by
    intro plain hfound
    obtain ⟨-, -, s, -, hk⟩ := findOutward_hit hfound
    exact hg.found _ _ hk
  unfold findScopeFrom at h
  dsimp only at h
  split at h
  · obtain ⟨plain, -, h⟩ := bind_eq_ok h
    exact hnamed plain (Except.ok.inj h)
  · exact hnamed w (Except.ok.inj h)

theorem expandFirst_congr {bound : Nat} {ps : List { p : CType // p.length < bound }}
    {expand expand' : { p : CType // p.length < bound } → Except Fault (Option CType)}
    (h : ∀ p ∈ ps, expand' p = expand p) : expandFirst expand' ps = expandFirst expand ps := by
  induction ps with
  | nil => rfl
  | cons p ps ih =>
    obtain ⟨hp, hps⟩ := List.forall_mem_cons.mp h
    unfold expandFirst
    rw [hp, ih hps]

theorem expandName_congr {name : Text} {resolve resolve' : CType → Except Fault CType}
    {expand expand' : { p : CType // p.length < name.length } → Except Fault (Option CType)}
    (hlookup : g'.lookupName resolve' start name = g.lookupName resolve start name)
    (hexpand : ∀ p, IsPiece p.1 name → expand' p = expand p) :
    g'.expandName resolve' start name expand' = g.expandName resolve start name expand := by
  unfold expandName
  rw [hlookup]
  cases g.lookupName resolve start name with
  | error f => rfl
  | ok known =>
    rcases known with _ | _ | hit
    · rfl
    · cases hparts : templateWithin name with
      | error f => rfl
      | ok parts =>
        cases parts with
        | none => rfl
        | some parts =>
          have hfirst := expandFirst_congr fun p hp =>
            hexpand p (isPiece_of_templateWithin hparts p hp)
          show (expandFirst expand' parts.arguments >>= _ : Except Fault Step) =
            expandFirst expand parts.arguments >>= _
          rw [hfirst]
    · rfl

/-- Two ways to expand that agree on what comes up settle alike. -/
theorem chase_congr {e e' : CType → Except Fault (Option CType)} {P : CType → Prop}
    (he : ∀ t, P t → e' t = e t) (hnext : ∀ t u, P t → e t = .ok (some u) → P u) :
    ∀ (fuel : Nat) (seen : List Outline) (t : CType), P t →
      Resolver.chase e' fuel seen t = Resolver.chase e fuel seen t := by
  intro fuel
  induction fuel with
  | zero => exact fun _ _ _ => rfl
  | succ fuel ih =>
    intro seen t ht
    unfold Resolver.chase
    rw [he t ht]
    cases hstep : e t with
    | error f => rfl
    | ok expanded =>
      cases expanded with
      | none => rfl
      | some next =>
        have hrest := fun seen => ih seen next (hnext t next ht hstep)
        show (liftM next.outline >>= _ : Except Fault CType) = liftM next.outline >>= _
        simp only [hrest]

/-- What tells two graphs apart is what they say of the name `n`. -/
structure SameBut (g g' : ScopeGraph) (n : Text) : Prop where
  current : g'.current = g.current
  length : g.scopes.length ≤ g'.scopes.length
  name : ∀ id, id < g.scopes.length → g'.nameOf id = g.nameOf id
  own : ∀ id m, id < g.scopes.length → m ≠ n →
    (g'.scope id).typedefs.get? m = (g.scope id).typedefs.get? m
  lookup : ∀ id m, id < g.scopes.length → m ≠ n → g'.lookup id m = g.lookup id m
  find : ∀ id w, id < g.scopes.length → ¬ IsPiece n w → g'.findNamed id w = g.findNamed id w

namespace SameBut

theorem refl (g : ScopeGraph) (n : Text) : SameBut g g n :=
  ⟨rfl, Nat.le_refl _, fun _ _ => rfl, fun _ _ _ _ => rfl, fun _ _ _ _ => rfl, fun _ _ _ _ => rfl⟩

theorem trans (h : SameBut g g' n) (h' : SameBut g' g'' n) : SameBut g g'' n where
  current := h'.current.trans h.current
  length := h.length.trans h'.length
  name id hid := (h'.name id (hid.trans_le h.length)).trans (h.name id hid)
  own id m hid hm := (h'.own id m (hid.trans_le h.length) hm).trans (h.own id m hid hm)
  lookup id m hid hm := (h'.lookup id m (hid.trans_le h.length) hm).trans (h.lookup id m hid hm)
  find id w hid hw := (h'.find id w (hid.trans_le h.length) hw).trans (h.find id w hid hw)

theorem nameIn (h : SameBut g g' n) (hid : id < g.scopes.length) (m : Text) :
    g'.nameIn id m = g.nameIn id m := by
  rw [ScopeGraph.nameIn, h.name id hid, ScopeGraph.nameIn]

theorem origin (h : SameBut g g' n) (q : Text) : g'.origin q = g.origin q := by
  rw [ScopeGraph.origin, h.current, ScopeGraph.origin]

theorem qualifyExpansion (h : SameBut g g' n) (hid : id < g.scopes.length) (ht : t ≠ n) :
    g'.qualifyExpansion id t = g.qualifyExpansion id t := by
  rw [ScopeGraph.qualifyExpansion, ScopeGraph.qualifyExpansion, h.name id hid, h.nameIn hid,
    h.lookup id t hid ht]

theorem withBudget (h : SameBut g g' n) (k : Nat) :
    SameBut (g.withBudget k) (g'.withBudget k) n where
  current := h.current
  length := h.length
  name := h.name
  own := h.own
  lookup id m hid hm := by
    have hscopes : ∀ g : ScopeGraph, (g.withBudget k).scopes = g.scopes := fun _ => rfl
    have hsame : ∀ g : ScopeGraph, (g.withBudget k).lookup id m = g.lookup id m :=
      fun g => lookup_eq_of_scopes (hscopes g) id m
    rw [hsame, hsame, h.lookup id m hid hm]
  find id w hid hw := by
    rw [(g'.alike_withBudget k).findNamed, (g.alike_withBudget k).findNamed, h.find id w hid hw]

section Framed

variable {resolve resolve' : CType → Except Fault CType} (h : SameBut g g' n) (hg : InRange g)
include h

theorem findScopeFrom (hs : start < g.scopes.length) (hresolve : resolve' w = resolve w)
    (hw : ¬ IsPiece n w) (hspared : ∀ u, resolve w = .ok u → ¬ IsPiece n u) :
    g'.findScopeFrom resolve' start w = g.findScopeFrom resolve start w := by
  unfold ScopeGraph.findScopeFrom
  split
  · rw [hresolve]
    cases hu : resolve w with
    | error f => rfl
    | ok u =>
      show Except.ok _ = Except.ok _
      rw [h.find start u hs (hspared u hu)]
  · show Except.ok _ = Except.ok _
    rw [h.find start w hs hw]

theorem expandBase {b : Text} {expand expand' : { p : CType // p.length < b.length } →
      Except Fault (Option CType)}
    (hlookup : isSimple b = true → g'.lookupName resolve' (g.origin b).1 (g.origin b).2 =
      g.lookupName resolve (g.origin b).1 (g.origin b).2)
    (hexpand : ∀ p, IsPiece p.1 b → expand' p = expand p) :
    g'.expandBase resolve' b expand' = g.expandBase resolve b expand := by
  unfold ScopeGraph.expandBase
  split
  · rename_i hsimple
    have hname := hlookup hsimple
    split
    · rename_i name hcolons
      rw [origin_absolute hcolons] at hname
      exact expandName_congr hname fun p hp => hexpand _ (hp.trans (isPiece_of_after hcolons))
    · rename_i hcolons
      rw [origin_relative hcolons] at hname
      rw [h.current]
      exact expandName_congr hname hexpand
  · split
    · cases hps : argumentsWithin b with
      | error f => rfl
      | ok ps =>
        have hfirst := expandFirst_congr fun p hp => hexpand p (isPiece_of_argumentsWithin hps p hp)
        show (expandFirst expand' ps >>= _ : Except Fault Step) = expandFirst expand ps >>= _
        rw [hfirst]
    · split
      · cases hp : parameterWithin b with
        | error f => rfl
        | ok p =>
          show (expand' p >>= _ : Except Fault Step) = expand p >>= _
          rw [hexpand p (isPiece_of_parameterWithin hp)]
      · rfl

include hg

/-- The tables answer alike for a name where neither the name nor the answer mentions `n`. -/
theorem lookupName {name : Text} (hs : start < g.scopes.length) (hname : ¬ IsPiece n name)
    (hfind : ∀ scope last, QualifiedName.split name = (some scope, last) →
      g'.findScopeFrom resolve' start scope = g.findScopeFrom resolve start scope)
    (hfound : ∀ found y, g.lookupName resolve start name = .ok (some (some (found, y))) →
      ¬ IsPiece n found) :
    g'.lookupName resolve' start name = g.lookupName resolve start name := by
  have hne : ∀ {u}, IsPiece u name → u ≠ n := by
    rintro u hu rfl
    exact hname hu
  unfold ScopeGraph.lookupName at hfound ⊢
  rw [h.own start name hs (hne (.refl name))]
  cases hget : (g.scope start).typedefs.get? name with
  | some entry => rfl
  | none =>
    rcases hsplit : QualifiedName.split name with ⟨scope, last⟩
    cases scope with
    | none =>
      dsimp only
      rw [h.lookup start name hs (hne (.refl name))]
    | some scope =>
      rw [hget, hsplit] at hfound
      dsimp only at hfound ⊢
      rw [hfind scope last hsplit]
      cases hx : g.findScopeFrom resolve start scope with
      | error f => rfl
      | ok target =>
        cases target with
        | none => rfl
        | some target =>
          have htarget := hg.findScopeFrom_lt hx
          have hlast := h.lookup target last htarget (hne (QualifiedName.isPiece_of_split hsplit).2)
          show Except.ok (some ((g'.lookup target last).map _)) =
            Except.ok (some ((g.lookup target last).map _))
          rw [hlast]
          cases hl : g.lookup target last with
          | none => rfl
          | some hit =>
            have htype : hit.1.type ≠ n := by
              intro heq
              refine hfound (g.qualifyExpansion hit.2 hit.1.type) hit.2 ?_ ?_
              · rw [hx]
                show Except.ok (some ((g.lookup target last).map _)) = _
                rw [hl]
                rfl
              · rw [heq]
                exact isPiece_qualifyExpansion hit.2 n
            have hread := h.qualifyExpansion (hg.lookup_lt htarget hl) htype
            rw [Option.map_some, Option.map_some, hread]

end Framed

section Involved

variable (h : SameBut g g' n) (hg : InRange g)
include h

/-- A scope that is named without `n` is found as before. -/
theorem findScope (hs : start < g.scopes.length)
    (hr : g'.resolveWithin k m w = g.resolveWithin k m w) (hw : ¬ g.Involves w n) :
    (g'.withBudget k).findScopeFrom (g'.resolveWithin k m) start w =
      (g.withBudget k).findScopeFrom (g.resolveWithin k m) start w := by
  refine (h.withBudget k).findScopeFrom hs hr (fun hn => hw (involves_of_piece hn))
    fun u hu hn => hw ?_
  exact (involves_of_reached (reaches_of_resolveWithin hu)).piece hn

include hg

/-- Where `n` does not come up, one expansion gives the same. -/
theorem expandType (hr : ∀ u, ¬ g.Involves u n → g'.resolveWithin k m u = g.resolveWithin k m u)
    (ht : ¬ g.Involves t n) : (g'.withBudget k).expandType (g'.resolveWithin k m) t =
      (g.withBudget k).expandType (g.resolveWithin k m) t := by
  have hsame := h.withBudget k
  have hrange : InRange (g.withBudget k) := hg.of_scopes rfl rfl hg.current
  -- by the length of the type: its arguments and what stands in front of its base are shorter
  induction hl : t.length using Nat.strongRecOn generalizing t with
  | ind l ih =>
    subst hl
    have hpiece : ∀ {p}, IsPiece p t → ¬ g.Involves p n :=
      fun hp hn => ht ((involves_of_piece hp).trans hn)
    cases hs : split t with
    | error f => rw [expandType_of_split_error hs, expandType_of_split_error hs]
    | ok parts =>
      obtain ⟨front, b⟩ := parts
      obtain ⟨hfront, hb⟩ := isPiece_of_split hs
      obtain ⟨hlength, hshorter⟩ := split_lengths hs
      have hname : IsPiece (g.origin b).2 t := (isPiece_origin g b).trans hb
      have hbase : (g'.withBudget k).expandBase (g'.resolveWithin k m) b
          (fun p => (g'.withBudget k).expandType (g'.resolveWithin k m) p.1) =
          (g.withBudget k).expandBase (g.resolveWithin k m) b
            fun p => (g.withBudget k).expandType (g.resolveWithin k m) p.1 := by
        refine hsame.expandBase (fun hsimple => ?_) fun p hp =>
          ih _ (p.2.trans_le hlength) (hpiece (hp.trans hb)) rfl
        have hfar : ¬ IsPiece n (g.origin b).2 := fun hn => hpiece hname (involves_of_piece hn)
        refine hsame.lookupName hrange (hg.origin_lt b) hfar (fun scope last hcut => ?_)
          fun found y hfound hn => ?_
        · have hscope := hpiece ((QualifiedName.isPiece_of_split hcut).1.trans hname)
          exact h.findScope (hg.origin_lt b) (hr scope hscope) hscope
        · exact ht ((involves_of_lookupName hs hsimple hfound).piece hn)
      rw [expandType_of_split hs, expandType_of_split hs, hbase]
      by_cases hhas : (front.has "f(".toList || front.has "m(".toList) = true
      · have hne : front ≠ [] := by
          rintro rfl
          exact absurd hhas (by decide)
        rw [ih _ (hshorter hne) (hpiece hfront) rfl]
      · simp only [if_neg hhas]

theorem resolveWithin (ht : ¬ g.Involves t n) :
    g'.resolveWithin k m t = g.resolveWithin k m t := by
  induction m generalizing t with
  | zero => rfl
  | succ m ih =>
    show Resolver.chase ((g'.withBudget k).expandType (g'.resolveWithin k m)) (k + 1) [] t =
      Resolver.chase ((g.withBudget k).expandType (g.resolveWithin k m)) (k + 1) [] t
    refine chase_congr (P := fun t => ¬ g.Involves t n) (fun t ht => ?_) (fun t u ht hu hn => ?_)
      (k + 1) [] t ht
    · exact h.expandType hg (fun u hu => ih hu) ht
    · have hbecomes : g.Becomes t u := expansion_of_expandType hu (by simp)
      exact ht (.head (Or.inr hbecomes) hn)

theorem expansion_iff (ht : ¬ g.Involves t n) : g'.Expansion t r ↔ g.Expansion t r := by
  have hsteps : (fun k => (·.type) <$> (g'.withBudget k).expansionVia .never t) =
      fun k => (·.type) <$> (g.withBudget k).expansionVia .never t :=
    funext fun k => h.expandType hg (fun u hu => h.resolveWithin hg hu) ht
  rw [Expansion, hsteps, Expansion]

/-- A type that does not lead to `n` resolves as before. -/
theorem resolves_iff {r : Except Fault CType} (ht : ¬ g.Involves t n) :
    g'.Resolves t r ↔ g.Resolves t r := by
  have hsteps : (fun k => (g'.withBudget k).resolveVia .never t) =
      fun k => (g.withBudget k).resolveVia .never t :=
    funext fun k => h.resolveWithin hg ht
  rw [Resolves, hsteps, Resolves]

/-- And stands for what it stood for. -/
theorem reached_iff (ht : ¬ g.Involves t n) :
    ReflTransGen g'.Becomes t u ↔ ReflTransGen g.Becomes t u := by
  constructor
  · intro hu
    induction hu using ReflTransGen.head_induction_on with
    | refl => exact .refl
    | head hstep _ ih =>
      have hstep := (h.expansion_iff hg ht).mp hstep
      exact .head hstep (ih fun hn => ht (.head (Or.inr hstep) hn))
  · intro hu
    induction hu using ReflTransGen.head_induction_on with
    | refl => exact .refl
    | head hstep _ ih =>
      exact .head ((h.expansion_iff hg ht).mpr hstep) (ih fun hn => ht (.head (Or.inr hstep) hn))

end Involved

end SameBut

end ScopeGraph

end BindingTypes

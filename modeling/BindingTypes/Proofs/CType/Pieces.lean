import BindingTypes.Proofs.CType.Marks
import BindingTypes.Proofs.Declaration.Grammar

namespace BindingTypes.CType

open Declaration (pathText)

/-- An element of a type, with the names and types in it. -/
inductive Piece where
  /-- An element whose text stays: a pointer, a reference, a qualifier or a member pointer. -/
  | fixed (text : Text)
  | array (dimension : Text)
  | function (parameters : List (List Piece))
  /-- A name with its scopes. -/
  | name (path : List Text)
  /-- A name with template arguments, and what stands behind them. -/
  | template (stem : List Text) (arguments : List (List Piece)) (tail : Text)

/-- A type taken apart: its elements, base last. -/
abbrev Pieces := List Piece

mutual

def Piece.text : Piece → Text
  | .fixed e => e
  | .array d => written 'a' d
  | .function ps => written 'f' (Text.commaJoin (piecesTexts ps))
  | .name path => pathText path
  | .template stem args tail => pathText stem ++ angled (piecesTexts args) ++ tail

def piecesText : Pieces → CType
  | [] => []
  | p :: t => p.text ++ piecesText t

def piecesTexts : List Pieces → List CType
  | [] => []
  | t :: ts => piecesText t :: piecesTexts ts

end

theorem piecesTexts_eq (ts : List Pieces) : piecesTexts ts = ts.map piecesText := by
  induction ts with
  | nil => rfl
  | cons t ts ih => rw [piecesTexts, ih, List.map_cons]

theorem piecesText_eq (t : Pieces) : piecesText t = (t.map Piece.text).flatten := by
  induction t with
  | nil => rfl
  | cons p t ih => rw [piecesText, ih, List.map_cons, List.flatten_cons]

theorem piecesText_append (t u : Pieces) :
    piecesText (t ++ u) = piecesText t ++ piecesText u := by
  simp [piecesText_eq]

/-- Angle brackets read as round ones, and round ones as nothing. -/
def roundAngle (c : Char) : Char :=
  if c = '<' then '(' else if c = '>' then ')' else if c = '(' ∨ c = ')' then ' ' else c

/-- Every bracket in the text closes, and every comma stands in parentheses. -/
structure Closed (t : Text) : Prop where
  listable : Listable t
  angles : Balanced (t.map roundAngle)

/-- No bracket, dot or comma. -/
def Bare (t : Text) : Prop := ∀ c ∈ t, c ∉ ".()<>,".toList

/-- One component of a name. -/
def IsComponent (t : Text) : Prop := Bare t ∧ ':' ∉ t

instance (t : Text) : Decidable (Bare t) :=
  decidable_of_iff ((t.all fun c => c ∉ ".()<>,".toList) = true)
    (by simp only [List.all_eq_true, decide_eq_true_eq, Bare])

instance (t : Text) : Decidable (IsComponent t) := inferInstanceAs (Decidable (_ ∧ _))

variable {c d : Char} {k m : Nat} {t u e : Text} {path p q stem : List Text} {args : List Text}

namespace Bare

theorem nil : Bare [] := fun _ h => absurd h List.not_mem_nil

theorem append (ht : Bare t) (hu : Bare u) : Bare (t ++ u) :=
  fun c hc => (List.mem_append.mp hc).elim (ht c) (hu c)

theorem unbracketed (h : Bare t) : Unbracketed t := by
  intro c hc hm
  refine h c hc ?_
  have hall : (".()<>".toList.all fun d => d ∈ ".()<>,".toList) = true := by decide
  exact of_decide_eq_true (List.all_eq_true.mp hall c hm)

theorem notMem (h : Bare t) (hd : d ∈ ".()<>,".toList) : d ∉ t := fun hm => h d hm hd

end Bare

theorem map_roundAngle_bare (h : Bare t) : t.map roundAngle = t := by
  refine (List.map_congr_left fun c hc => ?_).trans (List.map_id t)
  have hother : c ≠ '<' ∧ c ≠ '>' ∧ c ≠ '(' ∧ c ≠ ')' := by
    refine ⟨?_, ?_, ?_, ?_⟩ <;> rintro rfl <;> exact h _ hc (by decide)
  obtain ⟨hless, hgreater, hopen, hclose⟩ := hother
  simp [roundAngle, hless, hgreater, hopen, hclose]

namespace Closed

theorem nil : Closed [] := ⟨.nil, rfl⟩

theorem append (ht : Closed t) (hu : Closed u) : Closed (t ++ u) := by
  refine ⟨ht.listable.append hu.listable, ?_⟩
  rw [List.map_append]
  exact ht.angles.append hu.angles

theorem of_bare (h : Bare t) : Closed t := by
  refine ⟨Listable.of_plain fun c hc => ⟨?_, ?_, ?_⟩, ?_⟩
  · rintro rfl
    exact h.notMem (by decide) hc
  · rintro rfl
    exact h.notMem (by decide) hc
  · rintro rfl
    exact h.notMem (by decide) hc
  · rw [map_roundAngle_bare h]
    exact balanced_of_notMem (h.notMem (by decide)) (h.notMem (by decide))

theorem separator : Closed "::".toList := of_bare (by decide)

theorem flatten {ts : List Text} (h : ∀ t ∈ ts, Closed t) : Closed ts.flatten :=
  Text.flatten_of_forall nil append h

/-- What is joined by commas closes, if not the commas. -/
theorem angles_commaJoin {ts : List Text} (h : ∀ t ∈ ts, Balanced (t.map roundAngle)) :
    Balanced ((Text.commaJoin ts).map roundAngle) :=
  Text.commaJoin_of_forall (P := fun t => Balanced (t.map roundAngle)) balanced_nil
    (fun hs ht => List.map_append ▸ hs.append ht) (by decide) h

theorem written {letter : Char} (hletter : letter ∈ "afqm".toList) (ht : Balanced t)
    (hangles : Balanced (t.map roundAngle)) : Closed (CType.written letter t) := by
  refine ⟨(Declaration.dotted_listable_written hletter ht).2, ?_⟩
  have hall : ("afqm".toList.all fun c => Balanced [roundAngle c]) = true := by decide
  have hone := of_decide_eq_true (List.all_eq_true.mp hall letter hletter)
  have hparts : (CType.written letter t).map roundAngle =
      [roundAngle letter] ++ ([' '] ++ t.map roundAngle ++ [' ', '.']) := by
    simp [CType.written, roundAngle]
  rw [hparts]
  exact hone.append (((by decide : Balanced [' ']).append hangles).append (by decide))

theorem angles_angled (h : Balanced ((Text.commaJoin args).map roundAngle)) :
    Balanced ((CType.angled args).map roundAngle) := by
  have hparts : (CType.angled args).map roundAngle =
      '(' :: (([' '] ++ (Text.commaJoin args).map roundAngle ++ [' ']) ++ [')']) := by
    simp [CType.angled, roundAngle]
  rw [hparts]
  exact Balanced.group (((by decide : Balanced [' ']).append h).append (by decide))

theorem angled (h : ∀ a ∈ args, Closed a) : Closed (CType.angled args) :=
  ⟨Declaration.listable_angled fun a ha => (h a ha).listable.balanced,
    angles_angled (angles_commaJoin fun a ha => (h a ha).angles)⟩

end Closed

theorem simpleFrom_cons {n : Nat} (h : parensStep k (roundAngle c) = some n) (t : Text) :
    simpleFrom k (c :: t) = (!decide (c = '.' ∧ k = 0) && simpleFrom n t) := by
  rw [simpleFrom]
  by_cases hless : c = '<'
  · subst hless
    cases h
    simp
  · by_cases hgreater : c = '>'
    · subst hgreater
      cases k with
      | zero => cases h
      | succ k =>
        cases h
        simp
    · have hother : roundAngle c ≠ '(' ∧ roundAngle c ≠ ')' := by
        unfold roundAngle
        rw [if_neg hless, if_neg hgreater]
        split
        · decide
        · exact not_or.mp ‹_›
      rw [parensStep_other hother.1 hother.2] at h
      cases h
      rw [if_neg hless, if_neg hgreater]
      by_cases hdot : c = '.' ∧ k = 0 <;> simp [hdot]

theorem simpleFrom_append (h : parensAfter k (t.map roundAngle) = some m) (u : Text) :
    simpleFrom k (t ++ u) = (simpleFrom k t && simpleFrom m u) := by
  induction t generalizing k with
  | nil =>
    cases h
    rfl
  | cons c t ih =>
    rw [List.map_cons, parensAfter_cons] at h
    obtain ⟨n, hn, h⟩ := Option.bind_eq_some_iff.mp h
    rw [List.cons_append, simpleFrom_cons hn, simpleFrom_cons hn, ih h, Bool.and_assoc]

/-- Inside angle brackets no dot counts. -/
theorem simpleFrom_inside (h : parensAfter k (t.map roundAngle) = some m) :
    simpleFrom (k + 1) t = true := by
  induction t generalizing k with
  | nil => rfl
  | cons c t ih =>
    rw [List.map_cons, parensAfter_cons] at h
    obtain ⟨n, hn, h⟩ := Option.bind_eq_some_iff.mp h
    rw [simpleFrom_cons (parensStep_add hn 1), ih h]
    simp

theorem Closed.isSimple_append (ht : Closed t) (u : Text) :
    isSimple (t ++ u) = (isSimple t && isSimple u) := simpleFrom_append ht.angles u

theorem isSimple_angled (h : Balanced ((Text.commaJoin args).map roundAngle)) :
    isSimple (angled args) = true := by
  have hinside : Balanced ((['('] ++ Text.commaJoin args ++ [')']).map roundAngle) := by
    rw [List.map_append, List.map_append]
    exact ((by decide : Balanced _).append h).append (by decide)
  have hafter : parensAfter 1 ((['('] ++ Text.commaJoin args ++ [')']).map roundAngle) = some 1 :=
    hinside.after 1
  have hparts : angled args = '<' :: ((['('] ++ Text.commaJoin args ++ [')']) ++ ['>']) := by
    simp [angled]
  rw [isSimple, hparts, simpleFrom, if_pos rfl, simpleFrom_append hafter,
    simpleFrom_inside hinside]
  rfl

theorem isSimple_written {letter : Char} (hletter : letter ∈ "afqm".toList)
    (hangles : Balanced (t.map roundAngle)) : isSimple (written letter t) = false := by
  have hall : ("afqm".toList.all fun c => Balanced [roundAngle c, roundAngle '(']) = true := by
    decide
  have hhead := of_decide_eq_true (List.all_eq_true.mp hall letter hletter)
  have hopened : Balanced (([letter, '('] ++ t ++ [')']).map roundAngle) := by
    rw [List.map_append, List.map_append]
    exact (hhead.append hangles).append (by decide)
  have hparts : written letter t = ([letter, '('] ++ t ++ [')']) ++ ['.'] := by
    simp [written]
  rw [isSimple, hparts, simpleFrom_append hopened]
  exact Bool.and_false _

theorem pathText_cons_cons (n m : Text) (path : List Text) :
    pathText (n :: m :: path) = n ++ "::".toList ++ pathText (m :: path) :=
  List.intercalate_cons_cons

theorem pathText_singleton (n : Text) : pathText [n] = n := by simp [pathText]

/-- The components of one path behind those of another. -/
theorem pathText_append (hp : p ≠ []) (hq : q ≠ []) :
    pathText (p ++ q) = pathText p ++ "::".toList ++ pathText q := by
  obtain ⟨n, ns, rfl⟩ := List.exists_cons_of_ne_nil hp
  obtain ⟨m, ms, rfl⟩ := List.exists_cons_of_ne_nil hq
  induction ns generalizing n with
  | nil => rw [List.singleton_append, pathText_cons_cons, pathText_singleton]
  | cons n' ns ih =>
    have hrest := ih n' (by simp)
    rw [List.cons_append] at hrest
    rw [List.cons_append, List.cons_append, pathText_cons_cons, hrest, pathText_cons_cons]
    simp

theorem bare_path (h : ∀ n ∈ path, IsComponent n) : Bare (pathText path) := by
  induction path with
  | nil => exact Bare.nil
  | cons n ns ih =>
    obtain ⟨hn, hns⟩ := List.forall_mem_cons.mp h
    cases ns with
    | nil =>
      rw [pathText_singleton]
      exact hn.1
    | cons m ns =>
      rw [pathText_cons_cons]
      exact (hn.1.append (by decide)).append (ih hns)

theorem infix_of_mem_path {n : Text} (h : n ∈ path) : n <:+: pathText path := by
  induction path with
  | nil => cases h
  | cons m ns ih =>
    cases ns with
    | nil =>
      rw [pathText_singleton]
      exact List.mem_singleton.mp h ▸ List.infix_rfl
    | cons m' ns =>
      rw [pathText_cons_cons]
      rcases List.mem_cons.mp h with rfl | h
      · exact ⟨[], "::".toList ++ pathText (m' :: ns), by simp⟩
      · exact (ih h).trans (List.suffix_append ..).isInfix

/-- The elements that end in a dot of their own. -/
def Piece.Ends : Piece → Prop
  | .fixed e => Dotted e
  | .array _ => True
  | .function _ => True
  | .name _ => False
  | .template .. => False

/-- Only the last element of a type may do without a dot, and none is empty. -/
structure Joined (t : Pieces) : Prop where
  ends : ∀ p ∈ t.dropLast, p.Ends
  nonempty : ∀ p ∈ t, p.text ≠ []

/-- The pieces that types are made of. -/
inductive Piece.Proper : Piece → Prop
  | fixed {e : Text} (closed : Closed e) (ends : Dotted e ∨ Depth.zero.past e = some .zero)
      (simple : isSimple e = false) (kind : e.startsWith "f(".toList = false ∧
        e.startsWith "a(".toList = false) : Proper (.fixed e)
  | array {d : Text} (balanced : Balanced d) (angles : Balanced (d.map roundAngle)) :
      Proper (.array d)
  | function {ps : List Pieces} (joined : ∀ t ∈ ps, t ≠ [] ∧ Joined t)
      (proper : ∀ t ∈ ps, ∀ p ∈ t, p.Proper) : Proper (.function ps)
  | name {path : List Text} (nonempty : path ≠ []) (components : ∀ n ∈ path, IsComponent n) :
      Proper (.name path)
  | template {stem : List Text} {args : List Pieces} {tail : Text} (nonempty : stem ≠ [])
      (components : ∀ n ∈ stem, IsComponent n) (joined : ∀ t ∈ args, t ≠ [] ∧ Joined t)
      (proper : ∀ t ∈ args, ∀ p ∈ t, p.Proper) (closed : Closed tail)
      (ends : Depth.zero.past tail = some .zero) (simple : isSimple tail = true) :
      Proper (.template stem args tail)

/-- A type as it is encoded, taken apart. -/
structure IsType (t : Pieces) : Prop where
  joined : Joined t
  proper : ∀ p ∈ t, p.Proper

/-- What the text of a piece is like. -/
structure Piece.Spelled (p : Piece) : Prop where
  closed : Closed p.text
  ended : p.Ends → Dotted p.text
  open_ : ¬ p.Ends → Depth.zero.past p.text = some .zero

theorem closed_piecesText {t : Pieces} (h : ∀ p ∈ t, p.Spelled) : Closed (piecesText t) := by
  rw [piecesText_eq]
  refine Closed.flatten fun e he => ?_
  obtain ⟨p, hp, rfl⟩ := List.mem_map.mp he
  exact (h p hp).closed

theorem closed_piecesTexts {ts : List Pieces} (h : ∀ t ∈ ts, ∀ p ∈ t, p.Spelled) :
    ∀ a ∈ piecesTexts ts, Closed a := by
  rw [piecesTexts_eq]
  intro a ha
  obtain ⟨t, ht, rfl⟩ := List.mem_map.mp ha
  exact closed_piecesText (h t ht)

theorem Piece.Proper.spelled {p : Piece} (h : p.Proper) : p.Spelled := by
  induction h with
  | fixed closed ends simple kind =>
    exact ⟨closed, id, fun h => ends.resolve_left h⟩
  | array balanced angles =>
    exact ⟨Closed.written (by decide) balanced angles,
      fun _ => dotted_written (by decide) balanced, fun h => absurd trivial h⟩
  | function joined proper ih =>
    have hclosed := closed_piecesTexts ih
    have hbalanced := balanced_commaJoin fun a ha => (hclosed a ha).listable.balanced
    exact ⟨Closed.written (by decide) hbalanced
        (Closed.angles_commaJoin fun a ha => (hclosed a ha).angles),
      fun _ => dotted_written (by decide) hbalanced, fun h => absurd trivial h⟩
  | name nonempty components =>
    have hbare := bare_path components
    exact ⟨Closed.of_bare hbare, False.elim, fun _ => past_plain hbare.unbracketed⟩
  | template nonempty components joined proper closed ends simple ih =>
    have hclosed := closed_piecesTexts ih
    have hbare := bare_path components
    refine ⟨((Closed.of_bare hbare).append (Closed.angled hclosed)).append closed, False.elim,
      fun _ => ?_⟩
    rw [Piece.text, past_append, past_append, past_plain hbare.unbracketed, Option.bind_some,
      Declaration.past_angled (balanced_commaJoin fun a ha => (hclosed a ha).listable.balanced),
      Option.bind_some, ends]

namespace IsType

variable {t : Pieces} {b : Piece}

theorem nil : IsType [] := ⟨⟨nofun, nofun⟩, nofun⟩

theorem closed (h : IsType t) : Closed (piecesText t) :=
  closed_piecesText fun p hp => (h.proper p hp).spelled

theorem singleton (hb : b.Proper) (hne : b.text ≠ []) : IsType [b] :=
  ⟨⟨nofun, List.forall_mem_singleton.mpr hne⟩, List.forall_mem_singleton.mpr hb⟩

/-- Elements that end in a dot in front of a type. -/
theorem append {u : Pieces} (ht : IsType t) (hends : ∀ p ∈ t, p.Ends) (hu : IsType u) :
    IsType (t ++ u) := by
  refine ⟨⟨fun p hp => ?_, fun p hp => ?_⟩, fun p hp => ?_⟩
  · by_cases hnil : u = []
    · subst hnil
      rw [List.append_nil] at hp
      exact ht.joined.ends p hp
    · rw [List.dropLast_append_of_ne_nil hnil] at hp
      exact (List.mem_append.mp hp).elim (hends p) (hu.joined.ends p)
  · exact (List.mem_append.mp hp).elim (ht.joined.nonempty p) (hu.joined.nonempty p)
  · exact (List.mem_append.mp hp).elim (ht.proper p) (hu.proper p)

/-- The elements before the last are a type of their own, and so is the last. -/
theorem of_append {u : Pieces} (h : IsType (t ++ u)) (hu : u ≠ []) :
    IsType t ∧ (∀ p ∈ t, p.Ends) ∧ IsType u := by
  have hdrop := h.joined.ends
  rw [List.dropLast_append_of_ne_nil hu] at hdrop
  have hends : ∀ p ∈ t, p.Ends := fun p hp => hdrop p (List.mem_append_left _ hp)
  refine ⟨⟨⟨fun p hp => hends p (List.dropLast_subset t hp),
      fun p hp => h.joined.nonempty p (List.mem_append_left _ hp)⟩,
      fun p hp => h.proper p (List.mem_append_left _ hp)⟩, hends,
    ⟨⟨fun p hp => hdrop p (List.mem_append_right _ hp),
      fun p hp => h.joined.nonempty p (List.mem_append_right _ hp)⟩,
      fun p hp => h.proper p (List.mem_append_right _ hp)⟩⟩

/-- A name without scopes. -/
theorem single {n : Text} (hn : IsComponent n) (hne : n ≠ []) : IsType [.name [n]] :=
  singleton (.name (by simp) (List.forall_mem_singleton.mpr hn))
    (by rwa [Piece.text, pathText_singleton])

/-- A pointer to a type. -/
theorem pointer (h : IsType t) : IsType (.fixed "p.".toList :: t) := by
  obtain ⟨hdotted, hlistable⟩ := Declaration.dotted_listable_pointer
  have hproper : (Piece.fixed "p.".toList).Proper :=
    .fixed ⟨hlistable, by decide⟩ (Or.inl hdotted) (by decide) (by decide)
  exact (singleton hproper (by decide)).append (List.forall_mem_singleton.mpr hdotted) h

/-- A name with types as its template arguments. -/
theorem template {args : List Pieces} (hstem : stem ≠ []) (hcomponents : ∀ n ∈ stem, IsComponent n)
    (hargs : ∀ a ∈ args, a ≠ [] ∧ IsType a) : IsType [.template stem args []] :=
  singleton (.template hstem hcomponents (fun a ha => ⟨(hargs a ha).1, (hargs a ha).2.joined⟩)
    (fun a ha => (hargs a ha).2.proper) .nil rfl rfl) (by simp [Piece.text, CType.angled])

theorem text_ne_nil (h : IsType t) (ht : t ≠ []) : piecesText t ≠ [] := by
  obtain ⟨p, t, rfl⟩ := List.exists_cons_of_ne_nil ht
  rw [piecesText]
  exact List.append_ne_nil_of_left_ne_nil (h.joined.nonempty p List.mem_cons_self) _

/-- The pieces are the elements. -/
theorem elements (h : IsType t) : CType.elements (piecesText t) = .ok (t.map Piece.text) := by
  rcases List.eq_nil_or_concat t with rfl | ⟨front, b, rfl⟩
  · exact elements_nil
  · rw [List.concat_eq_append] at h ⊢
    obtain ⟨hfront, hends, hb⟩ := h.of_append (by simp)
    have hdotted : ∀ f ∈ front.map Piece.text, Dotted f := by
      intro f hf
      obtain ⟨p, hp, rfl⟩ := List.mem_map.mp hf
      exact (hfront.proper p hp).spelled.ended (hends p hp)
    have hbase : CType.elements b.text = .ok [b.text] := by
      have hspelled := (hb.proper b (by simp)).spelled
      by_cases hend : b.Ends
      · exact (hspelled.ended hend).single
      · exact elements_of_past (hspelled.open_ hend) (hb.joined.nonempty b (by simp))
    rw [piecesText_append, piecesText_eq front, elements_flatten hdotted]
    show (CType.elements (b.text ++ [])).map _ = _
    rw [List.append_nil, hbase, List.map_append]
    rfl

end IsType

end BindingTypes.CType

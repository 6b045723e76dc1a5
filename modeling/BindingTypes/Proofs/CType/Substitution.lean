import BindingTypes.Proofs.CType.Pieces
import BindingTypes.Proofs.CType.Words

namespace BindingTypes.CType

open Declaration (pathText)

/-- What names become, all at once. -/
abbrev Substitution := Text → Option Pieces

/-- One name becomes a type. -/
def only (n : Text) (r : Pieces) : Substitution := fun m => if m = n then some r else none

/-- What a word of an array dimension becomes. -/
def Substitution.word (σ : Substitution) (w : Text) : Text := ((σ w).map piecesText).getD w

/-- The names before template arguments: those of a base. -/
def Piece.stem? : Piece → Option (List Text)
  | .name path => some path
  | .template stem _ _ => some stem
  | _ => none

/-- The piece written `b::c`. What is no name keeps its text from then on. -/
def glue : Piece → Piece → Piece
  | .name p, .name q => .name (p ++ q)
  | .name p, .template stem args tail => .template (p ++ stem) args tail
  | .template stem args tail, .name q => .template stem args (tail ++ "::".toList ++ pathText q)
  | .template stem args tail, .template stem' args' tail' =>
    .template stem args (tail ++ "::".toList ++ (Piece.template stem' args' tail').text)
  | b, c => .fixed (b.text ++ "::".toList ++ c.text)

/-- The pieces of `t::u`. -/
def underScope : Pieces → Pieces → Pieces
  | [b], c :: u => glue b c :: u
  | p :: t, u => p :: underScope t u
  | [], u => u

section Definitions

variable (σ : Substitution)

def component (n : Text) : Pieces := (σ n).getD [.name [n]]

/-- Every component of a name is a name of its own. -/
def substPath : List Text → Pieces
  | [] => []
  | [n] => component σ n
  | n :: m :: path => underScope (component σ n) (substPath (m :: path))

/-- The outermost name before template arguments becomes the name of a type, without the template
arguments of that type. -/
def substStem (args : List Pieces) (tail : Text) : List Text → Pieces
  | [] => [.template [] args tail]
  | n :: path =>
    match σ n with
    | none => [.template (n :: path) args tail]
    | some r =>
      r.dropLast ++ [.template ((r.getLast?.bind Piece.stem?).getD [n] ++ path) args tail]

mutual

def Piece.subst : Piece → Pieces
  | .fixed e => [.fixed e]
  | .array d => [.array (d.mapWords σ.word)]
  | .function ps => [.function (substEach ps)]
  | .name path => substPath σ path
  | .template stem args tail => substStem σ (substEach args) tail stem

/-- The names in a type become other types. -/
def substPieces : Pieces → Pieces
  | [] => []
  | p :: t => p.subst ++ substPieces t

def substEach : List Pieces → List Pieces
  | [] => []
  | t :: ts => substPieces t :: substEach ts

end

theorem substEach_eq (ts : List Pieces) : substEach σ ts = ts.map (substPieces σ) := by
  induction ts with
  | nil => rfl
  | cons t ts ih => rw [substEach, ih, List.map_cons]

theorem substPieces_append (t u : Pieces) :
    substPieces σ (t ++ u) = substPieces σ t ++ substPieces σ u := by
  induction t with
  | nil => rfl
  | cons p t ih => rw [List.cons_append, substPieces, substPieces, ih, List.append_assoc]

end Definitions

/-- The last element of a type is a name, perhaps with template arguments. -/
def Based (r : Pieces) : Prop := ∃ t b, r = t ++ [b] ∧ b.stem?.isSome

/-- Names become types with a base. -/
def Substitution.Proper (σ : Substitution) : Prop := ∀ n r, σ n = some r → IsType r ∧ Based r

/-- All of a type, but that a single piece may be empty. -/
structure Stacked (t : Pieces) : Prop where
  ends : ∀ p ∈ t.dropLast, p.Ends
  proper : ∀ p ∈ t, p.Proper
  nonempty : ∀ p ∈ t, p.text ≠ [] ∨ t = [p]

variable {σ : Substitution} {b c p : Piece} {n : Text} {r t u : Pieces} {path : List Text}

theorem Based.ne_nil (h : Based r) : r ≠ [] := by
  obtain ⟨t, b, rfl, -⟩ := h
  simp

theorem IsType.stacked (h : IsType t) : Stacked t :=
  ⟨h.joined.ends, h.proper, fun p hp => Or.inl (h.joined.nonempty p hp)⟩

theorem Stacked.isType (h : Stacked t) (hne : piecesText t ≠ []) : IsType t := by
  refine ⟨⟨h.ends, fun p hp => ?_⟩, h.proper⟩
  rcases h.nonempty p hp with htext | rfl
  · exact htext
  · simpa [piecesText] using hne

namespace Piece.Proper

theorem stem (h : p.Proper) (hs : p.stem? = some path) :
    path ≠ [] ∧ ∀ n ∈ path, IsComponent n := by
  cases h with
  | name nonempty components =>
    cases hs
    exact ⟨nonempty, components⟩
  | template nonempty components =>
    cases hs
    exact ⟨nonempty, components⟩
  | fixed => cases hs
  | array => cases hs
  | function => cases hs

/-- The pieces without a dot outside angle brackets are the bases. -/
theorem isSimple_text (h : p.Proper) : isSimple p.text = p.stem?.isSome := by
  have hspelled := h.spelled
  cases h with
  | fixed closed ends simple kind => exact simple
  | array balanced angles => exact isSimple_written (by decide) angles
  | function joined proper =>
    have hclosed := closed_piecesTexts fun t ht p hp => (proper t ht p hp).spelled
    exact isSimple_written (by decide)
      (Closed.angles_commaJoin fun a ha => (hclosed a ha).angles)
  | name nonempty components => exact isSimple_unbracketed (bare_path components).unbracketed
  | template nonempty components joined proper closed ends simple =>
    have hclosed := closed_piecesTexts fun t ht p hp => (proper t ht p hp).spelled
    have hbare := bare_path components
    rw [Piece.text, List.append_assoc, (Closed.of_bare hbare).isSimple_append,
      (Closed.angled hclosed).isSimple_append, isSimple_unbracketed hbare.unbracketed,
      isSimple_angled (Closed.angles_commaJoin fun a ha => (hclosed a ha).angles), simple]
    rfl

end Piece.Proper

theorem not_ends_of_stem (h : p.stem?.isSome) : ¬ p.Ends := by
  cases p with
  | name path => exact id
  | template stem args tail => exact id
  | fixed e => cases h
  | array d => cases h
  | function ps => cases h

/-- A text that begins with a bare one is no array and no function. -/
theorem startsWith_bare {w : Text} {d l : Char} (hw : Bare w) (hd : d ≠ l ∧ d ≠ '(') (u : Text) :
    (w ++ d :: u).startsWith [l, '('] = false := by
  rw [Bool.eq_false_iff]
  intro h
  obtain ⟨v, hv⟩ := Text.startsWith_iff.mp h
  cases w with
  | nil => exact hd.1 (List.cons.inj hv).1
  | cons x w =>
    obtain ⟨-, hv⟩ := List.cons.inj hv
    cases w with
    | nil => exact hd.2 (List.cons.inj hv).1
    | cons y w =>
      have hy : y = '(' := (List.cons.inj hv).1
      subst hy
      exact hw.notMem (by decide : '(' ∈ _) (by simp)

theorem Dotted.append_left {w e : Text} (hw : Depth.zero.past w = some .zero) (he : Dotted e) :
    Dotted (w ++ e) := by
  obtain ⟨x, rfl, hx⟩ := he
  refine ⟨w ++ x, by rw [List.append_assoc], ?_⟩
  rw [past_append, hw]
  exact hx

theorem past_scope (hb : b.Proper) (hbase : b.stem?.isSome) :
    Depth.zero.past (b.text ++ "::".toList) = some .zero := by
  rw [past_append, hb.spelled.open_ (not_ends_of_stem hbase)]
  rfl

section Glue

variable (hb : b.Proper) (hc : c.Proper)
include hb hc

theorem text_glue : (glue b c).text = b.text ++ "::".toList ++ c.text := by
  cases hb with
  | name hp =>
    cases hc with
    | name hq => exact pathText_append hp hq
    | template hq => simp [glue, Piece.text, pathText_append hp hq]
    | fixed => rfl
    | array => rfl
    | function => rfl
  | template hp =>
    cases hc with
    | name hq => simp [glue, Piece.text]
    | template hq => simp [glue, Piece.text]
    | fixed => rfl
    | array => rfl
    | function => rfl
  | fixed => cases hc <;> rfl
  | array => cases hc <;> rfl
  | function => cases hc <;> rfl

/-- A scope in front of what is no name. -/
theorem proper_fixed (hbase : b.stem?.isSome) (hother : c.stem?.isSome = false) :
    (Piece.fixed (b.text ++ "::".toList ++ c.text)).Proper := by
  have hpast := past_scope hb hbase
  refine .fixed ((hb.spelled.closed.append Closed.separator).append hc.spelled.closed) ?_ ?_ ?_
  · by_cases hends : c.Ends
    · exact Or.inl (Dotted.append_left hpast (hc.spelled.ended hends))
    · refine Or.inr ?_
      rw [past_append, hpast]
      exact hc.spelled.open_ hends
  · rw [(hb.spelled.closed.append Closed.separator).isSimple_append, hc.isSimple_text, hother]
    exact Bool.and_false _
  · cases hb with
    | name hp hcomponents =>
      have hbare := bare_path hcomponents
      rw [Piece.text, List.append_assoc]
      exact ⟨startsWith_bare hbare (by decide) _, startsWith_bare hbare (by decide) _⟩
    | template hp hcomponents =>
      have hbare := bare_path hcomponents
      rw [Piece.text, List.append_assoc, List.append_assoc, List.append_assoc]
      exact ⟨startsWith_bare hbare (by decide) _, startsWith_bare hbare (by decide) _⟩
    | fixed => cases hbase
    | array => cases hbase
    | function => cases hbase

theorem proper_glue (hbase : b.stem?.isSome) : (glue b c).Proper := by
  have hfixed := proper_fixed hb hc hbase
  have hspelled := hc.spelled
  have hsimple := hc.isSimple_text
  cases hb with
  | name hp hcomponents =>
    cases hc with
    | name hq hcomponents' =>
      exact .name (by simp [hp]) fun n hn =>
        (List.mem_append.mp hn).elim (hcomponents n) (hcomponents' n)
    | template hq hcomponents' joined proper closed ends simple =>
      exact .template (by simp [hp]) (fun n hn =>
        (List.mem_append.mp hn).elim (hcomponents n) (hcomponents' n)) joined proper closed ends
        simple
    | fixed => exact hfixed rfl
    | array => exact hfixed rfl
    | function => exact hfixed rfl
  | @template stem args tail hp hcomponents joined proper closed ends simple =>
    have htail : ∀ w, Closed w → Depth.zero.past w = some .zero → isSimple w = true →
        (Piece.template stem args (tail ++ "::".toList ++ w)).Proper := by
      intro w hw hpast hsimple
      refine .template hp hcomponents joined proper ((closed.append Closed.separator).append hw)
        ?_ ?_
      · rw [past_append, past_append, ends]
        exact hpast
      · rw [(closed.append Closed.separator).isSimple_append, closed.isSimple_append, simple,
          hsimple]
        rfl
    cases hc with
    | name hq hcomponents' => exact htail _ hspelled.closed (hspelled.open_ id) hsimple
    | template hq hcomponents' => exact htail _ hspelled.closed (hspelled.open_ id) hsimple
    | fixed => exact hfixed rfl
    | array => exact hfixed rfl
    | function => exact hfixed rfl
  | fixed => cases hbase
  | array => cases hbase
  | function => cases hbase

theorem ends_glue (hbase : b.stem?.isSome) (hends : c.Ends) :
    (glue b c).Ends := by
  have hdotted := Dotted.append_left (past_scope hb hbase) (hc.spelled.ended hends)
  cases b with
  | name path =>
    cases c with
    | fixed e => exact hdotted
    | array d => exact hdotted
    | function ps => exact hdotted
    | name path' => cases hends
    | template stem args tail => cases hends
  | template stem args tail =>
    cases c with
    | fixed e => exact hdotted
    | array d => exact hdotted
    | function ps => exact hdotted
    | name path' => cases hends
    | template stem args tail => cases hends
  | fixed e => cases hbase
  | array d => cases hbase
  | function ps => cases hbase

end Glue

theorem underScope_cons (ht : t ≠ []) (p : Piece) (u : Pieces) :
    underScope (p :: t) u = p :: underScope t u := by
  obtain ⟨q, t, rfl⟩ := List.exists_cons_of_ne_nil ht
  rfl

theorem piecesText_underScope (ht : ∀ p ∈ t, p.Proper) (hu : ∀ p ∈ u, p.Proper) (htne : t ≠ [])
    (hune : u ≠ []) : piecesText (underScope t u) = piecesText t ++ "::".toList ++ piecesText u := by
  obtain ⟨c, u, rfl⟩ := List.exists_cons_of_ne_nil hune
  induction t with
  | nil => exact absurd rfl htne
  | cons b t ih =>
    obtain ⟨hb, ht⟩ := List.forall_mem_cons.mp ht
    by_cases hnil : t = []
    · subst hnil
      show (glue b c).text ++ piecesText u = _
      rw [text_glue hb (hu c List.mem_cons_self)]
      simp [piecesText]
    · rw [underScope_cons hnil, piecesText, ih ht hnil, piecesText]
      simp [piecesText]

theorem isType_underScope (ht : Stacked t) (hbased : Based t) (hu : Stacked u) (hune : u ≠ []) :
    IsType (underScope t u) := by
  obtain ⟨c, u, rfl⟩ := List.exists_cons_of_ne_nil hune
  have hc := hu.proper c List.mem_cons_self
  obtain ⟨front, b, rfl, hbase⟩ := hbased
  have hb := ht.proper b (by simp)
  have hglued : (glue b c).text ≠ [] := by
    rw [text_glue hb hc]
    simp
  have hlast : IsType (glue b c :: u) := by
    by_cases hnil : u = []
    · subst hnil
      exact .singleton (proper_glue hb hc hbase) hglued
    · refine ⟨⟨fun p hp => ?_, ?_⟩, ?_⟩
      · rw [List.dropLast_cons_of_ne_nil hnil] at hp
        have hends := hu.ends
        rw [List.dropLast_cons_of_ne_nil hnil] at hends
        obtain ⟨hcends, huends⟩ := List.forall_mem_cons.mp hends
        rcases List.mem_cons.mp hp with rfl | hp
        · exact ends_glue hb hc hbase hcends
        · exact huends p hp
      · refine List.forall_mem_cons.mpr ⟨hglued, fun p hp => ?_⟩
        refine (hu.nonempty p (List.mem_cons_of_mem _ hp)).resolve_right fun h => ?_
        exact hnil (List.cons.inj h).2
      · exact List.forall_mem_cons.mpr ⟨proper_glue hb hc hbase,
          fun p hp => hu.proper p (List.mem_cons_of_mem _ hp)⟩
  have hends : ∀ p ∈ front, p.Ends := fun p hp => ht.ends p (by simpa using hp)
  have hfront : IsType front := by
    refine ⟨⟨fun p hp => hends p (List.dropLast_subset front hp), fun p hp => ?_⟩,
      fun p hp => ht.proper p (List.mem_append_left _ hp)⟩
    refine (ht.nonempty p (List.mem_append_left _ hp)).resolve_right fun h => ?_
    have hlength := congrArg List.length h
    have hpos := List.length_pos_of_mem hp
    simp only [List.length_append, List.length_singleton] at hlength
    omega
  have hscoped : underScope (front ++ [b]) (c :: u) = front ++ glue b c :: u := by
    clear ht hends hfront hb hglued hlast
    induction front with
    | nil => rfl
    | cons p front ih => rw [List.cons_append, underScope_cons (by simp), ih, List.cons_append]
  rw [hscoped]
  exact hfront.append hends hlast

section Proper

variable (hσ : σ.Proper)
include hσ

theorem stacked_component (hn : IsComponent n) :
    Stacked (component σ n) ∧ Based (component σ n) := by
  unfold component
  cases hr : σ n with
  | none =>
    have hproper : (Piece.name [n]).Proper :=
      .name (by simp) (List.forall_mem_singleton.mpr hn)
    exact ⟨⟨nofun, List.forall_mem_singleton.mpr hproper,
      List.forall_mem_singleton.mpr (Or.inr rfl)⟩, [], .name [n], rfl, rfl⟩
  | some r => exact ⟨(hσ n r hr).1.stacked, (hσ n r hr).2⟩

theorem stacked_substPath (hpath : path ≠ []) (hcomponents : ∀ n ∈ path, IsComponent n) :
    Stacked (substPath σ path) ∧ substPath σ path ≠ [] ∧
      (pathText path ≠ [] → IsType (substPath σ path)) := by
  induction path with
  | nil => exact absurd rfl hpath
  | cons n path ih =>
    obtain ⟨hn, hrest⟩ := List.forall_mem_cons.mp hcomponents
    have hcomponent := stacked_component hσ hn
    cases path with
    | nil =>
      refine ⟨hcomponent.1, hcomponent.2.ne_nil, fun hne => ?_⟩
      rw [pathText_singleton] at hne
      show IsType (component σ n)
      unfold component
      cases hr : σ n with
      | none =>
        exact .singleton (.name (by simp) (List.forall_mem_singleton.mpr hn))
          (by rwa [Piece.text, pathText_singleton])
      | some r => exact (hσ n r hr).1
    | cons m path =>
      obtain ⟨hstacked, hne, -⟩ := ih (by simp) hrest
      have htype : IsType (substPath σ (n :: m :: path)) :=
        isType_underScope hcomponent.1 hcomponent.2 hstacked hne
      refine ⟨htype.stacked, ?_, fun _ => htype⟩
      intro hnil
      have htext := piecesText_underScope hcomponent.1.proper hstacked.proper hcomponent.2.ne_nil hne
      rw [show underScope (component σ n) (substPath σ (m :: path)) = [] from hnil] at htext
      have hlength := congrArg List.length htext
      simp [piecesText] at hlength

omit hσ in
/-- A name before template arguments takes the name of the type it becomes, behind the constructors
of that type. -/
theorem substStem_based {front : Pieces} {s : List Text} {args : List Pieces} {tail : Text}
    (hs : b.stem? = some s) (hn : σ n = some (front ++ [b])) :
    substStem σ args tail (n :: path) = front ++ [.template (s ++ path) args tail] := by
  have hstem : (((front ++ [b]).getLast?.bind Piece.stem?).getD [n]) = s := by
    rw [List.getLast?_concat, Option.bind_some, hs, Option.getD_some]
  rw [substStem, hn]
  dsimp only
  rw [hstem, List.dropLast_concat]

theorem isType_substStem {stem : List Text} {args : List Pieces} {tail : Text}
    (hproper : (Piece.template stem args tail).Proper) (hne : stem ≠ []) :
    IsType (substStem σ args tail stem) ∧ substStem σ args tail stem ≠ [] := by
  have htext : ∀ s, (Piece.template s args tail).text ≠ [] := by
    intro s
    simp [Piece.text, angled]
  cases hproper with
  | template nonempty components joined proper closed ends simple =>
    obtain ⟨n, path, rfl⟩ := List.exists_cons_of_ne_nil hne
    cases hr : σ n with
    | none =>
      rw [substStem, hr]
      exact ⟨.singleton (.template nonempty components joined proper closed ends simple) (htext _),
        by simp⟩
    | some r =>
      obtain ⟨htype, front, b, rfl, hbase⟩ := hσ n r hr
      obtain ⟨s, hs⟩ := Option.isSome_iff_exists.mp hbase
      obtain ⟨hfront, hfrontends, hlast⟩ := htype.of_append (by simp)
      obtain ⟨hsne, hscomponents⟩ := (hlast.proper b (by simp)).stem hs
      rw [substStem_based hs hr]
      refine ⟨hfront.append hfrontends (.singleton (.template (by simp [hsne]) ?_ joined proper
        closed ends simple) (htext _)), by simp⟩
      intro m hm
      rcases List.mem_append.mp hm with hm | hm
      · exact hscomponents m hm
      · exact components m (List.mem_cons_of_mem _ hm)

/-- What a piece becomes is a type, and ends in dots where the piece does. -/
structure BecomesType (σ : Substitution) (p : Piece) : Prop where
  isType : p.text ≠ [] → IsType (p.subst σ)
  ne_nil : p.subst σ ≠ []
  ends : p.Ends → ∀ q ∈ p.subst σ, q.Ends

omit hσ in
theorem isType_substPieces_of_forall (h : ∀ p ∈ t, BecomesType σ p) (ht : Joined t) :
    IsType (substPieces σ t) ∧ (t ≠ [] → substPieces σ t ≠ []) := by
  induction t with
  | nil => exact ⟨.nil, fun h => absurd rfl h⟩
  | cons p t ih =>
    obtain ⟨hp, hrest⟩ := List.forall_mem_cons.mp h
    obtain ⟨hpne, htne⟩ := List.forall_mem_cons.mp ht.nonempty
    refine ⟨?_, fun _ => List.append_ne_nil_of_left_ne_nil hp.ne_nil _⟩
    by_cases hnil : t = []
    · subst hnil
      rw [substPieces, substPieces, List.append_nil]
      exact hp.isType hpne
    · have hends := ht.ends
      rw [List.dropLast_cons_of_ne_nil hnil] at hends
      obtain ⟨hpends, htends⟩ := List.forall_mem_cons.mp hends
      exact (hp.isType hpne).append (hp.ends hpends) (ih hrest ⟨htends, htne⟩).1

omit hσ in
theorem joined_substEach {ts : List Pieces} (h : ∀ t ∈ ts, ∀ p ∈ t, BecomesType σ p)
    (ht : ∀ t ∈ ts, t ≠ [] ∧ Joined t) :
    (∀ t ∈ substEach σ ts, t ≠ [] ∧ Joined t) ∧ ∀ t ∈ substEach σ ts, ∀ p ∈ t, p.Proper := by
  have hboth : ∀ t ∈ substEach σ ts, t ≠ [] ∧ IsType t := by
    rw [substEach_eq]
    intro u hu
    obtain ⟨t, hmem, rfl⟩ := List.mem_map.mp hu
    obtain ⟨htype, hne⟩ := isType_substPieces_of_forall (h t hmem) (ht t hmem).2
    exact ⟨hne (ht t hmem).1, htype⟩
  exact ⟨fun t hmem => ⟨(hboth t hmem).1, (hboth t hmem).2.joined⟩,
    fun t hmem => (hboth t hmem).2.proper⟩

theorem balanced_word {read : Char → Char}
    (hread : ∀ c, isIdentChar c = true → read c ≠ '(' ∧ read c ≠ ')')
    (hclosed : ∀ w, Closed w → Balanced (w.map read)) (w : Text)
    (hw : ∀ c ∈ w, isIdentChar c = true) : Balanced ((σ.word w).map read) := by
  unfold Substitution.word
  cases hr : σ w with
  | none =>
    refine balanced_of_notMem (fun hm => ?_) fun hm => ?_
    · obtain ⟨c, hc, he⟩ := List.mem_map.mp hm
      exact (hread c (hw c hc)).1 he
    · obtain ⟨c, hc, he⟩ := List.mem_map.mp hm
      exact (hread c (hw c hc)).2 he
  | some r => exact hclosed _ (hσ w r hr).1.closed

theorem becomesType (hp : p.Proper) : BecomesType σ p := by
  induction hp with
  | fixed closed ends simple kind =>
    exact ⟨fun hne => .singleton (.fixed closed ends simple kind) hne, by simp [Piece.subst],
      fun hends => List.forall_mem_singleton.mpr hends⟩
  | @array d balanced angles =>
    have hparens : ∀ c, isIdentChar c = true → c ≠ '(' ∧ c ≠ ')' := by
      intro c hc
      constructor <;> rintro rfl <;> cases hc
    have hround : ∀ c, isIdentChar c = true → roundAngle c ≠ '(' ∧ roundAngle c ≠ ')' := by
      intro c hc
      have hother : c ≠ '<' ∧ c ≠ '>' := by
        constructor <;> rintro rfl <;> cases hc
      simp [roundAngle, hother.1, hother.2, hparens c hc]
    have hbalanced : Balanced (d.mapWords σ.word) := by
      have hsame := parensAfter_mapWords id hparens (fun w _ hw =>
        balanced_word hσ hparens (fun w hw => by simpa using hw.listable.balanced) w hw) 0 d
      rw [List.map_id, List.map_id] at hsame
      exact hsame.trans balanced
    have hangles : Balanced ((d.mapWords σ.word).map roundAngle) :=
      (parensAfter_mapWords roundAngle hround (fun w _ hw =>
        balanced_word hσ hround (fun w hw => hw.angles) w hw) 0 d).trans angles
    exact ⟨fun _ => .singleton (.array hbalanced hangles) (by simp [Piece.text, written]),
      by simp [Piece.subst], fun _ => List.forall_mem_singleton.mpr trivial⟩
  | function joined proper ih =>
    obtain ⟨hjoined, hproper⟩ := joined_substEach ih joined
    exact ⟨fun _ => .singleton (.function hjoined hproper) (by simp [Piece.text, written]),
      by simp [Piece.subst], fun _ => List.forall_mem_singleton.mpr trivial⟩
  | name nonempty components =>
    obtain ⟨-, hne, htype⟩ := stacked_substPath hσ nonempty components
    exact ⟨htype, hne, False.elim⟩
  | template nonempty components joined proper closed ends simple ih =>
    obtain ⟨hjoined, hproper⟩ := joined_substEach ih joined
    obtain ⟨htype, hne⟩ := isType_substStem hσ
      (.template nonempty components hjoined hproper closed ends simple) nonempty
    exact ⟨fun _ => htype, hne, False.elim⟩

/-- Types become types. -/
theorem isType_substPieces (ht : IsType t) :
    IsType (substPieces σ t) ∧ (t ≠ [] → substPieces σ t ≠ []) :=
  isType_substPieces_of_forall (fun p hp => becomesType hσ (ht.proper p hp)) ht.joined

end Proper

end BindingTypes.CType

import BindingTypes.Proofs.CType.RenamedElement

namespace BindingTypes

namespace CType

open Declaration (pathText)

variable {σ : Substitution} {pat n : Text} {r t u : Pieces} {p : Piece} {path : List Text}

/-- What a substitution leaves as it is. A name before template arguments may become one that
stands before template arguments itself. -/
inductive Piece.Kept (σ : Substitution) : Piece → Prop
  | fixed {e : Text} : Kept σ (.fixed e)
  | array {d : Text} (words : ∀ w ∈ d.words, σ w = none) : Kept σ (.array d)
  | function {ps : List Pieces} (kept : ∀ t ∈ ps, ∀ p ∈ t, p.Kept σ) : Kept σ (.function ps)
  | name {path : List Text} (components : ∀ n ∈ path, σ n = none) : Kept σ (.name path)
  | template {stem : List Text} {args : List Pieces} {tail : Text}
      (head : ∀ n ∈ stem.head?, ∀ r, σ n = some r → ∃ args tail, r = [.template [n] args tail])
      (kept : ∀ t ∈ args, ∀ p ∈ t, p.Kept σ) : Kept σ (.template stem args tail)

theorem substPath_of_none (hne : path ≠ []) (h : ∀ n ∈ path, σ n = none) :
    substPath σ path = [.name path] := by
  induction path with
  | nil => exact absurd rfl hne
  | cons n path ih =>
    obtain ⟨hn, hrest⟩ := List.forall_mem_cons.mp h
    have hcomponent : component σ n = [.name [n]] := by rw [component, hn, Option.getD_none]
    cases path with
    | nil => exact hcomponent
    | cons m path =>
      rw [substPath, hcomponent, ih (by simp) hrest]
      rfl

theorem substStem_of_head {stem : List Text} {args : List Pieces} {tail : Text}
    (h : ∀ n ∈ stem.head?, ∀ r, σ n = some r → ∃ args tail, r = [.template [n] args tail]) :
    substStem σ args tail stem = [.template stem args tail] := by
  cases stem with
  | nil => rfl
  | cons n path =>
    unfold substStem
    dsimp only
    cases hr : σ n with
    | none => rfl
    | some r =>
      obtain ⟨args', tail', rfl⟩ := h n rfl r hr
      rfl

theorem substPieces_of_forall (h : ∀ p ∈ t, p.subst σ = [p]) : substPieces σ t = t := by
  induction t with
  | nil => rfl
  | cons p t ih =>
    obtain ⟨hp, ht⟩ := List.forall_mem_cons.mp h
    rw [substPieces, hp, ih ht]
    rfl

theorem substEach_of_forall {ts : List Pieces} (h : ∀ t ∈ ts, ∀ p ∈ t, p.subst σ = [p]) :
    substEach σ ts = ts := by
  rw [substEach_eq]
  exact (List.map_congr_left fun t ht => substPieces_of_forall (h t ht)).trans (List.map_id ts)

theorem Piece.Kept.subst (h : p.Kept σ) (hp : p.Proper) : p.subst σ = [p] := by
  induction h with
  | fixed => rfl
  | array words =>
    have hwords : Text.mapWords σ.word _ = _ := Text.mapWords_eq_self fun w hw _ => by
      rw [Substitution.word, words w hw]
      rfl
    rw [Piece.subst, hwords]
  | function kept ih =>
    cases hp with
    | function joined proper =>
      rw [Piece.subst, substEach_of_forall fun t ht p hp => ih t ht p hp (proper t ht p hp)]
  | name components =>
    cases hp with
    | name nonempty => exact substPath_of_none nonempty components
  | template head kept ih =>
    cases hp with
    | template nonempty _ joined proper =>
      rw [Piece.subst, substEach_of_forall fun t ht p hp => ih t ht p hp (proper t ht p hp)]
      exact substStem_of_head head

theorem substPieces_of_kept (h : ∀ p ∈ t, p.Kept σ) (ht : ∀ p ∈ t, p.Proper) :
    substPieces σ t = t := substPieces_of_forall fun p hp => (h p hp).subst (ht p hp)

/-- A text without the name has pieces without it. -/
theorem kept_of_not_infix (hp : p.Proper) (h : ¬ n <:+: p.text) : p.Kept (only n r) := by
  induction hp with
  | fixed => exact .fixed
  | @array d balanced angles =>
    refine .array fun w hw => if_neg ?_
    rintro rfl
    have hd : d <:+: written 'a' d := ⟨"a(".toList, ").".toList, by simp [written]⟩
    exact h ((Text.infix_of_mem_words hw).trans hd)
  | @function ps joined proper ih =>
    exact .function fun t ht p hp => ih t ht p hp fun hin => h (hin.trans (infix_function ht hp))
  | name nonempty components =>
    refine .name fun m hm => if_neg ?_
    rintro rfl
    exact h (infix_of_mem_path hm)
  | @template stem args tail nonempty components joined proper closed ends simple ih =>
    refine .template (fun m hm r' hr' => ?_) fun t ht p hp => ih t ht p hp fun hin =>
      h (hin.trans (infix_template ht hp))
    have hne : m ≠ n := by
      rintro rfl
      have hstem : m <:+: pathText stem := infix_of_mem_path (List.mem_of_mem_head? hm)
      exact h (hstem.trans ⟨[], angled (piecesTexts args) ++ tail, by simp [Piece.text]⟩)
    rw [only, if_neg hne] at hr'
    cases hr'

/-- What a name is renamed in without slips. The search for the name in front of template arguments
may find a longer name, and the one in an array element the letter of that element. -/
inductive Piece.Clear (pat : Text) (r : Pieces) : Piece → Prop
  | fixed {e : Text} : Clear pat r (.fixed e)
  | array {d : Text} (letter : pat ≠ ['a']) : Clear pat r (.array d)
  | function {ps : List Pieces} (clear : ∀ t ∈ ps, ∀ p ∈ t, p.Clear pat r) :
      Clear pat r (.function ps)
  | name {path : List Text} : Clear pat r (.name path)
  | template {stem : List Text} {args : List Pieces} {tail : Text}
      (front : (Piece.template stem args tail).text.startsWith pat = true →
        '<' ∉ piecesText r.dropLast ∧
          (stem.head? ≠ some pat → (Piece.template stem args tail).text.hasWhole pat = false))
      (clear : ∀ t ∈ args, ∀ p ∈ t, p.Clear pat r) : Clear pat r (.template stem args tail)

theorem piecesText_substPieces (σ : Substitution) (t : Pieces) :
    piecesText (substPieces σ t) = (t.map fun p => piecesText (p.subst σ)).flatten := by
  induction t with
  | nil => rfl
  | cons p t ih => rw [substPieces, piecesText_append, ih, List.map_cons, List.flatten_cons]

theorem mapM_each {again : CType → Except Fault CType} {ts : List Pieces}
    (h : ∀ t ∈ ts, again (piecesText t) = .ok (piecesText (substPieces σ t))) :
    (piecesTexts ts).mapM again = .ok (piecesTexts (substEach σ ts)) := by
  rw [mapM_piecesTexts h, substEach_eq, piecesTexts_eq, List.map_map]
  rfl

/-- The name of a type, with the constructors in front and without template arguments. -/
theorem templateStem_based {front : Pieces} {b : Piece} {s : List Text}
    (hr : IsType (front ++ [b])) (hs : b.stem? = some s) (hless : '<' ∉ piecesText front) :
    templateStem (piecesText (front ++ [b])) = .ok (piecesText front ++ pathText s) := by
  have hb : b.Proper := hr.proper b (by simp)
  have hwhole : '<' ∉ piecesText front ++ pathText s := fun hm =>
    (List.mem_append.mp hm).elim hless (notMem_less_path (hb.stem hs).2)
  have hsingle : piecesText [b] = b.text := by simp [piecesText]
  rw [piecesText_append, hsingle]
  cases hb with
  | name =>
    cases hs
    rw [Piece.text, templateStem, templateParts_of_noOpening (noOpening_of_notMem hwhole)]
    rfl
  | template nonempty components joined proper closed ends simple =>
    cases hs
    have hclosed := closed_piecesTexts fun t ht p hp => (proper t ht p hp).spelled
    rw [Piece.text, ← List.append_assoc, ← List.append_assoc, templateStem,
      templateParts_angled hwhole fun a ha => (hclosed a ha).listable.balanced]
    rfl
  | fixed => cases hs
  | array => cases hs
  | function => cases hs

/-- What stands behind the first components of a name. -/
theorem exists_pathTail (path : List Text) :
    ∃ w : Text, (∀ s ≠ [], pathText (s ++ path) = pathText s ++ w) ∧
      ∀ c ∈ w.head?, isIdentChar c = false := by
  by_cases hpath : path = []
  · exact ⟨[], fun s _ => by simp [hpath], nofun⟩
  · refine ⟨"::".toList ++ pathText path, fun s hs => ?_, fun c hc => ?_⟩
    · rw [pathText_append hs hpath, List.append_assoc]
    · cases hc
      rfl

theorem startsWith_path (n : Text) (path : List Text) (rest : Text) :
    (pathText (n :: path) ++ rest).startsWith n = true := by
  obtain ⟨w, hw, -⟩ := exists_pathTail path
  refine Text.startsWith_iff.mpr ⟨w ++ rest, ?_⟩
  rw [← List.singleton_append, hw [n] (by simp), pathText_singleton, List.append_assoc]

section Rename

variable (hpat : IsIdentifier pat) (hr : IsType r) (hbased : Based r)
include hpat hr hbased

omit hr hbased in
/-- The name in front of template arguments takes the name of what it becomes. -/
theorem renamedHead_own {front : Pieces} {b : Piece} {s : List Text}
    {rest : Text} (hr : IsType (front ++ [b])) (hs : b.stem? = some s)
    (hless : '<' ∉ piecesText front) (hrest : ∀ c ∈ rest.head?, isIdentChar c = false) :
    renamedHead pat (piecesText (front ++ [b])) (pathText (pat :: path) ++ rest) =
      .ok (piecesText front ++ pathText (s ++ path) ++ rest) := by
  obtain ⟨w, hw, hwhead⟩ := exists_pathTail path
  have hname : pathText (pat :: path) ++ rest = pat ++ (w ++ rest) := by
    rw [← List.singleton_append, hw [pat] (by simp), pathText_singleton, List.append_assoc]
  have hbreak : ∀ c ∈ (w ++ rest).head?, isIdentChar c = false := by
    intro c hc
    cases w with
    | nil => exact hrest c hc
    | cons d w =>
      cases hc
      exact hwhead c rfl
  have hsne := ((hr.proper b (by simp)).stem hs).1
  rw [renamedHead, if_pos (startsWith_path pat path rest), templateStem_based hr hs hless]
  show Except.ok (Text.replaceFirstWhole _ pat _) = _
  rw [hname, Text.replaceFirstWhole_front hpat hbreak, hw s hsne]
  simp

omit hpat hr hbased in
/-- Where the name of the template is another one, it stays. -/
theorem renamedHead_other {front : Pieces} {b : Piece} {s : List Text} {element : Text}
    (hr : IsType (front ++ [b])) (hs : b.stem? = some s)
    (h : element.startsWith pat = true → '<' ∉ piecesText front ∧ element.hasWhole pat = false) :
    renamedHead pat (piecesText (front ++ [b])) element = .ok element := by
  unfold renamedHead
  split
  · rename_i hstarts
    obtain ⟨hless, hwhole⟩ := h hstarts
    rw [templateStem_based hr hs hless]
    exact congrArg Except.ok (Text.replaceFirstWhole_of_hasWhole hwhole)
  · rfl

theorem renameTemplate_pieces {again : CType → Except Fault CType} {stem : List Text}
    {args : List Pieces} {tail : Text} (hproper : (Piece.template stem args tail).Proper)
    (hclear : (Piece.template stem args tail).Clear pat r)
    (hagain : ∀ t ∈ args, again (piecesText t) = .ok (piecesText (substPieces (only pat r) t))) :
    renameElement pat (piecesText r) again (Piece.template stem args tail).text =
      .ok (piecesText ((Piece.template stem args tail).subst (only pat r))) := by
  obtain ⟨nonempty, components⟩ := hproper.stem rfl
  cases hclear with
  | template front clear =>
  have hmapped := mapM_each hagain
  obtain ⟨n, path, rfl⟩ := List.exists_cons_of_ne_nil nonempty
  obtain ⟨before, b, rfl, hbase⟩ := hbased
  obtain ⟨s, hs⟩ := Option.isSome_iff_exists.mp hbase
  rw [List.dropLast_concat] at front
  by_cases hn : n = pat
  · subst hn
    have hscomponents := ((hr.proper b (by simp)).stem hs).2
    have hparts : (Piece.template (n :: path) args tail).text =
        pathText (n :: path) ++ (angled (piecesTexts args) ++ tail) := List.append_assoc ..
    have hless := (front (hparts ▸ startsWith_path n path _)).1
    have hfront : NoOpening (piecesText before ++ pathText (s ++ path)) :=
      noOpening_of_notMem fun hm => (List.mem_append.mp hm).elim hless (notMem_less_path fun m hm =>
        (List.mem_append.mp hm).elim (hscomponents m) fun hm =>
          components m (List.mem_cons_of_mem _ hm))
    have hhead : renamedHead n (piecesText (before ++ [b]))
        (pathText (n :: path) ++ (angled (piecesTexts args) ++ tail)) = .ok (_ ++ (_ ++ tail)) :=
      renamedHead_own hpat hr hs hless (by simp [angled, isIdentChar])
    rw [← hparts, ← List.append_assoc] at hhead
    rw [renameElement_of_head hpat hproper hfront hhead, hmapped, Piece.subst,
      substStem_based hs (show only n (before ++ [b]) n = some (before ++ [b]) from if_pos rfl),
      piecesText_append]
    simp [piecesText, Piece.text, Except.map]
  · have hother : (n :: path).head? ≠ some pat := fun he => hn (Option.some.inj he)
    have hhead : renamedHead pat (piecesText (before ++ [b]))
        (Piece.template (n :: path) args tail).text =
          .ok (pathText (n :: path) ++ angled (piecesTexts args) ++ tail) :=
      renamedHead_other hr hs fun hstarts => ⟨(front hstarts).1, (front hstarts).2 hother⟩
    have hstem : substStem (only pat (before ++ [b])) (substEach (only pat (before ++ [b])) args)
        tail (n :: path) = _ := substStem_of_head fun m hm r' hr' => by
      cases hm
      rw [only, if_neg hn] at hr'
      cases hr'
    have hfront := noOpening_of_notMem (notMem_less_path components)
    rw [renameElement_of_head hpat hproper hfront hhead, hmapped, Piece.subst, hstem]
    simp [piecesText, Piece.text, Except.map]

omit hpat in
theorem only_proper : (only pat r).Proper := by
  intro n s hs
  unfold only at hs
  split at hs
  · cases hs
    exact ⟨hr, hbased⟩
  · cases hs

omit hpat hr hbased in
theorem word_only (r : Pieces) :
    (only pat r).word = fun w => if w = pat then piecesText r else w := by
  funext w
  unfold Substitution.word only
  split <;> rfl

theorem renameName_pieces {again : CType → Except Fault CType} (hne : path ≠ [])
    (hcomponents : ∀ n ∈ path, IsComponent n)
    (hagain : ∀ qs ≠ [], (pathText qs).length < (pathText path).length →
      (∀ n ∈ qs, IsComponent n) →
        again (pathText qs) = .ok (piecesText (substPath (only pat r) qs))) :
    renameElement pat (piecesText r) again (pathText path) =
      .ok (piecesText (substPath (only pat r) path)) := by
  obtain ⟨n, path, rfl⟩ := List.exists_cons_of_ne_nil hne
  obtain ⟨hn, hrest⟩ := List.forall_mem_cons.mp hcomponents
  cases path with
  | nil =>
    have hcomponent : piecesText (substPath (only pat r) [n]) =
        if n = pat then piecesText r else n := by
      unfold substPath component only
      split <;> simp [piecesText, Piece.text, pathText_singleton]
    rw [pathText_singleton, renameElement_word hn, hcomponent]
  | cons m path =>
    have hproper : (only pat r).Proper := only_proper hr hbased
    obtain ⟨hstacked, hbase⟩ := stacked_component hproper hn
    obtain ⟨hstacked', hne', -⟩ := stacked_substPath hproper (List.cons_ne_nil m path) hrest
    have hfirst := hagain [n] (by simp) length_lt_path.1 (List.forall_mem_singleton.mpr hn)
    have hsuffix := hagain (m :: path) (by simp) length_lt_path.2 hrest
    rw [pathText_singleton] at hfirst
    rw [renameElement_scoped hpat hcomponents hfirst hsuffix]
    refine congrArg Except.ok ?_
    exact (piecesText_underScope hstacked.proper hstacked'.proper hbase.ne_nil hne').symm

omit hpat hr hbased in
theorem renameFunction_pieces {again : CType → Except Fault CType} {rep : Text} {ps : List Pieces}
    (hp : (Piece.function ps).Proper)
    (hagain : ∀ t ∈ ps, again (piecesText t) = .ok (piecesText (substPieces σ t))) :
    renameElement pat rep again (Piece.function ps).text =
      .ok (piecesText ((Piece.function ps).subst σ)) := by
  rw [renameElement_function hp, mapM_each hagain]
  simp [Piece.subst, Piece.text, piecesText, Except.map]

theorem renameElement_pieces {again : CType → Except Fault CType} (hp : p.Proper)
    (hclear : p.Clear pat r)
    (hagain : ∀ t, Stacked t → (∀ q ∈ t, q.Clear pat r) →
      (piecesText t).length < p.text.length →
      again (piecesText t) = .ok (piecesText (substPieces (only pat r) t))) :
    renameElement pat (piecesText r) again p.text = .ok (piecesText (p.subst (only pat r))) := by
  have hsingle : ∀ q : Piece, piecesText [q] = q.text := fun q => List.append_nil _
  cases hclear with
  | fixed => rw [Piece.text, renameElement_fixed hp, Piece.subst, hsingle, Piece.text]
  | array letter =>
    rw [Piece.text, renameElement_array hpat hp, if_neg letter.symm, Piece.subst, hsingle,
      Piece.text, word_only]
    rfl
  | function clear =>
    refine renameFunction_pieces hp fun t ht => ?_
    exact hagain t (hp.stacked_parameter ht) (clear t ht) (length_lt_function ht)
  | name =>
    cases hp with
    | name nonempty components =>
      refine renameName_pieces hpat hr hbased nonempty components fun qs hqs hlt hcomponents => ?_
      have hstacked := stacked_name hqs hcomponents
      have hrenamed := hagain [.name qs] hstacked (List.forall_mem_singleton.mpr .name)
        (by rwa [hsingle])
      rwa [hsingle, substPieces, substPieces, List.append_nil] at hrenamed
  | template front clear =>
    refine renameTemplate_pieces hpat hr hbased hp (.template front clear) fun t ht => ?_
    exact hagain t (hp.stacked_argument ht) (clear t ht) (length_lt_template ht)

/-- Renaming a name in a type does to its pieces what substituting for the name does. -/
theorem renameFrom_pieces {budget : Nat} (ht : Stacked t) (hclear : ∀ p ∈ t, p.Clear pat r)
    (hbudget : (piecesText t).length < budget) :
    renameFrom pat (piecesText r) budget (piecesText t) =
      .ok (piecesText (substPieces (only pat r) t)) := by
  induction budget generalizing t with
  | zero => exact absurd hbudget (Nat.not_lt_zero _)
  | succ budget ih =>
    rw [piecesText_substPieces]
    refine renameFrom_of_elements hpat ht (fun p hp hin => ?_) fun p hp => ?_
    · have hkept : p.Kept (only pat r) := kept_of_not_infix (ht.proper p hp) hin
      rw [hkept.subst (ht.proper p hp)]
      exact List.append_nil _
    · have hle := (infix_of_mem_pieces hp).length_le
      exact renameElement_pieces hpat hr hbased (ht.proper p hp) (hclear p hp)
        fun u hu hclear hlt => ih hu hclear (by omega)

theorem rename_pieces (ht : IsType t) (hclear : ∀ p ∈ t, p.Clear pat r) :
    (piecesText t).rename pat (piecesText r) =
      .ok (piecesText (substPieces (only pat r) t)) :=
  renameFrom_pieces hpat hr hbased ht.stacked hclear (length_lt_budget ..)

end Rename

end CType

end BindingTypes

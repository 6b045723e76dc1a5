import Mathlib.Algebra.GroupWithZero.Nat
import Mathlib.Algebra.Order.BigOperators.Group.List
import Mathlib.Algebra.Order.Group.Nat
import BindingTypes.Proofs.CType.Walked

namespace BindingTypes

theorem IsIdentifier.notMem {n : Text} {c : Char} (hn : IsIdentifier n)
    (hc : isIdentChar c = false) : c ∉ n := by
  intro hm
  rw [hn.2 c hm] at hc
  cases hc

namespace Text

variable {c : Char} {n t u v x y : Text}

/-- An occurrence of a name ends before a character that is none of its own, or begins behind it. -/
theorem occurrence_cases (hc : c ∉ n) (h : x ++ n ++ y = u ++ c :: v) :
    (∃ w, u = x ++ n ++ w ∧ y = w ++ c :: v) ∨ ∃ w, x = u ++ c :: w ∧ v = w ++ n ++ y := by
  rcases List.append_eq_append_iff.mp h with ⟨w, hu, hy⟩ | ⟨w, hxn, hv⟩
  · exact Or.inl ⟨w, hu, hy⟩
  · cases w with
    | nil => exact Or.inl ⟨[], by simp [hxn], hv.symm⟩
    | cons d w =>
      obtain ⟨rfl, rfl⟩ := List.cons.inj hv
      rcases List.append_eq_append_iff.mp hxn with ⟨z, -, hn⟩ | ⟨z, hx, hz⟩
      · exact absurd (hn ▸ List.mem_append_right z List.mem_cons_self) hc
      · cases z with
        | nil => exact absurd ((List.nil_append n ▸ hz) ▸ List.mem_cons_self) hc
        | cons d z =>
          obtain ⟨rfl, rfl⟩ := List.cons.inj hz
          exact Or.inr ⟨z, hx, rfl⟩

/-- An occurrence in a text that begins with another character begins behind it. -/
theorem occurrence_behind (hn : n ≠ []) (hc : c ∉ n) (h : c :: v = x ++ n ++ y) :
    ∃ w, x = c :: w ∧ v = w ++ n ++ y := by
  cases x with
  | nil =>
    obtain ⟨d, n, rfl⟩ := List.exists_cons_of_ne_nil hn
    exact absurd (List.mem_cons.mpr (Or.inl (List.cons.inj h).1)) hc
  | cons d x =>
    obtain ⟨rfl, rfl⟩ := List.cons.inj h
    exact ⟨x, rfl, rfl⟩

theorem eq_of_cutWhole? {glued : Bool} (h : cutWhole? n glued t = some (x, y)) :
    t = x ++ n ++ y := by
  induction t generalizing glued x with
  | nil => cases h
  | cons d t ih =>
    unfold cutWhole? at h
    split at h
    · rename_i rest hafter
      cases h
      split at hafter
      · cases hafter
      · exact after?_eq_some_iff.mp (afterWhole?_eq_some_iff.mp hafter).1
    · obtain ⟨r, hcut, he⟩ := Option.map_eq_some_iff.mp h
      cases he
      rw [ih hcut]
      rfl

/-- The occurrence that is replaced. -/
theorem exists_replaced (h : t.hasWhole n = true) :
    ∃ x y, t = x ++ n ++ y ∧ ∀ rep, t.replaceFirstWhole n rep = x ++ rep ++ y := by
  obtain ⟨hne, hsome⟩ := Bool.and_eq_true_iff.mp h
  obtain ⟨⟨x, y⟩, hcut⟩ := Option.isSome_iff_exists.mp hsome
  refine ⟨x, y, eq_of_cutWhole? hcut, fun rep => ?_⟩
  rw [replaceFirstWhole, if_neg (of_decide_eq_true hne), hcut]

theorem length_commaJoin (ts : List Text) :
    (commaJoin ts).length = (ts.map List.length).sum + (ts.length - 1) := by
  induction ts with
  | nil => rfl
  | cons t ts ih =>
    cases ts with
    | nil => simp [commaJoin]
    | cons u ts =>
      rw [commaJoin] at ih ⊢
      rw [List.intercalate_cons_cons]
      simp only [List.length_append, ih, List.map_cons, List.sum_cons, List.length_cons,
        List.length_nil]
      omega

end Text

namespace CType

open Declaration (pathText)

variable {pat rep head u : Text} {t : Pieces} {p : Piece} {k m : Nat}

/-- Where the parentheses stay open no group closes. -/
theorem closeGroup_of_open (h : parensAfter k u = some m) : closeGroup k u = none := by
  cases hclose : closeGroup k u with
  | none => rfl
  | some r =>
    rw [append_of_closeGroup hclose, parensAfter_append, parensAfter_of_closeGroup hclose] at h
    cases h

theorem templateStem_of_open {front : Text} (hfront : NoOpening front)
    (h : parensAfter 0 u = some m) (v : Text) :
    templateStem (front ++ "<(".toList ++ u) ≠ .ok v := by
  intro hstem
  obtain ⟨parts, hparts, -⟩ := map_eq_ok hstem
  obtain ⟨hnone, -⟩ | ⟨own, opened, -, hcut, hclose⟩ := templateParts_eq_ok_iff.mp hparts
  · cases (cut?_of_noOpening hfront u).symm.trans hnone
  · cases (cut?_of_noOpening hfront u).symm.trans hcut
    cases (closeGroup_of_open h).symm.trans hclose

/-- A replacement that shows where it was put: its name is longer than what it replaces, and opens a
parenthesis without closing it. -/
structure Telling (pat rep head : Text) : Prop where
  stem : templateStem rep = .ok head
  opened : parensAfter 0 head = some 1
  less : '<' ∉ head
  head_longer : pat.length < head.length
  longer : pat.length < rep.length

/-- A member of an instance of a template with the same name. -/
def memberOf (n : Text) : Pieces :=
  [.fixed (written 'm' (n ++ angled ["x".toList])), .name ["y".toList]]

theorem isType_memberOf (hpat : IsIdentifier pat) : IsType (memberOf pat) := by
  have hbare : Bare pat := by
    intro c hc hm
    have hall : (".()<>,".toList.all fun d => !isIdentChar d) = true := by decide
    exact hpat.notMem (by simpa using List.all_eq_true.mp hall c hm) hc
  have hclosed : Closed (pat ++ angled ["x".toList]) :=
    (Closed.of_bare hbare).append (Closed.angled (List.forall_mem_singleton.mpr
      (.of_bare (by decide))))
  have hdotted : Dotted (written 'm' (pat ++ angled ["x".toList])) :=
    dotted_written (by decide) hclosed.listable.balanced
  have hproper : (Piece.fixed (written 'm' (pat ++ angled ["x".toList]))).Proper :=
    .fixed (Closed.written (by decide) hclosed.listable.balanced hclosed.angles) (Or.inl hdotted)
      (isSimple_written (by decide) hclosed.angles) ⟨rfl, rfl⟩
  exact (IsType.singleton hproper (by simp [Piece.text, written])).append
    (List.forall_mem_singleton.mpr hdotted) (.single (by decide) (by decide))

theorem telling_memberOf (hpat : IsIdentifier pat) :
    Telling pat (piecesText (memberOf pat)) ("m(".toList ++ pat) := by
  have hless : '<' ∉ "m(".toList ++ pat := by
    intro hm
    rcases List.mem_append.mp hm with hm | hm
    · exact absurd hm (by decide)
    · exact hpat.notMem rfl hm
  have htext : piecesText (memberOf pat) =
      "m(".toList ++ pat ++ angled ["x".toList] ++ ").y".toList := by
    simp [memberOf, piecesText, Piece.text, written, pathText_singleton]
  refine ⟨?_, ?_, hless, ?_, ?_⟩
  · rw [htext]
    exact (template_angled ").y".toList (noOpening_of_notMem hless)
      (List.forall_mem_singleton.mpr (Closed.of_bare (by decide)).listable)
      (List.forall_mem_singleton.mpr (by decide))).1
  · have hbalanced : Balanced pat := balanced_of_notMem (hpat.notMem rfl) (hpat.notMem rfl)
    rw [parensAfter_append]
    exact hbalanced.after 1
  · simp only [List.length_append, String.length_toList]
    show _ < 2 + _
    omega
  · rw [htext]
    simp only [List.length_append, String.length_toList]
    show _ < 2 + _ + _ + _
    omega

/-- Renaming a type is the walk where the searches find the name alone, and gives a longer text, if
it returns at all, where they do not. -/
structure Outgrows (again : CType → Except Fault CType) (pat rep head : Text) (t : Pieces) :
    Prop where
  walked : (∀ p ∈ t, p.Alone pat) → again (piecesText t) = .ok (walkedText pat rep head t)
  longer : ¬ (∀ p ∈ t, p.Alone pat) → ∀ u, again (piecesText t) = .ok u →
    (walkedText pat rep head t).length < u.length

theorem Outgrows.length_le {again : CType → Except Fault CType}
    (h : Outgrows again pat rep head t) (hu : again (piecesText t) = .ok u) :
    (walkedText pat rep head t).length ≤ u.length := by
  by_cases halone : ∀ p ∈ t, p.Alone pat
  · rw [h.walked halone] at hu
    cases hu
    exact Nat.le_refl _
  · exact (h.longer halone u hu).le

theorem exists_of_mapM {α : Type} {f : α → Except Fault Text} {l : List α} {us : List Text}
    (h : l.mapM f = .ok us) : ∃ w : α → Text, us = l.map w ∧ ∀ a ∈ l, f a = .ok (w a) := by
  refine ⟨fun a => (f a).toOption.getD [], ?_⟩
  induction l generalizing us with
  | nil =>
    cases h
    exact ⟨rfl, List.forall_mem_nil _⟩
  | cons a l ih =>
    rw [List.mapM_cons] at h
    obtain ⟨b, hb, h⟩ := bind_eq_ok h
    obtain ⟨bs, hbs, h⟩ := bind_eq_ok h
    cases h
    obtain ⟨rfl, hall⟩ := ih hbs
    have hvalue : (f a).toOption.getD [] = b := by
      rw [hb]
      rfl
    refine ⟨by rw [List.map_cons, hvalue], List.forall_mem_cons.mpr ⟨?_, hall⟩⟩
    show f a = .ok ((f a).toOption.getD [])
    rw [hvalue, hb]

section Each

variable {again : CType → Except Fault CType} {ts : List Pieces} {us : List Text}
  (h : ∀ t ∈ ts, Outgrows again pat rep head t) (hus : (piecesTexts ts).mapM again = .ok us)
include h hus

/-- What is joined grows with its parts. -/
theorem length_each :
    (Text.commaJoin (walkedTexts pat rep head ts)).length ≤ (Text.commaJoin us).length ∧
      ((∃ t ∈ ts, ¬ ∀ p ∈ t, p.Alone pat) →
        (Text.commaJoin (walkedTexts pat rep head ts)).length < (Text.commaJoin us).length) := by
  rw [piecesTexts_eq, List.mapM_map] at hus
  obtain ⟨w, rfl, hw⟩ := exists_of_mapM hus
  have hle := fun t ht => (h t ht).length_le (hw t ht)
  rw [walkedTexts_eq, Text.length_commaJoin, Text.length_commaJoin, List.map_map, List.map_map,
    List.length_map, List.length_map]
  refine ⟨Nat.add_le_add_right (List.sum_le_sum hle) _, fun hslip => ?_⟩
  obtain ⟨t, ht, halone⟩ := hslip
  exact Nat.add_lt_add_right (List.sum_lt_sum _ _ hle ⟨t, ht, (h t ht).longer halone _ (hw t ht)⟩) _

end Each

theorem length_angled (as : List Text) : (angled as).length = (Text.commaJoin as).length + 4 := by
  simp only [angled, List.length_append]
  show 2 + _ + 2 = _
  omega

section Slip

variable (hpat : IsIdentifier pat) (hrep : Telling pat rep head)
  {again : CType → Except Fault CType}
include hpat hrep

/-- What is found inside the template arguments opens a parenthesis there that nothing closes. -/
theorem templateStem_inside {stem x y inside tail : Text} (hstem : '<' ∉ stem)
    (hinside : inside = x ++ pat ++ y) (hbalanced : Balanced inside) (htail : Balanced tail)
    (v : Text) :
    templateStem (stem ++ "<(".toList ++ (x ++ head ++ y ++ ")>".toList ++ tail)) ≠ .ok v := by
  have hname : Balanced pat := balanced_of_notMem (hpat.notMem rfl) (hpat.notMem rfl)
  subst hinside
  unfold Balanced at hbalanced
  rw [parensAfter_append, parensAfter_append] at hbalanced
  obtain ⟨i, hi, hy⟩ := Option.bind_eq_some_iff.mp hbalanced
  obtain ⟨j, hx, hj⟩ := Option.bind_eq_some_iff.mp hi
  obtain rfl : j = i := Option.some.inj ((hname.after j).symm.trans hj)
  have hopened := parensAfter_add hrep.opened j
  have hrest := parensAfter_add hy 1
  rw [Nat.zero_add, Nat.add_comm] at hopened
  refine templateStem_of_open (m := 0) (noOpening_of_notMem hstem) ?_ v
  simp only [parensAfter_append, hx, hopened, hrest, Option.bind_some]
  exact htail

/-- Where a name is found in a template name, the one put there makes the text in front of the
arguments or behind them longer, or leaves the arguments open. -/
theorem replaced_template {stem : List Text} {args : List Pieces} {tail x y : Text}
    (hp : (Piece.template stem args tail).Proper)
    (htext : (Piece.template stem args tail).text = x ++ pat ++ y) :
    (∃ front back, NoOpening front ∧
      x ++ head ++ y = front ++ angled (piecesTexts args) ++ back ∧
      (pathText stem).length + tail.length < front.length + back.length) ∨
    ∀ v, templateStem (x ++ head ++ y) ≠ .ok v := by
  have hless : '<' ∉ pathText stem := notMem_less_path (hp.stem rfl).2
  have hlonger := hrep.head_longer
  have hshape : x ++ pat ++ y =
      (pathText stem ++ "<(".toList ++ Text.commaJoin (piecesTexts args)) ++
        ')' :: '>' :: tail := by
    rw [← htext]
    simp [Piece.text, angled]
  rcases Text.occurrence_cases (hpat.notMem rfl) hshape with ⟨w, hfront, rfl⟩ | ⟨w, rfl, hback⟩
  · have hopened : x ++ pat ++ w =
        pathText stem ++ '<' :: '(' :: Text.commaJoin (piecesTexts args) := by
      rw [← hfront]
      simp
    rcases Text.occurrence_cases (hpat.notMem rfl) hopened with ⟨z, hstem, rfl⟩ | ⟨z, rfl, hinside⟩
    · -- a word of the name
      have hfrontless : '<' ∉ x ++ head ++ z := by
        rw [hstem] at hless
        simp only [List.mem_append, not_or] at hless ⊢
        exact ⟨⟨hless.1.1, hrep.less⟩, hless.2⟩
      refine Or.inl ⟨x ++ head ++ z, tail, noOpening_of_notMem hfrontless, by simp [angled], ?_⟩
      rw [hstem]
      simp only [List.length_append]
      omega
    · -- in the arguments
      obtain ⟨z, rfl, hjoined⟩ := Text.occurrence_behind hpat.1 (hpat.notMem rfl) hinside
      cases hp with
      | template nonempty components joined proper closed ends simple =>
        have hclosed := closed_piecesTexts fun t ht p hp => (proper t ht p hp).spelled
        have hbalanced := balanced_commaJoin fun a ha => (hclosed a ha).listable.balanced
        have hnever :=
          templateStem_inside hpat hrep hless hjoined hbalanced closed.listable.balanced
        exact Or.inr (by simpa using hnever)
  · -- behind the arguments
    obtain ⟨w, rfl, rfl⟩ := Text.occurrence_behind hpat.1 (hpat.notMem rfl) hback
    refine Or.inl ⟨pathText stem, w ++ head ++ y, noOpening_of_notMem hless, by simp [angled], ?_⟩
    simp only [List.length_append]
    omega

/-- A template name that only begins with the name, or holds it further on. -/
theorem template_longer {stem : List Text} {args : List Pieces} {tail : Text}
    (hp : (Piece.template stem args tail).Proper)
    (hstarts : (Piece.template stem args tail).text.startsWith pat = true) (hother : stem ≠ [pat])
    (hwhole : (Piece.template stem args tail).text.hasWhole pat = true)
    (hargs : ∀ t ∈ args, Outgrows again pat rep head t)
    (hu : renameElement pat rep again (Piece.template stem args tail).text = .ok u) :
    ((Piece.template stem args tail).walked pat rep head).length < u.length := by
  obtain ⟨x, y, htext, hreplaced⟩ := Text.exists_replaced hwhole
  have hhead : renamedHead pat rep (Piece.template stem args tail).text = .ok (x ++ head ++ y) := by
    rw [renamedHead, if_pos hstarts, hrep.stem]
    exact congrArg Except.ok (hreplaced head)
  rcases replaced_template hpat hrep hp htext with ⟨front, back, hfront, hparts, hlt⟩ | hnever
  · rw [hparts] at hhead
    rw [renameElement_of_head hpat hp hfront hhead] at hu
    obtain ⟨bs, hbs, rfl⟩ := map_eq_ok hu
    have hle := (length_each hargs hbs).1
    rw [Piece.walked, swap_of_ne fun he => hother ((pathText_eq_iff hpat (hp.stem rfl).1).mp he)]
    simp only [List.length_append, length_angled]
    omega
  · rw [renameElement_template hpat hp, renameTemplate_eq, hhead] at hu
    obtain ⟨v, hv, -⟩ := bind_eq_ok (show templateStem (x ++ head ++ y) >>= _ = .ok u from hu)
    exact absurd hv (hnever v)

theorem renameElement_longer (hp : p.Proper) (hslip : ¬ p.Alone pat)
    (hagain : ∀ t, Stacked t → (piecesText t).length < p.text.length →
      Outgrows again pat rep head t)
    (hu : renameElement pat rep again p.text = .ok u) :
    (p.walked pat rep head).length < u.length := by
  cases p with
  | fixed e => exact absurd .fixed hslip
  | name path => exact absurd .name hslip
  | array d =>
    have hletter : pat = ['a'] := by
      by_contra hne
      exact hslip (.array hne)
    rw [Piece.text, renameElement_array hpat hp, if_pos hletter.symm] at hu
    cases hu
    have hlonger := hrep.longer
    have hone : pat.length = 1 := by rw [hletter, List.length_singleton]
    show (written 'a' (d.mapWords (swap pat rep))).length <
      (rep ++ '(' :: (d.mapWords (swap pat rep) ++ ").".toList)).length
    simp only [written, List.length_cons, List.length_append]
    omega
  | function ps =>
    have hslips : ∃ t ∈ ps, ¬ ∀ p ∈ t, p.Alone pat := by
      by_contra hall
      push Not at hall
      exact hslip (.function hall)
    rw [renameElement_function hp] at hu
    obtain ⟨us, hus, rfl⟩ := map_eq_ok hu
    have hlt := (length_each (fun t ht => hagain t (hp.stacked_parameter ht)
      (length_lt_function ht)) hus).2 hslips
    simp only [Piece.walked, written, List.length_cons, List.length_append]
    omega
  | template stem args tail =>
    have hargs := fun t ht => hagain t (hp.stacked_argument ht) (length_lt_template ht)
    by_cases hfront : (Piece.template stem args tail).text.startsWith pat = true →
        stem = [pat] ∨ (Piece.template stem args tail).text.hasWhole pat = false
    · obtain ⟨hne, hcomponents⟩ := hp.stem rfl
      have hslips : ∃ t ∈ args, ¬ ∀ p ∈ t, p.Alone pat := by
        by_contra hall
        push Not at hall
        exact hslip (.template hfront hall)
      rw [renameElement_of_head hpat hp (noOpening_swap pat hcomponents hrep.stem)
        (renamedHead_walked hpat hrep.stem hne hfront)] at hu
      obtain ⟨bs, hbs, rfl⟩ := map_eq_ok hu
      have hlt := (length_each hargs hbs).2 hslips
      simp only [Piece.walked, List.length_append, length_angled]
      omega
    · push Not at hfront
      obtain ⟨hstarts, hother, hwhole⟩ := hfront
      exact template_longer hpat hrep hp hstarts hother (by simpa using hwhole) hargs hu

omit hpat hrep in
/-- What does not hold the name cannot be mistaken for it. -/
theorem alone_of_absent (hp : p.Proper) (h : ¬ pat <:+: p.text) : p.Alone pat := by
  induction hp with
  | fixed => exact .fixed
  | name => exact .name
  | @array d balanced angles =>
    refine .array ?_
    rintro rfl
    exact h ⟨[], '(' :: (d ++ ").".toList), rfl⟩
  | @function ps joined proper ih =>
    exact .function fun t ht p hp => ih t ht p hp fun hin => h (hin.trans (infix_function ht hp))
  | @template stem args tail nonempty components joined proper closed ends simple ih =>
    refine .template (fun hstarts => ?_) fun t ht p hp => ih t ht p hp fun hin =>
      h (hin.trans (infix_template ht hp))
    obtain ⟨v, hv⟩ := Text.startsWith_iff.mp hstarts
    exact absurd ⟨[], v, hv.symm⟩ h

/-- Renaming in a type gives a longer text than the walk where a search goes wrong. -/
theorem renameFrom_outgrows {budget : Nat} (ht : Stacked t)
    (hbudget : (piecesText t).length < budget) :
    Outgrows (renameFrom pat rep budget) pat rep head t := by
  refine ⟨fun halone => renameFrom_walked hpat ht halone hrep.stem hbudget, ?_⟩
  induction budget generalizing t with
  | zero => exact absurd hbudget (Nat.not_lt_zero _)
  | succ budget ih =>
    intro hslip u hu
    push Not at hslip
    obtain ⟨q, hq, hslip⟩ := hslip
    have hin : pat <:+: piecesText t := by
      by_contra hnot
      exact hslip (alone_of_absent (ht.proper q hq) fun h =>
        hnot (h.trans (infix_of_mem_pieces hq)))
    have hagain : ∀ p ∈ t, ∀ s, Stacked s → (piecesText s).length < p.text.length →
        Outgrows (renameFrom pat rep budget) pat rep head s := by
      intro p hp s hs hlt
      have hle := (infix_of_mem_pieces hp).length_le
      have hwithin : (piecesText s).length < budget := by omega
      exact ⟨fun halone => renameFrom_walked hpat hs halone hrep.stem hwithin, ih hs hwithin⟩
    rw [renameFrom_succ hpat ht hin, List.mapM_map] at hu
    obtain ⟨us, hus, rfl⟩ := map_eq_ok hu
    obtain ⟨w, rfl, hw⟩ := exists_of_mapM hus
    have hlt : ∀ p ∈ t, ¬ p.Alone pat → (p.walked pat rep head).length < (w p).length :=
      fun p hp hslip =>
        renameElement_longer hpat hrep (ht.proper p hp) hslip (hagain p hp) (hw p hp)
    have hle : ∀ p ∈ t, (p.walked pat rep head).length ≤ (w p).length := by
      intro p hp
      by_cases halone : p.Alone pat
      · have hwalked := renameElement_walked hpat (ht.proper p hp) halone hrep.stem
          fun s hs hsalone hlen => (hagain p hp s hs hlen).walked hsalone
        exact (congrArg List.length (Except.ok.inj (hwalked.symm.trans (hw p hp)))).le
      · exact (hlt p hp halone).le
    rw [walkedText_eq, List.length_flatten, List.length_flatten, List.map_map, List.map_map]
    exact List.sum_lt_sum _ _ hle ⟨q, hq, hlt q hq hslip⟩

end Slip

/-- Renaming is one walk over the type, whatever the replacement, exactly where the searches for the
name find it only where it stands by itself. -/
theorem rename_walked_iff (hpat : IsIdentifier pat) (ht : IsType t) :
    (∀ r head, IsType r → templateStem (piecesText r) = .ok head →
      (piecesText t).rename pat (piecesText r) = .ok (walkedText pat (piecesText r) head t)) ↔
    ∀ p ∈ t, p.Alone pat := by
  refine ⟨fun h => ?_, fun halone r head _ hhead => rename_walked hpat ht halone hhead⟩
  by_contra hslip
  have htelling := telling_memberOf hpat
  have hwalked := h _ _ (isType_memberOf hpat) htelling.stem
  have hgrown := renameFrom_outgrows hpat htelling ht.stacked
    (length_lt_budget (piecesText t) (piecesText (memberOf pat)))
  exact Nat.lt_irrefl _ (hgrown.longer hslip _ hwalked)

/-- `p.T<(T)>::value` -/
def ownTemplate : Pieces :=
  [.fixed "p.".toList, .template ["T".toList] [[.name ["T".toList]]] "::value".toList]

theorem own_template_renamed : ∃ out, out = "p.Box<(Box<(int)>)>::value".toList ∧
    (piecesText ownTemplate).rename "T".toList "Box<(int)>".toList = .ok out := by
  have hT : IsType [.name ["T".toList]] := .single (by decide) (by decide)
  have hInt : IsType [.name ["int".toList]] := .single (by decide) (by decide)
  have htype : IsType ownTemplate := .pointer (.singleton (.template (by decide) (by decide)
    (List.forall_mem_singleton.mpr ⟨by simp, hT.joined⟩)
    (List.forall_mem_singleton.mpr hT.proper) (.of_bare (by decide)) (by decide) (by decide))
    (by decide))
  have halone : ∀ p ∈ ownTemplate, p.Alone "T".toList := by
    refine List.forall_mem_cons.mpr ⟨.fixed, List.forall_mem_singleton.mpr ?_⟩
    exact .template (fun _ => Or.inl rfl)
      (List.forall_mem_singleton.mpr (List.forall_mem_singleton.mpr .name))
  have hbox : IsType [.template ["Box".toList] [[.name ["int".toList]]] []] :=
    .template (by decide) (by decide) (List.forall_mem_singleton.mpr ⟨by simp, hInt⟩)
  have hrenamed := (rename_walked_iff (by decide) htype).mpr halone _ "Box".toList hbox
    (by decide)
  exact ⟨_, by decide, hrenamed⟩

/-- `Tree<(T)>` begins as `T` does. -/
def longerTemplate : Pieces := [.template ["Tree".toList] [[.name ["T".toList]]] []]

/-- The argument of a template with a longer name loses the template arguments put there. -/
theorem longer_template_misread :
    ¬ ∀ (pat : Text) (t : Pieces), IsIdentifier pat → IsType t → ∀ r head, IsType r →
      templateStem (piecesText r) = .ok head →
      (piecesText t).rename pat (piecesText r) = .ok (walkedText pat (piecesText r) head t) := by
  intro h
  have hT : IsType [.name ["T".toList]] := .single (by decide) (by decide)
  have hInt : IsType [.name ["int".toList]] := .single (by decide) (by decide)
  have htype : IsType longerTemplate :=
    .template (by decide) (by decide) (List.forall_mem_singleton.mpr ⟨by simp, hT⟩)
  have hbox : IsType [.template ["Box".toList] [[.name ["int".toList]]] []] :=
    .template (by decide) (by decide) (List.forall_mem_singleton.mpr ⟨by simp, hInt⟩)
  have hwalked := h "T".toList longerTemplate (by decide) htype _ "Box".toList hbox (by decide)
  have hrenamed : (piecesText longerTemplate).rename "T".toList "Box<(int)>".toList =
      .ok "Tree<(Box)>".toList := by
    decide +kernel
  cases hrenamed.symm.trans hwalked

end CType

end BindingTypes

import BindingTypes.Declaration.Parser
import BindingTypes.Proofs.CType.Levels
import BindingTypes.Proofs.CType.Marks
import Mathlib.Data.List.Chain
import Mathlib.Data.List.TakeWhile

namespace BindingTypes

/-- Where an element stands in a declaration. -/
inductive Side where
  | lead
  | operator
  | suffix
deriving DecidableEq

namespace CType

namespace Mark

def side : Mark → Side
  | lead _ => .lead
  | operator _ => .operator
  | suffix _ => .suffix

def text : Mark → Text
  | lead s => s
  | operator s => s
  | suffix s => s

end Mark

/-- Brackets around what an operator begins. -/
def enclose (ms : List Mark) (t : Text) : Text :=
  if ms.head?.map Mark.side = some .operator then '(' :: (t ++ [')']) else t

/-- A declaration of nothing, from the mark next to the base on. -/
def wound : List Mark → Text
  | [] => []
  | .lead s :: ms => s ++ wound ms
  | .operator s :: ms => s ++ wound ms
  | .suffix s :: ms => enclose ms (wound ms) ++ s

variable {α β : Type} {m n : Mark} {ms ns us vs core : List Mark} {s : Text}

theorem assemble_suffix (ms : List Mark) (s out : Text) :
    assemble (ms ++ [Mark.suffix s]) out = enclose ms.reverse (assemble ms out) ++ s := by
  induction ms generalizing out with
  | nil => rfl
  | cons m ms ih =>
    cases ms with
    | nil => cases m <;> simp [assemble, enclose, Mark.isSuffix, Mark.side]
    | cons m' ms =>
      have hhead : ∀ t, enclose (m :: m' :: ms).reverse t = enclose (m' :: ms).reverse t := by
        intro t
        simp [enclose, List.head?_append]
      cases m with
      | lead s' => exact (ih _).trans (by rw [hhead]; rfl)
      | suffix s' => exact (ih _).trans (by rw [hhead]; rfl)
      | operator s' =>
        rw [List.cons_append, assemble, assemble, hhead, ih, ih]
        show (if _ then _ else _) = enclose _ (if _ then _ else _) ++ s
        split <;> simp_all

theorem assemble_reverse (ms : List Mark) : assemble ms.reverse [] = wound ms := by
  induction ms with
  | nil => rfl
  | cons m ms ih =>
    rw [List.reverse_cons]
    cases m with
    | lead s => rw [assemble_concat (Or.inl rfl), ih, wound]
    | operator s => rw [assemble_concat (Or.inr rfl), ih, wound]
    | suffix s => rw [assemble_suffix, ih, List.reverse_reverse, wound]

theorem wound_text_append (hm : m.side ≠ .suffix) : wound (m :: ms) = m.text ++ wound ms := by
  cases m with
  | lead s => rfl
  | operator s => rfl
  | suffix s => exact absurd rfl hm

/-- Suffixes stand in a row behind what they belong to. -/
theorem wound_suffixes (hus : ∀ u ∈ us, u.side = .suffix) (hne : us ≠ []) (core : List Mark) :
    wound (us ++ core) = enclose core (wound core) ++ us.reverse.flatMap Mark.text := by
  have hwound : ∀ {u : Mark} {ms : List Mark}, u.side = .suffix →
      wound (u :: ms) = enclose ms (wound ms) ++ u.text := by
    intro u ms hu
    cases u with
    | lead s => cases hu
    | operator s => cases hu
    | suffix s => rfl
  induction us with
  | nil => exact absurd rfl hne
  | cons u us ih =>
    obtain ⟨hu, hus⟩ := List.forall_mem_cons.mp hus
    cases us with
    | nil => simpa using hwound hu
    | cons v vs =>
      have hrow : enclose ((v :: vs) ++ core) (wound ((v :: vs) ++ core)) =
          wound ((v :: vs) ++ core) := by
        simp [enclose, hus v List.mem_cons_self]
      rw [List.cons_append, hwound hu, hrow, ih hus (by simp)]
      simp

/-- No qualifier stands next behind a suffix, seen from the base. -/
def SettledMarks (ms : List Mark) : Prop :=
  ms.IsChain fun m n => m.side = .suffix → n.side ≠ .lead

/-- Suffixes are brought to where nothing but an operator in brackets or nothing at all stands
between them and what is declared. -/
def settleFrom (side : α → Side) : (behindSuffix : Bool) → (waiting : List α) → List α → List α
  | _, waiting, [] => waiting
  | behind, waiting, x :: xs =>
    match side x with
    | .suffix => settleFrom side true (waiting ++ [x]) xs
    | .lead => x :: settleFrom side false waiting xs
    | .operator =>
      if behind then waiting ++ x :: settleFrom side false [] xs
      else x :: settleFrom side false waiting xs

def settle (side : α → Side) (xs : List α) : List α := settleFrom side false [] xs

section Settling

variable {side : α → Side} {side' : β → Side} {behind : Bool} {waiting xs : List α}
  {waits : List Mark} {x : α}

theorem mem_settleFrom : x ∈ settleFrom side behind waiting xs ↔ x ∈ waiting ∨ x ∈ xs := by
  induction xs generalizing behind waiting with
  | nil => simp [settleFrom]
  | cons y xs ih =>
    unfold settleFrom
    split
    · rw [ih, List.mem_append, List.mem_singleton, List.mem_cons, or_assoc]
    · rw [List.mem_cons, ih, List.mem_cons, or_left_comm]
    · split
      · rw [List.mem_append, List.mem_cons, ih, List.mem_cons]
        simp
      · rw [List.mem_cons, ih, List.mem_cons, or_left_comm]

theorem forall₂_settleFrom {R : α → β → Prop} {waiting' xs' : List _}
    (hside : ∀ x y, R x y → side x = side' y) (hw : List.Forall₂ R waiting waiting')
    (h : List.Forall₂ R xs xs') : List.Forall₂ R (settleFrom side behind waiting xs)
      (settleFrom side' behind waiting' xs') := by
  induction h generalizing behind waiting waiting' with
  | nil => exact hw
  | @cons x y xs xs' hxy _ ih =>
    unfold settleFrom
    rw [hside x y hxy]
    cases side' y with
    | suffix => exact ih (List.rel_append hw (.cons hxy .nil))
    | lead => exact .cons hxy (ih hw)
    | operator =>
      cases behind with
      | false => exact .cons hxy (ih hw)
      | true => exact List.rel_append hw (.cons hxy (ih .nil))

theorem settled_settleFrom (hw : ∀ y ∈ waiting, side y = .suffix) :
    (settleFrom side behind waiting xs).IsChain fun y z => side y = .suffix → side z ≠ .lead := by
  have hrow : ∀ {ys : List α}, (∀ y ∈ ys, side y = .suffix) →
      ys.IsChain fun y z => side y = .suffix → side z ≠ .lead := by
    intro ys hys
    refine (List.pairwise_of_forall_mem_list fun y _ z hz _ => ?_).isChain
    rw [hys z hz]
    nofun
  induction xs generalizing behind waiting with
  | nil => exact hrow hw
  | cons x xs ih =>
    have hfirst : ∀ {ys : List α}, side x ≠ .suffix →
        (ys.IsChain fun y z => side y = .suffix → side z ≠ .lead) →
        (x :: ys).IsChain fun y z => side y = .suffix → side z ≠ .lead := fun hx hys =>
      List.isChain_cons.mpr ⟨fun _ _ hs => absurd hs hx, hys⟩
    unfold settleFrom
    cases hx : side x with
    | suffix => exact ih (List.forall_mem_append.mpr ⟨hw, List.forall_mem_singleton.mpr hx⟩)
    | lead => exact hfirst (by simp [hx]) (ih hw)
    | operator =>
      cases behind with
      | false => exact hfirst (by simp [hx]) (ih hw)
      | true =>
        refine List.isChain_append.mpr ⟨hrow hw, hfirst (by simp [hx]) (ih (by simp)), ?_⟩
        rintro y - z hz -
        cases hz
        simp [hx]

/-- What is declared reads the same with its suffixes brought inward. -/
theorem wound_settleFrom (hwaits : ∀ u ∈ waits, u.side = .suffix)
    (hb : behind = true → waits ≠ []) :
    wound (settleFrom Mark.side behind waits ms) =
      (if behind = true then enclose ms (wound ms) else wound ms) ++
        waits.reverse.flatMap Mark.text := by
  induction ms generalizing behind waits with
  | nil =>
    rw [settleFrom]
    by_cases hne : waits = []
    · subst hne
      cases behind <;> rfl
    · have hrow := wound_suffixes hwaits hne []
      rw [List.append_nil] at hrow
      rw [hrow]
      cases behind <;> rfl
  | cons m ms ih =>
    have hopen : ∀ t, m.side ≠ .operator → enclose (m :: ms) t = t := by
      intro t hm
      simp [enclose, hm]
    unfold settleFrom
    cases m with
    | suffix s =>
      have hall : ∀ u ∈ waits ++ [Mark.suffix s], u.side = .suffix :=
        List.forall_mem_append.mpr ⟨hwaits, List.forall_mem_singleton.mpr rfl⟩
      have hrest := @ih true _ hall (by simp)
      refine hrest.trans ?_
      rw [hopen _ nofun, wound]
      simp [Mark.text]
    | lead s =>
      have hrest := @ih false _ hwaits nofun
      rw [hopen _ nofun]
      show wound (.lead s :: settleFrom Mark.side false waits ms) = _
      rw [wound, hrest, wound]
      simp
    | operator s =>
      cases behind with
      | false =>
        have hrest := @ih false _ hwaits nofun
        show wound (.operator s :: settleFrom Mark.side false waits ms) = _
        rw [wound, hrest, wound]
        simp
      | true =>
        have hrest := @ih false [] (by simp) nofun
        show wound (waits ++ .operator s :: settleFrom Mark.side false [] ms) = _
        rw [wound_suffixes hwaits (hb rfl), wound, hrest, wound]
        simp [enclose, Mark.side]

end Settling

end CType

namespace Declaration

open CType

/-- A character of names and of the colons between them. -/
def isPathChar (c : Char) : Bool := isIdentChar c || c = ':'

/-- The text begins as what an operator is written with. -/
def OpensOperator (t : Text) : Prop :=
  ∃ r c u, t = r ++ c :: u ∧ (∀ d ∈ r, isPathChar d = true) ∧ c ∈ "*&".toList

/-- A mark that is told from the others in front of it and behind it. -/
inductive Readable : Mark → Prop
  | lead {w : Text} (hw : w ∈ qualifierWords) : Readable (.lead (w ++ [' ']))
  | operator {r : Text} {c : Char} (hr : ∀ d ∈ r, isPathChar d = true) (hc : c ∈ "*&".toList) :
    Readable (.operator (r ++ [c]))
  | array {d : Text} (hd : ClosesAll d) : Readable (.suffix ('[' :: (d ++ [']'])))
  | function {x : Text} (hx : ClosesAll x) (hno : ¬ OpensOperator x) :
    Readable (.suffix ('(' :: (x ++ [')'])))

variable {m n : Mark} {ms ns us vs core core' : List Mark} {r r' x x' t : Text} {c : Char}

theorem isPathChar_of_isIdentChar (h : isIdentChar c = true) : isPathChar c = true :=
  Bool.or_eq_true_iff.mpr (Or.inl h)

theorem isPathChar_colons : ∀ c ∈ "::".toList, isPathChar c = true := by decide

/-- Characters that are in no path. -/
def breaks : Text := "*& ()[]<>,.".toList

theorem not_isPathChar (hc : c ∈ breaks) : isPathChar c = false := by
  have hall : (breaks.all fun c => !isPathChar c) = true := by decide
  simpa using List.all_eq_true.mp hall c hc

theorem within_path {stops : Text} (hs : stops ⊆ breaks) (hr : ∀ d ∈ r, isPathChar d = true) :
    Within stops r := by
  have hbrackets : "()[]<>".toList ⊆ breaks := by decide
  refine Within.of_plain fun d hd => ⟨fun hb => ?_, fun hb => ?_⟩
  · exact absurd (hr d hd) (by simp [not_isPathChar (hbrackets hb)])
  · exact absurd (hr d hd) (by simp [not_isPathChar (hs hb)])

/-- A path ends at the first character that is none of its own. -/
theorem path_unique (hr : ∀ d ∈ r, isPathChar d = true) (hr' : ∀ d ∈ r', isPathChar d = true)
    (hx : ∀ d ∈ x.head?, isPathChar d = false) (hx' : ∀ d ∈ x'.head?, isPathChar d = false)
    (h : r ++ x = r' ++ x') : r = r' ∧ x = x' := by
  have htake : ∀ {r x : Text}, (∀ d ∈ r, isPathChar d = true) →
      (∀ d ∈ x.head?, isPathChar d = false) → (r ++ x).takeWhile isPathChar = r := by
    intro r x hr hx
    rw [List.takeWhile_append_of_pos hr]
    cases x with
    | nil => simp
    | cons d x =>
      have hd := hx d rfl
      simp [hd]
  have hsame : r = r' := by rw [← htake hr hx, h, htake hr' hx']
  subst hsame
  exact ⟨rfl, List.append_cancel_left h⟩

theorem isPathChar_of_qualifier (h : t ∈ qualifierWords) : ∀ d ∈ t, isPathChar d = true := by
  have hall : ∀ w ∈ qualifierWords, w.all isPathChar = true := by decide
  exact List.all_eq_true.mp (hall t h)

namespace Readable

/-- What stands in front is a path and the character that ends it. -/
theorem front (h : Readable m) (hm : m.side ≠ .suffix) : ∃ r c, m.text = r ++ [c] ∧
    (∀ d ∈ r, isPathChar d = true) ∧ c ∈ "*& ".toList ∧
      ((c = ' ' ∧ r ∈ qualifierWords ∧ m = .lead (r ++ [c])) ∨
        (c ∈ "*&".toList ∧ m = .operator (r ++ [c]))) := by
  cases h with
  | lead hw =>
    exact ⟨_, ' ', rfl, isPathChar_of_qualifier hw, by decide, Or.inl ⟨rfl, hw, rfl⟩⟩
  | operator hr hc =>
    have hmore : ∀ c ∈ "*&".toList, c ∈ "*& ".toList := by decide
    exact ⟨_, _, rfl, hr, hmore _ hc, Or.inr ⟨hc, rfl⟩⟩
  | array _ => exact absurd rfl hm
  | function _ _ => exact absurd rfl hm

theorem front_unique (hm : Readable m) (hn : Readable n) (hms : m.side ≠ .suffix)
    (hns : n.side ≠ .suffix) (h : m.text ++ x = n.text ++ x') : m = n ∧ x = x' := by
  obtain ⟨r, c, hmt, hr, hc, hmk⟩ := hm.front hms
  obtain ⟨r', c', hnt, hr', hc', hnk⟩ := hn.front hns
  have hstop : ∀ c ∈ "*& ".toList, ∀ t : Text, ∀ d ∈ (c :: t).head?, isPathChar d = false := by
    rintro c hc t d ⟨⟩
    have hmore : "*& ".toList ⊆ breaks := by decide
    exact not_isPathChar (hmore hc)
  rw [hmt, hnt, List.append_assoc, List.append_assoc] at h
  obtain ⟨rfl, hrest⟩ := path_unique hr hr' (hstop c hc x) (hstop c' hc' x') h
  obtain ⟨rfl, rfl⟩ := List.cons_eq_cons.mp hrest
  refine ⟨?_, rfl⟩
  have hblank : ' ' ∉ "*&".toList := by decide
  rcases hmk with ⟨hcb, -, rfl⟩ | ⟨hco, rfl⟩ <;> rcases hnk with ⟨hcb', -, rfl⟩ | ⟨hco', rfl⟩
  · rfl
  · exact absurd (hcb ▸ hco') hblank
  · exact absurd (hcb' ▸ hco) hblank
  · rfl

theorem within (h : Readable m) : Within [','] m.text := by
  have hstop : [','] ⊆ breaks := by decide
  cases h with
  | lead hw => exact (within_path hstop (isPathChar_of_qualifier hw)).append (.of_plain (by decide))
  | operator hr hc =>
    refine (within_path hstop hr).append (.of_plain (List.forall_mem_singleton.mpr ?_))
    have hall : ∀ c ∈ "*&".toList, c ∉ "()[]<>".toList ∧ c ∉ [','] := by decide
    exact hall _ hc
  | array hd => exact .around (by decide) (by decide) hd
  | function hx _ => exact .around (by decide) (by decide) hx

end Readable

theorem within_wound (h : ∀ m ∈ ms, Readable m) : Within [','] (wound ms) := by
  induction ms with
  | nil => exact .nil
  | cons m ms ih =>
    obtain ⟨hm, hms⟩ := List.forall_mem_cons.mp h
    have hrest := ih hms
    have htext := hm.within
    cases m with
    | lead s => exact htext.append hrest
    | operator s => exact htext.append hrest
    | suffix s =>
      refine Within.append ?_ htext
      unfold enclose
      split
      · exact .around (by decide) (by decide) hrest.closes
      · exact hrest

/-- What stands in brackets, and the brackets, of a mark that is written behind. -/
theorem Readable.brackets (h : Readable m) (hm : m.side = .suffix) :
    ∃ o e x, m.text = o :: (x ++ [e]) ∧ m = .suffix (o :: (x ++ [e])) ∧ ClosesAll x ∧
      ((o = '[' ∧ e = ']') ∨ (o = '(' ∧ e = ')' ∧ ¬ OpensOperator x)) := by
  cases h with
  | lead hw => cases hm
  | operator hr hc => cases hm
  | array hd => exact ⟨_, _, _, rfl, rfl, hd, Or.inl ⟨rfl, rfl⟩⟩
  | function hx hno => exact ⟨_, _, _, rfl, rfl, hx, Or.inr ⟨rfl, rfl, hno⟩⟩

theorem Readable.suffix_unique (hm : Readable m) (hn : Readable n) (hms : m.side = .suffix)
    (hns : n.side = .suffix) (h : m.text ++ x = n.text ++ x') : m = n ∧ x = x' := by
  obtain ⟨o, e, y, hmt, rfl, hy, hoe⟩ := hm.brackets hms
  obtain ⟨o', e', y', hnt, rfl, hy', hoe'⟩ := hn.brackets hns
  rw [hmt, hnt, List.cons_append, List.cons_append, List.append_assoc, List.append_assoc] at h
  obtain ⟨rfl, hrest⟩ := List.cons_eq_cons.mp h
  have he : e = e' ∧ e ∈ ")]".toList := by
    rcases hoe with ⟨rfl, rfl⟩ | ⟨rfl, rfl, -⟩ <;> rcases hoe' with ⟨ho, rfl⟩ | ⟨ho, rfl, -⟩ <;>
      first | exact ⟨rfl, by decide⟩ | cases ho
  obtain ⟨rfl, he⟩ := he
  obtain ⟨rfl, hend⟩ := ClosesAll.unique he hy hy' hrest
  exact ⟨rfl, hend⟩

theorem suffixes_unique (hus : ∀ u ∈ us, Readable u ∧ u.side = .suffix)
    (hvs : ∀ v ∈ vs, Readable v ∧ v.side = .suffix)
    (h : us.flatMap Mark.text = vs.flatMap Mark.text) : us = vs := by
  have hne : ∀ {u : Mark} {us : List Mark}, Readable u ∧ u.side = .suffix →
      (u :: us).flatMap Mark.text ≠ [] := by
    intro u us hu
    obtain ⟨o, e, x, hut, -⟩ := hu.1.brackets hu.2
    simp [hut]
  induction us generalizing vs with
  | nil =>
    cases vs with
    | nil => rfl
    | cons v vs => exact absurd h.symm (hne (hvs v List.mem_cons_self))
  | cons u us ih =>
    obtain ⟨hu, hus⟩ := List.forall_mem_cons.mp hus
    cases vs with
    | nil => exact absurd h (hne hu)
    | cons v vs =>
      obtain ⟨hv, hvs'⟩ := List.forall_mem_cons.mp hvs
      rw [List.flatMap_cons, List.flatMap_cons] at h
      obtain ⟨rfl, htail⟩ := hu.1.suffix_unique hv.1 hu.2 hv.2 h
      rw [ih hus hvs' htail]

/-- Behind its suffixes a settled list goes on with an operator, if at all. -/
theorem suffixes_core (h : SettledMarks (m :: ms)) (hm : m.side = .suffix) :
    ∃ us core, m :: ms = us ++ core ∧ us ≠ [] ∧ (∀ u ∈ us, u.side = .suffix) ∧
      ∀ c ∈ core.head?, c.side = .operator := by
  induction ms generalizing m with
  | nil => exact ⟨[m], [], rfl, by simp, by simpa using hm, by simp⟩
  | cons n ms ih =>
    obtain ⟨hnext, hrest⟩ := List.isChain_cons_cons.mp h
    cases hn : n.side with
    | lead => exact absurd hn (hnext hm)
    | operator => exact ⟨[m], n :: ms, rfl, by simp, by simpa using hm, by simpa using hn⟩
    | suffix =>
      obtain ⟨us, core, heq, -, hus, hcore⟩ := ih hrest hn
      exact ⟨m :: us, core, by rw [heq]; rfl, by simp, List.forall_mem_cons.mpr ⟨hm, hus⟩, hcore⟩

/-- A mark in front is written without a bracket at its beginning. -/
theorem Readable.head_front (h : Readable m) (hm : m.side ≠ .suffix) :
    ∃ c t, m.text = c :: t ∧ c ∉ "([".toList := by
  obtain ⟨r, c, hmt, hr, hc, -⟩ := h.front hm
  cases r with
  | nil =>
    have hall : ∀ c ∈ "*& ".toList, c ∉ "([".toList := by decide
    exact ⟨c, [], hmt, hall c hc⟩
  | cons d r =>
    refine ⟨d, r ++ [c], hmt, fun hd => ?_⟩
    have hbreaks : "([".toList ⊆ breaks := by decide
    have hpath := hr d List.mem_cons_self
    rw [not_isPathChar (hbreaks hd)] at hpath
    cases hpath

/-- A mark behind is written with a bracket at the beginning of everything. -/
theorem head_wound_suffix (h : ∀ u ∈ m :: ms, Readable u) (hset : SettledMarks (m :: ms))
    (hm : m.side = .suffix) : ∃ c t, wound (m :: ms) = c :: t ∧ c ∈ "([".toList := by
  obtain ⟨us, core, heq, hne, hus, hcore⟩ := suffixes_core hset hm
  rw [heq, wound_suffixes hus hne]
  cases core with
  | nil =>
    obtain ⟨u, vs, hrev⟩ := List.exists_cons_of_ne_nil (List.reverse_ne_nil_iff.mpr hne)
    have hmem : u ∈ us := List.mem_reverse.mp (hrev ▸ List.mem_cons_self)
    have hmem' : u ∈ m :: ms := by
      rw [heq]
      exact List.mem_append_left _ hmem
    obtain ⟨o, e, x, hut, -, -, hoe⟩ := (h u hmem').brackets (hus u hmem)
    rw [hrev, List.flatMap_cons, hut]
    refine ⟨o, _, rfl, ?_⟩
    rcases hoe with ⟨rfl, -⟩ | ⟨rfl, -⟩ <;> decide
  | cons c core =>
    have hc := hcore c rfl
    simp [enclose, hc]

/-- What opens with an operator is no list of parameters. -/
theorem opensOperator_wound (h : Readable m) (hm : m.side = .operator) (ms : List Mark) :
    OpensOperator (wound (m :: ms)) := by
  have hne : m.side ≠ .suffix := by
    rw [hm]
    nofun
  obtain ⟨r, c, hmt, hr, -, hkind⟩ := h.front hne
  rcases hkind with ⟨-, -, rfl⟩ | ⟨hc, rfl⟩
  · cases hm
  · refine ⟨r, c, wound ms, ?_, hr, hc⟩
    rw [wound_text_append hne, hmt]
    simp

theorem enclose_operator (hop : ∀ c ∈ core.head?, c.side = .operator) (hne : core ≠ []) (t : Text) :
    enclose core t = '(' :: (t ++ [')']) := by
  obtain ⟨c, core, rfl⟩ := List.exists_cons_of_ne_nil hne
  simp [enclose, hop c rfl]

/-- Parentheses around an operator are no list of parameters. -/
theorem suffixes_ne_enclosed (hus : ∀ u ∈ us, Readable u ∧ u.side = .suffix) (hne : us ≠ [])
    (hcore : ∀ c ∈ core, Readable c) (hop : ∀ c ∈ core.head?, c.side = .operator)
    (hcne : core ≠ []) (t : Text) :
    us.flatMap Mark.text ≠ '(' :: (wound core ++ [')']) ++ t := by
  intro h
  obtain ⟨c, core, rfl⟩ := List.exists_cons_of_ne_nil hcne
  obtain ⟨u, us, rfl⟩ := List.exists_cons_of_ne_nil hne
  obtain ⟨hu, hside⟩ := hus u List.mem_cons_self
  obtain ⟨o, e, x, hut, -, hx, hoe⟩ := hu.brackets hside
  rw [List.flatMap_cons, hut, List.cons_append, List.cons_append, List.append_assoc,
    List.append_assoc] at h
  obtain ⟨rfl, hrest⟩ := List.cons_eq_cons.mp h
  rcases hoe with ⟨ho, -⟩ | ⟨-, rfl, hno⟩
  · cases ho
  · obtain ⟨rfl, -⟩ := ClosesAll.unique (by decide) hx (within_wound hcore).closes hrest
    exact hno (opensOperator_wound (hcore c List.mem_cons_self) (hop c rfl) core)

/-- Suffixes and what is enclosed in front of them are read back, where the enclosed marks are. -/
theorem cores_unique (ih : wound core = wound core' → core = core')
    (hus : ∀ u ∈ us, Readable u ∧ u.side = .suffix)
    (hvs : ∀ v ∈ vs, Readable v ∧ v.side = .suffix) (hune : us ≠ []) (hvne : vs ≠ [])
    (hcore : ∀ c ∈ core, Readable c) (hcore' : ∀ c ∈ core', Readable c)
    (hop : ∀ c ∈ core.head?, c.side = .operator) (hop' : ∀ c ∈ core'.head?, c.side = .operator)
    (h : wound (us ++ core) = wound (vs ++ core')) : us ++ core = vs ++ core' := by
  have hus' : ∀ u ∈ us.reverse, Readable u ∧ u.side = .suffix := by simpa using hus
  have hvs' : ∀ v ∈ vs.reverse, Readable v ∧ v.side = .suffix := by simpa using hvs
  have hune' : us.reverse ≠ [] := List.reverse_ne_nil_iff.mpr hune
  have hvne' : vs.reverse ≠ [] := List.reverse_ne_nil_iff.mpr hvne
  rw [wound_suffixes (fun u hu => (hus u hu).2) hune,
    wound_suffixes (fun v hv => (hvs v hv).2) hvne] at h
  by_cases hnil : core = []
  · subst hnil
    by_cases hnil' : core' = []
    · subst hnil'
      rw [List.reverse_injective (suffixes_unique hus' hvs' h)]
    · rw [enclose_operator hop' hnil'] at h
      exact absurd h (suffixes_ne_enclosed hus' hune' hcore' hop' hnil' _)
  · rw [enclose_operator hop hnil] at h
    by_cases hnil' : core' = []
    · subst hnil'
      exact absurd h.symm (suffixes_ne_enclosed hvs' hvne' hcore hop hnil _)
    · rw [enclose_operator hop' hnil', List.cons_append, List.cons_append, List.append_assoc,
        List.append_assoc] at h
      obtain ⟨hinside, hrow⟩ := ClosesAll.unique (by decide) (within_wound hcore).closes
        (within_wound hcore').closes (List.cons_eq_cons.mp h).2
      rw [ih hinside, List.reverse_injective (suffixes_unique hus' hvs' hrow)]

theorem wound_ne_nil (hms : ∀ u ∈ m :: ms, Readable u) (hset : SettledMarks (m :: ms)) :
    wound (m :: ms) ≠ [] := by
  intro hnil
  by_cases hm : m.side = .suffix
  · obtain ⟨c, t, ht, -⟩ := head_wound_suffix hms hset hm
    rw [ht] at hnil
    cases hnil
  · obtain ⟨c, t, ht, -⟩ := (hms m List.mem_cons_self).head_front hm
    rw [wound_text_append hm, ht] at hnil
    cases hnil

/-- A bracket at the beginning tells what is written behind from what is written in front. -/
theorem wound_ne_of_side (hms : ∀ u ∈ m :: ms, Readable u) (hns : ∀ u ∈ n :: ns, Readable u)
    (hset : SettledMarks (n :: ns)) (hm : m.side ≠ .suffix) (hn : n.side = .suffix) :
    wound (m :: ms) ≠ wound (n :: ns) := by
  intro h
  obtain ⟨c, t, ht, hc⟩ := (hms m List.mem_cons_self).head_front hm
  obtain ⟨c', t', ht', hc'⟩ := head_wound_suffix hns hset hn
  rw [wound_text_append hm, ht, ht'] at h
  exact hc ((List.cons_eq_cons.mp h).1 ▸ hc')

/-- The marks of a declaration are read back from it. -/
theorem wound_unique (hms : ∀ m ∈ ms, Readable m) (hns : ∀ n ∈ ns, Readable n)
    (hset : SettledMarks ms) (hset' : SettledMarks ns) (h : wound ms = wound ns) : ms = ns := by
  -- on the number of marks: an operator leaves the rest, and suffixes leave what they enclose
  induction hlength : ms.length using Nat.strong_induction_on generalizing ms ns with
  | _ k ih =>
    subst hlength
    cases ms with
    | nil =>
      cases ns with
      | nil => rfl
      | cons n ns => exact absurd h.symm (wound_ne_nil hns hset')
    | cons m ms =>
      cases ns with
      | nil => exact absurd h (wound_ne_nil hms hset)
      | cons n ns =>
        by_cases hm : m.side = .suffix
        · by_cases hn : n.side = .suffix
          · obtain ⟨us, core, heq, hune, hus, hop⟩ := suffixes_core hset hm
            obtain ⟨vs, core', heq', hvne, hvs, hop'⟩ := suffixes_core hset' hn
            rw [heq] at hms hset h ih ⊢
            rw [heq'] at hns hset' h ⊢
            obtain ⟨hums, hcore⟩ := List.forall_mem_append.mp hms
            obtain ⟨hvns, hcore'⟩ := List.forall_mem_append.mp hns
            have hshort : core.length < (us ++ core).length := by
              have hpos := List.length_pos_of_ne_nil hune
              rw [List.length_append]
              omega
            have hcores : wound core = wound core' → core = core' := fun hw =>
              ih core.length hshort hcore hcore' hset.right_of_append hset'.right_of_append hw rfl
            exact cores_unique hcores (fun u hu => ⟨hums u hu, hus u hu⟩)
              (fun v hv => ⟨hvns v hv, hvs v hv⟩) hune hvne hcore hcore' hop hop' h
          · exact absurd h.symm (wound_ne_of_side hns hms hset hn hm)
        · by_cases hn : n.side = .suffix
          · exact absurd h (wound_ne_of_side hms hns hset' hm hn)
          · obtain ⟨hm', hms'⟩ := List.forall_mem_cons.mp hms
            obtain ⟨hn', hns'⟩ := List.forall_mem_cons.mp hns
            rw [wound_text_append hm, wound_text_append hn] at h
            obtain ⟨rfl, hbehind⟩ := hm'.front_unique hn' hm hn h
            rw [ih ms.length (by simp) hms' hns' hset.tail hset'.tail hbehind rfl]

end Declaration

end BindingTypes

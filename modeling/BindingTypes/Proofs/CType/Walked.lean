import BindingTypes.Proofs.CType.RenamedElement

namespace BindingTypes.CType

open Declaration (pathText)

/-- One word becomes a text, the others stay. -/
def swap (pat rep word : Text) : Text := if word = pat then rep else word

theorem swap_self (pat rep : Text) : swap pat rep pat = rep := if_pos rfl

theorem swap_of_ne {pat word : Text} (h : word ≠ pat) (rep : Text) : swap pat rep word = word :=
  if_neg h

theorem swap_of_infix {pat word t : Text} (hw : word <:+: t) (h : ¬ pat <:+: t) (rep : Text) :
    swap pat rep word = word := by
  refine swap_of_ne ?_ rep
  rintro rfl
  exact h hw

section Definitions

variable (pat rep head : Text)

mutual

/-- A single walk over a type: `pat` becomes `rep` as a component of a name and as a word of an
array dimension, and `head` as the name before template arguments. -/
def Piece.walked : Piece → Text
  | .fixed e => e
  | .array d => written 'a' (d.mapWords (swap pat rep))
  | .function ps => written 'f' (Text.commaJoin (walkedTexts ps))
  | .name path => pathText (path.map (swap pat rep))
  | .template stem args tail =>
    swap pat head (pathText stem) ++ angled (walkedTexts args) ++ tail

def walkedText : Pieces → Text
  | [] => []
  | p :: t => p.walked ++ walkedText t

def walkedTexts : List Pieces → List Text
  | [] => []
  | t :: ts => walkedText t :: walkedTexts ts

end

theorem walkedText_eq (t : Pieces) :
    walkedText pat rep head t = (t.map (Piece.walked pat rep head)).flatten := by
  induction t with
  | nil => rfl
  | cons p t ih => rw [walkedText, ih, List.map_cons, List.flatten_cons]

theorem walkedTexts_eq (ts : List Pieces) :
    walkedTexts pat rep head ts = ts.map (walkedText pat rep head) := by
  induction ts with
  | nil => rfl
  | cons t ts ih => rw [walkedTexts, ih, List.map_cons]

end Definitions

/-- The searches for a name find it only where it stands by itself. Where the text of a template
name begins with `pat` the first whole occurrence is taken for the name, wherever it is; in an array
element the letter of the element counts as a word. -/
inductive Piece.Alone (pat : Text) : Piece → Prop
  | fixed {e : Text} : Alone pat (.fixed e)
  | array {d : Text} (letter : pat ≠ ['a']) : Alone pat (.array d)
  | function {ps : List Pieces} (alone : ∀ t ∈ ps, ∀ p ∈ t, p.Alone pat) : Alone pat (.function ps)
  | name {path : List Text} : Alone pat (.name path)
  | template {stem : List Text} {args : List Pieces} {tail : Text}
      (front : (Piece.template stem args tail).text.startsWith pat = true →
        stem = [pat] ∨ (Piece.template stem args tail).text.hasWhole pat = false)
      (alone : ∀ t ∈ args, ∀ p ∈ t, p.Alone pat) : Alone pat (.template stem args tail)

variable {pat rep head n : Text} {t : Pieces} {p : Piece} {path : List Text}

theorem walkedTexts_of_forall {ts : List Pieces}
    (h : ∀ t ∈ ts, ∀ p ∈ t, p.walked pat rep head = p.text) :
    walkedTexts pat rep head ts = piecesTexts ts := by
  rw [walkedTexts_eq, piecesTexts_eq]
  refine List.map_congr_left fun t ht => ?_
  rw [walkedText_eq, piecesText_eq, List.map_congr_left (h t ht)]

/-- The walk changes nothing in a text without the name. -/
theorem walked_of_not_infix (hp : p.Proper) (h : ¬ pat <:+: p.text) :
    p.walked pat rep head = p.text := by
  induction hp with
  | fixed => rfl
  | @array d balanced angles =>
    have hwords : d.mapWords (swap pat rep) = d := Text.mapWords_eq_self fun w hw _ => by
      have hd : d <:+: written 'a' d := ⟨"a(".toList, ").".toList, by simp [written]⟩
      exact swap_of_infix ((Text.infix_of_mem_words hw).trans hd) h rep
    rw [Piece.walked, hwords, Piece.text]
  | @function ps joined proper ih =>
    rw [Piece.walked, walkedTexts_of_forall fun t ht p hp => ih t ht p hp fun hin =>
      h (hin.trans (infix_function ht hp)), Piece.text]
  | @name path nonempty components =>
    have hsame : path.map (swap pat rep) = path := by
      refine (List.map_congr_left fun m hm => ?_).trans (List.map_id path)
      exact swap_of_infix (infix_of_mem_path hm) h rep
    rw [Piece.walked, hsame, Piece.text]
  | @template stem args tail nonempty components joined proper closed ends simple ih =>
    have hstem : pathText stem <:+: (Piece.template stem args tail).text :=
      ⟨[], angled (piecesTexts args) ++ tail, by simp [Piece.text]⟩
    rw [Piece.walked, walkedTexts_of_forall fun t ht p hp => ih t ht p hp fun hin =>
      h (hin.trans (infix_template ht hp)), swap_of_infix hstem h, Piece.text]

theorem noOpening_swap {stem : List Text} (pat : Text) (hcomponents : ∀ n ∈ stem, IsComponent n)
    (hhead : templateStem rep = .ok head) : NoOpening (swap pat head (pathText stem)) := by
  unfold swap
  split
  · exact noOpening_of_templateStem hhead
  · exact noOpening_of_notMem (notMem_less_path hcomponents)

section Rename

variable (hpat : IsIdentifier pat)
include hpat

/-- A name is renamed component by component. -/
theorem renameName_walked {again : CType → Except Fault CType} (hne : path ≠ [])
    (hcomponents : ∀ n ∈ path, IsComponent n)
    (hagain : ∀ qs ≠ [], (pathText qs).length < (pathText path).length →
      (∀ n ∈ qs, IsComponent n) → again (pathText qs) = .ok (pathText (qs.map (swap pat rep)))) :
    renameElement pat rep again (pathText path) = .ok (pathText (path.map (swap pat rep))) := by
  obtain ⟨n, path, rfl⟩ := List.exists_cons_of_ne_nil hne
  obtain ⟨hn, hrest⟩ := List.forall_mem_cons.mp hcomponents
  cases path with
  | nil =>
    rw [List.map_singleton, pathText_singleton, pathText_singleton, renameElement_word hn]
    rfl
  | cons m path =>
    have hfirst := hagain [n] (by simp) length_lt_path.1 (List.forall_mem_singleton.mpr hn)
    have hsuffix := hagain (m :: path) (by simp) length_lt_path.2 hrest
    rw [List.map_singleton, pathText_singleton, pathText_singleton] at hfirst
    rw [renameElement_scoped hpat hcomponents hfirst hsuffix]
    exact congrArg Except.ok (pathText_cons_cons ..).symm

/-- The name in front of template arguments becomes `head` where it is `pat`, and only there. -/
theorem renamedHead_walked {stem : List Text} {args : List Pieces} {tail : Text}
    (hhead : templateStem rep = .ok head) (hne : stem ≠ [])
    (halone : (Piece.template stem args tail).text.startsWith pat = true →
      stem = [pat] ∨ (Piece.template stem args tail).text.hasWhole pat = false) :
    renamedHead pat rep (Piece.template stem args tail).text =
      .ok (swap pat head (pathText stem) ++ angled (piecesTexts args) ++ tail) := by
  have hother : stem ≠ [pat] → swap pat head (pathText stem) = pathText stem := fun h =>
    swap_of_ne (fun he => h ((pathText_eq_iff hpat hne).mp he)) head
  unfold renamedHead
  split
  · rename_i hstarts
    rw [hhead]
    show Except.ok (Text.replaceFirstWhole _ pat head) = _
    refine congrArg Except.ok ?_
    by_cases hown : stem = [pat]
    · have hrest : ∀ c ∈ (angled (piecesTexts args) ++ tail).head?, isIdentChar c = false := by
        simp [angled, isIdentChar]
      rw [hown, Piece.text, pathText_singleton, List.append_assoc,
        Text.replaceFirstWhole_front hpat hrest, swap_self, List.append_assoc]
    · rw [Text.replaceFirstWhole_of_hasWhole ((halone hstarts).resolve_left hown), hother hown]
      rfl
  · rename_i hstarts
    refine congrArg Except.ok ?_
    rw [hother fun hown => hstarts ?_, Piece.text]
    rw [hown, Piece.text, pathText_singleton, List.append_assoc]
    exact Text.startsWith_iff.mpr ⟨_, rfl⟩

theorem renameElement_walked {again : CType → Except Fault CType} (hp : p.Proper)
    (halone : p.Alone pat) (hhead : templateStem rep = .ok head)
    (hagain : ∀ t, Stacked t → (∀ q ∈ t, q.Alone pat) → (piecesText t).length < p.text.length →
      again (piecesText t) = .ok (walkedText pat rep head t)) :
    renameElement pat rep again p.text = .ok (p.walked pat rep head) := by
  cases halone with
  | fixed => exact renameElement_fixed hp
  | array letter =>
    rw [Piece.text, renameElement_array hpat hp, if_neg letter.symm]
    rfl
  | @function ps alone =>
    have hmapped := mapM_piecesTexts fun t ht =>
      hagain t (hp.stacked_parameter ht) (alone t ht) (length_lt_function ht)
    rw [renameElement_function hp, hmapped, Piece.walked, walkedTexts_eq]
    rfl
  | @name path =>
    cases hp with
    | name nonempty components =>
      refine renameName_walked hpat nonempty components fun qs hqs hlt hcomponents => ?_
      have hsingle : piecesText [.name qs] = pathText qs := List.append_nil _
      have hrenamed := hagain [.name qs] (stacked_name hqs hcomponents)
        (List.forall_mem_singleton.mpr .name) (by rwa [hsingle])
      rwa [hsingle, walkedText, walkedText, List.append_nil] at hrenamed
  | @template stem args tail front alone =>
    obtain ⟨hne, hcomponents⟩ := hp.stem rfl
    have hopening := noOpening_swap pat hcomponents hhead
    have hmapped := mapM_piecesTexts fun t ht =>
      hagain t (hp.stacked_argument ht) (alone t ht) (length_lt_template ht)
    rw [renameElement_of_head hpat hp hopening (renamedHead_walked hpat hhead hne front), hmapped,
      Piece.walked, walkedTexts_eq]
    rfl

theorem renameFrom_walked {budget : Nat} (ht : Stacked t) (halone : ∀ p ∈ t, p.Alone pat)
    (hhead : templateStem rep = .ok head) (hbudget : (piecesText t).length < budget) :
    renameFrom pat rep budget (piecesText t) = .ok (walkedText pat rep head t) := by
  induction budget generalizing t with
  | zero => exact absurd hbudget (Nat.not_lt_zero _)
  | succ budget ih =>
    rw [walkedText_eq]
    refine renameFrom_of_elements hpat ht (fun p hp => walked_of_not_infix (ht.proper p hp))
      fun p hp => ?_
    have hle := (infix_of_mem_pieces hp).length_le
    exact renameElement_walked hpat (ht.proper p hp) (halone p hp) hhead
      fun u hu halone hlt => ih hu halone (by omega)

end Rename

/-- Renaming is one walk over the type. -/
theorem rename_walked (hpat : IsIdentifier pat) (ht : IsType t) (halone : ∀ p ∈ t, p.Alone pat)
    (hhead : templateStem rep = .ok head) :
    (piecesText t).rename pat rep = .ok (walkedText pat rep head t) :=
  renameFrom_walked hpat ht.stacked halone hhead (length_lt_budget ..)

end BindingTypes.CType

import Mathlib.Data.List.SplitBy
import BindingTypes.Proofs.CType.Words

namespace BindingTypes

namespace Text

/-- A text cut into its longest pieces of identifier characters only or of other ones only. -/
structure Runs (t : Text) (rs : List Text) : Prop where
  flatten_eq : rs.flatten = t
  nonempty : [] ∉ rs
  alike : ∀ r ∈ rs, ∃ kind, ∀ c ∈ r, isIdentChar c = kind
  longest : rs.IsChain fun r s => ∀ c ∈ r, ∀ d ∈ s, isIdentChar c ≠ isIdentChar d

def sameKind (c d : Char) : Bool := isIdentChar c = isIdentChar d

/-- The runs of a text. -/
def runs (t : Text) : List Text := t.splitBy sameKind

variable {n r rep t u : Text} {rs : List Text}

theorem isChain_sameKind_iff :
    (r.IsChain fun c d => sameKind c d = true) ↔ ∃ kind, ∀ c ∈ r, isIdentChar c = kind := by
  induction r with
  | nil => simp
  | cons a r ih =>
    rw [List.isChain_cons, ih]
    constructor
    · rintro ⟨hhead, kind, hkind⟩
      refine ⟨isIdentChar a, List.forall_mem_cons.mpr ⟨rfl, fun c hc => ?_⟩⟩
      obtain ⟨b, r, rfl⟩ := List.exists_cons_of_ne_nil (List.ne_nil_of_mem hc)
      have hab : isIdentChar a = isIdentChar b := of_decide_eq_true (hhead b rfl)
      rw [hab, hkind c hc, hkind b List.mem_cons_self]
    · rintro ⟨kind, hkind⟩
      obtain ⟨ha, hr⟩ := List.forall_mem_cons.mp hkind
      refine ⟨fun b hb => decide_eq_true ?_, kind, hr⟩
      rw [ha, hr b (List.mem_of_mem_head? hb)]

/-- Of two pieces that are each of one kind, the characters where they meet tell for all. -/
theorem sameKind_eq_false_iff {r s : Text} (hr : r ≠ []) (hs : s ≠ [])
    (hralike : ∃ kind, ∀ c ∈ r, isIdentChar c = kind)
    (hsalike : ∃ kind, ∀ c ∈ s, isIdentChar c = kind) :
    (∃ hr hs, sameKind (r.getLast hr) (s.head hs) = false) ↔
      ∀ c ∈ r, ∀ d ∈ s, isIdentChar c ≠ isIdentChar d := by
  obtain ⟨k, hk⟩ := hralike
  obtain ⟨l, hl⟩ := hsalike
  constructor
  · rintro ⟨hr, hs, hmeet⟩ c hc d hd
    rw [hk c hc, hl d hd, ← hk _ (List.getLast_mem hr), ← hl _ (List.head_mem hs)]
    exact of_decide_eq_false hmeet
  · intro h
    exact ⟨hr, hs, decide_eq_false (h _ (List.getLast_mem hr) _ (List.head_mem hs))⟩

/-- There is one way to cut a text into runs. -/
theorem runs_eq_iff : runs t = rs ↔ Runs t rs := by
  rw [runs, List.splitBy_eq_iff]
  have hmeet : [] ∉ rs → (∀ r ∈ rs, ∃ kind, ∀ c ∈ r, isIdentChar c = kind) →
      ((rs.IsChain fun r s => ∃ hr hs, sameKind (r.getLast hr) (s.head hs) = false) ↔
        rs.IsChain fun r s => ∀ c ∈ r, ∀ d ∈ s, isIdentChar c ≠ isIdentChar d) := by
    intro hnonempty halike
    refine List.IsChain.iff_of_mem_imp fun {r s} hr hs => ?_
    exact sameKind_eq_false_iff (ne_of_mem_of_not_mem hr hnonempty)
      (ne_of_mem_of_not_mem hs hnonempty) (halike r hr) (halike s hs)
  constructor
  · rintro ⟨rfl, hnonempty, hchains, hmeets⟩
    have halike := fun r hr => isChain_sameKind_iff.mp (hchains r hr)
    exact ⟨rfl, hnonempty, halike, (hmeet hnonempty halike).mp hmeets⟩
  · intro h
    exact ⟨h.flatten_eq.symm, h.nonempty, fun r hr => isChain_sameKind_iff.mpr (h.alike r hr),
      (hmeet h.nonempty h.alike).mpr h.longest⟩

/-- The first run, and where it is a word the character behind it is of no word. -/
theorem Runs.front (h : Runs t (r :: rs)) : ∃ u, t = r ++ u ∧ Runs u rs ∧ r ≠ [] ∧
    ((∀ c ∈ r, isIdentChar c = true) ∧ (∀ c ∈ u.head?, isIdentChar c = false) ∨
      ∀ c ∈ r, isIdentChar c = false) := by
  obtain ⟨hne, hnonempty⟩ := List.ne_and_not_mem_of_not_mem_cons h.nonempty
  obtain ⟨⟨kind, hkind⟩, halike⟩ := List.forall_mem_cons.mp h.alike
  have hlongest := List.isChain_cons.mp h.longest
  refine ⟨rs.flatten, h.flatten_eq.symm, ⟨rfl, hnonempty, halike, hlongest.2⟩, hne.symm, ?_⟩
  cases kind with
  | false => exact Or.inr hkind
  | true =>
    refine Or.inl ⟨hkind, fun d hd => ?_⟩
    cases rs with
    | nil => cases hd
    | cons s ss =>
      obtain ⟨e, s, rfl⟩ := List.exists_cons_of_ne_nil
        (List.ne_and_not_mem_of_not_mem_cons hnonempty).1.symm
      obtain rfl : e = d := Option.some.inj hd
      obtain ⟨c, r, rfl⟩ := List.exists_cons_of_ne_nil hne.symm
      have hother := hlongest.1 (e :: s) rfl c List.mem_cons_self e List.mem_cons_self
      rw [hkind c List.mem_cons_self] at hother
      exact Bool.eq_false_iff.mpr hother.symm

theorem ne_of_breaks (hn : IsIdentifier n) (hr : ∀ c ∈ r, isIdentChar c = false) : r ≠ n := by
  rintro rfl
  obtain ⟨c, r, rfl⟩ := List.exists_cons_of_ne_nil hn.1
  have hc := hn.2 c List.mem_cons_self
  rw [hr c List.mem_cons_self] at hc
  cases hc

theorem Runs.replaceWhole_eq (h : Runs t rs) (hn : IsIdentifier n) :
    t.replaceWhole n rep = (rs.map fun r => if r = n then rep else r).flatten := by
  rw [replaceWhole_eq_mapWords hn]
  induction rs generalizing t with
  | nil =>
    obtain rfl := h.flatten_eq
    rfl
  | cons r rs ih =>
    obtain ⟨u, rfl, hu, hne, ⟨hword, hbehind⟩ | hbreaks⟩ := h.front
    · rw [mapWords_word_append hword hbehind, mapWord, if_neg hne, ih hu]
      rfl
    · rw [mapWords_breaks_append hbreaks, ih hu, List.map_cons, if_neg (ne_of_breaks hn hbreaks)]
      rfl

/-- The search for a name stops at the first run that is the name. -/
theorem Runs.cutWhole?_eq (h : Runs t rs) (hn : IsIdentifier n) :
    (n ∉ rs ∧ cutWhole? n false t = none) ∨ ∃ before behind, rs = before ++ n :: behind ∧
      n ∉ before ∧ cutWhole? n false t = some (before.flatten, behind.flatten) := by
  induction rs generalizing t with
  | nil =>
    obtain rfl := h.flatten_eq
    exact Or.inl ⟨List.not_mem_nil, rfl⟩
  | cons r rs ih =>
    obtain ⟨u, rfl, hu, hne, hkind⟩ := h.front
    by_cases heq : r = n
    · subst r
      obtain ⟨hword, hbehind⟩ | hbreaks := hkind
      · refine Or.inr ⟨[], rs, rfl, List.not_mem_nil, ?_⟩
        rw [cutWhole?_word hn hne hword hbehind, if_pos rfl, hu.flatten_eq]
        rfl
      · exact absurd rfl (ne_of_breaks hn hbreaks)
    · have hpassed : cutWhole? n false (r ++ u) =
          (cutWhole? n false u).map fun s => (r ++ s.1, s.2) := by
        obtain ⟨hword, hbehind⟩ | hbreaks := hkind
        · rw [cutWhole?_word hn hne hword hbehind, if_neg heq]
        · exact cutWhole?_breaks hn hbreaks u
      obtain ⟨hnot, hnone⟩ | ⟨before, behind, rfl, hnot, hsome⟩ := ih hu
      · exact Or.inl ⟨List.not_mem_cons_of_ne_of_not_mem (Ne.symm heq) hnot, by rw [hpassed, hnone]; rfl⟩
      · refine Or.inr ⟨r :: before, behind, rfl, List.not_mem_cons_of_ne_of_not_mem (Ne.symm heq) hnot, ?_⟩
        rw [hpassed, hsome]
        rfl

theorem Runs.hasWhole_iff (h : Runs t rs) (hn : IsIdentifier n) :
    t.hasWhole n = true ↔ n ∈ rs := by
  rw [hasWhole, decide_eq_true hn.1, Bool.true_and]
  obtain ⟨hnot, hnone⟩ | ⟨before, behind, rfl, -, hsome⟩ := h.cutWhole?_eq hn
  · simp [hnone, hnot]
  · simp [hsome]

theorem Runs.replaceFirstWhole_eq (h : Runs t rs) (hn : IsIdentifier n) :
    t.replaceFirstWhole n rep = (rs.replace n rep).flatten := by
  rw [replaceFirstWhole, if_neg hn.1]
  obtain ⟨hnot, hnone⟩ | ⟨before, behind, rfl, hnot, hsome⟩ := h.cutWhole?_eq hn
  · rw [hnone, List.replace_of_not_mem hnot, h.flatten_eq]
  · rw [hsome, List.replace_append_right hnot, List.replace_cons_self]
    simp

/-- Replacing an identifier is replacing runs: all those, or the first one, that are the
identifier; and it occurs where such a run is. No run is empty, so an empty pattern is none. -/
theorem replace_by_runs (t pat rep : Text) (hpat : ∀ c ∈ pat, isIdentChar c = true) :
    (∀ rs, Runs t rs ↔ rs = runs t) ∧
      t.replaceWhole pat rep = ((runs t).map fun r => if r = pat then rep else r).flatten ∧
      t.replaceFirstWhole pat rep = ((runs t).replace pat rep).flatten ∧
      (t.hasWhole pat = true ↔ pat ∈ runs t) ∧ t.replaceWhole [] rep = t := by
  have hruns : Runs t (runs t) := runs_eq_iff.mp rfl
  refine ⟨fun rs => runs_eq_iff.symm.trans eq_comm, ?_⟩
  by_cases hne : pat = []
  · subst hne
    have hkept : ∀ r ∈ runs t, (if r = [] then rep else r) = id r := fun r hr =>
      if_neg (ne_of_mem_of_not_mem hr hruns.nonempty)
    rw [List.map_congr_left hkept, List.map_id, List.replace_of_not_mem hruns.nonempty,
      hruns.flatten_eq]
    exact ⟨rfl, rfl, iff_of_false Bool.false_ne_true hruns.nonempty, rfl⟩
  · have hn : IsIdentifier pat := ⟨hne, hpat⟩
    exact ⟨hruns.replaceWhole_eq hn, hruns.replaceFirstWhole_eq hn, hruns.hasWhole_iff hn,
      if_pos rfl⟩

theorem replace_by_runs_beside_letters :
    (∀ c ∈ "T".toList, isIdentChar c = true) ∧
      runs "T<(Tree,T)>éT".toList =
        ["T", "<(", "Tree", ",", "T", ")>é", "T"].map String.toList ∧
      replaceWhole "T<(Tree,T)>éT".toList "T".toList "int".toList =
        "int<(Tree,int)>éint".toList ∧
      replaceFirstWhole "T<(Tree,T)>éT".toList "T".toList "int".toList =
        "int<(Tree,T)>éT".toList ∧
      hasWhole "T<(Tree,T)>éT".toList "T".toList = true := by
  have hpat : ∀ c ∈ "T".toList, isIdentChar c = true := by decide
  have hruns : runs "T<(Tree,T)>éT".toList =
      ["T", "<(", "Tree", ",", "T", ")>é", "T"].map String.toList := by decide +kernel
  obtain ⟨-, hall, hfirst, hhas, -⟩ :=
    replace_by_runs "T<(Tree,T)>éT".toList "T".toList "int".toList hpat
  rw [hruns] at hall hfirst hhas
  exact ⟨hpat, hruns, hall, hfirst, hhas.mpr (by decide)⟩

end Text

end BindingTypes

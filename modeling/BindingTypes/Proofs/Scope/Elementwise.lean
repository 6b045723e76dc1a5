import BindingTypes.Proofs.Scope.Replacement
import Mathlib.Data.List.Induction

namespace BindingTypes.ScopeGraph

open CType

variable {g : ScopeGraph} {resolve : CType → Except Fault CType} {t b d e x : Text}
  {fs : List Text} {r : Option CType}

theorem expandType_of_split {inFront : CType} (hs : split t = .ok (inFront, b)) :
    g.expandType resolve t =
      (g.expandBase resolve b fun p => g.expandType resolve p.1) >>= fun found =>
        found.type.elim
          (if inFront.has "f(".toList || inFront.has "m(".toList then
            (g.expandType resolve inFront).map fun x => x.map (· ++ b)
          else .ok none)
          fun e => .ok (some (inFront ++ e)) := by
  unfold expandType
  rw [expandStep]
  simp only [splitWithin_of_split hs]
  show (·.type) <$> (g.expandBase resolve b _ >>= _ : Except Fault Step) = _
  cases g.expandBase resolve b fun p => (·.type) <$> g.expandStep resolve p.1 with
  | error f => rfl
  | ok found =>
    obtain ⟨type, scope⟩ := found
    cases type with
    | some e => rfl
    | none =>
      show (·.type) <$> (if _hf : inFront ≠ [] then _ else _ : Except Fault Step) = _
      by_cases hf : inFront = []
      · subst hf
        rfl
      · rw [dif_pos hf]
        show _ = if (inFront.has "f(".toList || inFront.has "m(".toList) = true then
          ((·.type) <$> g.expandStep resolve inFront).map _ else _
        split
        · cases g.expandStep resolve inFront with
          | error f => rfl
          | ok s => rfl
        · rfl

theorem expandType_single (hb : elements b = .ok [b]) :
    g.expandType resolve b =
      (·.type) <$> g.expandBase resolve b fun p => g.expandType resolve p.1 := by
  have hs : split b = .ok (([] : List Text).flatten, b) := split_of_elements hb
  rw [expandType_of_split hs]
  cases g.expandBase resolve b fun p => g.expandType resolve p.1 with
  | error f => rfl
  | ok found =>
    obtain ⟨type, scope⟩ := found
    cases type <;> rfl

theorem expandType_word (hb : IsWord b) : g.expandType resolve b =
    (·.type) <$> g.expandName resolve g.current b fun p => g.expandType resolve p.1 := by
  have hsingle : elements b = .ok [b] := elements_unbracketed hb.unbracketed hb.1
  rw [expandType_single hsingle,
    expandBase_simple (isSimple_unbracketed hb.unbracketed) hb.after?_colons]

/-- A word that the current scope declares expands to what it is declared for. -/
theorem expandType_declared {isClass : Bool} (hb : IsWord b)
    (h : (g.scope g.current).typedefs.get? b = some ⟨x, isClass⟩) (hne : x ≠ b) :
    g.expandType resolve b = .ok (some x) := by
  rw [expandType_word hb, expandName_found (lookupName_own h), if_neg hne]
  rfl

theorem expandType_undeclared (hb : IsWord b)
    (h : (g.scope g.current).typedefs.get? b = none) (hlookup : g.lookup g.current b = none) :
    g.expandType resolve b = .ok none := by
  have hunknown : g.lookupName resolve g.current b = .ok (some none) :=
    lookupName_unknown h hlookup (QualifiedName.cutLast?_eq_none hb.unbracketed hb.colon_notMem)
  rw [expandType_word hb, expandName_unknown hunknown (isTemplate_unbracketed hb.unbracketed)]
  rfl

theorem expandType_nil (h : (g.scope g.current).typedefs.get? [] = none)
    (hlookup : g.lookup g.current [] = none) : g.expandType resolve [] = .ok none := by
  have hunknown : g.lookupName resolve g.current [] = .ok (some none) :=
    lookupName_unknown h hlookup rfl
  have hsplit : split [] = .ok ([], []) := by
    rw [split, elements_nil]
    rfl
  rw [expandType_of_split hsplit, expandBase_simple rfl rfl, expandName_unknown hunknown rfl]
  rfl

/-- The base comes first, and what stands in front of it only where it stays as it is. -/
theorem expandType_front (hfs : ∀ f ∈ fs, Dotted f) (hb : elements b = .ok [b]) :
    g.expandType resolve (fs.flatten ++ b) =
      g.expandType resolve b >>= fun r =>
        r.elim
          (if Text.has fs.flatten "f(".toList || Text.has fs.flatten "m(".toList then
            (g.expandType resolve fs.flatten).map fun x => x.map (· ++ b)
          else .ok none)
          fun e => .ok (some (fs.flatten ++ e)) := by
  have helements : elements (fs.flatten ++ b) = .ok (fs ++ [b]) := by
    rw [elements_flatten hfs, hb]
    rfl
  rw [expandType_of_split (split_of_elements helements), expandType_single hb]
  cases g.expandBase resolve b fun p => g.expandType resolve p.1 with
  | error f => rfl
  | ok found => rfl

theorem expandType_cases (hfs : ∀ f ∈ fs, Dotted f) (hb : elements b = .ok [b])
    (h : g.expandType resolve (fs.flatten ++ b) = .ok r) :
    (∃ e, g.expandType resolve b = .ok (some e) ∧ r = some (fs.flatten ++ e)) ∨
      (g.expandType resolve b = .ok none ∧ (r = none ∨
        ∃ x, fs ≠ [] ∧ g.expandType resolve fs.flatten = .ok (some x) ∧ r = some (x ++ b))) := by
  rw [expandType_front hfs hb] at h
  obtain ⟨own, hown, h⟩ := bind_eq_ok h
  cases own with
  | some e => exact Or.inl ⟨e, hown, (Except.ok.inj h).symm⟩
  | none =>
    refine Or.inr ⟨hown, ?_⟩
    change (if _ then _ else _ : Except Fault (Option CType)) = _ at h
    split at h
    · rename_i hhas
      obtain ⟨y, hy, rfl⟩ := map_eq_ok h
      cases y with
      | none => exact Or.inl rfl
      | some x =>
        refine Or.inr ⟨x, ?_, hy, rfl⟩
        rintro rfl
        cases hhas
    · exact Or.inl (Except.ok.inj h).symm

theorem expandType_of_base (hfs : ∀ f ∈ fs, Dotted f) (hb : elements b = .ok [b])
    (h : g.expandType resolve b = .ok (some e)) :
    g.expandType resolve (fs.flatten ++ b) = .ok (some (fs.flatten ++ e)) := by
  rw [expandType_front hfs hb, h]
  rfl

theorem split_of_expandType (h : g.expandType resolve t = .ok r) :
    ∃ es, elements t = .ok es := by
  unfold expandType at h
  rw [expandStep] at h
  obtain ⟨s, hs, -⟩ := map_eq_ok h
  obtain ⟨⟨⟨inFront, b⟩, hbound⟩, hsplit, -⟩ := bind_eq_ok hs
  unfold splitWithin at hsplit
  split at hsplit
  · cases hsplit
  · rename_i parts hparts
    obtain ⟨es, hes, -⟩ := map_eq_ok hparts
    exact ⟨es, hes⟩

namespace Readable

variable (hg : g.Readable)
include hg

/-- What an expansion gives is written as types are. -/
theorem written_expandType (h : g.expandType resolve t = .ok (some x)) : IsWritten x := by
  induction hn : t.length using Nat.strongRecOn generalizing t x with
  | ind n ih =>
    subst hn
    obtain ⟨es, hes⟩ := split_of_expandType h
    have hbalanced : ∀ (k : Nat) (_ : k ≤ t.length) (p : { p : CType // p.length < k }) (e : CType),
        g.expandType resolve p.1 = .ok (some e) → Balanced e := fun k hk p e hp =>
      (ih p.1.length (Nat.lt_of_lt_of_le p.2 hk) hp rfl).1
    by_cases ht : t = []
    · subst ht
      have hb : split [] = .ok ([], []) := by
        rw [split, elements_nil]
        rfl
      rw [expandType_of_split hb] at h
      obtain ⟨found, hfound, h⟩ := bind_eq_ok h
      cases htype : found.type with
      | none =>
        rw [htype] at h
        cases h
      | some e =>
        rw [htype] at h
        cases h
        exact (hg.written_expandBase (hbalanced _ (Nat.le_refl _)) hfound htype balanced_nil).1
    · obtain ⟨fs, b, rfl, hfs, hb, hbne⟩ := elements_cases hes ht
      have hflat : t = fs.flatten ++ b := by
        rw [← flatten_of_elements hes]
        simp
      have hlength : fs.flatten.length + b.length = t.length := by
        rw [hflat, List.length_append]
      have hbb : Balanced b := balanced_of_elements hb
      have hfb : Balanced fs.flatten := balanced_flatten fun f hf => (hfs f hf).balanced
      rw [hflat] at h
      rcases expandType_cases hfs hb h with ⟨e, he, hx⟩ | ⟨-, hx | ⟨y, hne, hy, hx⟩⟩
      · cases hx
        rw [expandType_single hb] at he
        obtain ⟨found, hfound, htype⟩ := map_eq_ok he
        obtain ⟨hw, -⟩ := hg.written_expandBase (hbalanced _ (by omega)) hfound htype hbb
        exact ⟨hfb.append hw.1, by simp [hw.2]⟩
      · cases hx
      · cases hx
        have hpos : 0 < b.length := List.length_pos_iff.mpr hbne
        have hy' : IsWritten y := ih _ (by omega) hy rfl
        exact ⟨hy'.1.append hbb, by simp [hbne]⟩

theorem dotted_expandType (hd : Dotted d) (h : g.expandType resolve d = .ok (some e)) :
    Dotted e := by
  rw [expandType_single hd.single] at h
  obtain ⟨found, hfound, htype⟩ := map_eq_ok h
  have hexpand : ∀ (p : { p : CType // p.length < d.length }) (e : CType),
      g.expandType resolve p.1 = .ok (some e) → Balanced e :=
    fun p e hp => (hg.written_expandType hp).1
  exact (hg.written_expandBase hexpand hfound htype hd.balanced).2 hd

/-- A step in front of a base keeps the number of elements there. -/
theorem fronts_expandType (hfs : ∀ f ∈ fs, Dotted f)
    (h : g.expandType resolve fs.flatten = .ok (some x)) (hne : fs ≠ []) :
    ∃ fs' : List Text, x = fs'.flatten ∧ (∀ f ∈ fs', Dotted f) ∧ fs'.length = fs.length := by
  induction fs using List.reverseRecOn generalizing x with
  | nil => exact absurd rfl hne
  | append_singleton fs d ih =>
    have hfront : ∀ f ∈ fs, Dotted f := fun f hf => hfs f (List.mem_append_left _ hf)
    have hd : Dotted d := hfs d (List.mem_append_right _ List.mem_cons_self)
    have hflat : (fs ++ [d]).flatten = fs.flatten ++ d := by simp
    rw [hflat] at h
    rcases expandType_cases hfront hd.single h with ⟨e, he, hx⟩ | ⟨-, hx | ⟨y, hfs', hy, hx⟩⟩
    · cases hx
      have hde : Dotted e := hg.dotted_expandType hd he
      refine ⟨fs ++ [e], by simp, fun f hf => ?_, by simp⟩
      rcases List.mem_append.mp hf with hf | hf
      · exact hfront f hf
      · rw [List.mem_singleton.mp hf]
        exact hde
    · cases hx
    · cases hx
      obtain ⟨fs', rfl, hdotted, hlength⟩ := ih hfront hy hfs'
      refine ⟨fs' ++ [d], by simp, fun f hf => ?_, by simp [hlength]⟩
      rcases List.mem_append.mp hf with hf | hf
      · exact hdotted f hf
      · rw [List.mem_singleton.mp hf]
        exact hd

end Readable

end BindingTypes.ScopeGraph

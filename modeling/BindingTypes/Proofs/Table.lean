import Mathlib.Data.List.Perm.Subperm
import Mathlib.Data.List.Sort
import BindingTypes.Table

namespace BindingTypes

namespace Table

variable {α : Type}

theorem contains_insert {t : Table α} {k k' : Text} {a : α} :
    (t.insert k a).contains k' = true ↔ k' = k ∨ t.contains k' = true := by
  simp only [contains, get?_insert]
  by_cases h : k' = k <;> simp [h]

theorem contains_iff {t : Table α} {k : Text} :
    t.contains k = true ↔ ∃ a, t.get? k = some a := by
  simp [contains, Option.isSome_iff_exists]

theorem mem_keys_iff_contains {t : Table α} {k : Text} : k ∈ t.keys ↔ t.contains k = true :=
  mem_keys_iff

theorem mem_entries_of_get? {t : Table α} {k : Text} {a : α} (h : t.get? k = some a) :
    (k, a) ∈ t.entries := by
  obtain ⟨cells, ascending⟩ := t
  change lookupIn k.measured cells = some a at h
  change (k, a) ∈ cells.map fun c => (c.1.text, c.2)
  clear ascending
  induction cells with
  | nil => cases h
  | cons cell cells ih =>
    obtain ⟨k', a'⟩ := cell
    rw [lookupIn_cons, MeasuredText.text_measured] at h
    split at h
    · rename_i hk
      cases h
      exact List.mem_cons.mpr (Or.inl (by rw [hk]))
    · exact List.mem_cons_of_mem _ (ih h)

theorem keys_pairwise (t : Table α) : t.keys.Pairwise (· < ·) :=
  List.pairwise_map.mpr t.ascending

theorem nodup_keys (t : Table α) : t.keys.Nodup := by
  refine t.keys_pairwise.imp ?_
  rintro a _ h rfl
  exact List.lt_irrefl _ h

theorem get?_of_mem_entries {t : Table α} {k : Text} {a : α} (h : (k, a) ∈ t.entries) :
    t.get? k = some a := by
  obtain ⟨cells, ascending⟩ := t
  unfold entries at h
  unfold get?
  dsimp only at h ⊢
  induction cells with
  | nil => cases h
  | cons cell cells ih =>
    obtain ⟨hfirst, hrest⟩ := List.pairwise_cons.mp ascending
    rw [List.map_cons] at h
    rw [lookupIn_cons]
    rcases List.mem_cons.mp h with h | h
    · cases h
      simp
    · obtain ⟨other, ho, he⟩ := List.mem_map.mp h
      have hne : k ≠ cell.1.text := by
        rintro rfl
        have hlt := hfirst other ho
        rw [(Prod.mk.inj he).1] at hlt
        exact List.lt_irrefl _ hlt
      rw [MeasuredText.text_measured, if_neg hne]
      exact ih hrest h

/-- Tables with the same keys list them in the same order. -/
theorem keys_eq {β : Type} {t : Table α} {u : Table β}
    (h : ∀ k, t.contains k = true ↔ u.contains k = true) : t.keys = u.keys := by
  refine (keys_pairwise t).eq_of_mem_iff (keys_pairwise u) fun k => ?_
  rw [mem_keys_iff_contains, mem_keys_iff_contains, h]

theorem keys_insert {t : Table α} {k : Text} {a : α} (h : t.contains k = true) :
    (t.insert k a).keys = t.keys := by
  refine keys_eq fun k' => ?_
  rw [contains_insert]
  constructor
  · rintro (rfl | hk)
    · exact h
    · exact hk
  · exact Or.inr

theorem length_le_size {t : Table α} {l : List Text} (hl : l.Nodup) (hsub : l ⊆ t.keys) :
    l.length ≤ t.size := by
  have hlength := (hl.subperm hsub).length_le
  rwa [keys, List.length_map] at hlength

end Table

end BindingTypes

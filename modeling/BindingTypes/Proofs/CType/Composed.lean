import BindingTypes.Proofs.CType.Dotted

namespace BindingTypes.CType

variable {t t' u e b c : Text} {fs fs' gs : List Text}

/-- The type is the elements `fs` in front of the base `b`. -/
structure Composed (t : CType) (fs : List Text) (b : Text) : Prop where
  eq : t = fs.flatten ++ b
  dotted : ∀ f ∈ fs, Dotted f
  single : elements b = .ok [b]
  ne_nil : b ≠ []

theorem composed_of_elements {es : List Text} (h : elements t = .ok es) (ht : t ≠ []) :
    ∃ fs b, Composed t fs b := by
  obtain ⟨fs, b, rfl, hfs, hb, hne⟩ := elements_cases h ht
  have hflat : t = fs.flatten ++ b := by
    rw [← flatten_of_elements h]
    simp
  exact ⟨fs, b, hflat, hfs, hb, hne⟩

theorem composed_of_balanced (h : Balanced t) (ht : t ≠ []) : ∃ fs b, Composed t fs b := by
  obtain ⟨es, hes⟩ := elements_of_balanced h
  exact composed_of_elements hes ht

namespace Composed

theorem elements (h : Composed t fs b) : CType.elements t = .ok (fs ++ [b]) := by
  rw [h.eq, elements_flatten h.dotted, h.single]
  rfl

theorem balanced (h : Composed t fs b) : Balanced t := balanced_of_elements h.elements

theorem whole_ne_nil (h : Composed t fs b) : t ≠ [] := by
  have hne := h.ne_nil
  rw [h.eq]
  simp [hne]

theorem unique (h : Composed t fs b) (h' : Composed t gs c) : fs = gs ∧ b = c := by
  have hes : fs ++ [b] = gs ++ [c] := Except.ok.inj (h.elements.symm.trans h'.elements)
  obtain ⟨hfs, hb⟩ := List.append_inj' hes rfl
  exact ⟨hfs, List.singleton_inj.mp hb⟩

theorem split (h : Composed t fs b) : CType.split t = .ok (fs.flatten, b) := by
  rw [CType.split, h.elements]
  simp [Except.map]

theorem base (h : Composed t fs b) : CType.base t = .ok b := by
  rw [CType.base, h.split]
  rfl

theorem outline (h : Composed t fs b) :
    CType.outline t = .ok ⟨t.measured, fs.length + 1, b.measured⟩ := by
  rw [CType.outline, h.elements]
  simp [Except.map]

theorem length_le (h : Composed t fs b) : fs.length ≤ t.length := by
  have hflat : ∀ gs : List Text, (∀ f ∈ gs, Dotted f) → gs.length ≤ gs.flatten.length := by
    intro gs hgs
    induction gs with
    | nil => exact Nat.le_refl 0
    | cons f gs ih =>
      obtain ⟨hf, hgs⟩ := List.forall_mem_cons.mp hgs
      have hpos := List.length_pos_iff.mpr hf.ne_nil
      have hrest := ih hgs
      simp only [List.length_cons, List.flatten_cons, List.length_append]
      omega
  have hfs := hflat fs h.dotted
  rw [h.eq, List.length_append]
  omega

theorem behind (h : Composed t fs b) (hgs : ∀ f ∈ gs, Dotted f) :
    Composed (gs.flatten ++ t) (gs ++ fs) b where
  eq := by rw [h.eq, List.flatten_append, List.append_assoc]
  dotted f hf := by
    rcases List.mem_append.mp hf with hf | hf
    · exact hgs f hf
    · exact h.dotted f hf
  single := h.single
  ne_nil := h.ne_nil

/-- More elements in front of a type that is in place of the base. -/
theorem under (h : Composed t fs b) (he : Composed e gs c) :
    Composed (fs.flatten ++ e) (fs ++ gs) c := he.behind h.dotted

theorem wraps_iff (h : Composed t fs b) (h' : Composed u gs c) :
    CType.wraps t u = .ok true ↔ gs.length < fs.length ∧ b = c := by
  have hw : CType.wraps t u =
      .ok (decide (gs.length + 1 < fs.length + 1) && b.measured.same c.measured) := by
    rw [CType.wraps, h.outline, h'.outline]
    rfl
  rw [hw, Except.ok.injEq, Bool.and_eq_true, decide_eq_true_eq, MeasuredText.same_iff]
  exact and_congr_left' (by omega)

end Composed

/-- The same base under `k` more elements. -/
def Twin (k : Nat) (t t' : CType) : Prop :=
  ∃ fs fs' b, Composed t fs b ∧ Composed t' fs' b ∧ fs'.length = fs.length + k

theorem Twin.wraps {k : Nat} (h : Twin k t t') (hk : 0 < k) : CType.wraps t' t = .ok true := by
  obtain ⟨fs, fs', b, ht, ht', hlength⟩ := h
  exact (ht'.wraps_iff ht).mpr ⟨by omega, rfl⟩

theorem twin_of_wraps (h : CType.wraps t' t = .ok true) : ∃ k, 0 < k ∧ Twin k t t' := by
  unfold CType.wraps at h
  obtain ⟨o', ho', h⟩ := bind_eq_ok h
  obtain ⟨o, ho, h⟩ := bind_eq_ok h
  obtain ⟨es', hes', -⟩ := map_eq_ok ho'
  obtain ⟨es, hes, -⟩ := map_eq_ok ho
  have hnil : CType.outline [] = .ok ⟨Text.measured [], 0, Text.measured []⟩ := by
    rw [CType.outline, elements_nil]
    rfl
  have hwraps : o'.wraps o = true := Except.ok.inj h
  obtain ⟨hsize, hbase⟩ := Bool.and_eq_true_iff.mp hwraps
  have ht' : t' ≠ [] := by
    rintro rfl
    cases hnil.symm.trans ho'
    exact Nat.not_lt_zero _ (of_decide_eq_true hsize)
  obtain ⟨fs', b', h'⟩ := composed_of_elements hes' ht'
  have ht : t ≠ [] := by
    rintro rfl
    cases hnil.symm.trans ho
    cases h'.outline.symm.trans ho'
    exact h'.ne_nil (MeasuredText.same_iff.mp hbase)
  obtain ⟨fs, b, hc⟩ := composed_of_elements hes ht
  obtain ⟨hlength, rfl⟩ := (h'.wraps_iff hc).mp (by
    rw [CType.wraps, ho', ho]
    exact congrArg Except.ok hwraps)
  exact ⟨fs'.length - fs.length, by omega, fs, fs', b', hc, h', by omega⟩

end BindingTypes.CType

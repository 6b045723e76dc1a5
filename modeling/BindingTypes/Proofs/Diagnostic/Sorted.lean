import BindingTypes.Diagnostic.Queue
import Mathlib.Data.Char
import Mathlib.Order.Compare

namespace BindingTypes

theorem compare_text_eq_lt_iff {s t : Text} : compare s t = .lt ↔ s < t := by
  induction s generalizing t with
  | nil => cases t <;> simp
  | cons c s ih =>
    cases t with
    | nil => simp
    | cons d t =>
      have hcd : compare c d = .lt ↔ c < d := compare_lt_iff_lt
      rw [List.compare_cons_cons, Ordering.then_eq_lt, ih, hcd,
        Std.LawfulEqOrd.compare_eq_iff_eq, List.cons_lt_cons_iff]

namespace Location

theorem order_isLE_iff {a b : Location} :
    (a.order b).isLE ↔ a.file < b.file ∨ a.file = b.file ∧ a.line ≤ b.line := by
  rw [order, Ordering.isLE_then_iff_or, compare_text_eq_lt_iff,
    Std.LawfulEqOrd.compare_eq_iff_eq, Nat.isLE_compare]

instance : Std.TransCmp Location.order :=
  inferInstanceAs (Std.TransCmp (compareLex (compareOn Location.file) (compareOn Location.line)))

end Location

/-- The same diagnostics, files in the order of their names and lines of a file in order, and at
each place the order of the report. -/
structure ByPlace (reported shown : List Diagnostic) : Prop where
  perm : shown.Perm reported
  ordered : shown.Pairwise fun a b => a.location.file < b.location.file ∨
    a.location.file = b.location.file ∧ a.location.line ≤ b.location.line
  stable : ∀ l : Location, shown.filter (·.location = l) = reported.filter (·.location = l)

theorem DiagnosticQueue.byPlace_sorted (q : DiagnosticQueue) : ByPlace q.diagnostics q.sorted := by
  have htrans : ∀ a b c : Diagnostic, (a.location.order b.location).isLE →
      (b.location.order c.location).isLE → (a.location.order c.location).isLE :=
    fun _ _ _ => Std.TransCmp.isLE_trans
  have htotal : ∀ a b : Diagnostic,
      ((a.location.order b.location).isLE || (b.location.order a.location).isLE) := by
    intro a b
    have hswap : b.location.order a.location = (a.location.order b.location).swap :=
      Std.OrientedCmp.eq_swap
    rw [hswap]
    cases a.location.order b.location <;> rfl
  have hperm : q.sorted.Perm q.diagnostics := List.mergeSort_perm _ _
  refine ⟨hperm, ?_, fun l => ?_⟩
  · exact (List.pairwise_mergeSort htrans htotal _).imp Location.order_isLE_iff.mp
  · -- The diagnostics of one place are in order as they were reported, so sorting keeps them.
    have hplace : ∀ d ∈ q.diagnostics.filter (·.location = l), d.location = l := fun d hd =>
      of_decide_eq_true (List.mem_filter.mp hd).2
    have hequal : (q.diagnostics.filter (·.location = l)).Pairwise fun a b =>
        (a.location.order b.location).isLE := by
      refine List.pairwise_iff_forall_sublist.mpr fun {a b} hab => ?_
      rw [hplace a (hab.subset (by simp)), hplace b (hab.subset (by simp))]
      exact Std.ReflCmp.isLE_rfl
    have hkept := (List.sublist_mergeSort htrans htotal hequal List.filter_sublist).filter
      (·.location = l)
    simp only [List.filter_filter, Bool.and_self] at hkept
    exact (hkept.eq_of_length (hperm.filter _).length_eq.symm).symm

end BindingTypes

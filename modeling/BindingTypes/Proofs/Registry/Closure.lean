import Mathlib.Algebra.GroupWithZero.Nat
import Mathlib.Algebra.Order.BigOperators.Group.List
import Mathlib.Algebra.Order.Group.Nat
import Mathlib.Logic.Relation
import BindingTypes.Proofs.Registry.Records
import BindingTypes.Registry.Equivalence

namespace BindingTypes

/-- A sum loses at least what one of its terms loses. -/
theorem sum_add_le_sum {α : Type} {f g : α → Nat} {l : List α} {x : α} {k : Nat}
    (hle : ∀ a, g a ≤ f a) (hx : x ∈ l) (hk : g x + k ≤ f x) :
    (l.map g).sum + k ≤ (l.map f).sum := by
  obtain ⟨front, back, rfl⟩ := List.append_of_mem hx
  have hfront : (front.map g).sum ≤ (front.map f).sum := List.sum_le_sum fun a _ => hle a
  have hback : (back.map g).sum ≤ (back.map f).sum := List.sum_le_sum fun a _ => hle a
  simp only [List.map_append, List.sum_append, List.map_cons, List.sum_cons]
  omega

namespace Registry

variable {r : Registry} {work : List Text} {seen found : Table Unit} {fuel : Nat}

/-- A type that `a` denotes lists `b`. -/
def Lists (r : Registry) (a b : Text) : Prop :=
  ∃ t, (r.denotedBy a).contains t = true ∧ (r.namesOf t).contains b = true

/-- The listings of the types that were not looked at yet. -/
def unlisted (r : Registry) (seen : Table Unit) : Nat :=
  (r.names.entries.map fun e => if seen.contains e.1 then 0 else e.2.size).sum

theorem unlisted_empty : r.unlisted ∅ = r.listings := by
  rw [unlisted, listings, List.sum, List.foldr_map]
  rfl

theorem unlisted_insert {t : CType} (ht : seen.contains t = false) :
    r.unlisted (seen.insert t ()) + (r.namesOf t).keys.length ≤ r.unlisted seen := by
  have hle : ∀ e : CType × Table CType,
      (if (seen.insert t ()).contains e.1 then 0 else e.2.size) ≤
        if seen.contains e.1 then 0 else e.2.size := by
    intro e
    by_cases he : seen.contains e.1 = true
    · rw [if_pos he, if_pos (Table.contains_insert.mpr (Or.inr he))]
    · rw [if_neg he]
      split <;> omega
  cases hnames : r.names.get? t with
  | none =>
    have hnone : (r.namesOf t).keys.length = 0 := by
      rw [namesOf, hnames]
      rfl
    rw [hnone]
    exact List.sum_le_sum fun e _ => hle e
  | some names =>
    have hsome : (r.namesOf t).keys.length = names.size := by
      rw [namesOf, hnames]
      exact List.length_map _
    rw [hsome]
    refine sum_add_le_sum hle (Table.mem_entries_of_get? hnames) ?_
    rw [if_pos (Table.contains_insert.mpr (Or.inl rfl)), if_neg (by simp [ht]), Nat.zero_add]

/-- What a step of the closure does with the types that a name denotes. -/
structure Expanded (r : Registry) (ts : List CType) (seen : Table Unit) (names : List Text)
    (seen' : Table Unit) : Prop where
  seen_iff : ∀ t, seen'.contains t = true ↔ t ∈ ts ∨ seen.contains t = true
  listed : ∀ n ∈ names, ∃ t ∈ ts, (r.namesOf t).contains n = true
  all : ∀ t ∈ ts, seen.contains t = false → ∀ n, (r.namesOf t).contains n = true → n ∈ names
  budget : r.unlisted seen' + names.length ≤ r.unlisted seen

theorem expanded (r : Registry) (ts : List CType) (seen : Table Unit) :
    r.Expanded ts seen (r.expandTypes ts seen).1 (r.expandTypes ts seen).2 := by
  induction ts generalizing seen with
  | nil => exact ⟨by simp [expandTypes], nofun, nofun, Nat.le_refl _⟩
  | cons t ts ih =>
    unfold expandTypes
    by_cases ht : seen.contains t = true
    · rw [if_pos ht]
      obtain ⟨hseen, hlisted, hall, hbudget⟩ := ih seen
      refine ⟨fun u => ?_, fun n hn => ?_, fun u hu hnew => ?_, hbudget⟩
      · rw [hseen, List.mem_cons]
        by_cases hu : u = t
        · simp [hu, ht]
        · simp [hu]
      · obtain ⟨u, hu, hn⟩ := hlisted n hn
        exact ⟨u, List.mem_cons_of_mem _ hu, hn⟩
      · rcases List.mem_cons.mp hu with rfl | hu
        · rw [ht] at hnew
          cases hnew
        · exact hall u hu hnew
    · rw [if_neg ht]
      have hnew : seen.contains t = false := by simpa using ht
      obtain ⟨hseen, hlisted, hall, hbudget⟩ := ih (seen.insert t ())
      refine ⟨fun u => ?_, fun n hn => ?_, fun u hu hunew n hn => ?_, ?_⟩
      · rw [hseen, Table.contains_insert, List.mem_cons]
        tauto
      · rcases List.mem_append.mp hn with hn | hn
        · exact ⟨t, List.mem_cons_self, Table.mem_keys_iff_contains.mp hn⟩
        · obtain ⟨u, hu, hn⟩ := hlisted n hn
          exact ⟨u, List.mem_cons_of_mem _ hu, hn⟩
      · by_cases hut : u = t
        · subst hut
          exact List.mem_append_left _ (Table.mem_keys_iff_contains.mpr hn)
        · have hu : u ∈ ts := (List.mem_cons.mp hu).resolve_left hut
          refine List.mem_append_right _ (hall u hu ?_ n hn)
          rw [Bool.eq_false_iff, ne_eq, Table.contains_insert]
          simp [hut, hunew]
      · have hinsert := unlisted_insert (r := r) hnew
        simp only [List.length_append]
        omega

/-- The types of found names were looked at, and the names listed for these types are found or
wait. -/
structure Exploring (r : Registry) (work : List Text) (seen found : Table Unit) : Prop where
  looked : ∀ n t, found.contains n = true → (r.denotedBy n).contains t = true →
    seen.contains t = true
  noted : ∀ t n, seen.contains t = true → (r.namesOf t).contains n = true →
    found.contains n = true ∨ n ∈ work

theorem exploring_start (name : Text) : r.Exploring [name] ∅ ∅ := by
  constructor
  · intro n t h
    cases h
  · intro t n h
    cases h

theorem Exploring.pass {name : Text} (h : r.Exploring (name :: work) seen found)
    (hn : found.contains name = true) : r.Exploring work seen found := by
  refine ⟨h.looked, fun t n ht hl => ?_⟩
  rcases h.noted t n ht hl with hf | hw
  · exact Or.inl hf
  · rcases List.mem_cons.mp hw with rfl | hw
    · exact Or.inl hn
    · exact Or.inr hw

theorem Exploring.step {name : Text} {names : List Text} {seen' : Table Unit}
    (h : r.Exploring (name :: work) seen found)
    (he : r.Expanded (r.denotedBy name).keys seen names seen') :
    r.Exploring (names ++ work) seen' (found.insert name ()) := by
  refine ⟨fun n t hn ht => ?_, fun t n ht hl => ?_⟩
  · rcases Table.contains_insert.mp hn with rfl | hn
    · exact (he.seen_iff t).mpr (Or.inl (Table.mem_keys_iff_contains.mpr ht))
    · exact (he.seen_iff t).mpr (Or.inr (h.looked n t hn ht))
  · cases hs : seen.contains t with
    | true =>
      rcases h.noted t n hs hl with hf | hw
      · exact Or.inl (Table.contains_insert.mpr (Or.inr hf))
      · rcases List.mem_cons.mp hw with rfl | hw
        · exact Or.inl (Table.contains_insert.mpr (Or.inl rfl))
        · exact Or.inr (List.mem_append_right _ hw)
    | false =>
      rcases (he.seen_iff t).mp ht with ht | ht
      · exact Or.inr (List.mem_append_left _ (he.all t ht hs n hl))
      · rw [hs] at ht
        cases ht

/-- With a step for each name that waits and each listing to come, the closure holds everything it
started from and everything listed from there on. -/
theorem Exploring.closed (h : r.Exploring work seen found)
    (hf : work.length + r.unlisted seen ≤ fuel) :
    (∀ n, found.contains n = true ∨ n ∈ work →
      (r.closure fuel work seen found).contains n = true) ∧
    ∀ a b, (r.closure fuel work seen found).contains a = true → r.Lists a b →
      (r.closure fuel work seen found).contains b = true := by
  induction fuel generalizing work seen found with
  | zero =>
    have hwork : work = [] := List.length_eq_zero_iff.mp (by omega)
    subst hwork
    refine ⟨fun n hn => hn.resolve_right (List.not_mem_nil), ?_⟩
    rintro a b ha ⟨t, ht, hb⟩
    exact (h.noted t b (h.looked a t ha ht) hb).resolve_right List.not_mem_nil
  | succ fuel ih =>
    cases work with
    | nil =>
      refine ⟨fun n hn => hn.resolve_right (List.not_mem_nil), ?_⟩
      rintro a b ha ⟨t, ht, hb⟩
      exact (h.noted t b (h.looked a t ha ht) hb).resolve_right List.not_mem_nil
    | cons name work =>
      rw [List.length_cons] at hf
      unfold closure
      by_cases hn : found.contains name = true
      · rw [if_pos hn]
        obtain ⟨hstart, hclosed⟩ := ih (h.pass hn) (by omega)
        refine ⟨fun m hm => ?_, hclosed⟩
        rcases hm with hm | hm
        · exact hstart m (Or.inl hm)
        · rcases List.mem_cons.mp hm with rfl | hm
          · exact hstart _ (Or.inl hn)
          · exact hstart m (Or.inr hm)
      · rw [if_neg hn]
        have he := r.expanded (r.denotedBy name).keys seen
        have hbudget := he.budget
        obtain ⟨hstart, hclosed⟩ := ih (h.step he) (by rw [List.length_append]; omega)
        refine ⟨fun m hm => ?_, hclosed⟩
        rcases hm with hm | hm
        · exact hstart m (Or.inl (Table.contains_insert.mpr (Or.inr hm)))
        · rcases List.mem_cons.mp hm with rfl | hm
          · exact hstart _ (Or.inl (Table.contains_insert.mpr (Or.inl rfl)))
          · exact hstart m (Or.inr (List.mem_append_right _ hm))

/-- The closure holds no more than what it started from and what is listed from there on. -/
theorem reached_of_closure {P : Text → Prop} (hP : ∀ a b, P a → r.Lists a b → P b)
    (hwork : ∀ n ∈ work, P n) (hfound : ∀ n, found.contains n = true → P n) :
    ∀ n, (r.closure fuel work seen found).contains n = true → P n := by
  induction fuel generalizing work seen found with
  | zero => exact hfound
  | succ fuel ih =>
    cases work with
    | nil => exact hfound
    | cons name work =>
      have hname : P name := hwork name List.mem_cons_self
      have hrest : ∀ n ∈ work, P n := fun n hn => hwork n (List.mem_cons_of_mem _ hn)
      unfold closure
      split
      · exact ih hrest hfound
      · have he := r.expanded (r.denotedBy name).keys seen
        refine ih (fun n hn => ?_) (fun n hn => ?_)
        · rcases List.mem_append.mp hn with hn | hn
          · obtain ⟨t, ht, hl⟩ := he.listed n hn
            exact hP name n hname ⟨t, Table.mem_keys_iff_contains.mp ht, hl⟩
          · exact hrest n hn
        · rcases Table.contains_insert.mp hn with rfl | hn
          · exact hname
          · exact hfound n hn

/-- Enough steps are as good as more. -/
theorem closure_of_le {more : Nat} (hf : work.length + r.unlisted seen ≤ fuel)
    (hle : fuel ≤ more) : r.closure more work seen found = r.closure fuel work seen found := by
  induction fuel generalizing work seen found more with
  | zero =>
    have hwork : work = [] := List.length_eq_zero_iff.mp (by omega)
    subst hwork
    cases more <;> rfl
  | succ fuel ih =>
    obtain ⟨more, rfl⟩ : ∃ k, more = k + 1 := ⟨more - 1, by omega⟩
    cases work with
    | nil => rfl
    | cons name work =>
      rw [List.length_cons] at hf
      unfold closure
      by_cases hn : found.contains name = true
      · rw [if_pos hn, if_pos hn]
        exact ih (by omega) (by omega)
      · rw [if_neg hn, if_neg hn]
        have hbudget := (r.expanded (r.denotedBy name).keys seen).budget
        exact ih (by rw [List.length_append]; omega) (by omega)

theorem equivalents_ascending (name : Text) : (r.equivalents name).Pairwise (· < ·) :=
  Table.keys_pairwise _

/-- The names equivalent to a name are those that listings lead to. -/
theorem mem_equivalents_iff {name n : Text} :
    n ∈ r.equivalents name ↔ Relation.ReflTransGen r.Lists name n := by
  have hfuel : [name].length + r.unlisted ∅ ≤ r.listings + 2 := by
    rw [unlisted_empty]
    simp only [List.length_singleton]
    omega
  obtain ⟨hstart, hclosed⟩ := (exploring_start (r := r) name).closed hfuel
  refine Table.mem_keys_iff_contains.trans ⟨fun h => ?_, fun h => ?_⟩
  · refine reached_of_closure (P := Relation.ReflTransGen r.Lists name)
      (fun a b ha hab => ha.tail hab) (fun m hm => ?_) (fun m hm => ?_) n h
    · rw [List.mem_singleton.mp hm]
    · cases hm
  · induction h with
    | refl => exact hstart name (Or.inr List.mem_cons_self)
    | tail _ hab ih => exact hclosed _ _ ih hab

/-- A larger bound gives no other list. -/
theorem equivalents_of_le {name : Text} (h : r.listings + 2 ≤ fuel) :
    (r.closure fuel [name] ∅ ∅).keys = r.equivalents name := by
  have hfuel : [name].length + r.unlisted ∅ ≤ r.listings + 2 := by
    rw [unlisted_empty]
    simp only [List.length_singleton]
    omega
  rw [equivalents, closure_of_le hfuel h]

end Registry

end BindingTypes

import BindingTypes.Proofs.Registry.Closure

namespace BindingTypes

namespace Registry

variable {r : Registry} {checked checked' checked'' : Table Unit} {names : List Text}

/-- `t` is among the types that `name` denotes, and has client data. -/
def Carries (r : Registry) (name : Text) (data : Text) : Prop :=
  ∃ t, (r.denotedBy name).contains t = true ∧ r.clientData.get? t = some data

/-- The types that `name` denotes have no client data, and all names listed for them are
checked. -/
def Exhausted (r : Registry) (checked : Table Unit) (name : Text) : Prop :=
  ∀ t, (r.denotedBy name).contains t = true → r.clientData.get? t = none ∧
    ∀ n, (r.namesOf t).contains n = true → checked.contains n = true

/-- What a search that found nothing leaves: what it checked is exhausted. -/
structure Searched (r : Registry) (checked checked' : Table Unit) : Prop where
  kept : ∀ n, checked.contains n = true → checked'.contains n = true
  exhausted : ∀ n, checked'.contains n = true → checked.contains n = false →
    r.Exhausted checked' n

theorem Searched.refl (r : Registry) (checked : Table Unit) : r.Searched checked checked :=
  ⟨fun _ h => h, fun n h h' => by rw [h] at h'; cases h'⟩

theorem Searched.trans (h : r.Searched checked checked') (h' : r.Searched checked' checked'') :
    r.Searched checked checked'' := by
  refine ⟨fun n hn => h'.kept n (h.kept n hn), fun n hn hnew => ?_⟩
  cases hmid : checked'.contains n with
  | true =>
    intro t ht
    obtain ⟨hnone, hnames⟩ := h.exhausted n hmid hnew t ht
    exact ⟨hnone, fun m hm => h'.kept m (hnames m hm)⟩
  | false => exact h'.exhausted n hn hmid

/-- The names of a list that are still to be checked. -/
def unchecked (all : List Text) (checked : Table Unit) : Nat :=
  (all.map fun n => if checked.contains n then 0 else 1).sum

theorem unchecked_le_of_kept {all : List Text}
    (h : ∀ n, checked.contains n = true → checked'.contains n = true) :
    unchecked all checked' ≤ unchecked all checked := by
  refine List.sum_le_sum fun n _ => ?_
  by_cases hn : checked.contains n = true
  · rw [if_pos hn, if_pos (h n hn)]
  · rw [if_neg hn]
    split <;> omega

theorem unchecked_insert {all : List Text} {name : Text} (hmem : name ∈ all)
    (hn : checked.contains name = false) :
    unchecked all (checked.insert name ()) + 1 ≤ unchecked all checked := by
  refine sum_add_le_sum (fun n => ?_) hmem ?_
  · by_cases hc : checked.contains n = true
    · rw [if_pos hc, if_pos (Table.contains_insert.mpr (Or.inr hc))]
    · rw [if_neg hc]
      split <;> omega
  · rw [if_pos (Table.contains_insert.mpr (Or.inl rfl)), if_neg (by simp [hn])]

theorem unchecked_le (all : List Text) (checked : Table Unit) :
    unchecked all checked ≤ all.length := by
  induction all with
  | nil => exact Nat.le_refl _
  | cons n all ih =>
    have hone : (if checked.contains n = true then 0 else 1) ≤ 1 := by split <;> omega
    simp only [unchecked, List.map_cons, List.sum_cons, List.length_cons] at ih ⊢
    omega

/-- All names that a search from `name` can come to. -/
def within (r : Registry) (name : Text) : List Text :=
  name :: r.names.entries.flatMap fun e => e.2.keys

theorem length_within (name : Text) : (r.within name).length = r.listings + 1 := by
  unfold within listings
  generalize r.names.entries = l
  rw [List.length_cons, List.length_flatMap]
  congr 1
  induction l with
  | nil => rfl
  | cons e l ih =>
    rw [List.map_cons, List.sum_cons, List.foldr_cons, ih]
    exact congrArg (· + _) (List.length_map _)

theorem mem_within {name n : Text} {t : CType} (h : (r.namesOf t).contains n = true) :
    n ∈ r.within name := by
  cases hnames : r.names.get? t with
  | none =>
    rw [namesOf, hnames] at h
    cases h
  | some names =>
    rw [namesOf, hnames] at h
    exact List.mem_cons_of_mem _ (List.mem_flatMap.mpr
      ⟨_, Table.mem_entries_of_get? hnames, Table.mem_keys_iff_contains.mpr h⟩)

/-- Where a search finds nothing, it has checked the name it was asked for, and exhausted all it
checked. It is given enough steps for the names of `all`. -/
def Thorough (r : Registry) (all : List Text) (fuel : Nat)
    (search : Table Unit → Text → Option Text × Table Unit) : Prop :=
  ∀ checked, ∀ name ∈ all, unchecked all checked < fuel → (search checked name).1 = none →
    r.Searched checked (search checked name).2 ∧ (search checked name).2.contains name = true

section Search

variable {all : List Text} {fuel : Nat}
variable {search search' : Table Unit → Text → Option Text × Table Unit}

theorem firstData_none (hs : r.Thorough all fuel search) (hall : ∀ n ∈ names, n ∈ all)
    (hf : unchecked all checked < fuel) (h : (firstData search names checked).1 = none) :
    r.Searched checked (firstData search names checked).2 ∧
      ∀ n ∈ names, (firstData search names checked).2.contains n = true := by
  induction names generalizing checked with
  | nil => exact ⟨.refl r checked, nofun⟩
  | cons name names ih =>
    have hspec := hs checked name (hall _ List.mem_cons_self) hf
    unfold firstData at h ⊢
    cases hsearch : search checked name with
    | mk found checked₁ =>
      rw [hsearch] at h hspec
      cases found with
      | some data => cases h
      | none =>
        obtain ⟨hfirst, hname⟩ := hspec rfl
        obtain ⟨hrest, hnames⟩ := ih (fun n hn => hall n (List.mem_cons_of_mem _ hn))
          (Nat.lt_of_le_of_lt (unchecked_le_of_kept hfirst.kept) hf) h
        refine ⟨hfirst.trans hrest, fun n hn => ?_⟩
        rcases List.mem_cons.mp hn with rfl | hn
        · exact hrest.kept _ hname
        · exact hnames n hn

theorem firstTypeData_none {ts : List CType} (hs : r.Thorough all fuel search)
    (hall : ∀ t n, (r.namesOf t).contains n = true → n ∈ all) (hf : unchecked all checked < fuel)
    (h : (r.firstTypeData search ts checked).1 = none) :
    r.Searched checked (r.firstTypeData search ts checked).2 ∧
      ∀ t ∈ ts, r.clientData.get? t = none ∧ ∀ n, (r.namesOf t).contains n = true →
        (r.firstTypeData search ts checked).2.contains n = true := by
  induction ts generalizing checked with
  | nil => exact ⟨.refl r checked, nofun⟩
  | cons t ts ih =>
    have hnames : ∀ n ∈ (r.namesOf t).keys, n ∈ all := fun n hn =>
      hall t n (Table.mem_keys_iff_contains.mp hn)
    have hspec := firstData_none hs hnames hf
    unfold firstTypeData at h ⊢
    cases hdata : r.clientData.get? t with
    | some data =>
      rw [hdata] at h
      cases h
    | none =>
      rw [hdata] at h
      cases hfirst : firstData search (r.namesOf t).keys checked with
      | mk found checked₁ =>
        rw [hfirst] at h hspec
        cases found with
        | some data => cases h
        | none =>
          obtain ⟨hsearched, hnames⟩ := hspec rfl
          obtain ⟨hrest, hts⟩ :=
            ih (Nat.lt_of_le_of_lt (unchecked_le_of_kept hsearched.kept) hf) h
          refine ⟨hsearched.trans hrest, fun u hu => ?_⟩
          rcases List.mem_cons.mp hu with rfl | hu
          · exact ⟨hdata, fun n hn =>
              hrest.kept n (hnames n (Table.mem_keys_iff_contains.mpr hn))⟩
          · exact hts u hu

/-- With a step for each name that is not checked yet, a search that finds nothing has exhausted
all it checked. -/
theorem searchClientData_none (hall : ∀ t n, (r.namesOf t).contains n = true → n ∈ all)
    (fuel : Nat) : r.Thorough all fuel (r.searchClientData fuel) := by
  induction fuel with
  | zero =>
    intro checked name _ hf
    omega
  | succ fuel ih =>
    intro checked name hname hf h
    unfold searchClientData at h ⊢
    by_cases hn : checked.contains name = true
    · rw [if_pos hn]
      exact ⟨.refl r checked, hn⟩
    · rw [if_neg hn] at h ⊢
      have hnew : checked.contains name = false := by simpa using hn
      have hless := unchecked_insert hname hnew
      obtain ⟨hsearched, hts⟩ := firstTypeData_none ih hall (by omega) h
      have hself := hsearched.kept name (Table.contains_insert.mpr (Or.inl rfl))
      refine ⟨⟨fun n hc => hsearched.kept n (Table.contains_insert.mpr (Or.inr hc)),
        fun n hc hcnew => ?_⟩, hself⟩
      by_cases hnn : n = name
      · subst hnn
        exact fun t ht => hts t (Table.mem_keys_iff_contains.mpr ht)
      · refine hsearched.exhausted n hc ?_
        rw [Bool.eq_false_iff, ne_eq, Table.contains_insert]
        simp [hnn, hcnew]

/-- Two searches give the same where few enough names are left to be checked. -/
def AgreeBelow (all : List Text) (fuel : Nat)
    (search search' : Table Unit → Text → Option Text × Table Unit) : Prop :=
  ∀ checked, ∀ name ∈ all, unchecked all checked < fuel → search' checked name = search checked name

theorem firstData_eq_of_agree (hs : r.Thorough all fuel search)
    (hagree : AgreeBelow all fuel search search') (hall : ∀ n ∈ names, n ∈ all)
    (hf : unchecked all checked < fuel) :
    firstData search' names checked = firstData search names checked := by
  induction names generalizing checked with
  | nil => rfl
  | cons name names ih =>
    have hname : name ∈ all := hall _ List.mem_cons_self
    have hspec := hs checked name hname hf
    unfold firstData
    rw [hagree checked name hname hf]
    cases hsearch : search checked name with
    | mk found checked₁ =>
      rw [hsearch] at hspec
      cases found with
      | some data => rfl
      | none =>
        exact ih (fun n hn => hall n (List.mem_cons_of_mem _ hn))
          (Nat.lt_of_le_of_lt (unchecked_le_of_kept (hspec rfl).1.kept) hf)

theorem firstTypeData_eq_of_agree {ts : List CType} (hs : r.Thorough all fuel search)
    (hagree : AgreeBelow all fuel search search')
    (hall : ∀ t n, (r.namesOf t).contains n = true → n ∈ all) (hf : unchecked all checked < fuel) :
    r.firstTypeData search' ts checked = r.firstTypeData search ts checked := by
  induction ts generalizing checked with
  | nil => rfl
  | cons t ts ih =>
    have hnames : ∀ n ∈ (r.namesOf t).keys, n ∈ all := fun n hn =>
      hall t n (Table.mem_keys_iff_contains.mp hn)
    have hspec := firstData_none hs hnames hf
    unfold firstTypeData
    cases r.clientData.get? t with
    | some data => rfl
    | none =>
      rw [firstData_eq_of_agree hs hagree hnames hf]
      cases hfirst : firstData search (r.namesOf t).keys checked with
      | mk found checked₁ =>
        rw [hfirst] at hspec
        cases found with
        | some data => rfl
        | none =>
          exact ih (Nat.lt_of_le_of_lt (unchecked_le_of_kept (hspec rfl).1.kept) hf)

end Search

/-- More steps than names to check change nothing. -/
theorem searchClientData_of_le {all : List Text}
    (hall : ∀ t n, (r.namesOf t).contains n = true → n ∈ all) (fuel : Nat) :
    ∀ more, fuel ≤ more → AgreeBelow all fuel (r.searchClientData fuel)
      (r.searchClientData more) := by
  induction fuel with
  | zero =>
    intro more _ checked name _ hf
    omega
  | succ fuel ih =>
    intro more hle checked name hname hf
    obtain ⟨more, rfl⟩ : ∃ k, more = k + 1 := ⟨more - 1, by omega⟩
    unfold searchClientData
    by_cases hn : checked.contains name = true
    · rw [if_pos hn, if_pos hn]
    · rw [if_neg hn, if_neg hn]
      have hless := unchecked_insert hname (by simpa using hn)
      exact firstTypeData_eq_of_agree (searchClientData_none hall fuel) (ih more (by omega)) hall
        (by omega)

section Found

variable {search : Table Unit → Text → Option Text × Table Unit} {data : Text}

theorem firstData_some (h : (firstData search names checked).1 = some data) :
    ∃ n ∈ names, ∃ checked, (search checked n).1 = some data := by
  induction names generalizing checked with
  | nil => cases h
  | cons n names ih =>
    unfold firstData at h
    split at h
    · rename_i hfound
      cases h
      exact ⟨n, List.mem_cons_self, checked, by rw [hfound]⟩
    · obtain ⟨m, hm, hsearch⟩ := ih h
      exact ⟨m, List.mem_cons_of_mem _ hm, hsearch⟩

theorem firstTypeData_some {ts : List CType}
    (h : (r.firstTypeData search ts checked).1 = some data) :
    ∃ t ∈ ts, r.clientData.get? t = some data ∨
      ∃ n, (r.namesOf t).contains n = true ∧ ∃ checked, (search checked n).1 = some data := by
  induction ts generalizing checked with
  | nil => cases h
  | cons t ts ih =>
    unfold firstTypeData at h
    split at h
    · rename_i hdata
      cases h
      exact ⟨t, List.mem_cons_self, Or.inl hdata⟩
    · split at h
      · rename_i hfound
        cases h
        obtain ⟨n, hn, hsearch⟩ := firstData_some (show (firstData search _ _).1 = _ by rw [hfound])
        exact ⟨t, List.mem_cons_self, Or.inr ⟨n, Table.mem_keys_iff_contains.mp hn, hsearch⟩⟩
      · obtain ⟨u, hu, hfound⟩ := ih h
        exact ⟨u, List.mem_cons_of_mem _ hu, hfound⟩

end Found

/-- What is found are client data of a type that some name denotes to which the listings lead. -/
theorem searchClientData_some {fuel : Nat} {name data : Text}
    (h : (r.searchClientData fuel checked name).1 = some data) :
    ∃ n, Relation.ReflTransGen r.Lists name n ∧ r.Carries n data := by
  induction fuel generalizing checked name with
  | zero => cases h
  | succ fuel ih =>
    unfold searchClientData at h
    split at h
    · cases h
    · obtain ⟨t, ht, hdata | ⟨n, hn, later, hsearch⟩⟩ := firstTypeData_some h
      · exact ⟨name, .refl, t, Table.mem_keys_iff_contains.mp ht, hdata⟩
      · obtain ⟨m, hlead, hcarries⟩ := ih hsearch
        exact ⟨m, .head ⟨t, Table.mem_keys_iff_contains.mp ht, hn⟩ hlead, hcarries⟩

theorem unchecked_within (name : Text) :
    unchecked (r.within name) ∅ < r.listings + 2 := by
  have hle := unchecked_le (r.within name) ∅
  rw [length_within] at hle
  omega

/-- A larger bound finds nothing else. -/
theorem clientDataOf_of_le {name : Text} {fuel : Nat} (h : r.listings + 2 ≤ fuel) :
    (r.searchClientData fuel ∅ name).1 = r.clientDataOf name := by
  have hall : ∀ t n, (r.namesOf t).contains n = true → n ∈ r.within name :=
    fun t n hn => mem_within hn
  rw [clientDataOf, searchClientData_of_le hall _ fuel h ∅ name List.mem_cons_self
    (unchecked_within name)]

/-- Client data are found exactly if some name that the listings lead to denotes a type that has
any. -/
theorem clientDataOf_eq_none_iff {name : Text} : r.clientDataOf name = none ↔
    ∀ n, Relation.ReflTransGen r.Lists name n → ∀ data, ¬ r.Carries n data := by
  constructor
  · intro h n hlead data hcarries
    have hall : ∀ t n, (r.namesOf t).contains n = true → n ∈ r.within name :=
      fun t n hn => mem_within hn
    obtain ⟨hsearched, hself⟩ := searchClientData_none hall (r.listings + 2) ∅ name
      List.mem_cons_self (unchecked_within name) h
    have hchecked : ∀ m, Relation.ReflTransGen r.Lists name m →
        (r.searchClientData (r.listings + 2) ∅ name).2.contains m = true := by
      intro m hm
      induction hm with
      | refl => exact hself
      | tail _ hab ih =>
        obtain ⟨t, ht, hn⟩ := hab
        exact (hsearched.exhausted _ ih rfl t ht).2 _ hn
    obtain ⟨t, ht, hdata⟩ := hcarries
    rw [(hsearched.exhausted n (hchecked n hlead) rfl t ht).1] at hdata
    cases hdata
  · intro h
    cases hfound : r.clientDataOf name with
    | none => rfl
    | some data =>
      obtain ⟨n, hlead, hcarries⟩ := searchClientData_some hfound
      exact absurd hcarries (h n hlead data)

end Registry

end BindingTypes

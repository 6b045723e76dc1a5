import BindingTypes.Proofs.CType.Generalization

namespace BindingTypes.CType

/-- An array gets the dimension, and nothing else changes. -/
def Constructor.sized (dimension : Text) : Constructor → Constructor
  | .array _ => .array dimension
  | c => c

/-- The dimensions of the leading arrays. -/
def dimensions : List Constructor → List Text
  | .array d :: cs => d :: dimensions cs
  | _ => []

variable {b d x : Text} {c : Constructor} {cs : List Constructor} {n : Nat}

section Chains

theorem text_sized (d : Text) (c : Constructor) :
    (c.sized d).text = if Kind.of c.text = .array then written 'a' d else c.text := by
  rw [kind_text]
  cases c <;> rfl

theorem isReadable_sized (hc : c.IsReadable) (hd : Balanced d) : (c.sized d).IsReadable := by
  cases c with
  | array x => exact hd
  | _ => exact hc

theorem isReadable_modify (hcs : ∀ c ∈ cs, c.IsReadable) (hd : Balanced d) (n : Nat) :
    ∀ c ∈ cs.modify n (·.sized d), c.IsReadable := by
  intro c hc
  obtain ⟨i, hi⟩ := List.mem_iff_getElem?.mp hc
  rw [List.getElem?_modify] at hi
  obtain ⟨c', hc', rfl⟩ := Option.map_eq_some_iff.mp hi
  have hread := hcs c' (List.mem_of_getElem? hc')
  split
  · exact isReadable_sized hread hd
  · exact hread

theorem modify_sized_eq_self_iff :
    cs.modify n (·.sized d) = cs ↔ ∀ x, cs[n]? = some (.array x) → x = d := by
  constructor
  · intro h x hx
    have hat := List.getElem?_modify_eq (·.sized d) n cs
    rw [h, hx] at hat
    cases hat
    rfl
  · intro h
    refine List.ext_getElem? fun i => ?_
    rw [List.getElem?_modify]
    split
    · subst i
      cases hc : cs[n]? with
      | none => rfl
      | some c =>
        cases c with
        | array x => rw [h x hc]; rfl
        | _ => rfl
    · simp

/-- The dimension is set where that element of the type is an array, leading or not. -/
theorem setDimension_chain (hcs : ∀ c ∈ cs, c.IsReadable) (hb : IsBase b) (n : Nat) (d : Text) :
    setDimension (chain cs b) n d = .ok (chain (cs.modify n (·.sized d)) b) := by
  have hconstructors : ((cs.map Constructor.text).mapIdx fun i e =>
      if i = n ∧ Kind.of e = .array then written 'a' d else e) =
        (cs.modify n (·.sized d)).map Constructor.text := by
    refine List.ext_getElem? fun i => ?_
    rw [List.getElem?_mapIdx, List.getElem?_map, List.getElem?_map, List.getElem?_modify]
    cases cs[i]? with
    | none => rfl
    | some c =>
      by_cases hi : n = i
      · simp [hi, text_sized]
      · simp [hi, Ne.symm hi]
  have hbase : ((if b = [] then [] else [b]).mapIdx fun i e =>
      if i + (cs.map Constructor.text).length = n ∧ Kind.of e = .array then written 'a' d else e) =
        if b = [] then [] else [b] := by
    split
    · rfl
    · simp [hb.kind]
  rw [setDimension, elements_readable hcs hb]
  simp only [Except.map]
  rw [List.mapIdx_append, hconstructors, hbase, List.flatten_append, chain]
  congr 2
  split <;> simp [*]

theorem arrays_eq_dimensions (cs : List Constructor) :
    (cs.takeWhile (·.kind = .array)).length = (dimensions cs).length ∧
      cs.dropWhile (·.kind = .array) = cs.drop (dimensions cs).length := by
  induction cs with
  | nil => exact ⟨rfl, rfl⟩
  | cons c cs ih =>
    cases c with
    | array x => simpa [dimensions, Constructor.kind] using ih
    | _ => simp [dimensions, Constructor.kind]

theorem dimensionCount_chain (hcs : ∀ c ∈ cs, c.IsReadable) (hb : IsBase b) :
    dimensionCount (chain cs b) = .ok (dimensions cs).length := by
  rw [dimensionCount, cutArrays_chain hcs hb, ← (arrays_eq_dimensions cs).1]
  simp [Except.map]

theorem arrayElement_chain (hcs : ∀ c ∈ cs, c.IsReadable) (hb : IsBase b) :
    arrayElement (chain cs b) = .ok (chain (cs.drop (dimensions cs).length) b) := by
  rw [arrayElement, cutArrays_chain hcs hb, ← (arrays_eq_dimensions cs).2]
  rfl

theorem dimension?_chain (hcs : ∀ c ∈ cs, c.IsReadable) (hb : IsBase b) (n : Nat) :
    dimension? (chain cs b) n = .ok (dimensions cs)[n]? := by
  induction cs generalizing n with
  | nil =>
    rw [chain_nil]
    unfold dimension?
    split
    · rfl
    · rw [hb.next]
      simp [bind, Except.bind, hb.kind, dimensions, pure, Except.pure]
  | cons c cs ih =>
    obtain ⟨hc, hrest⟩ := List.forall_mem_cons.mp hcs
    have hne : c.text ++ chain cs b ≠ [] := by simp [text_ne_nil]
    obtain ⟨letter, t, ht⟩ := List.exists_cons_of_ne_nil hne
    rw [chain_cons, ht, dimension?, ← ht, next_readable hc]
    simp only [bind, Except.bind, kind_text]
    cases c with
    | array x =>
      have harray : argument (Constructor.array x).text = .ok x :=
        argument_written (by decide) hc
      cases n with
      | zero => simp [harray, Constructor.kind, dimensions, pure, Except.pure]
      | succ n => simp [ih hrest, Constructor.kind, dimensions]
    | _ => rfl

end Chains

theorem dimensions_modify (d : Text) (cs : List Constructor) (n : Nat) :
    dimensions (cs.modify n (·.sized d)) = (dimensions cs).set n d := by
  induction cs generalizing n with
  | nil => simp [dimensions]
  | cons c cs ih =>
    cases n with
    | zero => cases c <;> rfl
    | succ n =>
      cases c with
      | array x => simp [dimensions, ih]
      | _ => rfl

theorem getElem?_of_dimensions (h : (dimensions cs)[n]? = some x) :
    cs[n]? = some (.array x) := by
  induction cs generalizing n with
  | nil => simp [dimensions] at h
  | cons c cs ih =>
    cases c with
    | array y =>
      cases n with
      | zero =>
        cases h
        rfl
      | succ n => exact ih h
    | _ => simp [dimensions] at h

/-- Setting a dimension and reading dimensions obey the laws of a lens as far as the arrays lead.
Behind them a dimension is set all the same, where the element with that number is an array. -/
theorem dimensions_lens (hcs : ∀ c ∈ cs, c.IsReadable) (hb : IsBase b) (n : Nat)
    (hd : Balanced d) :
    ∃ k, dimensionCount (chain cs b) = .ok k ∧
      (n < k → ∃ u x held,
        setDimension (chain cs b) n d = .ok u ∧ dimensionCount u = .ok k ∧
        dimension? u n = .ok (some d) ∧
        (∀ m, m ≠ n → ∃ y, dimension? (chain cs b) m = .ok y ∧ dimension? u m = .ok y) ∧
        arrayElement (chain cs b) = .ok held ∧ arrayElement u = .ok held ∧
        dimension? (chain cs b) n = .ok (some x) ∧
        setDimension (chain cs b) n x = .ok (chain cs b)) ∧
      (k ≤ n → ∃ u, setDimension (chain cs b) n d = .ok u ∧
        (u = chain cs b ↔ ∀ x, cs[n]? = some (.array x) → x = d)) := by
  have hset := isReadable_modify hcs hd n
  have hcount := dimensionCount_chain hset hb
  have helement := arrayElement_chain hset hb
  rw [dimensions_modify, List.length_set] at hcount helement
  refine ⟨_, dimensionCount_chain hcs hb, fun hlt => ?_, fun _ => ?_⟩
  · have hown : (dimensions cs)[n]? = some (dimensions cs)[n] := List.getElem?_eq_getElem hlt
    have hsame : cs.modify n (·.sized (dimensions cs)[n]) = cs :=
      modify_sized_eq_self_iff.mpr fun x hx => by
        rw [getElem?_of_dimensions hown] at hx
        cases hx
        rfl
    refine ⟨_, (dimensions cs)[n], _, setDimension_chain hcs hb n d, hcount, ?_, fun m hm => ?_,
      arrayElement_chain hcs hb, ?_, ?_, ?_⟩
    · rw [dimension?_chain hset hb, dimensions_modify, List.getElem?_set_self hlt]
    · refine ⟨_, dimension?_chain hcs hb m, ?_⟩
      rw [dimension?_chain hset hb, dimensions_modify, List.getElem?_set_ne hm.symm]
    · rw [helement, List.drop_modify_of_lt _ _ _ _ hlt]
    · rw [dimension?_chain hcs hb, hown]
    · rw [setDimension_chain hcs hb, hsame]
  · refine ⟨_, setDimension_chain hcs hb n d, ?_⟩
    rw [← modify_sized_eq_self_iff]
    exact ⟨fun h => (readable_inj hset hcs hb hb h).1, fun h => by rw [h]⟩

theorem dimensions_lens_before_pointer :
    (∀ c ∈ [Constructor.array "2".toList, .array "N".toList, .pointer, .array "3".toList],
      c.IsReadable) ∧ IsBase "int".toList ∧ Balanced "ANY".toList ∧
    dimensionCount "a(2).a(N).p.a(3).int".toList = .ok 2 ∧
    setDimension "a(2).a(N).p.a(3).int".toList 1 "ANY".toList =
      .ok "a(2).a(ANY).p.a(3).int".toList ∧
    dimension? "a(2).a(ANY).p.a(3).int".toList 1 = .ok (some "ANY".toList) ∧
    arrayElement "a(2).a(ANY).p.a(3).int".toList = .ok "p.a(3).int".toList ∧
    setDimension "a(2).a(N).p.a(3).int".toList 1 "N".toList =
      .ok "a(2).a(N).p.a(3).int".toList := by
  have hbase : IsBase "int".toList := isBase_of_unbracketed (by decide)
  have hcs : ∀ c ∈ [Constructor.array "2".toList, .array "N".toList, .pointer,
      .array "3".toList], c.IsReadable := by
    simp only [List.forall_mem_cons]
    exact ⟨rfl, rfl, trivial, rfl, nofun⟩
  have hany : Balanced "ANY".toList := rfl
  obtain ⟨k, hcount, hlens, -⟩ := dimensions_lens hcs hbase 1 hany
  obtain rfl : k = 2 := Except.ok.inj (hcount.symm.trans (dimensionCount_chain hcs hbase))
  obtain ⟨u, x, held, hset, -, hread, -, hheld, hkept, hown, hback⟩ := hlens (by decide)
  obtain rfl := Except.ok.inj (hset.symm.trans (setDimension_chain hcs hbase 1 "ANY".toList))
  obtain rfl := Except.ok.inj (hheld.symm.trans (arrayElement_chain hcs hbase))
  obtain rfl : x = "N".toList :=
    Option.some.inj (Except.ok.inj (hown.symm.trans (dimension?_chain hcs hbase 1)))
  exact ⟨hcs, hbase, hany, hcount, hset, hread, hkept, hback⟩

/-- A pointer to an array has no leading dimension. -/
theorem dimension_set_behind_pointer :
    ¬ ∀ (cs : List Constructor) (b d : Text) (n k : Nat), (∀ c ∈ cs, c.IsReadable) → IsBase b →
      Balanced d → dimensionCount (chain cs b) = .ok k → k ≤ n →
      setDimension (chain cs b) n d = .ok (chain cs b) := by
  intro h
  have hbase : IsBase "int".toList := isBase_of_unbracketed (by decide)
  have hcs : ∀ c ∈ [Constructor.pointer, .array "3".toList], c.IsReadable := by
    simp only [List.forall_mem_cons]
    exact ⟨trivial, rfl, nofun⟩
  have hkept := h _ _ "5".toList 1 0 hcs hbase rfl (dimensionCount_chain hcs hbase) (Nat.zero_le 1)
  rw [setDimension_chain hcs hbase] at hkept
  revert hkept
  decide

end BindingTypes.CType

import BindingTypes.RuntimeName
import BindingTypes.Proofs.CType.Spelled

namespace BindingTypes.CType

variable {t u : Text}

/-- The qualifiers in front are elements that are left out. -/
theorem dropQualifiers_eq_ok (h : dropQualifiers t = .ok u) :
    ∃ qs, elements t = (elements u).map (qs ++ ·) := by
  induction hn : t.length using Nat.strongRecOn generalizing t with
  | ind n ih =>
    unfold dropQualifiers at h
    split at h
    · rename_i hq
      have ht : t ≠ [] := by
        rintro rfl
        cases hq
      split at h
      · cases h
      · rename_i r hr
        obtain ⟨qs, hqs⟩ := ih _ (hn ▸ next_rest_lt hr ht) h rfl
        refine ⟨r.1 :: qs, ?_⟩
        rw [elements_of_next hr ht, hqs]
        cases elements u <;> rfl
    · cases h
      refine ⟨[], ?_⟩
      cases elements u <;> rfl

theorem dropQualifiers_of_balanced (h : Balanced t) : ∃ u, dropQualifiers t = .ok u := by
  induction hn : t.length using Nat.strongRecOn generalizing t with
  | ind n ih =>
    unfold dropQualifiers
    split
    · rename_i hq
      have ht : t ≠ [] := by
        rintro rfl
        cases hq
      obtain ⟨r, hr, hrest⟩ := cutElement_of_parensAfter (d := .zero) h
      have hnext := next_eq_ok_iff.mpr hr
      obtain ⟨u, hu⟩ := ih _ (hn ▸ next_rest_lt hnext ht) hrest rfl
      split
      · rename_i f hf
        cases hnext.symm.trans hf
      · rename_i r' hr'
        cases hnext.symm.trans hr'
        exact ⟨u, hu⟩
    · exact ⟨t, rfl⟩

theorem localType_none (t : CType) : localType .none t =
    (dropQualifiers t).bind fun bare =>
      (elements bare).map fun es => (localElements false true es).flatten := by
  unfold localType
  cases dropQualifiers t with
  | error f => rfl
  | ok bare =>
    have hexpand : Resolver.none.expand? bare = .ok none := rfl
    dsimp only [bind, Except.bind, pure, Except.pure]
    rw [hexpand]
    dsimp only
    by_cases hs : isSimple bare = true
    · rw [if_pos hs]
      cases elements bare <;> rfl
    · rw [if_neg hs]
      cases elements bare <;> rfl

theorem localType_of_balanced (h : Balanced t) : ∃ qs us, elements t = .ok (qs ++ us) ∧
    elements us.flatten = .ok us ∧
    localType .none t = .ok (localElements false true us).flatten := by
  obtain ⟨es, hes⟩ := elements_of_balanced h
  obtain ⟨u, hu⟩ := dropQualifiers_of_balanced h
  obtain ⟨qs, hqs⟩ := dropQualifiers_eq_ok hu
  rw [hes] at hqs
  obtain ⟨us, hus, rfl⟩ := map_eq_ok hqs.symm
  refine ⟨qs, us, hes, (flatten_of_elements hus).symm ▸ hus, ?_⟩
  rw [localType_none, hu]
  show (elements u).map _ = _
  rw [hus]
  rfl

theorem localType_returns_iff : (∃ l, localType .none t = .ok l) ↔ Balanced t := by
  constructor
  · rintro ⟨l, h⟩
    rw [localType_none] at h
    obtain ⟨u, hu, h⟩ := bind_eq_ok h
    obtain ⟨es, hes, -⟩ := map_eq_ok h
    obtain ⟨qs, hqs⟩ := dropQualifiers_eq_ok hu
    rw [hes] at hqs
    exact balanced_of_elements hqs
  · intro h
    obtain ⟨-, us, -, -, hlocal⟩ := localType_of_balanced h
    exact ⟨_, hlocal⟩

/-- The local form keeps the base, behind elements that their own dots end. -/
theorem localElements_concat {fs : List Text} {b : Text} (hfs : ∀ f ∈ fs, Dotted f)
    (hk : Kind.of b = .base) (hb : b ≠ "enum ".toList) (kept first : Bool) :
    ∃ gs, localElements kept first (fs ++ [b]) = gs ++ [b] ∧ ∀ g ∈ gs, Dotted g := by
  have hpointer : Dotted "p.".toList := ⟨['p'], rfl, by decide⟩
  have hnamed : ∀ {e : Text} (kept : Bool), e ≠ "enum ".toList →
      (if (decide (e = "enum ".toList) && !kept) = true then "int".toList else e) = e := by
    intro e kept he
    rw [decide_eq_false he]
    rfl
  induction fs generalizing kept first with
  | nil =>
    refine ⟨[], ?_, List.forall_mem_nil _⟩
    rw [List.nil_append, localElements, hk]
    show (if _ then _ else b) :: _ = _
    rw [hnamed kept hb]
    rfl
  | cons f fs ih =>
    obtain ⟨hf, hfs⟩ := List.forall_mem_cons.mp hfs
    have hstep : ∀ (g : Text) (kept first : Bool), Dotted g → ∃ gs,
        g :: localElements kept first (fs ++ [b]) = gs ++ [b] ∧ ∀ g ∈ gs, Dotted g := by
      intro g kept first hg
      obtain ⟨gs, hgs, hall⟩ := ih hfs kept first
      exact ⟨g :: gs, by rw [hgs]; rfl, List.forall_mem_cons.mpr ⟨hg, hall⟩⟩
    have hchoice : ∀ {p : Prop} [Decidable p], Dotted (if p then f else "p.".toList) := by
      intro p _
      split
      · exact hf
      · exact hpointer
    have hne : f ≠ "enum ".toList := by
      rintro rfl
      cases hf.getLast?
    rw [List.cons_append, localElements]
    cases Kind.of f with
    | qualifier => exact ih hfs _ _
    | pointer => exact hstep _ _ _ hf
    | memberPointer => exact hstep _ _ _ hf
    | reference => exact hstep _ _ _ hchoice
    | function => exact hstep _ _ _ hf
    | base =>
      simp only [hnamed kept hne]
      exact hstep _ _ _ hf
    | array =>
      dsimp only
      split
      · exact hstep _ _ _ hchoice
      · exact hstep _ _ _ hf

/-- The local form of a type that ends like a name ends with a base that can be spelled. -/
theorem localType_of_closed (hb : Balanced t) (hclose : TemplatesClose t)
    (hdot : t.getLast? ≠ some '.') (hblank : t.getLast? ≠ some ' ') :
    ∃ l front base s, localType .none t = .ok l ∧ split l = .ok (front, base) ∧
      nameSpelling base = .ok s := by
  obtain ⟨qs, us, hes, hus, hlocal⟩ := localType_of_balanced hb
  by_cases hnil : us.flatten = []
  · rw [hnil, elements_nil] at hus
    cases hus
    exact ⟨[], [], [], [], hlocal, by rw [split]; simp [elements_nil, Except.map], rfl⟩
  · obtain ⟨fs, b, rfl, hfs, hbase, hne⟩ := elements_cases hus hnil
    have hlast : t.getLast? = b.getLast? := by
      rw [← flatten_of_elements hes, ← List.append_assoc, List.flatten_append,
        List.flatten_singleton, List.getLast?_append]
      obtain ⟨init, c, rfl⟩ := List.eq_nil_or_concat b |>.resolve_left hne
      simp
    have hk : Kind.of b = .base := kind_base (hlast ▸ hdot)
    have henum : b ≠ "enum ".toList := by
      rintro rfl
      exact hblank hlast
    obtain ⟨gs, hgs, hall⟩ := localElements_concat hfs hk henum false true
    have helements : elements (localElements false true (fs ++ [b])).flatten = .ok (gs ++ [b]) := by
      rw [hgs, List.flatten_append, List.flatten_singleton, elements_flatten hall, hbase]
      rfl
    have hsplit : split (localElements false true (fs ++ [b])).flatten = .ok (gs.flatten, b) := by
      rw [split, helements]
      simp [Except.map]
    obtain ⟨s, hs⟩ : ∃ s, nameSpelling b = .ok s := by
      by_cases hvar : b = varargs
      · rw [hvar]
        exact ⟨varargs, nameSpelling_plain (by decide)⟩
      · have hmem : b ∈ qs ++ (fs ++ [b]) := by simp
        have hmark := (declare_returns_iff hes []).mp
          ((declare_returns_iff_closed []).mpr ⟨hb, hclose⟩) b hmem hvar
        exact (mark_base_returns_iff hk).mp hmark
    exact ⟨_, gs.flatten, b, s, hlocal, hsplit, hs⟩

/-- A type that ends like a name has a runtime name where it can be spelled. -/
theorem runtimeName_of_closed (hb : Balanced t) (hclose : TemplatesClose t)
    (hdot : t.getLast? ≠ some '.') (hblank : t.getLast? ≠ some ' ') :
    ∃ out, runtimeName .none t = .ok out := by
  obtain ⟨l, front, base, s, hl, hsplit, hs⟩ := localType_of_closed hb hclose hdot hblank
  have hresolved : Resolver.none.resolve t = .ok t := rfl
  unfold runtimeName
  rw [hresolved]
  show ∃ out, (localType .none t >>= _ : Except Fault Text) = .ok out
  rw [hl]
  show ∃ out, (split l >>= _ : Except Fault Text) = .ok out
  rw [hsplit]
  show ∃ out, (if isTemplate base then nameSpelling base >>= _ else pure base >>= _ :
    Except Fault Text) = .ok out
  rw [hs]
  split
  · exact ⟨_, rfl⟩
  · exact ⟨_, rfl⟩

end BindingTypes.CType

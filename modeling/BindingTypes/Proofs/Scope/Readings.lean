import BindingTypes.Proofs.Scope.Expands

namespace BindingTypes

open CType Relation

/-- What a table makes of a word: the word itself where it is not declared. -/
inductive Reads (v : Vocabulary) (T : Table TypedefEntry) :
    Text → List Constructor → Text → Prop
  | known {b z : Text} {cs : List Constructor} (h : Expands v T b cs z) : Reads v T b cs z
  | unknown {b : Text} (hb : T.get? b = none) (hw : IsWord b) : Reads v T b [] b

/-- How a name of the table `T`, which belongs to the scope `N`, is read from the global scope,
whose table is `R`. As long as typedefs only rename, the reader stays in `N`; under the first
constructor the base is read by `R`. -/
inductive ReadsFromOutside (v : Vocabulary) (T R : Table TypedefEntry) (N : Text) :
    Text → List Constructor → Text → Prop
  | ofClass {n : Text} (hn : T.get? n = some ⟨n, true⟩) :
      ReadsFromOutside v T R N n [] (QualifiedName.within N n)
  | builtin {n b : Text} (hn : Declares T n [] b) (hb : b ∈ v.builtins) :
      ReadsFromOutside v T R N n [] b
  | rename {n b z : Text} {cs : List Constructor} (hn : Declares T n [] b)
      (hb : ReadsFromOutside v T R N b cs z) : ReadsFromOutside v T R N n cs z
  | bare {n b z : Text} {cs cs' : List Constructor} (hn : Declares T n cs b) (hcs : cs ≠ [])
      (hb : Reads v R b cs' z) : ReadsFromOutside v T R N n (cs ++ cs') z

variable {v : Vocabulary} {T R : Table TypedefEntry} {N n b z : Text}
  {cs cs' front : List Constructor}

theorem Reads.exists (hR : ∀ k e, R.get? k = some e → ∃ cs z, Expands v R k cs z)
    (hw : IsWord b) : ∃ cs z, Reads v R b cs z := by
  cases hb : R.get? b with
  | none => exact ⟨[], b, .unknown hb hw⟩
  | some e =>
    obtain ⟨cs, z, h⟩ := hR b e hb
    exact ⟨cs, z, .known h⟩

theorem ReadsFromOutside.exists (hR : ∀ k e, R.get? k = some e → ∃ cs z, Expands v R k cs z)
    (h : Expands v T n cs z) (hn : n ∉ v.builtins) : ∃ cs' z', ReadsFromOutside v T R N n cs' z' := by
  induction h with
  | builtin hb => exact absurd hb hn
  | ofClass hc => exact ⟨[], _, .ofClass hc⟩
  | @typedef n b z cs cs' hd hb ih =>
    by_cases hcs : cs = []
    · subst hcs
      by_cases hbuiltin : b ∈ v.builtins
      · exact ⟨[], b, .builtin hd hbuiltin⟩
      · obtain ⟨cs₁, z₁, h₁⟩ := ih hbuiltin
        exact ⟨cs₁, z₁, .rename hd h₁⟩
    · obtain ⟨cs₁, z₁, h₁⟩ := Reads.exists hR hd.word
      exact ⟨cs ++ cs₁, z₁, .bare hd hcs h₁⟩

theorem ReadsFromOutside.declared (h : ReadsFromOutside v T R N n cs z) :
    ∃ e, T.get? n = some e := by
  cases h with
  | ofClass hn => exact ⟨_, hn⟩
  | builtin hn _ => exact ⟨_, hn.entry⟩
  | rename hn _ => exact ⟨_, hn.entry⟩
  | bare hn _ _ => exact ⟨_, hn.entry⟩

theorem Reads.plain (h : Reads v R b cs z) : ∀ c ∈ cs, c.IsPlain := by
  cases h with
  | known h => exact h.plain
  | unknown => exact plain_nil

theorem ReadsFromOutside.plain (h : ReadsFromOutside v T R N n cs z) : ∀ c ∈ cs, c.IsPlain := by
  induction h with
  | ofClass => exact plain_nil
  | builtin => exact plain_nil
  | rename _ _ ih => exact ih
  | bare hn _ hb => exact plain_append hn.plain hb.plain

theorem Reads.last_isWord (hR : v.Holds R) (h : Reads v R b cs z) : IsWord z := by
  cases h with
  | known h => exact h.last_isWord hR
  | unknown _ hw => exact hw

theorem ReadsFromOutside.last (hT : v.Holds T) (hR : v.Holds R) (hN : v.IsPath N)
    (h : ReadsFromOutside v T R N n cs z) : IsWord z ∨ v.IsPath z := by
  induction h with
  | ofClass hn => exact Or.inr (Vocabulary.isPath_within (Or.inr hN) (hT _ _ hn))
  | builtin hn _ => exact Or.inl hn.word
  | rename _ _ ih => exact ih
  | bare _ _ hb => exact Or.inl (hb.last_isWord hR)

/-- Reading a declared or builtin name is expanding it. -/
theorem Reads.eq_of_expands {z' : Text} (hR : v.Holds R) (h : Reads v R b cs z)
    (h' : Expands v R b cs' z') : cs = cs' ∧ z = z' := by
  cases h with
  | known h => exact h.unique hR h'
  | unknown hb =>
    cases h' with
    | builtin => exact ⟨rfl, rfl⟩
    | ofClass hn =>
      rw [hb] at hn
      cases hn
    | typedef hn _ =>
      have he := hn.entry
      rw [hb] at he
      cases he

/-- The last name of an expansion, under its qualified name. -/
def Vocabulary.place (v : Vocabulary) (N z : Text) : Text :=
  if v.builtins.contains z then z else QualifiedName.within N z

theorem Vocabulary.place_of_builtin (hz : z ∈ v.builtins) : v.place N z = z :=
  if_pos (List.contains_iff_mem.mpr hz)

theorem Vocabulary.place_of_name (hz : v.IsName z) : v.place N z = QualifiedName.within N z :=
  if_neg fun hc => hz.2 (List.contains_iff_mem.mp hc)

theorem not_isWord_within (hN : N ≠ []) : ¬ IsWord (QualifiedName.within N n) := by
  intro h
  have hc := h.colon_notMem
  rw [QualifiedName.within, if_neg hN] at hc
  simp at hc

/-- Under a constructor the outside reading is the inside one where both readings of the base
agree on a builtin type. -/
theorem chain_eq_chain_iff (hT : v.Holds T) (hR : v.Holds R) (hN : v.IsPath N)
    {z' : Text} (hb : Expands v T b cs z) (hb' : Reads v R b cs' z') :
    chain cs' z' = chain cs (v.place N z) ↔
      ∃ cs'' z'', z'' ∈ v.builtins ∧ Expands v T b cs'' z'' ∧ Expands v R b cs'' z'' := by
  have hword := hb'.last_isWord hR
  constructor
  · intro h
    have hplace : Unbracketed (v.place N z) ∧ v.place N z ≠ [] := by
      rcases hb.last with hz | hz
      · rw [Vocabulary.place_of_builtin hz]
        exact ⟨(v.words z hz).unbracketed, (v.words z hz).ne_nil⟩
      · have hpath := Vocabulary.isPath_within (Or.inr hN) (hT z _ hz)
        rw [Vocabulary.place_of_name (hT z _ hz)]
        exact ⟨hpath.unbracketed, hpath.ne_nil⟩
    obtain ⟨rfl, hz'⟩ := chain_inj hb'.plain hb.plain hword.unbracketed hplace.1 hword.ne_nil
      hplace.2 h
    rcases hb.last with hz | hz
    · rw [Vocabulary.place_of_builtin hz] at hz'
      subst hz'
      refine ⟨_, _, hz, hb, ?_⟩
      cases hb' with
      | known h' => exact h'
      | unknown => exact .builtin hz
    · rw [Vocabulary.place_of_name (hT z _ hz)] at hz'
      rw [hz'] at hword
      exact absurd hword (not_isWord_within hN.ne_nil)
  · rintro ⟨cs'', z'', hz, hT', hR'⟩
    obtain ⟨rfl, rfl⟩ := hb.unique hT hT'
    obtain ⟨rfl, rfl⟩ := hb'.eq_of_expands hR hR'
    rw [Vocabulary.place_of_builtin hz]

/-- The first typedef with constructors on the way from a name by renaming has a base that both
tables expand to the same builtin type. -/
def LeavesNothingBehind (v : Vocabulary) (T R : Table TypedefEntry) (n : Text) : Prop :=
  ∀ m cs b, Renames T n m → Declares T m cs b → cs ≠ [] →
    ∃ cs' z, z ∈ v.builtins ∧ Expands v T b cs' z ∧ Expands v R b cs' z

theorem leavesNothingBehind_of_class (hn : T.get? n = some ⟨n, true⟩) :
    LeavesNothingBehind v T R n := by
  intro m cs b hm hd _
  cases hm.eq_of_not_declares fun b => not_declares_of_class hn
  exact absurd hd (not_declares_of_class hn)

theorem leavesNothingBehind_of_builtin (hT : v.Holds T) (hn : n ∈ v.builtins) :
    LeavesNothingBehind v T R n := by
  intro m cs b hm hd _
  cases hm.eq_of_not_declares fun b => hT.not_declares hn
  exact absurd hd (hT.not_declares hn)

theorem leavesNothingBehind_iff_of_rename (hn : Declares T n [] b) :
    LeavesNothingBehind v T R n ↔ LeavesNothingBehind v T R b := by
  constructor
  · intro h m cs b' hm hd hcs
    exact h m cs b' ((Renames.head_iff hn).mpr (Or.inr hm)) hd hcs
  · intro h m cs b' hm hd hcs
    rcases (Renames.head_iff hn).mp hm with rfl | hm
    · exact absurd (hd.unique hn).1 hcs
    · exact h m cs b' hm hd hcs

theorem leavesNothingBehind_iff_of_bare (hn : Declares T n cs b) (hcs : cs ≠ []) :
    LeavesNothingBehind v T R n ↔
      ∃ cs' z, z ∈ v.builtins ∧ Expands v T b cs' z ∧ Expands v R b cs' z := by
  constructor
  · exact fun h => h n cs b Relation.ReflTransGen.refl hn hcs
  · intro h m cs' b' hm hd _
    cases hm.eq_of_not_declares fun b₁ h₁ => hcs (hn.unique h₁).1
    obtain ⟨rfl, rfl⟩ := hn.unique hd
    exact h

theorem ReadsFromOutside.eq_iff (hT : v.Holds T) (hR : v.Holds R) (hN : v.IsPath N) {z' : Text}
    (h : ReadsFromOutside v T R N n cs' z') (hx : Expands v T n cs z) :
    chain cs' z' = chain cs (v.place N z) ↔ LeavesNothingBehind v T R n := by
  induction h generalizing cs z with
  | ofClass hn =>
    obtain ⟨rfl, rfl⟩ := hx.unique hT (.ofClass hn)
    rw [Vocabulary.place_of_name (hT _ _ hn)]
    exact iff_of_true rfl (leavesNothingBehind_of_class hn)
  | builtin hn hb =>
    obtain ⟨rfl, rfl⟩ := hx.unique hT (.typedef hn (.builtin hb))
    rw [Vocabulary.place_of_builtin hb]
    exact iff_of_true rfl ((leavesNothingBehind_iff_of_rename hn).mpr
      (leavesNothingBehind_of_builtin hT hb))
  | rename hn _ ih =>
    obtain ⟨cs₂, rfl, hx'⟩ := hx.of_declares hT hn
    exact (ih hx').trans (leavesNothingBehind_iff_of_rename hn).symm
  | bare hn hcs hb =>
    obtain ⟨cs₂, rfl, hx'⟩ := hx.of_declares hT hn
    rw [chain_append, chain_append, chain_right_inj, chain_eq_chain_iff hT hR hN hx' hb]
    exact (leavesNothingBehind_iff_of_bare hn hcs).symm

end BindingTypes

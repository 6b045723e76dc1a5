import BindingTypes.Proofs.CType.Outgrown

namespace BindingTypes

theorem Text.cut?_extended {t u needle x y : Text} (h : t.cut? needle = some (x, y)) :
    (t ++ u).cut? needle = some (x, y ++ u) := by
  induction t generalizing x with
  | nil =>
    obtain ⟨rfl, ⟨⟩⟩ : needle = [] ∧ some (([], []) : Text × Text) = some (x, y) := by
      unfold cut? at h
      split at h
      · exact ⟨‹_›, h⟩
      · cases h
    cases u <;> rfl
  | cons c t ih =>
    unfold cut? at h
    rw [List.cons_append, cut?]
    split at h
    · rename_i r hr
      cases h
      have hwhole : after? (c :: (t ++ u)) needle = some (y ++ u) := by
        rw [after?_eq_some_iff, ← List.cons_append, after?_eq_some_iff.mp hr, List.append_assoc]
      rw [hwhole]
    · rename_i hnone
      obtain ⟨⟨x', y'⟩, hcut, he⟩ := Option.map_eq_some_iff.mp h
      cases he
      -- the needle lies in what follows, so it is too short to begin here and end behind
      have hlength : needle.length ≤ t.length := by
        rw [eq_of_cut? hcut, List.length_append, List.length_append]
        omega
      have hafter : after? (c :: (t ++ u)) needle = none := by
        cases hfound : after? (c :: (t ++ u)) needle with
        | none => rfl
        | some r =>
          have hwhole := after?_eq_some_iff.mp hfound
          rw [← List.cons_append] at hwhole
          rcases List.append_eq_append_iff.mp hwhole with ⟨z, hz, -⟩ | ⟨z, hz, -⟩
          · have hle := congrArg List.length hz
            simp only [List.length_append, List.length_cons] at hle
            omega
          · rw [after?_eq_some_iff.mpr hz] at hnone
            cases hnone
      rw [hafter, ih hcut]
      rfl

namespace CType

variable {t u inside rest name : Text} {ts : List Text} {own : TemplateParts} {k : Nat}

theorem parensAfter_of_closeGroup_none (h : closeGroup k t = none) :
    ∃ m, parensAfter k t = some m := by
  induction t generalizing k with
  | nil => exact ⟨k, rfl⟩
  | cons c t ih =>
    unfold closeGroup at h
    rw [parensAfter_cons]
    split at h
    · rename_i hc
      subst hc
      cases k with
      | zero => cases h
      | succ k => exact ih (Option.map_eq_none_iff.mp h)
    · rename_i hc
      have hstep : parensStep k c = some (if c = '(' then k + 1 else k) := by
        by_cases ho : c = '(' <;> simp [parensStep, ho, hc]
      rw [hstep]
      exact ih (Option.map_eq_none_iff.mp h)

/-- A group that closes in front of closed parentheses or inside them closes in front of them. -/
theorem closeGroup_within (hu : Balanced u) (h : closeGroup k (t ++ u) = some (inside, rest)) :
    ∃ rest', closeGroup k t = some (inside, rest') ∧ rest = rest' ++ u := by
  cases hclose : closeGroup k t with
  | none =>
    obtain ⟨m, hm⟩ := parensAfter_of_closeGroup_none hclose
    have hopen : parensAfter k (t ++ u) = some m := by
      rw [parensAfter_append, hm]
      exact hu.after m
    rw [closeGroup_of_open hopen] at h
    cases h
  | some r =>
    rw [closeGroup_append hclose] at h
    cases h
    exact ⟨r.2, rfl, rfl⟩

theorem balanced_angled (hts : ∀ t ∈ ts, Balanced t) : Balanced (angled ts) := by
  have hshape : angled ts = ['<'] ++ ('(' :: (Text.commaJoin ts ++ [')']) ++ ['>']) := by
    simp [angled]
  rw [hshape]
  exact Balanced.append (by decide) ((balanced_commaJoin hts).group.append (by decide))

theorem noOpening_iff : NoOpening t ↔ isTemplate t = false := by
  rw [← Bool.not_eq_true, isTemplate, Text.has_iff]
  exact Iff.rfl

theorem inside_infix (h : templateParts t = .ok (some own)) : own.inside <:+: t := by
  obtain ⟨opened, hcut, hclose⟩ := templateParts_eq_ok_some_iff.mp h
  refine ⟨own.stem ++ "<(".toList, ')' :: '>' :: own.tail, ?_⟩
  rw [Text.eq_of_cut? hcut, append_of_closeGroup hclose, List.append_assoc]

theorem exists_of_isTemplate (hname : isTemplate t = true) {parts : Option TemplateParts}
    (h : templateParts t = .ok parts) : ∃ own, parts = some own := by
  obtain ⟨r, hcut⟩ := Option.isSome_iff_exists.mp hname
  obtain ⟨hnone, -⟩ | ⟨own, -, hown, -⟩ := templateParts_eq_ok_iff.mp h
  · cases hcut.symm.trans hnone
  · exact ⟨own, hown⟩

/-- The first template arguments of a name are found also where more text stands behind the name. -/
theorem templateParts_extended (h : templateParts name = .ok (some own)) (u : Text) :
    templateParts (name ++ u) = .ok (some { own with tail := own.tail ++ u }) := by
  obtain ⟨opened, hcut, hclose⟩ := templateParts_eq_ok_some_iff.mp h
  exact templateParts_eq_ok_some_iff.mpr
    ⟨opened ++ u, Text.cut?_extended hcut, closeGroup_append hclose u⟩

/-- Further arguments behind a name do not close those of the name. -/
theorem exists_templateParts (hname : isTemplate name = true) (hts : ∀ t ∈ ts, Balanced t)
    {parts : Option TemplateParts} (h : templateParts (name ++ angled ts) = .ok parts) :
    ∃ own, templateParts name = .ok (some own) := by
  obtain ⟨⟨stem, opened⟩, hcut⟩ := Option.isSome_iff_exists.mp hname
  have hwhole : (name ++ angled ts).cut? "<(".toList = some (stem, opened ++ angled ts) :=
    Text.cut?_extended hcut
  obtain ⟨own, rfl⟩ := exists_of_isTemplate (Option.isSome_iff_exists.mpr ⟨_, hwhole⟩) h
  obtain ⟨opened', hcut', hclose⟩ := templateParts_eq_ok_some_iff.mp h
  cases hwhole.symm.trans hcut'
  obtain ⟨rest, hown, hrest⟩ := closeGroup_within (balanced_angled hts) hclose
  cases rest with
  | nil => cases hrest
  | cons c rest =>
    obtain ⟨rfl, -⟩ := List.cons.inj hrest
    exact ⟨⟨own.stem, own.inside, rest⟩, templateParts_eq_ok_some_iff.mpr ⟨opened, hcut, hown⟩⟩

/-- Behind a name with template arguments of its own, further arguments are not spelled. -/
theorem nameSpelling_extended_iff (hname : isTemplate name = true)
    (hts : ∀ t ∈ ts, Balanced t) :
    (∃ s, nameSpelling (name ++ angled ts) = .ok s) ↔ ∃ s, nameSpelling name = .ok s := by
  simp only [nameSpelling_returns_iff]
  constructor
  · rintro ⟨parts, hparts, hargs⟩
    obtain ⟨own, hown⟩ := exists_templateParts hname hts hparts
    cases (templateParts_extended hown (angled ts)).symm.trans hparts
    refine ⟨some own, hown, fun ps hps p hp => ?_⟩
    cases hps
    exact hargs _ rfl p hp
  · rintro ⟨parts, hparts, hargs⟩
    obtain ⟨own, rfl⟩ := exists_of_isTemplate hname hparts
    refine ⟨_, templateParts_extended hparts (angled ts), fun ps hps => ?_⟩
    cases hps
    exact hargs own rfl

/-- The arguments of a template are spelled with its name. -/
theorem nameSpelling_block_iff (hname : NoOpening name) (hts : ∀ t ∈ ts, Listable t)
    (hne : ∀ t ∈ ts, t ≠ []) :
    (∃ s, nameSpelling (name ++ angled ts) = .ok s) ↔ ∀ t ∈ ts, ∃ s, spelling t = .ok s := by
  have hlisted : TemplateParts.arguments ⟨name, Text.commaJoin ts, []⟩ = ts :=
    listed_commaJoin hts hne
  have hparts := templateParts_block [] hname fun t ht => (hts t ht).balanced
  rw [List.append_nil] at hparts
  rw [nameSpelling_returns_iff, hparts]
  constructor
  · rintro ⟨parts, h, hargs⟩
    cases h
    rw [← hlisted]
    exact hargs _ rfl
  · intro h
    refine ⟨_, rfl, fun ps hps => ?_⟩
    cases hps
    rw [hlisted]
    exact h

end CType

end BindingTypes

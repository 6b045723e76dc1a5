import BindingTypes.Proofs.Scope.Vocabulary
import BindingTypes.Scope.Basic
import Mathlib.Logic.Relation

namespace BindingTypes

open CType Relation

/-- The table makes `n` a typedef of `b` under the constructors `cs`. -/
structure Declares (T : Table TypedefEntry) (n : Text) (cs : List Constructor) (b : Text) :
    Prop where
  entry : T.get? n = some ⟨chain cs b, false⟩
  plain : ∀ c ∈ cs, c.IsPlain
  word : IsWord b

/-- What the typedefs of one table make of a name: constructors over a builtin type or a class. -/
inductive Expands (v : Vocabulary) (T : Table TypedefEntry) :
    Text → List Constructor → Text → Prop
  | builtin {b : Text} (hb : b ∈ v.builtins) : Expands v T b [] b
  | ofClass {n : Text} (hn : T.get? n = some ⟨n, true⟩) : Expands v T n [] n
  | typedef {n b z : Text} {cs cs' : List Constructor} (hn : Declares T n cs b)
      (hb : Expands v T b cs' z) : Expands v T n (cs ++ cs') z

/-- From name to name by typedefs without constructors. -/
def Renames (T : Table TypedefEntry) : Text → Text → Prop :=
  ReflTransGen fun n b => Declares T n [] b

def Uses (T : Table TypedefEntry) (n b : Text) : Prop := ∃ cs, Declares T n cs b

/-- Only names are declared. -/
def Vocabulary.Holds (v : Vocabulary) (T : Table TypedefEntry) : Prop :=
  ∀ n e, T.get? n = some e → v.IsName n

variable {v : Vocabulary} {T : Table TypedefEntry} {n b z : Text} {cs cs' : List Constructor}

theorem IsWord.ne_nil (h : IsWord n) : n ≠ [] := h.1

theorem Declares.unique {b' : Text} (h : Declares T n cs b) (h' : Declares T n cs' b') :
    cs = cs' ∧ b = b' := by
  have he := h.entry.symm.trans h'.entry
  have ht : chain cs b = chain cs' b' := congrArg TypedefEntry.type (Option.some.inj he)
  exact chain_inj h.plain h'.plain h.word.unbracketed h'.word.unbracketed h.word.ne_nil
    h'.word.ne_nil ht

theorem Vocabulary.Holds.get?_builtin (hT : v.Holds T) (hb : b ∈ v.builtins) :
    T.get? b = none := by
  cases he : T.get? b with
  | none => rfl
  | some e => exact absurd hb (hT b e he).2

theorem Vocabulary.Holds.not_declares (hT : v.Holds T) (hn : n ∈ v.builtins) :
    ¬ Declares T n cs b := by
  intro h
  have hnone := hT.get?_builtin hn
  rw [h.entry] at hnone
  cases hnone

theorem not_declares_of_class (hn : T.get? n = some ⟨n, true⟩) : ¬ Declares T n cs b := by
  intro h
  have he := hn.symm.trans h.entry
  cases he

namespace Expands

theorem plain (h : Expands v T n cs z) : ∀ c ∈ cs, c.IsPlain := by
  induction h with
  | builtin => exact plain_nil
  | ofClass => exact plain_nil
  | typedef hn _ ih => exact plain_append hn.plain ih

theorem contains_or_builtin (h : Expands v T n cs z) :
    T.contains n = true ∨ n ∈ v.builtins := by
  cases h with
  | builtin hb => exact Or.inr hb
  | ofClass hn => exact Or.inl (by rw [Table.contains, hn]; rfl)
  | typedef hn _ => exact Or.inl (by rw [Table.contains, hn.entry]; rfl)

/-- The last name is a builtin type, or a class of the table. -/
theorem last (h : Expands v T n cs z) :
    z ∈ v.builtins ∨ T.get? z = some ⟨z, true⟩ := by
  induction h with
  | builtin hb => exact Or.inl hb
  | ofClass hn => exact Or.inr hn
  | typedef _ _ ih => exact ih

theorem last_isWord (hT : v.Holds T) (h : Expands v T n cs z) : IsWord z := by
  rcases h.last with hz | hz
  · exact v.words z hz
  · exact (hT z _ hz).isWord

theorem unique {z' : Text} (hT : v.Holds T) (h : Expands v T n cs z)
    (h' : Expands v T n cs' z') : cs = cs' ∧ z = z' := by
  induction h generalizing cs' z' with
  | builtin hb =>
    cases h' with
    | builtin => exact ⟨rfl, rfl⟩
    | ofClass hn =>
      have hnone := hT.get?_builtin hb
      rw [hn] at hnone
      cases hnone
    | typedef hn _ => exact absurd hn (hT.not_declares hb)
  | ofClass hn =>
    cases h' with
    | builtin hb =>
      have hnone := hT.get?_builtin hb
      rw [hn] at hnone
      cases hnone
    | ofClass => exact ⟨rfl, rfl⟩
    | typedef hd _ => exact absurd hd (not_declares_of_class hn)
  | typedef hd _ ih =>
    cases h' with
    | builtin hb => exact absurd hd (hT.not_declares hb)
    | ofClass hn => exact absurd hd (not_declares_of_class hn)
    | typedef hd' hb' =>
      obtain ⟨rfl, rfl⟩ := hd.unique hd'
      obtain ⟨rfl, rfl⟩ := ih hb'
      exact ⟨rfl, rfl⟩

theorem of_declares {cs₁ : List Constructor} (hT : v.Holds T) (h : Expands v T n cs z)
    (hd : Declares T n cs₁ b) : ∃ cs₂, cs = cs₁ ++ cs₂ ∧ Expands v T b cs₂ z := by
  cases h with
  | builtin hb => exact absurd hd (hT.not_declares hb)
  | ofClass hn => exact absurd hd (not_declares_of_class hn)
  | typedef hd' hb =>
    obtain ⟨rfl, rfl⟩ := hd.unique hd'
    exact ⟨_, rfl, hb⟩

/-- No name that expands leads back to itself. -/
theorem not_uses_self (hT : v.Holds T) (h : Expands v T n cs z) : ¬ TransGen (Uses T) n n := by
  induction h with
  | builtin hb =>
    intro hp
    obtain ⟨m, ⟨cs, hd⟩, -⟩ := TransGen.head'_iff.mp hp
    exact hT.not_declares hb hd
  | ofClass hn =>
    intro hp
    obtain ⟨m, ⟨cs, hd⟩, -⟩ := TransGen.head'_iff.mp hp
    exact not_declares_of_class hn hd
  | typedef hd _ ih =>
    intro hp
    obtain ⟨m, ⟨cs, hd'⟩, hm⟩ := TransGen.head'_iff.mp hp
    obtain ⟨-, rfl⟩ := hd.unique hd'
    exact ih (TransGen.tail' hm ⟨_, hd⟩)

/-- A further name changes no expansion. -/
theorem insert {m : Text} {e : TypedefEntry} (hm : T.get? m = none) (h : Expands v T n cs z) :
    Expands v (T.insert m e) n cs z := by
  have hkeep : ∀ {k : Text} {e' : TypedefEntry}, T.get? k = some e' →
      (T.insert m e).get? k = some e' := by
    intro k e' hk
    have hkm : k ≠ m := by
      rintro rfl
      rw [hm] at hk
      cases hk
    rw [Table.get?_insert, if_neg hkm]
    exact hk
  induction h with
  | builtin hb => exact .builtin hb
  | ofClass hn => exact .ofClass (hkeep hn)
  | typedef hn _ ih => exact .typedef ⟨hkeep hn.entry, hn.plain, hn.word⟩ ih

end Expands

/-- A name that is not renamed is renamed to itself only. -/
theorem Renames.eq_of_not_declares {m : Text} (h : Renames T n m)
    (hn : ∀ b, ¬ Declares T n [] b) : m = n := by
  rcases ReflTransGen.cases_head h with he | ⟨b, hb, -⟩
  · exact he.symm
  · exact absurd hb (hn b)

theorem Renames.head_iff {m : Text} (hn : Declares T n [] b) :
    Renames T n m ↔ m = n ∨ Renames T b m := by
  constructor
  · intro h
    rcases ReflTransGen.cases_head h with he | ⟨b', hb, hm⟩
    · exact Or.inl he.symm
    · obtain ⟨-, rfl⟩ := hn.unique hb
      exact Or.inr hm
  · rintro (rfl | h)
    · exact ReflTransGen.refl
    · exact ReflTransGen.head hn h

end BindingTypes

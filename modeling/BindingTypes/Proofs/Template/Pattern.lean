import BindingTypes.Proofs.CType.RenamedElement
import BindingTypes.Proofs.CType.WellFormed
import BindingTypes.Proofs.Template.Placeholders

namespace BindingTypes

namespace CType

variable {c : Constructor} {cs : List Constructor} {b : Text}

theorem Constructor.IsReadable.listable (h : c.IsReadable) : Listable c.text := by
  cases c with
  | pointer => exact .of_plain (by decide)
  | reference => exact .of_plain (by decide)
  | array x => exact .written (by decide) h
  | function ps =>
    exact .written (by decide) (balanced_commaJoin fun p hp => (h.1 p hp).1)
  | qualifier x => exact .written (by decide) h
  | memberPointer x => exact .written (by decide) h

theorem listable_chain (hcs : ∀ c ∈ cs, c.IsReadable) (hb : Listable b) :
    Listable (chain cs b) := by
  refine Listable.append (Listable.flatten fun t ht => ?_) hb
  obtain ⟨c, hc, rfl⟩ := List.mem_map.mp ht
  exact (hcs c hc).listable

theorem composed_chain (hcs : ∀ c ∈ cs, c.IsReadable) (hb : IsBase b) (hne : b ≠ []) :
    Composed (chain cs b) (cs.map Constructor.text) b where
  eq := rfl
  dotted f hf := by
    obtain ⟨c, hc, rfl⟩ := List.mem_map.mp hf
    exact (hcs c hc).dotted
  single := by rw [hb.elements, if_neg hne]
  ne_nil := hne

/-- Constructors end with a dot. -/
theorem getLast?_constructors (cs : List Constructor) :
    chain cs [] = [] ∨ (chain cs []).getLast? = some '.' := by
  rcases List.eq_nil_or_concat cs with rfl | ⟨init, c, rfl⟩
  · exact Or.inl rfl
  · refine Or.inr ?_
    simp [chain, List.getLast?_append, text_getLast?]

theorem chain_eq_append (cs : List Constructor) (b : CType) : chain cs b = chain cs [] ++ b := by
  simp [chain]

end CType

theorem listable_of_letters {t : Text} (h : ∀ c ∈ t, c = '$' ∨ isIdentChar c = true) :
    CType.Listable t := by
  refine .of_plain fun c hc => ⟨?_, ?_, ?_⟩ <;>
  · rintro rfl
    rcases h _ hc with heq | heq <;> cases heq

theorem isBase_of_isIdentifier {n : Text} (h : IsIdentifier n) : CType.IsBase n :=
  CType.isBase_of_unbracketed h.isWord.unbracketed

theorem unbracketed_placeholder (n : Nat) : CType.Unbracketed (TemplateEngine.placeholder n) := by
  intro c hc
  rcases List.mem_cons.mp hc with rfl | hc
  · decide
  · exact (isIdentifier_ofNat n).isWord.unbracketed c hc

open CType (Constructor)

/-- One argument in the pattern of a partial specialization: a constant type, or constructors in
front of the placeholder of its own position. An instance has `name` in place of that. -/
inductive PatternSlot where
  | constant (type : CType)
  | placeholder (front : List Constructor) (name : Text)

namespace PatternSlot

/-- The types are written as arguments are, and only a placeholder brings a dollar sign. -/
def IsProper : PatternSlot → Prop
  | constant t => CType.Listable t ∧ t ≠ [] ∧ '$' ∉ t
  | placeholder front name =>
    (∀ c ∈ front, c.IsReadable) ∧ '$' ∉ CType.chain front [] ∧ IsIdentifier name

/-- As it stands at position `n` of the pattern. -/
def inPattern (n : Nat) : PatternSlot → CType
  | constant t => t
  | placeholder front _ => CType.chain front (TemplateEngine.placeholder n)

/-- As it stands in the instance. -/
def inInstance : PatternSlot → CType
  | constant t => t
  | placeholder front name => CType.chain front name

/-- The slots from position `n` on, in the pattern. -/
def patternTypes : (n : Nat) → List PatternSlot → List CType
  | _, [] => []
  | n, s :: slots => s.inPattern n :: patternTypes (n + 1) slots

def patternArguments (slots : List PatternSlot) : List TemplateArgument :=
  (patternTypes 1 slots).map .type

def instanceArguments (slots : List PatternSlot) : List TemplateArgument :=
  slots.map fun s => .type s.inInstance

/-- The names in place of the placeholders, up to the first slot without one. -/
def chosen : List PatternSlot → List TemplateArgument
  | placeholder _ name :: slots => .type name :: chosen slots
  | _ => []

variable {s : PatternSlot} {slots done : List PatternSlot} {name rep : Text} {m n : Nat}
  {fillers : List Text}

namespace IsProper

theorem inInstance_notMem (h : s.IsProper) : '$' ∉ s.inInstance := by
  cases s with
  | constant t => exact h.2.2
  | placeholder front x =>
    have hx : '$' ∉ x := fun hm => by cases h.2.2.2 '$' hm
    rw [inInstance, CType.chain_eq_append]
    simp [h.2.1, hx]

theorem listable_inPattern (h : s.IsProper) (n : Nat) : CType.Listable (s.inPattern n) := by
  cases s with
  | constant t => exact h.1
  | placeholder front x =>
    refine CType.listable_chain h.1 (listable_of_letters fun c hc => ?_)
    exact (List.mem_cons.mp hc).imp id ((isIdentifier_ofNat n).2 c)

theorem listable_inInstance (h : s.IsProper) : CType.Listable s.inInstance := by
  cases s with
  | constant t => exact h.1
  | placeholder front x =>
    exact CType.listable_chain h.1 (listable_of_letters fun c hc => Or.inr (h.2.2.2 c hc))

theorem inPattern_ne_nil (h : s.IsProper) (n : Nat) : s.inPattern n ≠ [] := by
  cases s with
  | constant t => exact h.2.1
  | placeholder front x => simp [inPattern, CType.chain, TemplateEngine.placeholder]

theorem inInstance_ne_nil (h : s.IsProper) : s.inInstance ≠ [] := by
  cases s with
  | constant t => exact h.2.1
  | placeholder front x =>
    have hx : x ≠ [] := h.2.2.1
    simp [inInstance, CType.chain, hx]

/-- A placeholder has only its own text put in its place. -/
theorem fills (h : s.IsProper) (hrep : m = n → CType.base s.inInstance = .ok rep) :
    Fills n rep (s.inPattern m) (if m = n then s.inInstance else s.inPattern m) := by
  cases s with
  | constant t =>
    show Fills n rep t (if m = n then t else t)
    rw [ite_self]
    exact .of_notMem h.2.2
  | placeholder front x =>
    have hfills : Fills n rep (CType.chain front [] ++ TemplateEngine.placeholder m)
        (if m = n then CType.chain front [] ++ rep
          else CType.chain front [] ++ TemplateEngine.placeholder m) :=
      .placeholder h.2.1 (CType.getLast?_constructors front)
    rw [inPattern, inInstance, CType.chain_eq_append, CType.chain_eq_append front x]
    by_cases hmn : m = n
    · have hbase := (CType.composed_chain h.1 (isBase_of_isIdentifier h.2.2) h.2.2.1).base
      cases (hrep hmn).symm.trans hbase
      exact hfills
    · rw [if_neg hmn] at hfills ⊢
      exact hfills

end IsProper

theorem mem_patternTypes {t : CType} (h : t ∈ patternTypes m slots) :
    ∃ s ∈ slots, ∃ n, t = s.inPattern n := by
  induction slots generalizing m with
  | nil => cases h
  | cons s slots ih =>
    rcases List.mem_cons.mp h with rfl | h
    · exact ⟨s, List.mem_cons_self, m, rfl⟩
    · obtain ⟨s', hs', hn⟩ := ih h
      exact ⟨s', List.mem_cons_of_mem s hs', hn⟩

theorem exists_inPattern_mem (h : s ∈ slots) : ∃ n, s.inPattern n ∈ patternTypes m slots := by
  induction slots generalizing m with
  | nil => cases h
  | cons s' slots ih =>
    rcases List.mem_cons.mp h with rfl | h
    · exact ⟨m, List.mem_cons_self⟩
    · obtain ⟨n, hn⟩ := ih (m := m + 1) h
      exact ⟨n, List.mem_cons_of_mem _ hn⟩

theorem listable_patternTypes (hslots : ∀ s ∈ slots, s.IsProper) :
    ∀ t ∈ patternTypes m slots, CType.Listable t ∧ t ≠ [] := by
  intro t ht
  obtain ⟨s, hs, n, rfl⟩ := mem_patternTypes ht
  exact ⟨(hslots s hs).listable_inPattern n, (hslots s hs).inPattern_ne_nil n⟩

theorem instanceName_patternArguments (name : Text) (slots : List PatternSlot) :
    instanceName name (patternArguments slots) = name ++ CType.angled (patternTypes 1 slots) := by
  simp [instanceName, argumentBlock, patternArguments, TemplateArgument.text, Function.comp_def]

theorem instanceName_instanceArguments (name : Text) (slots : List PatternSlot) :
    instanceName name (instanceArguments slots) =
      name ++ CType.angled (slots.map inInstance) := by
  simp [instanceName, argumentBlock, instanceArguments, TemplateArgument.text, Function.comp_def]

/-- Placeholders that stand behind a position are left there. -/
theorem fills_behind (hslots : ∀ s ∈ slots, s.IsProper) (hn : n < m) :
    List.Forall₂ (Fills n rep) (patternTypes m slots) (patternTypes m slots) := by
  induction slots generalizing m with
  | nil => exact .nil
  | cons s slots ih =>
    obtain ⟨hs, hslots⟩ := List.forall_mem_cons.mp hslots
    have hne : m ≠ n := by omega
    have hfills : Fills n rep (s.inPattern m) (if m = n then s.inInstance else s.inPattern m) :=
      hs.fills fun h => absurd h hne
    rw [if_neg hne] at hfills
    exact .cons hfills (ih hslots (by omega))

theorem fills_done (hdone : ∀ s ∈ done, s.IsProper) :
    List.Forall₂ (Fills n rep) (done.map inInstance) (done.map inInstance) := by
  rw [List.forall₂_same]
  intro t ht
  obtain ⟨s, hs, rfl⟩ := List.mem_map.mp ht
  exact .of_notMem (hdone s hs).inInstance_notMem

/-- With the bases in place of the placeholders, one after another, the pattern is the instance. -/
theorem fillFrom_slots (hname : '$' ∉ name) (hdone : ∀ s ∈ done, s.IsProper)
    (hslots : ∀ s ∈ slots, s.IsProper)
    (hfillers : List.Forall₂ (fun s f => CType.base s.inInstance = .ok f) slots fillers) :
    TemplateEngine.fillFrom (done.length + 1) fillers
        (name ++ CType.angled (done.map inInstance ++ patternTypes (done.length + 1) slots)) =
      name ++ CType.angled ((done ++ slots).map inInstance) := by
  induction hfillers generalizing done with
  | nil => simp [TemplateEngine.fillFrom, patternTypes]
  | @cons s f slots fillers hf _ ih =>
    obtain ⟨hs, hslots⟩ := List.forall_mem_cons.mp hslots
    have hown := hs.fills (m := done.length + 1) (n := done.length + 1) fun _ => hf
    rw [if_pos rfl] at hown
    have hdone' : ∀ s' ∈ done ++ [s], s'.IsProper :=
      List.forall_mem_append.mpr ⟨hdone, List.forall_mem_singleton.mpr hs⟩
    have hstep := replaceWhole_angled hname (List.rel_append (fills_done hdone)
      (.cons hown (fills_behind (m := done.length + 2) hslots (Nat.lt_succ_self _))))
    have hrest := ih hdone' hslots
    rw [TemplateEngine.fillFrom, patternTypes, hstep]
    simpa using hrest

end PatternSlot

end BindingTypes

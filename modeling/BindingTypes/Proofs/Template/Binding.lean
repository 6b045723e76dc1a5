import BindingTypes.Proofs.CType.InstanceName
import BindingTypes.Proofs.Template.Pattern

namespace BindingTypes

open TemplateEngine

namespace TemplateEngine

variable {before after : List (CType × TemplateArgument)} {pattern : CType}
  {arg bound : TemplateArgument} {n : Nat}

theorem find?_eq_none_of_hasWhole (h : ∀ p ∈ before, Text.hasWhole p.1 (placeholder n) = false) :
    before.find? (fun p => p.1.hasWhole (placeholder n)) = none := by
  rw [List.find?_eq_none]
  intro p hp
  rw [h p hp]
  exact Bool.false_ne_true

theorem bindFrom_nil (h : ∀ p ∈ before, Text.hasWhole p.1 (placeholder n) = false) (count : Nat) :
    bindFrom before n count = .ok [] := by
  cases count with
  | zero => rfl
  | succ count => rw [bindFrom, find?_eq_none_of_hasWhole h]

theorem bindFrom_cons (h : ∀ p ∈ before, Text.hasWhole p.1 (placeholder n) = false)
    (hhas : pattern.hasWhole (placeholder n) = true)
    (hone : bindOne pattern (placeholder n) arg = .ok bound) (count : Nat) :
    bindFrom (before ++ (pattern, arg) :: after) n (count + 1) =
      (bindFrom (before ++ (pattern, arg) :: after) (n + 1) count).map (bound :: ·) := by
  have hfind : (before ++ (pattern, arg) :: after).find? (fun p => p.1.hasWhole (placeholder n)) =
      some (pattern, arg) := by
    rw [List.find?_append, find?_eq_none_of_hasWhole h, Option.none_or]
    exact List.find?_cons_of_pos hhas
  rw [bindFrom, hfind]
  show (bindOne pattern (placeholder n) arg >>= _) = _
  rw [hone]
  cases bindFrom (before ++ (pattern, arg) :: after) (n + 1) count <;> rfl

end TemplateEngine

namespace PatternSlot

/-- The slots from position `n` on, each with its argument. -/
def bindings (n : Nat) (slots : List PatternSlot) : List (CType × TemplateArgument) :=
  (patternTypes n slots).zip (instanceArguments slots)

variable {s : PatternSlot} {slots done : List PatternSlot} {front : List CType.Constructor}
  {name x : Text} {m n : Nat}

theorem bindings_cons (n : Nat) (s : PatternSlot) (slots : List PatternSlot) :
    bindings n (s :: slots) = (s.inPattern n, .type s.inInstance) :: bindings (n + 1) slots := rfl

theorem bindings_append (n : Nat) (done slots : List PatternSlot) :
    bindings n (done ++ slots) = bindings n done ++ bindings (n + done.length) slots := by
  induction done generalizing n with
  | nil => rfl
  | cons s done ih =>
    rw [List.cons_append, bindings_cons, bindings_cons, ih, List.length_cons, List.cons_append]
    congr 3
    omega

/-- A placeholder is found at its own position only. -/
theorem IsProper.hasWhole_other (h : s.IsProper) (hmn : m ≠ n) :
    Text.hasWhole (s.inPattern m) (TemplateEngine.placeholder n) = false := by
  cases s with
  | constant t => exact Text.hasWhole_of_notMem h.2.2
  | placeholder front x =>
    rw [inPattern, CType.chain_eq_append,
      Text.hasWhole_placeholder h.2.1 (CType.getLast?_constructors front), decide_eq_false hmn]

theorem hasWhole_bindings (hslots : ∀ s ∈ slots, s.IsProper)
    (hn : ∀ i, m ≤ i → i < m + slots.length → i ≠ n) :
    ∀ p ∈ bindings m slots, Text.hasWhole p.1 (TemplateEngine.placeholder n) = false := by
  induction slots generalizing m with
  | nil => exact List.forall_mem_nil _
  | cons s slots ih =>
    obtain ⟨hs, hslots⟩ := List.forall_mem_cons.mp hslots
    rw [List.length_cons] at hn
    rw [bindings_cons]
    refine List.forall_mem_cons.mpr ⟨hs.hasWhole_other (hn m (Nat.le_refl m) (by omega)), ?_⟩
    exact ih hslots fun i hm hi => hn i (by omega) (by omega)

/-- Behind the constructors of the pattern stands the name that was chosen. -/
theorem bindOne_placeholder (hx : x ≠ []) (n : Nat) :
    bindOne (CType.chain front (TemplateEngine.placeholder n)) (TemplateEngine.placeholder n)
      (.type (CType.chain front x)) = .ok (.type x) := by
  have hends : Text.endsWith (CType.chain front (TemplateEngine.placeholder n))
      (TemplateEngine.placeholder n) = true :=
    Text.endsWith_iff.mpr ⟨CType.chain front [], CType.chain_eq_append ..⟩
  have htake : List.take ((CType.chain front (TemplateEngine.placeholder n)).length -
      (TemplateEngine.placeholder n).length) (CType.chain front (TemplateEngine.placeholder n)) =
        CType.chain front [] := by
    rw [CType.chain_eq_append, List.length_append, Nat.add_sub_cancel, List.take_left]
  have hafter : Text.after? (CType.chain front x) (CType.chain front []) = some x :=
    Text.after?_eq_some_iff.mpr (CType.chain_eq_append ..)
  unfold bindOne
  simp only [hends, htake, hafter, if_true, Option.getD_some, if_neg hx]

/-- Each parameter up to the first without a placeholder is bound to the name that was chosen. -/
theorem bindFrom_slots (hdone : ∀ s ∈ done, s.IsProper) (hslots : ∀ s ∈ slots, s.IsProper)
    (count : Nat) : bindFrom (bindings 1 (done ++ slots)) (done.length + 1) count =
      .ok ((chosen slots).take count) := by
  have hbefore := hasWhole_bindings (m := 1) (n := done.length + 1) hdone fun i _ hi => by omega
  induction count generalizing done slots with
  | zero => rfl
  | succ count ih =>
    have hlater : ∀ rest : List PatternSlot, (∀ s ∈ rest, s.IsProper) →
        ∀ p ∈ bindings (done.length + 2) rest,
          Text.hasWhole p.1 (TemplateEngine.placeholder (done.length + 1)) = false :=
      fun rest hrest => hasWhole_bindings hrest fun i hi _ => by omega
    cases slots with
    | nil =>
      rw [List.append_nil, bindFrom_nil hbefore]
      rfl
    | cons s rest =>
      obtain ⟨hs, hrest⟩ := List.forall_mem_cons.mp hslots
      have hsplit : bindings 1 (done ++ s :: rest) = bindings 1 done ++
          (s.inPattern (done.length + 1), .type s.inInstance) ::
            bindings (done.length + 2) rest := by
        rw [bindings_append, bindings_cons, Nat.add_comm 1]
      cases s with
      | constant t =>
        have hnone : Text.hasWhole t (TemplateEngine.placeholder (done.length + 1)) = false :=
          Text.hasWhole_of_notMem hs.2.2
        have hall : ∀ p ∈ bindings 1 (done ++ constant t :: rest),
            Text.hasWhole p.1 (TemplateEngine.placeholder (done.length + 1)) = false := by
          rw [hsplit]
          exact List.forall_mem_append.mpr
            ⟨hbefore, List.forall_mem_cons.mpr ⟨hnone, hlater rest hrest⟩⟩
        rw [bindFrom_nil hall]
        rfl
      | placeholder front x =>
        have hhas : Text.hasWhole ((placeholder front x).inPattern (done.length + 1))
            (TemplateEngine.placeholder (done.length + 1)) = true := by
          rw [inPattern, CType.chain_eq_append,
            Text.hasWhole_placeholder hs.2.1 (CType.getLast?_constructors front)]
          exact decide_eq_true rfl
        have hdone' : ∀ s ∈ done ++ [placeholder front x], s.IsProper :=
          List.forall_mem_append.mpr ⟨hdone, List.forall_mem_singleton.mpr hs⟩
        have hagain := ih hdone' hrest (hasWhole_bindings hdone' fun i _ hi => by omega)
        rw [List.append_assoc, List.singleton_append, List.length_append, List.length_singleton,
          hsplit] at hagain
        have hone : bindOne ((placeholder front x).inPattern (done.length + 1))
            (TemplateEngine.placeholder (done.length + 1))
              (.type (placeholder front x).inInstance) = .ok (.type x) :=
          bindOne_placeholder hs.2.2.1 _
        rw [hsplit, bindFrom_cons hbefore hhas hone, hagain]
        rfl

/-- The parameters are bound in turn, unless the template's name has arguments of its own: the
pattern is then taken for those. -/
theorem bindPattern_slots (hname : '$' ∉ name) (hslots : ∀ s ∈ slots, s.IsProper)
    (hspelled : ∃ s, CType.nameSpelling (instanceName name (patternArguments slots)) = .ok s)
    (parameters : Nat) :
    bindPattern (instanceName name (patternArguments slots)) parameters (instanceArguments slots) =
      .ok (if CType.isTemplate name then [] else (chosen slots).take parameters) := by
  have hlistable := listable_patternTypes (m := 1) hslots
  rw [instanceName_patternArguments] at hspelled ⊢
  cases htemplate : CType.isTemplate name with
  | true =>
    obtain ⟨parts, hparts, -⟩ := CType.nameSpelling_returns_iff.mp hspelled
    obtain ⟨own, hown⟩ := CType.exists_templateParts htemplate
      (fun t ht => (hlistable t ht).1.balanced) hparts
    have harguments : CType.templateArguments (name ++ CType.angled (patternTypes 1 slots)) =
        .ok own.arguments := by
      rw [CType.templateArguments, CType.templateParts_extended hown]
      rfl
    have hnone : ∀ p ∈ own.arguments.zip (instanceArguments slots),
        Text.hasWhole p.1 (TemplateEngine.placeholder 1) = false := by
      intro p hp
      have hin := (CType.infix_of_mem_listed (List.of_mem_zip hp).1).trans
        (CType.inside_infix hown)
      exact Text.hasWhole_of_notMem fun hm => hname (hin.subset hm)
    rw [bindPattern, harguments]
    exact bindFrom_nil hnone parameters
  | false =>
    have harguments := (CType.template_angled [] (CType.noOpening_iff.mpr htemplate)
      (fun t ht => (hlistable t ht).1) (fun t ht => (hlistable t ht).2)).2.1
    rw [List.append_nil] at harguments
    rw [bindPattern, harguments]
    have hnone : ∀ s ∈ ([] : List PatternSlot), s.IsProper := List.forall_mem_nil _
    exact bindFrom_slots hnone hslots parameters

/-- A name in place of the placeholder is spelled too. -/
theorem IsProper.spelled (h : s.IsProper)
    (hs : ∃ out, CType.spelling (s.inPattern n) = .ok out) :
    ∃ out, CType.spelling s.inInstance = .ok out := by
  cases s with
  | constant t => exact hs
  | placeholder front x =>
    have hpattern := (CType.composed_chain h.1 (CType.isBase_of_unbracketed
      (unbracketed_placeholder n)) (List.cons_ne_nil _ _)).elements
    have hinstance := (CType.composed_chain h.1 (isBase_of_isIdentifier h.2.2) h.2.2.1).elements
    have hmarks := (CType.declare_returns_iff hpattern []).mp hs
    refine (CType.declare_returns_iff hinstance []).mpr fun e he hvar => ?_
    rcases List.mem_append.mp he with he | he
    · exact hmarks e (List.mem_append_left _ he) hvar
    · rw [List.mem_singleton.mp he]
      have hdot : x.getLast? ≠ some '.' := fun hlast =>
        h.2.2.notMem rfl (List.mem_of_getLast? hlast)
      exact (CType.mark_base_returns_iff (CType.kind_base hdot)).mpr
        ⟨x, CType.nameSpelling_plain (h.2.2.notMem rfl)⟩

/-- An instance is spelled where its pattern is. -/
theorem nameSpelling_instance (hslots : ∀ s ∈ slots, s.IsProper)
    (h : ∃ s, CType.nameSpelling (instanceName name (patternArguments slots)) = .ok s) :
    ∃ s, CType.nameSpelling (instanceName name (instanceArguments slots)) = .ok s := by
  have hinstance : ∀ t ∈ slots.map inInstance, CType.Listable t ∧ t ≠ [] := by
    intro t ht
    obtain ⟨s, hs, rfl⟩ := List.mem_map.mp ht
    exact ⟨(hslots s hs).listable_inInstance, (hslots s hs).inInstance_ne_nil⟩
  have hpattern := listable_patternTypes (m := 1) hslots
  rw [instanceName_patternArguments] at h
  rw [instanceName_instanceArguments]
  cases hname : CType.isTemplate name with
  | true =>
    rw [CType.nameSpelling_extended_iff hname fun t ht => (hpattern t ht).1.balanced] at h
    rwa [CType.nameSpelling_extended_iff hname fun t ht => (hinstance t ht).1.balanced]
  | false =>
    have hnone := CType.noOpening_iff.mpr hname
    rw [CType.nameSpelling_block_iff hnone (fun t ht => (hpattern t ht).1)
      fun t ht => (hpattern t ht).2] at h
    rw [CType.nameSpelling_block_iff hnone (fun t ht => (hinstance t ht).1)
      fun t ht => (hinstance t ht).2]
    intro t ht
    obtain ⟨s, hs, rfl⟩ := List.mem_map.mp ht
    obtain ⟨n, hn⟩ := exists_inPattern_mem hs
    exact (hslots s hs).spelled (h _ hn)

end PatternSlot

end BindingTypes

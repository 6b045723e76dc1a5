import BindingTypes.Proofs.Diagnostic.Sorted

namespace BindingTypes

/-- Two reports that count as the same: one place, and messages that agree in their first
characters. -/
def Diagnostic.Alike (d e : Diagnostic) : Prop :=
  d.location = e.location ∧ d.message.toList.take 30 = e.message.toList.take 30

namespace DiagnosticQueue

theorem errorKey_eq_iff {d e : Diagnostic} : errorKey d = errorKey e ↔ d.Alike e := by
  rw [errorKey, errorKey, Prod.mk.injEq, String.ofList_inj]
  rfl

variable {q : DiagnosticQueue} {d : Diagnostic}

theorem add_rejects_iff : (q.add d).1 = false ↔ q.limitReached ∨ q.isRepeated d := by
  rw [add, ← Bool.or_eq_true]
  split
  · next h => simp only [h]
  · next h => split <;> simp only [h, reduceCtorEq]

/-- A diagnostic is dropped and leaves no trace, or it is kept as an error, or as another
remark. -/
theorem add_cases (q : DiagnosticQueue) (d : Diagnostic) :
    q.add d = (false, q) ∨
      q.limitReached = false ∧ d.isError = true ∧
        q.add d = (true, ⟨q.config, q.diagnostics ++ [d], q.errorCount + 1, some (errorKey d)⟩) ∨
      d.isError = false ∧ q.add d = (true, { q with diagnostics := q.diagnostics ++ [d] }) := by
  rw [add]
  split
  · exact .inl rfl
  · next hkept =>
    obtain ⟨hopen, -⟩ : q.limitReached = false ∧ q.isRepeated d = false := by simpa using hkept
    split
    · next hd => exact .inr (.inl ⟨hopen, hd, rfl⟩)
    · next hd => exact .inr (.inr ⟨by simpa using hd, rfl⟩)

theorem hasErrors_add (h : q.hasErrors) (d : Diagnostic) : (q.add d).2.hasErrors := by
  rcases add_cases q d with hadd | ⟨-, -, hadd⟩ | ⟨-, hadd⟩ <;> rw [hadd]
  · exact h
  · exact decide_eq_true (Nat.succ_pos _)
  · exact h

/-- What is done with a queue. -/
inductive Call where
  | add (d : Diagnostic)
  | emit (d : Diagnostic)
  | flush

/-- A queue and what it accepted since it was last emptied. -/
structure Run where
  queue : DiagnosticQueue
  accepted : List Diagnostic

namespace Run

/-- The record with a diagnostic that the queue accepts. -/
def record (r : Run) (d : Diagnostic) : List Diagnostic :=
  if (r.queue.add d).1 then r.accepted ++ [d] else r.accepted

def step (r : Run) : Call → Run
  | .add d => ⟨(r.queue.add d).2, r.record d⟩
  | .emit d => ⟨r.queue.emit d, r.record d⟩
  | .flush => ⟨r.queue.flush.2, []⟩

def steps (r : Run) (calls : List Call) : Run := calls.foldl step r

/-- The calls on a new queue. -/
def of (config : QueueConfig) (calls : List Call) : Run := steps ⟨.new config, []⟩ calls

def lastError? (r : Run) : Option Diagnostic := (r.accepted.filter (·.isError)).getLast?

/-- The queue agrees with the record of what it accepted. -/
structure Accounts (config : QueueConfig) (r : Run) : Prop where
  config_eq : r.queue.config = config
  queued : r.queue.diagnostics = r.accepted
  counted : r.queue.errorCount = r.accepted.countP (·.isError)
  within : 0 < config.errorLimit → r.queue.errorCount ≤ config.errorLimit
  remembered : r.queue.lastError = r.lastError?.map errorKey

variable {config : QueueConfig} {r : Run} {calls more : List Call}

theorem steps_append : r.steps (calls ++ more) = (r.steps calls).steps more := List.foldl_append

/-- What every call but a flush keeps is kept until the next flush. -/
theorem steps_keep {P : Run → Prop}
    (hstep : ∀ (r : Run) (c : Call), P r → c ≠ .flush → P (r.step c)) (h : P r)
    (hmore : ∀ c ∈ more, c ≠ .flush) : P (r.steps more) := by
  induction more generalizing r with
  | nil => exact h
  | cons c more ih =>
    obtain ⟨hc, hmore⟩ := List.forall_mem_cons.mp hmore
    exact ih (hstep r c h hc) hmore

theorem accounts_new : Accounts config ⟨.new config, []⟩ :=
  ⟨rfl, rfl, rfl, fun _ => Nat.zero_le _, rfl⟩

theorem Accounts.limitReached_iff (h : Accounts config r) : r.queue.limitReached ↔
    0 < config.errorLimit ∧ r.queue.errorCount = config.errorLimit := by
  have hle := h.within
  simp only [limitReached, h.config_eq, Bool.and_eq_true, decide_eq_true_eq]
  omega

theorem Accounts.add (h : Accounts config r) (d : Diagnostic) :
    Accounts config (r.step (.add d)) := by
  rcases add_cases r.queue d with hadd | ⟨hopen, hd, hadd⟩ | ⟨hd, hadd⟩
  · simpa [step, record, hadd] using h
  · have hlimit : ¬ (0 < config.errorLimit ∧ r.queue.errorCount = config.errorLimit) :=
      fun hfull => by simp [h.limitReached_iff.mpr hfull] at hopen
    -- The limit was not met, so there is room for one more.
    have hle := h.within
    constructor <;> simp only [step, record, hadd, if_true]
    · exact h.config_eq
    · rw [h.queued]
    · simp [h.counted, hd]
    · omega
    · simp [lastError?, hd]
  · constructor <;> simp only [step, record, hadd, if_true]
    · exact h.config_eq
    · rw [h.queued]
    · simp [h.counted, hd]
    · exact h.within
    · simp [h.remembered, lastError?, hd]

theorem Accounts.step (h : Accounts config r) (c : Call) : Accounts config (r.step c) := by
  cases c with
  | add d => exact h.add d
  | emit d => exact h.add d
  | flush =>
    rw [Run.step, flush, h.config_eq]
    exact accounts_new

theorem Accounts.steps (h : Accounts config r) (calls : List Call) :
    Accounts config (r.steps calls) := by
  induction calls generalizing r with
  | nil => exact h
  | cons c calls ih => exact ih (h.step c)

theorem accounts_of (config : QueueConfig) (calls : List Call) :
    Accounts config (of config calls) :=
  accounts_new.steps calls

theorem Accounts.isRepeated_iff (h : Accounts config r) {d : Diagnostic} : r.queue.isRepeated d ↔
    d.isError ∧ config.deduplicate ∧ ∃ e, r.lastError? = some e ∧ d.Alike e := by
  simp only [isRepeated, h.config_eq, h.remembered, Bool.and_eq_true, decide_eq_true_eq, and_assoc,
    Option.map_eq_some_iff, eq_comm (b := errorKey d), errorKey_eq_iff]

theorem step_of_limitReached (h : r.queue.limitReached) {c : Call} (hc : c ≠ .flush) :
    r.step c = r := by
  have hadd : ∀ d, r.queue.add d = (false, r.queue) := fun d => if_pos (by rw [h]; rfl)
  cases c with
  | add d => simp [step, record, hadd]
  | emit d => simp [step, record, emit, hadd]
  | flush => exact absurd rfl hc

/-- Over every run the count is that of the accepted errors and stays within the limit, at the
limit nothing is accepted before the next flush, below it an error is dropped only for being like
the last accepted one, and a flush shows the accepted diagnostics by place and starts anew. -/
theorem run_is_accounted (config : QueueConfig) (calls : List Call) :
    let r := of config calls
    Accounts config r ∧
      (0 < config.errorLimit → r.queue.errorCount = config.errorLimit →
        (∀ d, (r.queue.add d).1 = false) ∧
          ∀ more, (∀ c ∈ more, c ≠ .flush) → of config (calls ++ more) = r) ∧
      (config.errorLimit = 0 ∨ r.queue.errorCount < config.errorLimit →
        ∀ d, (r.queue.add d).1 = false ↔
          d.isError ∧ config.deduplicate ∧ ∃ e, r.lastError? = some e ∧ d.Alike e) ∧
      ByPlace r.accepted r.queue.flush.1 ∧ r.queue.flush.2 = new config := by
  intro r
  have h : Accounts config r := accounts_of config calls
  refine ⟨h, fun hlimit hfull => ?_, fun hbelow d => ?_, ?_, ?_⟩
  · have hreached := h.limitReached_iff.mpr ⟨hlimit, hfull⟩
    refine ⟨fun d => add_rejects_iff.mpr (.inl hreached), fun more hmore => ?_⟩
    rw [of, steps_append]
    refine steps_keep (P := (· = r)) (fun r' c hr' hc => ?_) rfl hmore
    rw [hr']
    exact step_of_limitReached hreached hc
  · have hopen : ¬ r.queue.limitReached := fun hreached => by
      have := h.limitReached_iff.mp hreached
      omega
    rw [add_rejects_iff, or_iff_right hopen, h.isRepeated_iff]
  · rw [← h.queued]
    exact byPlace_sorted r.queue
  · rw [flush, h.config_eq]

example :
    let error (line : Nat) : Diagnostic :=
      { code := .undefinedTemplate, labels := [⟨⟨[], line⟩, "", true⟩] }
    (of ⟨2, true⟩ [.add (error 30), .emit (error 10), .add (error 20)]).queue.flush.1 =
      [error 10, error 30] := by
  cbv

theorem Accounts.hasErrors_iff (h : Accounts config r) :
    r.queue.hasErrors ↔ ∃ e ∈ r.queue.diagnostics, e.isError := by
  rw [hasErrors, decide_eq_true_eq, h.counted, h.queued, List.countP_pos_iff]

theorem Accounts.hasErrors_of_isRepeated (h : Accounts config r) {d : Diagnostic}
    (hd : r.queue.isRepeated d) : r.queue.hasErrors := by
  obtain ⟨-, -, e, he, -⟩ := h.isRepeated_iff.mp hd
  obtain ⟨hmem, herror⟩ := List.mem_filter.mp (List.mem_of_getLast? he)
  exact h.hasErrors_iff.mpr ⟨e, h.queued ▸ hmem, herror⟩

/-- An error is dropped only for another error that waits already. -/
theorem Accounts.hasErrors_emit (h : Accounts config r) {d : Diagnostic} (hd : d.isError) :
    (r.step (.emit d)).queue.hasErrors := by
  show (r.queue.add d).2.hasErrors
  rcases add_cases r.queue d with hadd | ⟨-, -, hadd⟩ | ⟨hremark, -⟩
  · rw [hadd]
    rcases add_rejects_iff.mp (congrArg Prod.fst hadd) with hlimit | hrepeated
    · obtain ⟨hpos, hfull⟩ := h.limitReached_iff.mp hlimit
      rw [hasErrors, hfull]
      exact decide_eq_true hpos
    · exact h.hasErrors_of_isRepeated hrepeated
  · rw [hadd]
    exact decide_eq_true (Nat.succ_pos _)
  · cases hd.symm.trans hremark

theorem hasErrors_step (r : Run) (c : Call) (h : r.queue.hasErrors) (hc : c ≠ .flush) :
    (r.step c).queue.hasErrors := by
  cases c with
  | add d => exact hasErrors_add h d
  | emit d => exact hasErrors_add h d
  | flush => exact absurd rfl hc

/-- After an error was reported the queue holds an error until it is emptied, also where the
reported one was dropped. -/
theorem emitted_error_waits (config : QueueConfig) (calls more : List Call) (d : Diagnostic)
    (hd : d.isError) (hmore : ∀ c ∈ more, c ≠ .flush) :
    let r := of config (calls ++ .emit d :: more)
    r.queue.hasErrors ∧ (∃ e ∈ r.queue.diagnostics, e.isError) ∧ ¬ r.queue.flush.2.hasErrors := by
  intro r
  have herrors : r.queue.hasErrors := by
    have hemit := (accounts_of config calls).hasErrors_emit hd
    have hrun : r = ((of config calls).step (.emit d)).steps more := steps_append
    rw [hrun]
    exact steps_keep hasErrors_step hemit hmore
  exact ⟨herrors, (accounts_of config _).hasErrors_iff.mp herrors, Bool.false_ne_true⟩

def errorAt (line : Nat) : Diagnostic :=
  { code := .undefinedTemplate
    labels := [⟨⟨"example.i".toList, line⟩, "instantiated here", true⟩] }

/-- The second of two errors is dropped, by the limit and then as a repetition. -/
theorem dropped_error_waits :
    ((of ⟨1, false⟩ [.add (errorAt 3)]).queue.add (errorAt 4)).1 = false ∧
      (let r := of ⟨1, false⟩ ([.add (errorAt 3)] ++ .emit (errorAt 4) :: [.add (errorAt 5)])
       r.queue.hasErrors ∧ (∃ e ∈ r.queue.diagnostics, e.isError) ∧ ¬ r.queue.flush.2.hasErrors) ∧
      ((of ⟨0, true⟩ [.add (errorAt 3)]).queue.add (errorAt 3)).1 = false ∧
      (let r := of ⟨0, true⟩ ([.add (errorAt 3)] ++ .emit (errorAt 3) :: [])
       r.queue.hasErrors ∧ (∃ e ∈ r.queue.diagnostics, e.isError) ∧ ¬ r.queue.flush.2.hasErrors) :=
  ⟨by decide, emitted_error_waits ⟨1, false⟩ [.add (errorAt 3)] [.add (errorAt 5)] (errorAt 4) rfl
      (by simp), by decide,
    emitted_error_waits ⟨0, true⟩ [.add (errorAt 3)] [] (errorAt 3) rfl (by simp)⟩

end Run

end DiagnosticQueue

end BindingTypes

import Mathlib.Data.List.FinRange

/-!
# Runs of Rust functions

A Rust function of a crate without `unsafe` code returns a value, returns `None` at one of its
branches, or panics. `Run Event Branch α` is a finished call of such a function: its outcome,
with the branch named when the outcome is `None`, and the events it recorded on the way, in
order. What counts as an event and which branches exist are parameters.

A call that succeeds is written `Run.ret value events`. The simp set moves the events of the
steps of a `do` block to its front, so that a function whose callees are described by `Run.ret`
equations is described by one as well. `foldlM_trace`, `of_fn_m_eq_ret` and `mapM_eq_ret` are the
loop rules.
-/

namespace Mqom.Rust

/-- Why a call produced no value: it panicked, or it returned `None` at the named branch. -/
inductive Halt (Branch : Type) where
  | panic
  | none (branch : Branch)
  deriving DecidableEq, Repr

/-- A finished call: how it ended, and the events recorded on the way. -/
@[ext]
structure Run (Event Branch α : Type) where
  outcome : Except (Halt Branch) α
  events : List Event

variable {Event Branch α β γ : Type}

/-- The entry of an array at an index of the array's own index type, which is in bounds. -/
instance instGetElemVectorFin {n : Nat} : GetElem (Vector α n) (Fin n) α fun _ _ => True where
  getElem items i _ := items.get i

/-- An index of the vector's own type reads the entry at its value. -/
@[simp] theorem getElem_fin {n : Nat} (items : Vector α n) (i : Fin n) :
    items[i] = getElem items i.val i.isLt := rfl

namespace Run

/-- A call that returned `value` after recording `events`. -/
def ret (value : α) (events : List Event) : Run Event Branch α :=
  ⟨.ok value, events⟩

/-- A call that stopped without a value and recorded nothing. -/
def halt (reason : Halt Branch) : Run Event Branch α :=
  ⟨.error reason, []⟩

/-- The same call with further events recorded before it. -/
def after (events : List Event) (run : Run Event Branch α) : Run Event Branch α :=
  ⟨run.outcome, events ++ run.events⟩

/-- Sequential composition. The continuation runs only when the first call returned a value. -/
protected def bind (run : Run Event Branch α) (next : α → Run Event Branch β) :
    Run Event Branch β :=
  match run.outcome with
  | .ok value => (next value).after run.events
  | .error reason => ⟨.error reason, run.events⟩

instance : Monad (Run Event Branch) where
  pure value := ret value []
  bind := Run.bind

/-- Returning a value records nothing. -/
@[simp] theorem pure_eq_ret (value : α) : (pure value : Run Event Branch α) = ret value [] := rfl

/-- A return has its value as outcome. -/
@[simp] theorem ret_outcome (value : α) (events : List Event) :
    (ret value events : Run Event Branch α).outcome = .ok value := rfl

/-- A return has the events it is given. -/
@[simp] theorem ret_events (value : α) (events : List Event) :
    (ret value events : Run Event Branch α).events = events := rfl

/-- A halt has its reason as outcome. -/
@[simp] theorem halt_outcome (reason : Halt Branch) :
    (halt reason : Run Event Branch α).outcome = .error reason := rfl

/-- A halt records nothing. -/
@[simp] theorem halt_events (reason : Halt Branch) :
    (halt reason : Run Event Branch α).events = [] := rfl

/-- Earlier events do not change the outcome. -/
@[simp] theorem after_outcome (events : List Event) (run : Run Event Branch α) :
    (run.after events).outcome = run.outcome := rfl

/-- Earlier events come first. -/
@[simp] theorem after_events (events : List Event) (run : Run Event Branch α) :
    (run.after events).events = events ++ run.events := rfl

/-- No earlier events change nothing. -/
@[simp] theorem after_nil (run : Run Event Branch α) : run.after [] = run := rfl

/-- Earlier events are joined in order. -/
@[simp] theorem after_after (first second : List Event) (run : Run Event Branch α) :
    (run.after second).after first = run.after (first ++ second) := by
  ext1
  · rfl
  · simp

/-- Earlier events before a return. -/
@[simp] theorem after_ret (first second : List Event) (value : α) :
    (ret value second : Run Event Branch α).after first = ret value (first ++ second) := rfl

/-- After a return the next call follows its events. -/
@[simp] theorem ret_bind (value : α) (events : List Event) (next : α → Run Event Branch β) :
    ret value events >>= next = (next value).after events := rfl

/-- After a halt nothing follows. -/
@[simp] theorem halt_bind (reason : Halt Branch) (next : α → Run Event Branch β) :
    halt reason >>= next = halt reason := rfl

/-- Every run is a `ret` or a `halt` behind its events. -/
theorem cases_after (run : Run Event Branch α) :
    (∃ value, run = ret value run.events) ∨ ∃ reason, run = (halt reason).after run.events := by
  obtain ⟨outcome, events⟩ := run
  cases outcome with
  | ok value => exact Or.inl ⟨value, rfl⟩
  | error reason => exact Or.inr ⟨reason, by simp [halt, after]⟩

/-- Earlier events can be moved in front of the next call. -/
@[simp] theorem after_bind (events : List Event) (run : Run Event Branch α)
    (next : α → Run Event Branch β) :
    run.after events >>= next = (run >>= next).after events := by
  obtain ⟨outcome, earlier⟩ := run
  cases outcome with
  | ok value => exact (after_after events earlier (next value)).symm
  | error reason => rfl

instance : LawfulMonad (Run Event Branch) := LawfulMonad.mk' _
  (by
    intro α run
    obtain ⟨value, h⟩ | ⟨reason, h⟩ := run.cases_after <;> rw [h]
    · exact congrArg (ret value) (List.append_nil _)
    · rfl)
  (fun _ _ => rfl)
  (by
    intro α β γ run next last
    obtain ⟨value, h⟩ | ⟨reason, h⟩ := run.cases_after <;> rw [h]
    · rw [ret_bind, after_bind, ret_bind]
    · rfl)

/-! ## Recording, failing and catching -/

/-- Record one event. -/
def emit (event : Event) : Run Event Branch Unit :=
  ret () [event]

/-- The value of an option, or `None` at `branch`: the `?` operator. -/
def ofOption (branch : Branch) : Option α → Run Event Branch α
  | some value => ret value []
  | none => halt (.none branch)

/-- The value of an option, or a panic: `expect`. -/
def expect : Option α → Run Event Branch α
  | some value => ret value []
  | none => halt .panic

/-- Return `None` at `branch` unless the condition holds. -/
def require (branch : Branch) (condition : Prop) [Decidable condition] : Run Event Branch Unit :=
  if condition then ret () [] else halt (.none branch)

/-- Panic unless the condition holds. -/
def check (condition : Prop) [Decidable condition] : Run Event Branch Unit :=
  if condition then ret () [] else halt .panic

/-- Turn `None` into a value for the caller to inspect. A panic stays a panic. -/
def attempt (run : Run Event Branch α) : Run Event Branch (Option α) :=
  match run.outcome with
  | .ok value => ret (some value) run.events
  | .error (.none _) => ret none run.events
  | .error .panic => (halt .panic).after run.events

/-- An option with a value returns it. -/
@[simp] theorem of_option_some (branch : Branch) (value : α) :
    (ofOption branch (some value) : Run Event Branch α) = ret value [] := rfl

/-- An option without a value takes the branch. -/
@[simp] theorem of_option_none (branch : Branch) :
    (ofOption branch none : Run Event Branch α) = halt (.none branch) := rfl

/-- `expect` returns a value that is there. -/
@[simp] theorem expect_some (value : α) :
    (expect (some value) : Run Event Branch α) = ret value [] := rfl

/-- Recording an event is a return with that event. -/
@[simp] theorem emit_eq_ret (event : Event) : (emit event : Run Event Branch Unit) =
    ret () [event] := rfl

/-- A requirement that holds does nothing. -/
theorem require_of {branch : Branch} {condition : Prop} [Decidable condition] (h : condition) :
    (require branch condition : Run Event Branch Unit) = ret () [] := if_pos h

/-- A requirement that fails takes the branch. -/
theorem require_of_not {branch : Branch} {condition : Prop} [Decidable condition]
    (h : ¬ condition) : (require branch condition : Run Event Branch Unit) =
      halt (.none branch) := if_neg h

/-- An assertion that holds does nothing. -/
theorem check_of {condition : Prop} [Decidable condition] (h : condition) :
    (check condition : Run Event Branch Unit) = ret () [] := if_pos h

/-- An attempt keeps a value. -/
@[simp] theorem attempt_ret (value : α) (events : List Event) :
    attempt (ret value events : Run Event Branch α) = ret (some value) events := rfl

/-- An attempt turns a branch into the lack of a value. -/
@[simp] theorem attempt_halt_none (branch : Branch) :
    attempt (halt (.none branch) : Run Event Branch α) = ret none [] := rfl

/-- Earlier events can be moved in front of an attempt. -/
@[simp] theorem attempt_after (events : List Event) (run : Run Event Branch α) :
    attempt (run.after events) = (attempt run).after events := by
  obtain ⟨outcome, earlier⟩ := run
  cases outcome with
  | ok value => rfl
  | error reason => cases reason <;> simp [attempt, after, ret, halt]

/-- Catching `None` leaves the recorded events alone. -/
@[simp] theorem attempt_events (run : Run Event Branch α) : (attempt run).events = run.events := by
  obtain ⟨outcome, events⟩ := run
  cases outcome with
  | ok value => rfl
  | error reason => cases reason <;> simp [attempt, ret, halt]

/-- A caught call reports a value exactly when the call returned it. -/
theorem attempt_outcome_some {run : Run Event Branch α} {value : α} :
    (attempt run).outcome = .ok (some value) ↔ run.outcome = .ok value := by
  obtain ⟨outcome, events⟩ := run
  cases outcome with
  | ok other => simp [attempt]
  | error reason => cases reason <;> simp [attempt]

/-- A sequence returns a value exactly when both of its calls do. -/
theorem bind_outcome_ok {run : Run Event Branch α} {next : α → Run Event Branch β} {value : β} :
    (run >>= next).outcome = .ok value ↔
      ∃ middle, run.outcome = .ok middle ∧ (next middle).outcome = .ok value := by
  obtain ⟨first, h⟩ | ⟨reason, h⟩ := run.cases_after <;> rw [h] <;> simp

/-- The outcome of a sequence whose first call returns. -/
theorem bind_outcome_of_ok {run : Run Event Branch α} {next : α → Run Event Branch β} {value : α}
    (h : run.outcome = .ok value) : (run >>= next).outcome = (next value).outcome := by
  obtain ⟨outcome, events⟩ := run
  subst h
  rfl

/-- The outcome of a sequence whose first call stops. -/
theorem bind_outcome_of_error {run : Run Event Branch α} {next : α → Run Event Branch β}
    {reason : Halt Branch} (h : run.outcome = .error reason) :
    (run >>= next).outcome = .error reason := by
  obtain ⟨outcome, events⟩ := run
  subst h
  rfl

/-- The events of a sequence are those of its calls. -/
theorem mem_bind_events {run : Run Event Branch α} {next : α → Run Event Branch β} {event : Event}
    (h : event ∈ (run >>= next).events) :
    event ∈ run.events ∨ ∃ value, run.outcome = .ok value ∧ event ∈ (next value).events := by
  obtain ⟨outcome, events⟩ := run
  cases outcome with
  | ok value =>
      rcases List.mem_append.mp h with hfirst | hnext
      · exact Or.inl hfirst
      · exact Or.inr ⟨value, rfl, hnext⟩
  | error reason => exact Or.inl h

/-- A last step that only computes leaves the recorded events alone. -/
theorem bind_ret_events (run : Run Event Branch α) (result : α → β) :
    (run >>= fun value => ret (result value) []).events = run.events := by
  obtain ⟨outcome, events⟩ := run
  cases outcome with
  | ok value => exact List.append_nil events
  | error reason => rfl

/-- Only the values that the first call can return matter to a sequence. -/
theorem bind_congr_ok {run : Run Event Branch α} {next other : α → Run Event Branch β}
    (h : ∀ value, run.outcome = .ok value → next value = other value) :
    run >>= next = run >>= other := by
  obtain ⟨outcome, events⟩ := run
  cases outcome with
  | ok value => exact congrArg (after events) (h value rfl)
  | error reason => rfl

/-! ## Loops -/

/-- A loop whose state before step `i` is `state i` ends in the state after the last step. -/
theorem foldlM_trace {σ : Type} {step : σ → α → Run Event Branch σ} (items : List α)
    (state : Nat → σ) (recorded : Nat → List Event)
    (hstep : ∀ i (h : i < items.length),
      step (state i) items[i] = ret (state (i + 1)) (recorded i)) :
    items.foldlM step (state 0) =
      ret (state items.length) ((List.range items.length).flatMap recorded) := by
  induction items generalizing state recorded with
  | nil => rfl
  | cons item rest ih =>
      have hfirst : step (state 0) item = ret (state 1) (recorded 0) := hstep 0 (by simp)
      have hrest := ih (fun i => state (i + 1)) (fun i => recorded (i + 1))
        (fun i hi => hstep (i + 1) (Nat.succ_lt_succ hi))
      rw [List.foldlM_cons, hfirst, ret_bind, hrest, List.length_cons, List.range_succ_eq_map]
      simp [List.flatMap_map]

/-- Calls that record nothing record nothing together. -/
@[simp] theorem flatMap_nil (items : List α) : (items.flatMap fun _ => ([] : List β)) = [] :=
  List.flatMap_eq_nil_iff.mpr (fun _ _ => rfl)

/-- A loop that records nothing. -/
theorem foldlM_silent {σ : Type} {step : σ → α → Run Event Branch σ} (items : List α)
    (state : Nat → σ)
    (hstep : ∀ i (h : i < items.length), step (state i) items[i] = ret (state (i + 1)) []) :
    items.foldlM step (state 0) = ret (state items.length) [] := by
  rw [foldlM_trace items state (fun _ => []) hstep, flatMap_nil]

/-- A loop over the indices of an array. -/
theorem foldlM_fin_range {σ : Type} {n : Nat} {step : σ → Fin n → Run Event Branch σ}
    (state : Nat → σ) (recorded : Fin n → List Event)
    (hstep : ∀ i : Fin n, step (state i) i = ret (state (i + 1)) (recorded i)) :
    (List.finRange n).foldlM step (state 0) =
      ret (state n) ((List.finRange n).flatMap recorded) := by
  have hloop := foldlM_trace (List.finRange n) state
    (fun i => if h : i < n then recorded ⟨i, h⟩ else []) (fun i h => by
      have hlt : i < n := by simpa using h
      rw [List.getElem_finRange, dif_pos hlt]
      exact hstep ⟨i, hlt⟩)
  rw [List.length_finRange, ← List.map_coe_finRange_eq_range, List.flatMap_map] at hloop
  simpa using hloop

/-- A loop fails when each step succeeds or fails for one reason, and some item always fails. -/
theorem foldlM_outcome_error {σ : Type} {step : σ → α → Run Event Branch σ} {items : List α}
    (reason : Halt Branch)
    (hstep : ∀ state, ∀ item ∈ items, (∃ next, (step state item).outcome = .ok next) ∨
      (step state item).outcome = .error reason)
    (hfails : ∃ item ∈ items, ∀ state, (step state item).outcome = .error reason) (state : σ) :
    (items.foldlM step state).outcome = .error reason := by
  induction items generalizing state with
  | nil =>
      obtain ⟨item, hitem, _⟩ := hfails
      exact absurd hitem List.not_mem_nil
  | cons item rest ih =>
      rw [List.foldlM_cons]
      obtain ⟨next, hnext⟩ | hfail := hstep state item List.mem_cons_self
      · rw [bind_outcome_of_ok hnext]
        obtain ⟨other, hother, hfail⟩ := hfails
        rcases List.mem_cons.mp hother with rfl | hrest
        · rw [hfail state] at hnext
          exact nomatch hnext
        · exact ih (fun s i hi => hstep s i (List.mem_cons_of_mem _ hi)) ⟨other, hrest, hfail⟩ next
      · exact bind_outcome_of_error hfail

/-- A loop that fills an array entry by entry succeeds when every entry does. -/
theorem of_fn_m_eq_ret {n : Nat} {entry : Fin n → Run Event Branch α} (value : Fin n → α)
    (recorded : Fin n → List Event) (hentry : ∀ i, entry i = ret (value i) (recorded i)) :
    Vector.ofFnM entry = ret (Vector.ofFn value) ((List.finRange n).flatMap recorded) := by
  induction n with
  | zero =>
      rw [Vector.ofFnM_zero, pure_eq_ret, show Vector.ofFn value = #v[] from Vector.eq_empty]
      rfl
  | succ n ih =>
      rw [Vector.ofFnM_succ, ih (fun i => value i.castSucc) (fun i => recorded i.castSucc)
        (fun i => hentry i.castSucc), ret_bind, hentry (Fin.last n), Vector.ofFn_succ]
      simp [List.finRange_succ_last, List.flatMap_append, List.flatMap_map, Fin.last]

/-- Every entry of an array that such a loop has filled was computed. -/
theorem of_fn_m_outcome_ok {n : Nat} {entry : Fin n → Run Event Branch α} {filled : Vector α n}
    (h : (Vector.ofFnM entry).outcome = .ok filled) (i : Fin n) :
    (entry i).outcome = .ok filled[i] := by
  induction n with
  | zero => exact i.elim0
  | succ n ih =>
      rw [Vector.ofFnM_succ] at h
      obtain ⟨front, hfront, hrest⟩ := bind_outcome_ok.mp h
      obtain ⟨last, hlast, hpush⟩ := bind_outcome_ok.mp hrest
      simp only [pure_eq_ret, ret_outcome, Except.ok.injEq] at hpush
      subst hpush
      cases i using Fin.lastCases with
      | last => simpa using hlast
      | cast i => simpa using ih hfront i

/-- Such a loop stops at the first entry that is not computed. -/
theorem of_fn_m_eq_halt {n : Nat} {entry : Fin n → Run Event Branch α} {reason : Halt Branch}
    (first : Fin n) (hbefore : ∀ i < first, ∃ value, (entry i).outcome = .ok value)
    (hfirst : entry first = halt reason) :
    Vector.ofFnM entry =
      (halt reason).after (((List.finRange n).take first).flatMap fun i => (entry i).events) := by
  induction n with
  | zero => exact first.elim0
  | succ n ih =>
      rw [Vector.ofFnM_succ]
      cases first using Fin.lastCases with
      | last =>
          choose value hvalue using fun i : Fin n => hbefore i.castSucc i.castSucc_lt_last
          have hfront := of_fn_m_eq_ret value (fun i : Fin n => (entry i.castSucc).events)
            (fun i => Run.ext (hvalue i) rfl)
          rw [hfront, ret_bind, hfirst, halt_bind]
          simp [List.finRange_succ_last, List.flatMap_map]
      | cast first =>
          have hfront := @ih (fun i => entry i.castSucc) first
            (fun i hi => hbefore i.castSucc hi) hfirst
          rw [hfront, after_bind, halt_bind, List.finRange_succ_last,
            List.take_append_of_le_length (by simp [first.isLt.le]), Fin.val_castSucc,
            ← List.map_take, List.flatMap_map]

/-- A vector of returns is the return of a vector. -/
@[simp] theorem of_fn_m_ret {n : Nat} (value : Fin n → α) :
    (Vector.ofFnM fun i => (ret (value i) [] : Run Event Branch α)) = ret (Vector.ofFn value) [] :=
  Vector.ofFnM_pure

/-- A `map` over a sequence that collects the results succeeds when every call does. -/
theorem mapM_eq_ret {call : α → Run Event Branch β} (items : List α) (value : α → β)
    (recorded : α → List Event)
    (hcall : ∀ item ∈ items, call item = ret (value item) (recorded item)) :
    items.mapM call = ret (items.map value) (items.flatMap recorded) := by
  induction items with
  | nil => rfl
  | cons item rest ih =>
      have hrest := ih (fun other hother => hcall other (List.mem_cons_of_mem item hother))
      rw [List.mapM_cons, hcall item List.mem_cons_self, ret_bind, hrest]
      simp

end Run

end Mqom.Rust

import Mathlib.Logic.Basic

namespace Lycancoin.Data

/-! Runs of a machine with partial steps: what holds in every state of a run, against what holds of
every step before it is taken. -/

namespace StepRuns

variable {σ α : Type*} (step : σ → α → Option σ)

def Always (holds : σ → Prop) : List α → σ → Prop
  | [], _ => True
  | action :: actions, state =>
      ∀ next, step state action = some next → holds next ∧ Always holds actions next

/-- The condition holds before every step that the run takes. -/
def Each (condition : σ → α → Prop) : List α → σ → Prop
  | [], _ => True
  | action :: actions, state =>
      ∀ next, step state action = some next →
        condition state action ∧ Each condition actions next

def finish : List α → σ → Option σ
  | [], state => some state
  | action :: actions, state => (step state action).bind (finish actions)

/-- The condition holds before every step that the run comes to. -/
def Meets (condition : σ → α → Prop) : List α → σ → Prop
  | [], _ => True
  | action :: actions, state => condition state action ∧
      ∀ next, step state action = some next → Meets condition actions next

variable {step}

theorem Each.of_forall {condition : σ → α → Prop} {actions : List α} {state : σ}
    (all : ∀ action ∈ actions, ∀ state, condition state action) :
    Each step condition actions state := by
  induction actions generalizing state with
  | nil => trivial
  | cons action actions ih =>
      intro next _
      exact ⟨all action List.mem_cons_self state,
        ih fun other member => all other (List.mem_cons_of_mem action member)⟩

/-- A property that each step keeps just under the condition holds throughout a run just when the
condition does.  `invariant` is what holds anyway. -/
theorem always_iff_each {holds invariant : σ → Prop} {condition allowed : σ → α → Prop}
    (keeps : ∀ state action next, allowed state action → invariant state → holds state →
      step state action = some next → invariant next ∧ (holds next ↔ condition state action))
    {actions : List α} {state : σ} (all : Each step allowed actions state)
    (start : invariant state) (good : holds state) :
    Always step holds actions state ↔ Each step condition actions state := by
  induction actions generalizing state with
  | nil => exact Iff.rfl
  | cons action actions ih =>
      simp only [Always, Each]
      apply forall_congr'
      intro next
      apply imp_congr_right
      intro taken
      obtain ⟨here, later⟩ := all next taken
      obtain ⟨kept, exact⟩ := keeps state action next here start good taken
      rw [exact]
      apply and_congr_right
      intro met
      exact ih later kept (exact.2 met)

/-- A law that a step obeys just under the condition is obeyed throughout a run just when the
condition holds throughout. -/
theorem each_iff_each {invariant : σ → Prop} {law condition : σ → α → Prop}
    (exact : ∀ state action, invariant state → (law state action ↔ condition state action))
    (keeps : ∀ state action next, invariant state → condition state action →
      step state action = some next → invariant next)
    {actions : List α} {state : σ} (start : invariant state) :
    Each step law actions state ↔ Each step condition actions state := by
  induction actions generalizing state with
  | nil => exact Iff.rfl
  | cons action actions ih =>
      simp only [Each]
      apply forall_congr'
      intro next
      apply imp_congr_right
      intro taken
      rw [exact state action start]
      apply and_congr_right
      intro met
      exact ih (keeps state action next start met taken)

theorem Always.finish {holds : σ → Prop} {actions : List α} {state last : σ}
    (always : Always step holds actions state) (good : holds state)
    (ends : StepRuns.finish step actions state = some last) : holds last := by
  induction actions generalizing state with
  | nil =>
      obtain rfl := Option.some.inj ends
      exact good
  | cons action actions ih =>
      obtain ⟨next, taken, rest⟩ := Option.bind_eq_some_iff.1 ends
      obtain ⟨kept, later⟩ := always next taken
      exact ih later kept rest

/-- Where the condition says which steps there are, it says which runs come to their end. -/
theorem finish_iff_meets {invariant : σ → Prop} {condition : σ → α → Prop}
    (exact : ∀ state action, invariant state →
      ((∃ next, step state action = some next) ↔ condition state action))
    (keeps : ∀ state action next, invariant state → step state action = some next →
      invariant next)
    {actions : List α} {state : σ} (start : invariant state) :
    (∃ last, StepRuns.finish step actions state = some last ∧ invariant last) ↔
      Meets step condition actions state := by
  induction actions generalizing state with
  | nil => exact iff_of_true ⟨state, rfl, start⟩ trivial
  | cons action actions ih =>
      simp only [Meets, StepRuns.finish, ← exact state action start]
      cases taken : step state action with
      | none => simp
      | some next =>
          simpa using ih (keeps state action next start taken)

theorem finish_of_total {invariant : σ → Prop}
    (total : ∀ state action, invariant state →
      ∃ next, step state action = some next ∧ invariant next)
    (actions : List α) {state : σ} (start : invariant state) :
    ∃ last, StepRuns.finish step actions state = some last ∧ invariant last := by
  induction actions generalizing state with
  | nil => exact ⟨state, rfl, start⟩
  | cons action actions ih =>
      obtain ⟨next, taken, kept⟩ := total state action start
      obtain ⟨last, ends, holds⟩ := ih kept
      exact ⟨last, by rw [StepRuns.finish, taken]; exact ends, holds⟩

/-- Steps that may fail and may have no result, one after the other. -/
def tryAll (step : σ → α → Option (Option σ)) : List α → σ → Option (Option σ)
  | [], state => some (some state)
  | action :: actions, state =>
      (step state action).bind fun result =>
        match result with
        | none => some none
        | some next => tryAll step actions next

/-- Two machines whose steps fail together go through the same list side by side. -/
theorem tryAll_rel {τ : Type*} {step : σ → α → Option (Option σ)}
    {other : τ → α → Option (Option τ)} {related : σ → τ → Prop} {allowed : α → Prop}
    (each : ∀ state twin action, related state twin → allowed action →
      ∃ result twinResult, step state action = some result ∧
        other twin action = some twinResult ∧ Option.Rel related result twinResult)
    {actions : List α} (all : ∀ action ∈ actions, allowed action) {state : σ} {twin : τ}
    (start : related state twin) :
    ∃ result twinResult, tryAll step actions state = some result ∧
      tryAll other actions twin = some twinResult ∧ Option.Rel related result twinResult := by
  induction actions generalizing state twin with
  | nil => exact ⟨some state, some twin, rfl, rfl, .some start⟩
  | cons action actions ih =>
      obtain ⟨result, twinResult, here, there, both⟩ :=
        each state twin action start (all action List.mem_cons_self)
      simp only [tryAll, here, there, Option.bind_some]
      cases both with
      | none => exact ⟨none, none, rfl, rfl, .none⟩
      | some both => exact ih (fun action member => all action (List.mem_cons_of_mem _ member)) both

end StepRuns

theorem foldlM_invariant {σ α : Type} {step : σ → α → Option σ} {holds : σ → Prop}
    (preserved : ∀ state item next, holds state → step state item = some next → holds next)
    {items : List α} {state final : σ} (initial : holds state)
    (ran : items.foldlM step state = some final) : holds final := by
  induction items generalizing state with
  | nil =>
      cases ran
      exact initial
  | cons item rest ih =>
      rw [List.foldlM_cons] at ran
      obtain ⟨next, stepped, remaining⟩ := Option.bind_eq_some_iff.mp ran
      exact ih (preserved state item next initial stepped) remaining

end Lycancoin.Data

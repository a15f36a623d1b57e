import Lycancoin.Data.KeyedTotal
import Lycancoin.Validation.CheckQueue

namespace Lycancoin

open Lycancoin.Data CheckEvent

namespace LoopState

variable {T : Type}

/-- The checks that a thread has taken and not come to. -/
def pending : LoopState T → Multiset T
  | .working _ _ vChecks => vChecks
  | _ => 0

/-- How many checks a thread has taken and not reported. -/
def unreported : LoopState T → Nat
  | .working nNow _ _ => nNow.toNat
  | _ => 0

def idle : LoopState T → Int
  | .waiting => 1
  | _ => 0

def inside : LoopState T → Int
  | .outside => 0
  | _ => 1

/-- Whether a thread knows of no failed check. -/
def Unfailed : LoopState T → Prop
  | .working _ fOk _ => fOk = true
  | _ => True

/-- A batch is not empty when it is taken, and it does not grow. -/
def Batched : LoopState T → Prop
  | .working nNow _ vChecks => 0 < nNow.toNat ∧ vChecks.length ≤ nNow.toNat
  | _ => True

/-- A thread that has nothing to report is not at work. -/
theorem Batched.rests {place : LoopState T} (batched : place.Batched) (reported : place.unreported = 0) :
    place.pending = 0 ∧ place.Unfailed ∧ place.idle = place.inside := by
  cases place with
  | outside => exact ⟨rfl, trivial, rfl⟩
  | waiting => exact ⟨rfl, trivial, rfl⟩
  | working nNow fOk vChecks =>
      change nNow.toNat = 0 at reported
      have positive := batched.1
      omega

end LoopState

namespace CheckSystem

variable {Worker T : Type} {operator : T → Bool} {system after : CheckSystem Worker T}
  {entered : Int} {thread : Option Worker} {next : LoopState T}

section Threads

variable [DecidableEq Worker]

theorem unfailed_update_iff {threads : Option Worker → LoopState T} {thread : Option Worker}
    {next : LoopState T} :
    (∀ other, (Function.update threads thread next other).Unfailed) ↔
      next.Unfailed ∧ ∀ other, other ≠ thread → (threads other).Unfailed := by
  constructor
  · intro unfailed
    refine ⟨?_, fun other different => ?_⟩
    · have here := unfailed thread
      rwa [Function.update_self] at here
    · have there := unfailed other
      rwa [Function.update_of_ne different] at there
  · intro ⟨here, others⟩ other
    by_cases same : other = thread
    · rw [same, Function.update_self]
      exact here
    · rw [Function.update_of_ne same]
      exact others other same

theorem unfailed_iff (threads : Option Worker → LoopState T) (thread : Option Worker) :
    (∀ other, (threads other).Unfailed) ↔
      (threads thread).Unfailed ∧ ∀ other, other ≠ thread → (threads other).Unfailed := by
  rw [← unfailed_update_iff, Function.update_eq_self]

theorem batched_update {threads : Option Worker → LoopState T}
    (batched : ∀ other, (threads other).Batched) (here : next.Batched) (other : Option Worker) :
    (Function.update threads thread next other).Batched := by
  by_cases same : other = thread
  · rw [same, Function.update_self]
    exact here
  · rw [Function.update_of_ne same]
    exact batched other

theorem criticalSection_eq (thread : Option Worker) {place : LoopState T}
    (standing : system.threads thread = place) (done : place.pending = 0) :
    system.step operator (.criticalSection thread) = some {
      shared := ((system.shared.resume place).proceed thread.isNone).1
      threads := Function.update system.threads thread
        ((system.shared.resume place).proceed thread.isNone).2.1
      trace := seen thread ((system.shared.resume place).proceed thread.isNone).2.2
        system.trace } := by
  subst standing
  cases place : system.threads thread with
  | outside => simp only [step, place]
  | waiting => simp only [step, place]
  | working nNow fOk vChecks =>
      cases vChecks with
      | nil => simp only [step, place]
      | cons check rest =>
          rw [place] at done
          exact absurd done (Multiset.cons_ne_zero : check ::ₘ (rest : Multiset T) ≠ 0)

theorem pending_of_criticalSection
    (returned : system.step operator (.criticalSection thread) = some after) :
    (system.threads thread).pending = 0 := by
  cases place : system.threads thread with
  | outside => rfl
  | waiting => rfl
  | working nNow fOk vChecks =>
      cases vChecks with
      | nil => rfl
      | cons check rest => simp [step, place] at returned

theorem step_trace {action : CheckAction Worker T}
    (returned : system.step operator action = some after) :
    after.trace = system.trace ∨ ∃ event, after.trace = event :: system.trace := by
  cases action with
  | add vChecks =>
      cases place : system.threads none with
      | outside =>
          simp only [CheckSystem.step, place, Option.some.injEq] at returned
          subst returned
          exact Or.inr ⟨_, rfl⟩
      | waiting => simp [CheckSystem.step, place] at returned
      | working nNow fOk checks => simp [CheckSystem.step, place] at returned
  | criticalSection thread =>
      have done := pending_of_criticalSection returned
      rw [criticalSection_eq thread rfl done, Option.some.injEq] at returned
      subst returned
      generalize (CCheckQueue.proceed _ _).2.2 = fRet
      cases thread with
      | some worker => exact Or.inl rfl
      | none =>
          cases fRet with
          | none => exact Or.inl rfl
          | some fRet => exact Or.inr ⟨_, rfl⟩
  | execute thread =>
      cases place : system.threads thread with
      | outside => simp [CheckSystem.step, place] at returned
      | waiting => simp [CheckSystem.step, place] at returned
      | working nNow fOk checks =>
          cases checks with
          | nil => simp [CheckSystem.step, place] at returned
          | cons check rest =>
              simp only [CheckSystem.step, place, Option.some.injEq] at returned
              subst returned
              exact Or.inr ⟨_, rfl⟩

theorem usesFit_of_step {action : CheckAction Worker T}
    (returned : system.step operator action = some after) (fits : UsesFit after.trace) :
    UsesFit system.trace := by
  rcases step_trace returned with same | ⟨event, same⟩
  · rwa [same] at fits
  · rw [same] at fits
    exact fits.1

theorem run_append (actions : List (CheckAction Worker T)) (action : CheckAction Worker T) :
    system.run operator (actions ++ [action]) =
      (system.run operator actions).bind fun before => before.step operator action := by
  rw [run, List.foldlM_append]
  simp [run]

end Threads

section Accounting

variable [Fintype Worker]

/-- No check has failed as far as the queue and its threads know. -/
def AllOk (system : CheckSystem Worker T) : Prop :=
  system.shared.fAllOk = true ∧ ∀ thread, (system.threads thread).Unfailed

/-- Each added check is queued, taken, executed or skipped. -/
def Accounted (system : CheckSystem Worker T) (trace : List (CheckEvent T)) : Prop :=
  tally addedChecks trace = (system.shared.queue : Multiset T) +
    threadTotal LoopState.pending system.threads +
      tally executedChecks trace + tally skippedChecks trace

/-- What holds between the steps, where `entered` is 1 inside a critical section. -/
structure Sound (operator : T → Bool) (entered : Int) (system : CheckSystem Worker T) : Prop where
  running : system.shared.fQuit = false
  batched : ∀ thread, (system.threads thread).Batched
  nTodo : system.shared.nTodo.toNat =
    system.shared.queue.length + threadTotal LoopState.unreported system.threads
  within : system.shared.queue.length + threadTotal LoopState.unreported system.threads ≤
    (tally addedChecks (sinceReturn system.trace)).card
  lifetime : system.Accounted system.trace
  use : system.Accounted (sinceReturn system.trace)
  passed : system.AllOk ↔
    ∀ check ∈ tally executedChecks (sinceReturn system.trace), operator check = true
  skips : tally skippedChecks (sinceReturn system.trace) ≠ 0 → ¬system.AllOk
  nIdle : system.shared.nIdle = threadTotal LoopState.idle system.threads
  nTotal : system.shared.nTotal = threadTotal LoopState.inside system.threads + entered

theorem threadTotal_start {M : Type} [AddCommMonoid M] {held : LoopState T → M}
    (nothing : held .outside = 0) (nBatchSize : UInt32) :
    threadTotal held (start nBatchSize : CheckSystem Worker T).threads = 0 :=
  threadTotal_eq_zero fun _ => nothing

theorem Sound.start (nBatchSize : UInt32) :
    Sound operator 0 (start nBatchSize : CheckSystem Worker T) where
  running := rfl
  batched _ := trivial
  nTodo := by
    rw [threadTotal_start rfl]
    rfl
  within := by
    rw [threadTotal_start rfl]
    exact Nat.zero_le _
  lifetime := by
    rw [Accounted, threadTotal_start rfl]
    rfl
  use := by
    rw [Accounted, threadTotal_start rfl]
    rfl
  passed := by
    constructor
    · intro _ check member
      exact absurd member (Multiset.notMem_zero check)
    · intro _
      exact ⟨rfl, fun _ => trivial⟩
  skips some := absurd rfl some
  nIdle := by
    rw [threadTotal_start rfl]
    rfl
  nTotal := by
    rw [threadTotal_start rfl]
    rfl

/-- `Add` while the master is outside of `Loop`. -/
theorem Sound.add (sound : Sound operator 0 system) (vChecks : List T)
    (fits : (tally addedChecks (sinceReturn (.added vChecks :: system.trace))).card < 2 ^ 32) :
    Sound operator 0 { system with
      shared := system.shared.add vChecks
      trace := .added vChecks :: system.trace } := by
  have recent : sinceReturn (.added vChecks :: system.trace) =
      .added vChecks :: sinceReturn system.trace := rfl
  have within := sound.within
  have nTodo := sound.nTodo
  rw [recent, tally_cons, Multiset.card_add] at fits
  change vChecks.length + _ < _ at fits
  have queued : (system.shared.add vChecks).queue.length =
      system.shared.queue.length + vChecks.length := List.length_append
  have accounted : ∀ trace, system.Accounted trace →
      Accounted { system with
        shared := system.shared.add vChecks
        trace := .added vChecks :: system.trace } (.added vChecks :: trace) := by
    intro trace accounted
    rw [Accounted, tally_cons, tally_cons, tally_cons, accounted]
    change _ = ((system.shared.queue ++ vChecks : List T) : Multiset T) + _ + (0 + _) + (0 + _)
    rw [← Multiset.coe_add, zero_add, zero_add]
    change (vChecks : Multiset T) + _ = _
    abel
  refine ⟨sound.running, sound.batched, ?_, ?_, accounted _ sound.lifetime, ?_, ?_, ?_,
    sound.nIdle, sound.nTotal⟩
  · change (system.shared.nTodo + UInt32.ofNat vChecks.length).toNat =
      (system.shared.add vChecks).queue.length + threadTotal LoopState.unreported system.threads
    rw [queued, UInt32.toNat_add, UInt32.toNat_ofNat_of_lt' (by change _ < 2 ^ 32; omega), nTodo,
      Nat.mod_eq_of_lt (by omega)]
    omega
  · change (system.shared.add vChecks).queue.length +
      threadTotal LoopState.unreported system.threads ≤
        (tally addedChecks (sinceReturn (.added vChecks :: system.trace))).card
    rw [queued, recent, tally_cons, Multiset.card_add]
    change _ ≤ vChecks.length + _
    omega
  · rw [recent]
    exact accounted _ sound.use
  · rw [recent, tally_cons]
    change _ ↔ ∀ check ∈ 0 + _, _
    rw [zero_add]
    exact sound.passed
  · rw [recent, tally_cons]
    change 0 + _ ≠ 0 → _
    rw [zero_add]
    exact sound.skips

end Accounting

variable [Fintype Worker] [DecidableEq Worker]

/-- A taken check is executed, or skipped behind a failed one. -/
theorem Sound.execute (sound : Sound operator 0 system) {nNow : UInt32} {fOk : Bool} {check : T}
    {rest : List T} (working : system.threads thread = .working nNow fOk (check :: rest)) :
    Sound operator 0 { system with
      threads := Function.update system.threads thread
        (.working nNow (if fOk then operator check else false) rest)
      trace := (if fOk then .executed check else .skipped check) :: system.trace } := by
  have batched := sound.batched thread
  rw [working] at batched
  have smaller : (LoopState.working nNow (if fOk then operator check else false) rest).Batched :=
    ⟨batched.1, (Nat.le_succ _).trans batched.2⟩
  have unreported := threadTotal_update LoopState.unreported system.threads thread
    (.working nNow (if fOk then operator check else false) rest)
  have pending := threadTotal_update LoopState.pending system.threads thread
    (.working nNow (if fOk then operator check else false) rest)
  have idle := threadTotal_update LoopState.idle system.threads thread
    (.working nNow (if fOk then operator check else false) rest)
  have inside := threadTotal_update LoopState.inside system.threads thread
    (.working nNow (if fOk then operator check else false) rest)
  rw [working] at unreported pending idle inside
  replace unreported := Nat.add_right_cancel unreported
  replace idle := add_right_cancel idle
  replace inside := add_right_cancel inside
  replace pending : threadTotal LoopState.pending system.threads =
      threadTotal LoopState.pending (Function.update system.threads thread
        (.working nNow (if fOk then operator check else false) rest)) + {check} := by
    change _ + ((check :: rest : List T) : Multiset T) = _ + (rest : Multiset T) at pending
    rw [← Multiset.cons_coe, ← Multiset.singleton_add, ← add_assoc] at pending
    exact (add_right_cancel pending).symm
  have known := unfailed_iff system.threads thread
  rw [working] at known
  have within := sound.within
  have nTodo := sound.nTodo
  rw [← unreported] at within nTodo
  cases fOk with
  | true =>
      have accounted : ∀ trace, system.Accounted trace → Accounted { system with
          threads := Function.update system.threads thread (.working nNow (operator check) rest)
          trace := .executed check :: system.trace } (.executed check :: trace) := by
        intro trace accounted
        rw [Accounted, pending] at accounted
        rw [Accounted, tally_cons, tally_cons, tally_cons]
        change (0 : Multiset T) + _ = _ + _ + (({check} : Multiset T) + _) + ((0 : Multiset T) + _)
        rw [zero_add, zero_add, accounted, if_pos rfl]
        abel
      have allOk : AllOk { system with
          threads := Function.update system.threads thread (.working nNow (operator check) rest)
          trace := .executed check :: system.trace } ↔ system.AllOk ∧ operator check = true := by
        rw [AllOk, AllOk, unfailed_update_iff, known]
        constructor
        · intro ⟨fAllOk, passed, others⟩
          exact ⟨⟨fAllOk, rfl, others⟩, passed⟩
        · intro ⟨⟨fAllOk, _, others⟩, passed⟩
          exact ⟨fAllOk, passed, others⟩
      refine ⟨sound.running, batched_update sound.batched smaller, nTodo, ?_,
        accounted _ sound.lifetime, ?_, ?_, ?_, sound.nIdle.trans idle.symm,
        sound.nTotal.trans (congrArg (· + 0) inside.symm)⟩
      · change _ ≤ (0 + tally addedChecks (sinceReturn system.trace)).card
        rw [zero_add]
        exact within
      · exact accounted _ sound.use
      · refine allOk.trans ?_
        change _ ↔ ∀ other ∈ {check} + tally executedChecks (sinceReturn system.trace), _
        rw [sound.passed]
        simp only [Multiset.mem_add, Multiset.mem_singleton, or_imp, forall_and, forall_eq]
        exact and_comm
      · change 0 + tally skippedChecks (sinceReturn system.trace) ≠ 0 → _
        rw [zero_add]
        intro some both
        exact sound.skips some (allOk.mp both).1
  | false =>
      have failed : ¬system.AllOk := by
        intro allOk
        have unfailed := allOk.2 thread
        rw [working] at unfailed
        contradiction
      have still : ¬AllOk { system with
          threads := Function.update system.threads thread (.working nNow false rest)
          trace := .skipped check :: system.trace } := by
        intro allOk
        have unfailed := (unfailed_update_iff.mp allOk.2).1
        contradiction
      have accounted : ∀ trace, system.Accounted trace → Accounted { system with
          threads := Function.update system.threads thread (.working nNow false rest)
          trace := .skipped check :: system.trace } (.skipped check :: trace) := by
        intro trace accounted
        rw [Accounted, pending] at accounted
        rw [Accounted, tally_cons, tally_cons, tally_cons]
        change (0 : Multiset T) + _ = _ + _ + ((0 : Multiset T) + _) + (({check} : Multiset T) + _)
        rw [zero_add, zero_add, accounted, if_neg Bool.false_ne_true]
        abel
      refine ⟨sound.running, batched_update sound.batched smaller, nTodo, ?_,
        accounted _ sound.lifetime, ?_, ?_, fun _ => still, sound.nIdle.trans idle.symm,
        sound.nTotal.trans (congrArg (· + 0) inside.symm)⟩
      · change _ ≤ (0 + tally addedChecks (sinceReturn system.trace)).card
        rw [zero_add]
        exact within
      · exact accounted _ sound.use
      · change _ ↔ ∀ other ∈ 0 + tally executedChecks (sinceReturn system.trace), _
        rw [zero_add, ← sound.passed]
        exact iff_of_false still failed

/-- The start of a critical section, which a thread enters with no check left. -/
theorem Sound.resume (sound : Sound operator 0 system) (thread : Option Worker)
    {place : LoopState T} (standing : system.threads thread = place) (done : place.pending = 0) :
    Sound operator 1 { system with
      shared := system.shared.resume place
      threads := Function.update system.threads thread .outside } := by
  have batched := sound.batched thread
  have unreported := threadTotal_update LoopState.unreported system.threads thread .outside
  have pending := threadTotal_update LoopState.pending system.threads thread .outside
  have idle := threadTotal_update LoopState.idle system.threads thread .outside
  have inside := threadTotal_update LoopState.inside system.threads thread .outside
  have known := unfailed_iff system.threads thread
  rw [standing] at batched unreported pending idle inside known
  rw [done] at pending
  replace pending := add_right_cancel pending
  change _ + place.unreported = _ + 0 at unreported
  change _ + place.idle = _ + (0 : Int) at idle
  change _ + place.inside = _ + (0 : Int) at inside
  have within := sound.within
  have nTodo := sound.nTodo
  have nIdle := sound.nIdle
  have nTotal := sound.nTotal
  have allOk : AllOk { system with
      shared := system.shared.resume place
      threads := Function.update system.threads thread .outside } ↔ system.AllOk := by
    rw [AllOk, AllOk, unfailed_update_iff, known]
    cases place with
    | outside => exact Iff.rfl
    | waiting => exact Iff.rfl
    | working nNow fOk vChecks =>
        change (system.shared.fAllOk && fOk) = true ∧ True ∧ _ ↔ _ ∧ fOk = true ∧ _
        rw [Bool.and_eq_true, true_and, and_assoc]
  have accounted : ∀ trace, system.Accounted trace → Accounted { system with
      shared := system.shared.resume place
      threads := Function.update system.threads thread .outside } trace := by
    intro trace accounted
    rw [Accounted, ← pending] at accounted
    rw [Accounted, accounted]
    cases place <;> rfl
  have queue : (system.shared.resume place).queue = system.shared.queue := by
    cases place <;> rfl
  refine ⟨?_, batched_update sound.batched trivial, ?_, ?_, accounted _ sound.lifetime,
    accounted _ sound.use, allOk.trans sound.passed, fun some both => sound.skips some (allOk.mp both),
    ?_, ?_⟩
  · cases place <;> exact sound.running
  · change (system.shared.resume place).nTodo.toNat =
      (system.shared.resume place).queue.length +
        threadTotal LoopState.unreported (Function.update system.threads thread .outside)
    rw [queue]
    cases place with
    | outside => exact nTodo.trans (congrArg _ unreported.symm)
    | waiting => exact nTodo.trans (congrArg _ unreported.symm)
    | working nNow fOk vChecks =>
        change _ + nNow.toNat = _ at unreported
        change (system.shared.nTodo - nNow).toNat = _
        rw [UInt32.toNat_sub_of_le _ _ (UInt32.le_iff_toNat_le.mpr (by omega))]
        omega
  · change (system.shared.resume place).queue.length +
        threadTotal LoopState.unreported (Function.update system.threads thread .outside) ≤
      (tally addedChecks (sinceReturn system.trace)).card
    rw [queue]
    omega
  · change (system.shared.resume place).nIdle =
      threadTotal LoopState.idle (Function.update system.threads thread .outside)
    cases place with
    | outside => exact nIdle.trans (by change _ + (0 : Int) = _ at idle; omega)
    | waiting =>
        change _ + (1 : Int) = _ at idle
        change system.shared.nIdle - 1 = _
        omega
    | working nNow fOk vChecks => exact nIdle.trans (by change _ + (0 : Int) = _ at idle; omega)
  · change (system.shared.resume place).nTotal =
      threadTotal LoopState.inside (Function.update system.threads thread .outside) + 1
    cases place with
    | outside =>
        change _ + (0 : Int) = _ at inside
        change system.shared.nTotal + 1 = _
        omega
    | waiting => exact nTotal.trans (by change _ + (1 : Int) = _ at inside; omega)
    | working nNow fOk vChecks => exact nTotal.trans (by change _ + (1 : Int) = _ at inside; omega)

/-- A batch holds at least one check, and no more than there are. -/
theorem nNow_spec {shared : CCheckQueue T} (some : shared.queue ≠ []) :
    0 < shared.nNow.toNat ∧ shared.nNow.toNat ≤ shared.queue.length := by
  have positive := List.length_pos_iff.mpr some
  have small : (UInt32.ofNat shared.queue.length /
      UInt32.ofInt (shared.nTotal + shared.nIdle + 1)).toNat ≤ shared.queue.length := by
    rw [UInt32.toNat_div, UInt32.toNat_ofNat']
    exact (Nat.div_le_self _ _).trans (Nat.mod_le _ _)
  rw [CCheckQueue.nNow]
  generalize UInt32.ofNat shared.queue.length / UInt32.ofInt (shared.nTotal + shared.nIdle + 1) =
    share at *
  have atMost : (min shared.nBatchSize share).toNat ≤ share.toNat := by
    change (if shared.nBatchSize ≤ share then shared.nBatchSize else share).toNat ≤ _
    split_ifs with less
    · exact UInt32.le_iff_toNat_le.mp less
    · exact Nat.le_refl _
  generalize min shared.nBatchSize share = most at *
  change 0 < (if 1 ≤ most then most else 1).toNat ∧ (if 1 ≤ most then most else 1).toNat ≤ _
  split_ifs with less
  · exact ⟨UInt32.le_iff_toNat_le.mp less, atMost.trans small⟩
  · exact ⟨Nat.one_pos, positive⟩

structure WaitResult (operator : T → Bool) (before : List (CheckEvent T)) (fRet : Bool)
    (after : CheckSystem Worker T) : Prop where
  nTodo : after.shared.nTodo = 0
  queue : after.shared.queue = []
  fAllOk : after.shared.fAllOk = true
  isIdle : after.shared.isIdle = true
  fRet : fRet = true ↔
    (∀ check ∈ tally executedChecks (sinceReturn before), operator check = true) ∧
      tally executedChecks (sinceReturn before) = tally addedChecks (sinceReturn before)

omit [DecidableEq Worker] in
theorem Sound.leave (sound : Sound operator 1 system) (empty : system.shared.queue = [])
    (nTodo : system.shared.nTodo = 0) :
    Sound operator 0 { system with
        shared := { system.shared with nTotal := system.shared.nTotal - 1, fAllOk := true }
        trace := .returned system.shared.fAllOk :: system.trace } ∧
      WaitResult operator system.trace system.shared.fAllOk { system with
        shared := { system.shared with nTotal := system.shared.nTotal - 1, fAllOk := true }
        trace := .returned system.shared.fAllOk :: system.trace } := by
  have counted := sound.nTodo
  rw [nTodo, empty] at counted
  change 0 = 0 + _ at counted
  rw [Nat.zero_add] at counted
  have rests := fun thread =>
    (sound.batched thread).rests (eq_zero_of_threadTotal counted.symm thread)
  have pending : threadTotal LoopState.pending system.threads = 0 :=
    threadTotal_eq_zero fun thread => (rests thread).1
  have idle : threadTotal LoopState.idle system.threads =
      threadTotal LoopState.inside system.threads :=
    Finset.sum_congr rfl fun thread _ => (rests thread).2.2
  have use := sound.use
  rw [Accounted, empty, pending, Multiset.coe_nil, zero_add, zero_add] at use
  have nIdle := sound.nIdle
  have nTotal := sound.nTotal
  have allOk : system.AllOk ↔ system.shared.fAllOk = true :=
    and_iff_left fun thread => (rests thread).2.1
  have passed := sound.passed
  rw [allOk] at passed
  refine ⟨⟨sound.running, sound.batched, ?_, ?_, ?_, ?_, ?_, ?_, nIdle, ?_⟩, nTodo, empty, rfl, ?_,
    ?_⟩
  · exact sound.nTodo
  · change system.shared.queue.length + _ ≤ 0
    rw [empty, ← counted]
    exact Nat.le_refl 0
  · have lifetime := sound.lifetime
    rw [Accounted] at lifetime ⊢
    rw [tally_cons, tally_cons, tally_cons]
    change 0 + _ = _ + (0 + _) + (0 + _)
    rw [zero_add, zero_add, zero_add]
    exact lifetime
  · change (0 : Multiset T) = (system.shared.queue : Multiset T) +
      threadTotal LoopState.pending system.threads + 0 + 0
    rw [empty, pending]
    rfl
  · constructor
    · intro _ check member
      exact absurd member (Multiset.notMem_zero check)
    · intro _
      exact ⟨rfl, fun thread => (rests thread).2.1⟩
  · intro some
    exact absurd rfl some
  · change system.shared.nTotal - 1 = threadTotal LoopState.inside system.threads + 0
    omega
  · change (system.shared.nTotal - 1 == system.shared.nIdle && system.shared.nTodo == 0 && true) =
      true
    rw [nTodo, beq_iff_eq.mpr (by omega)]
    rfl
  · rw [passed]
    constructor
    · intro all
      refine ⟨all, ?_⟩
      have unskipped : tally skippedChecks (sinceReturn system.trace) = 0 := by
        by_contra some
        exact sound.skips some (allOk.mpr (passed.mpr all))
      rw [use, unskipped, add_zero]
    · exact And.left

theorem Sound.wait (sound : Sound operator 1 system) (outside : system.threads thread = .outside) :
    Sound operator 0 { system with
      shared := { system.shared with nIdle := system.shared.nIdle + 1 }
      threads := Function.update system.threads thread .waiting } := by
  have unreported := threadTotal_update LoopState.unreported system.threads thread .waiting
  have pending := threadTotal_update LoopState.pending system.threads thread .waiting
  have idle := threadTotal_update LoopState.idle system.threads thread .waiting
  have inside := threadTotal_update LoopState.inside system.threads thread .waiting
  have known := unfailed_iff system.threads thread
  rw [outside] at unreported pending idle inside known
  replace unreported := Nat.add_right_cancel unreported
  replace pending := add_right_cancel pending
  change _ + (0 : Int) = _ + 1 at idle
  change _ + (0 : Int) = _ + 1 at inside
  have nTodo := sound.nTodo
  have within := sound.within
  rw [← unreported] at nTodo within
  have accounted : ∀ trace, system.Accounted trace → Accounted { system with
      shared := { system.shared with nIdle := system.shared.nIdle + 1 }
      threads := Function.update system.threads thread .waiting } trace := by
    intro trace accounted
    rw [Accounted, ← pending] at accounted
    exact accounted
  have allOk : AllOk { system with
      shared := { system.shared with nIdle := system.shared.nIdle + 1 }
      threads := Function.update system.threads thread .waiting } ↔ system.AllOk := by
    rw [AllOk, AllOk, unfailed_update_iff, known]
    exact Iff.rfl
  refine ⟨sound.running, batched_update sound.batched trivial, nTodo, within,
    accounted _ sound.lifetime, accounted _ sound.use, allOk.trans sound.passed,
    fun some both => sound.skips some (allOk.mp both), ?_, ?_⟩
  · have nIdle := sound.nIdle
    change system.shared.nIdle + 1 = threadTotal LoopState.idle (Function.update _ _ _)
    omega
  · have nTotal := sound.nTotal
    change system.shared.nTotal = threadTotal LoopState.inside (Function.update _ _ _) + 0
    omega

theorem Sound.take (sound : Sound operator 1 system) (outside : system.threads thread = .outside)
    (some : system.shared.queue ≠ []) :
    Sound operator 0 { system with
      shared := { system.shared with
        queue := system.shared.queue.take (system.shared.queue.length - system.shared.nNow.toNat) }
      threads := Function.update system.threads thread (.working system.shared.nNow
        system.shared.fAllOk (system.shared.queue.drop
          (system.shared.queue.length - system.shared.nNow.toNat)).reverse) } := by
  obtain ⟨positive, enough⟩ := nNow_spec some
  generalize system.shared.nNow = nNow at *
  generalize isBatch : (system.shared.queue.drop (system.shared.queue.length - nNow.toNat)).reverse =
    batch
  have length : batch.length = nNow.toNat := by
    rw [← isBatch, List.length_reverse, List.length_drop]
    omega
  have parts : (system.shared.queue : Multiset T) =
      ((system.shared.queue.take (system.shared.queue.length - nNow.toNat) : List T) : Multiset T) +
        (batch : Multiset T) := by
    rw [← isBatch, Multiset.coe_reverse, Multiset.coe_add, List.take_append_drop]
  have left : (system.shared.queue.take (system.shared.queue.length - nNow.toNat)).length =
      system.shared.queue.length - nNow.toNat := by
    rw [List.length_take]
    omega
  have unreported := threadTotal_update LoopState.unreported system.threads thread
    (.working nNow system.shared.fAllOk batch)
  have pending := threadTotal_update LoopState.pending system.threads thread
    (.working nNow system.shared.fAllOk batch)
  have idle := threadTotal_update LoopState.idle system.threads thread
    (.working nNow system.shared.fAllOk batch)
  have inside := threadTotal_update LoopState.inside system.threads thread
    (.working nNow system.shared.fAllOk batch)
  have known := unfailed_iff system.threads thread
  rw [outside] at unreported pending idle inside known
  change _ + 0 = _ + nNow.toNat at unreported
  change _ + (0 : Multiset T) = _ + (batch : Multiset T) at pending
  rw [add_zero] at pending
  change _ + (0 : Int) = _ + 0 at idle
  change _ + (0 : Int) = _ + 1 at inside
  have nTodo := sound.nTodo
  have within := sound.within
  have accounted : ∀ trace, system.Accounted trace → Accounted { system with
      shared := { system.shared with
        queue := system.shared.queue.take (system.shared.queue.length - nNow.toNat) }
      threads := Function.update system.threads thread
        (.working nNow system.shared.fAllOk batch) } trace := by
    intro trace accounted
    rw [Accounted, parts] at accounted
    rw [Accounted, pending, accounted]
    abel
  have allOk : AllOk { system with
      shared := { system.shared with
        queue := system.shared.queue.take (system.shared.queue.length - nNow.toNat) }
      threads := Function.update system.threads thread
        (.working nNow system.shared.fAllOk batch) } ↔ system.AllOk := by
    rw [AllOk, AllOk, unfailed_update_iff, known]
    constructor
    · intro ⟨fAllOk, _, others⟩
      exact ⟨fAllOk, trivial, others⟩
    · intro ⟨fAllOk, _, others⟩
      exact ⟨fAllOk, fAllOk, others⟩
  refine ⟨sound.running, batched_update sound.batched ⟨positive, length.le⟩, ?_, ?_,
    accounted _ sound.lifetime, accounted _ sound.use, allOk.trans sound.passed,
    fun some both => sound.skips some (allOk.mp both), ?_, ?_⟩
  · change system.shared.nTodo.toNat = (List.take _ _).length +
      threadTotal LoopState.unreported (Function.update _ _ _)
    omega
  · change (List.take _ _).length + threadTotal LoopState.unreported (Function.update _ _ _) ≤ _
    rw [left]
    change _ ≤ (tally addedChecks (sinceReturn system.trace)).card
    omega
  · have nIdle := sound.nIdle
    change system.shared.nIdle = threadTotal LoopState.idle (Function.update _ _ _)
    omega
  · have nTotal := sound.nTotal
    change system.shared.nTotal = threadTotal LoopState.inside (Function.update _ _ _) + 0
    omega

/-- A critical section keeps all sound, and it returns from `Wait` with the right result. -/
theorem Sound.criticalSection (sound : Sound operator 0 system)
    (returned : system.step operator (.criticalSection thread) = some after) :
    Sound operator 0 after ∧ (after.trace = system.trace ∨
      ∃ fRet, after.trace = .returned fRet :: system.trace ∧
        WaitResult operator system.trace fRet after) := by
  have done := pending_of_criticalSection returned
  rw [criticalSection_eq thread rfl done] at returned
  have resumed := sound.resume thread rfl done
  have outside : Function.update system.threads thread LoopState.outside thread = .outside :=
    Function.update_self ..
  generalize system.shared.resume (system.threads thread) = shared at returned resumed
  by_cases empty : shared.queue = []
  · by_cases finished : thread = none ∧ shared.nTodo = 0
    · obtain ⟨rfl, nTodo⟩ := finished
      have leaves : shared.proceed true = ({ shared with
          nTotal := shared.nTotal - 1, fAllOk := true }, .outside, some shared.fAllOk) := by
        rw [CCheckQueue.proceed, if_pos (by rw [empty]; rfl), if_pos (by rw [nTodo]; rfl)]
        rfl
      obtain ⟨soundAfter, result⟩ := resumed.leave empty nTodo
      rw [Option.isNone_none, leaves] at returned
      cases returned
      exact ⟨soundAfter, Or.inr ⟨_, rfl, result⟩⟩
    · have waits : shared.proceed thread.isNone =
          ({ shared with nIdle := shared.nIdle + 1 }, .waiting, none) := by
        rw [CCheckQueue.proceed, if_pos (by rw [empty]; rfl), if_neg]
        rw [show shared.fQuit = false from resumed.running, Bool.or_false, Bool.and_eq_true,
          beq_iff_eq, Option.isNone_iff_eq_none]
        exact finished
      have soundAfter := resumed.wait outside
      rw [Function.update_idem] at soundAfter
      rw [waits] at returned
      cases returned
      cases thread with
      | none => exact ⟨soundAfter, Or.inl rfl⟩
      | some worker => exact ⟨soundAfter, Or.inl rfl⟩
  · have takes : shared.proceed thread.isNone = ({ shared with
        queue := shared.queue.take (shared.queue.length - shared.nNow.toNat) },
        .working shared.nNow shared.fAllOk
          (shared.queue.drop (shared.queue.length - shared.nNow.toNat)).reverse, none) := by
      rw [CCheckQueue.proceed, if_neg (by rw [List.isEmpty_iff]; exact empty)]
    have soundAfter := resumed.take outside empty
    rw [Function.update_idem] at soundAfter
    rw [takes] at returned
    cases returned
    cases thread with
    | none => exact ⟨soundAfter, Or.inl rfl⟩
    | some worker => exact ⟨soundAfter, Or.inl rfl⟩

theorem Sound.step (sound : Sound operator 0 system) {action : CheckAction Worker T}
    (returned : system.step operator action = some after) (fits : UsesFit after.trace) :
    Sound operator 0 after := by
  cases action with
  | add vChecks =>
      cases place : system.threads none with
      | outside =>
          simp only [CheckSystem.step, place, Option.some.injEq] at returned
          subst returned
          exact sound.add vChecks fits.2
      | waiting => simp [CheckSystem.step, place] at returned
      | working nNow fOk checks => simp [CheckSystem.step, place] at returned
  | criticalSection thread => exact (sound.criticalSection returned).1
  | execute thread =>
      cases place : system.threads thread with
      | outside => simp [CheckSystem.step, place] at returned
      | waiting => simp [CheckSystem.step, place] at returned
      | working nNow fOk checks =>
          cases checks with
          | nil => simp [CheckSystem.step, place] at returned
          | cons check rest =>
              simp only [CheckSystem.step, place, Option.some.injEq] at returned
              subst returned
              exact sound.execute place

theorem Sound.run (nBatchSize : UInt32) (actions : List (CheckAction Worker T))
    (ran : (CheckSystem.start nBatchSize).run operator actions = some system)
    (fits : UsesFit system.trace) : Sound operator 0 system := by
  induction actions using List.reverseRecOn generalizing system with
  | nil =>
      cases ran
      exact Sound.start nBatchSize
  | append_singleton actions action ih =>
      rw [run_append] at ran
      obtain ⟨before, ranBefore, returned⟩ := Option.bind_eq_some_iff.mp ran
      exact (ih ranBefore (usesFit_of_step returned fits)).step returned fits

/-- Where no use adds `2 ^ 32` checks: each check runs at most once, `nTodo` counts
what is not reported, checks are skipped behind a failed one only, and `Wait` returns
when nothing is left to do and tells whether all checks of the use have passed. -/
theorem checkQueue_run (nBatchSize : UInt32) (actions : List (CheckAction Worker T))
    (ran : (CheckSystem.start nBatchSize).run operator actions = some system)
    (fits : UsesFit system.trace) :
    tally executedChecks system.trace ≤ tally addedChecks system.trace ∧
      system.shared.nTodo.toNat =
        system.shared.queue.length + threadTotal LoopState.unreported system.threads ∧
      (tally skippedChecks (sinceReturn system.trace) ≠ 0 →
        ∃ check ∈ tally executedChecks (sinceReturn system.trace), operator check = false) ∧
      ∀ action after fRet, system.step operator action = some after →
        after.trace = .returned fRet :: system.trace →
          WaitResult operator system.trace fRet after := by
  have sound := Sound.run nBatchSize actions ran fits
  refine ⟨?_, sound.nTodo, ?_, ?_⟩
  · rw [sound.lifetime]
    exact (Multiset.le_add_left _ _).trans (Multiset.le_add_right _ _)
  · intro some
    have failed := sound.skips some
    rw [sound.passed] at failed
    push Not at failed
    obtain ⟨check, member, failed⟩ := failed
    exact ⟨check, member, Bool.eq_false_iff.mpr failed⟩
  · intro action after fRet returned isReturn
    cases action with
    | add vChecks =>
        cases place : system.threads none with
        | outside =>
            simp only [CheckSystem.step, place, Option.some.injEq] at returned
            subst returned
            simp at isReturn
        | waiting => simp [CheckSystem.step, place] at returned
        | working nNow fOk checks => simp [CheckSystem.step, place] at returned
    | criticalSection thread =>
        rcases (sound.criticalSection returned).2 with same | ⟨result, same, holds⟩
        · rw [same] at isReturn
          simp at isReturn
        · rw [same, List.cons.injEq, CheckEvent.returned.injEq] at isReturn
          rw [← isReturn.1]
          exact holds
    | execute thread =>
        cases place : system.threads thread with
        | outside => simp [CheckSystem.step, place] at returned
        | waiting => simp [CheckSystem.step, place] at returned
        | working nNow fOk checks =>
            cases checks with
            | nil => simp [CheckSystem.step, place] at returned
            | cons check rest =>
                simp only [CheckSystem.step, place, Option.some.injEq] at returned
                subst returned
                cases fOk <;> simp at isReturn

/-- A worker meets the failed check first and skips the other while the master waits. -/
theorem checkQueue_run_failedFirst :
    ∃ system, (start 8 : CheckSystem Unit Bool).run id
        [.add [true, false], .criticalSection (some ()), .execute (some ()),
          .criticalSection (some ()), .criticalSection none, .execute (some ()),
          .criticalSection (some ())] = some system ∧
      (tally executedChecks system.trace ≤ tally addedChecks system.trace ∧
        system.shared.nTodo.toNat =
          system.shared.queue.length + threadTotal LoopState.unreported system.threads ∧
        (tally skippedChecks (sinceReturn system.trace) ≠ 0 →
          ∃ check ∈ tally executedChecks (sinceReturn system.trace), id check = false) ∧
        ∀ action after fRet, system.step id action = some after →
          after.trace = .returned fRet :: system.trace →
            WaitResult id system.trace fRet after) :=
  have traced : ((start 8 : CheckSystem Unit Bool).run id
      [.add [true, false], .criticalSection (some ()), .execute (some ()),
        .criticalSection (some ()), .criticalSection none, .execute (some ()),
        .criticalSection (some ())]).map CheckSystem.trace =
      some [.skipped true, .executed false, .added [true, false]] := rfl
  have ⟨system, ran, trace⟩ := Option.map_eq_some_iff.mp traced
  have fits : UsesFit [.skipped true, .executed false, .added [true, false]] :=
    ⟨⟨⟨trivial, by decide⟩, by decide⟩, by decide⟩
  ⟨system, ran, checkQueue_run 8 _ ran (trace ▸ fits)⟩

theorem run_add (nBatchSize : UInt32) (vChecks : List T) :
    ∃ system, (CheckSystem.start nBatchSize : CheckSystem Worker T).run operator [.add vChecks] =
        some system ∧
      system.shared.nTodo.toNat = vChecks.length % 2 ^ 32 ∧
      system.shared.queue.length + threadTotal LoopState.unreported system.threads =
        vChecks.length := by
  refine ⟨_, rfl, ?_, ?_⟩
  · change (0 + UInt32.ofNat vChecks.length).toNat = _
    rw [UInt32.zero_add, UInt32.toNat_ofNat']
  · change ([] ++ vChecks).length +
      threadTotal LoopState.unreported (CheckSystem.start nBatchSize : CheckSystem Worker T).threads = _
    rw [threadTotal_start rfl, List.nil_append, Nat.add_zero]

/-- `nTodo` is back at zero with `2 ^ 32` checks in the queue. -/
theorem nTodo_overflow :
    ∃ system, (start 8 : CheckSystem Unit Bool).run id [.add (List.replicate (2 ^ 32) true)] =
        some system ∧
      system.shared.nTodo.toNat ≠
        system.shared.queue.length + threadTotal LoopState.unreported system.threads := by
  obtain ⟨system, ran, nTodo, outstanding⟩ :=
    @run_add Unit Bool id _ _ 8 (List.replicate (2 ^ 32) true)
  refine ⟨system, ran, ?_⟩
  rw [nTodo, outstanding, List.length_replicate]
  decide

end CheckSystem

end Lycancoin

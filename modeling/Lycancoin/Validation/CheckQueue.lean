import Mathlib

namespace Lycancoin

/-- The fields of the queue that the mutex guards.  The checks at the end of the
list are taken first. -/
structure CCheckQueue (T : Type) where
  queue : List T
  nIdle : Int
  nTotal : Int
  fAllOk : Bool
  nTodo : UInt32
  fQuit : Bool
  nBatchSize : UInt32

/-- Where a thread is between its critical sections. -/
inductive LoopState (T : Type)
  | outside
  | waiting
  | working (nNow : UInt32) (fOk : Bool) (vChecks : List T)

namespace CCheckQueue

variable {T : Type}

def ofBatchSize (nBatchSizeIn : UInt32) : CCheckQueue T where
  queue := []
  nIdle := 0
  nTotal := 0
  fAllOk := true
  nTodo := 0
  fQuit := false
  nBatchSize := nBatchSizeIn

def add (vChecks : List T) (shared : CCheckQueue T) : CCheckQueue T :=
  { shared with
    queue := shared.queue ++ vChecks
    nTodo := shared.nTodo + UInt32.ofNat vChecks.length }

/-- How many checks a thread takes. -/
def nNow (shared : CCheckQueue T) : UInt32 :=
  max 1 (min shared.nBatchSize
    (UInt32.ofNat shared.queue.length / UInt32.ofInt (shared.nTotal + shared.nIdle + 1)))

/-- The start of a critical section of `Loop`: the clean-up behind the last
batch, the first iteration, or the return from the wait. -/
def resume (shared : CCheckQueue T) : LoopState T → CCheckQueue T
  | .outside => { shared with nTotal := shared.nTotal + 1 }
  | .waiting => { shared with nIdle := shared.nIdle - 1 }
  | .working nNow fOk _ =>
      { shared with fAllOk := shared.fAllOk && fOk, nTodo := shared.nTodo - nNow }

/-- The rest of a critical section, with what `Loop` returns if it does. -/
def proceed (fMaster : Bool) (shared : CCheckQueue T) :
    CCheckQueue T × LoopState T × Option Bool :=
  if shared.queue.isEmpty then
    if (fMaster || shared.fQuit) && shared.nTodo == 0 then
      ({ shared with
          nTotal := shared.nTotal - 1
          fAllOk := if fMaster then true else shared.fAllOk },
        .outside, some shared.fAllOk)
    else ({ shared with nIdle := shared.nIdle + 1 }, .waiting, none)
  else
    let rest := shared.queue.length - shared.nNow.toNat
    ({ shared with queue := shared.queue.take rest },
      .working shared.nNow shared.fAllOk (shared.queue.drop rest).reverse, none)

def isIdle (shared : CCheckQueue T) : Bool :=
  shared.nTotal == shared.nIdle && shared.nTodo == 0 && shared.fAllOk

end CCheckQueue

/-- What can be seen of a run. -/
inductive CheckEvent (T : Type)
  | added (vChecks : List T)
  | executed (check : T)
  | skipped (check : T)
  | returned (fRet : Bool)

/-- The master is the thread `none`, and the latest event comes first. -/
structure CheckSystem (Worker T : Type) where
  shared : CCheckQueue T
  threads : Option Worker → LoopState T
  trace : List (CheckEvent T)

/-- A wait may end at any time, as it may for a condition variable. -/
inductive CheckAction (Worker T : Type)
  | add (vChecks : List T)
  | criticalSection (thread : Option Worker)
  | execute (thread : Option Worker)

namespace CheckSystem

variable {Worker T : Type} [DecidableEq Worker]

def start (nBatchSize : UInt32) : CheckSystem Worker T where
  shared := CCheckQueue.ofBatchSize nBatchSize
  threads _ := .outside
  trace := []

/-- The trace after a critical section, in which only a return of `Wait` shows. -/
def seen (thread : Option Worker) (fRet : Option Bool) (trace : List (CheckEvent T)) :
    List (CheckEvent T) :=
  match thread, fRet with
  | none, some fRet => .returned fRet :: trace
  | _, _ => trace

def step (operator : T → Bool) (system : CheckSystem Worker T) :
    CheckAction Worker T → Option (CheckSystem Worker T)
  | .add vChecks =>
      match system.threads none with
      | .outside => some { system with
          shared := system.shared.add vChecks
          trace := .added vChecks :: system.trace }
      | _ => none
  | .criticalSection thread =>
      match system.threads thread with
      | .working _ _ (_ :: _) => none
      | place =>
          let (shared, next, fRet) := (system.shared.resume place).proceed thread.isNone
          some {
            shared
            threads := Function.update system.threads thread next
            trace := seen thread fRet system.trace }
  | .execute thread =>
      match system.threads thread with
      | .working nNow fOk (check :: rest) =>
          some { system with
            threads := Function.update system.threads thread
              (.working nNow (if fOk then operator check else false) rest)
            trace := (if fOk then .executed check else .skipped check) :: system.trace }
      | _ => none

def run (operator : T → Bool) (system : CheckSystem Worker T)
    (actions : List (CheckAction Worker T)) : Option (CheckSystem Worker T) :=
  actions.foldlM (step operator) system

end CheckSystem

namespace CheckEvent

variable {T : Type}

def isReturn : CheckEvent T → Bool
  | .returned _ => true
  | _ => false

def addedChecks : CheckEvent T → Multiset T
  | .added vChecks => vChecks
  | _ => 0

def executedChecks : CheckEvent T → Multiset T
  | .executed check => {check}
  | _ => 0

def skippedChecks : CheckEvent T → Multiset T
  | .skipped check => {check}
  | _ => 0

def tally (read : CheckEvent T → Multiset T) (trace : List (CheckEvent T)) : Multiset T :=
  (trace.map read).sum

@[simp] theorem tally_nil (read : CheckEvent T → Multiset T) : tally read [] = 0 := rfl

@[simp] theorem tally_cons (read : CheckEvent T → Multiset T) (event : CheckEvent T)
    (trace : List (CheckEvent T)) : tally read (event :: trace) = read event + tally read trace := by
  simp [tally]

/-- The events since the last return of `Wait`. -/
def sinceReturn (trace : List (CheckEvent T)) : List (CheckEvent T) :=
  trace.takeWhile fun event => !event.isReturn

/-- No use of the queue adds so many checks that `nTodo` overflows. -/
def UsesFit : List (CheckEvent T) → Prop
  | [] => True
  | event :: older =>
      UsesFit older ∧ (tally addedChecks (sinceReturn (event :: older))).card < 2 ^ 32

end CheckEvent

end Lycancoin

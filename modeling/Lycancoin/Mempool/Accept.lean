import Lycancoin.Data.Metered
import Lycancoin.Mempool.PoolIndex
import Lycancoin.Script.SignatureEncoding
import Lycancoin.Validation.ConnectBlock

namespace Lycancoin

open Lycancoin.Data

def REJECT_DUPLICATE : Nat := 0x12

def MAX_STANDARD_TX_SIGOPS : Nat := MAX_BLOCK_SIGOPS / 5

def LOCKTIME_THRESHOLD : Int := 500000000

/-- The height that coins carry while their transaction waits in the pool. -/
def MEMPOOL_HEIGHT : Int := 0x7fffffff

def isFinalTx (tx : CTransaction) (nBlockHeight nBlockTime : Int) : Bool :=
  if tx.nLockTime = 0 then true
  else if (tx.nLockTime.toNat : Int) <
      (if (tx.nLockTime.toNat : Int) < LOCKTIME_THRESHOLD then nBlockHeight else nBlockTime) then true
  else tx.vin.all fun txin => txin.nSequence == 0xffffffff

def CTransaction.calculateModifiedSize (tx : CTransaction) (nTxSize : Nat) : Nat :=
  tx.vin.foldl
    (fun nTxSize txin =>
      let offset := 41 + min 110 txin.scriptSig.length
      if nTxSize > offset then nTxSize - offset else nTxSize)
    (if nTxSize = 0 then tx.getSerializeSize else nTxSize)

def CTxMemPoolEntry.ofTx (tx : CTransaction) (nFee nTime : Int) (dPriority : Float)
    (nHeight : UInt32) : CTxMemPoolEntry :=
  { tx, nFee, nTime, dPriority, nHeight
    nTxSize := tx.getSerializeSize
    nModSize := tx.calculateModifiedSize tx.getSerializeSize }

/-- What `AcceptToMemoryPool` reads besides the pool and the coins: the tip, the
clock, the relay policy of the node and the script interpreter.  `checkFees`
stands for the checks on fee and priority, `scriptCheck` for a `CScriptCheck`
of one input under some flags. -/
structure PoolRules where
  nHeight : Nat
  nTime : Int
  nAdjustedTime : Int
  isStandardTx : CTransaction → Option String
  areInputsStandard : UtxoView → CTransaction → Bool
  getPriority : UtxoView → CTransaction → Nat → Float
  checkFees : CTxMemPool → UtxoView → CTxMemPoolEntry → (fLimitFree fRejectAbsurdFee : Bool) →
    Check Unit
  scriptCheck : CScript → CTransaction → Nat → UInt32 → Option String

/-- Why a transaction is not accepted: the state has been set, some input is
unknown, or the function returns false and says nothing. -/
inductive Refusal where
  | failed (failure : Failure)
  | missingInputs
  | declined
deriving DecidableEq, Repr

namespace Refusal

def of {α : Type} (check : Check α) : Except Refusal α :=
  match check with
  | .ok value => .ok value
  | .error failure => .error (.failed failure)

def declineIf (condition : Bool) : Except Refusal Unit :=
  if condition then .error .declined else .ok ()

def missingIf (condition : Bool) : Except Refusal Unit :=
  if condition then .error .missingInputs else .ok ()

end Refusal

/-- The coins that `CCoinsViewMemPool` shows through a cache. -/
def CTxMemPool.viewOver (pool : CTxMemPool) (pcoinsTip : UtxoView) : UtxoView :=
  { pcoinsTip with
    coins := fun txid =>
      match pool.mapTx[txid]? with
      | some entry => (CCoins.fromTx entry.tx MEMPOOL_HEIGHT).live
      | none => pcoinsTip.coins txid }

/-- One script check of `CheckInputs`, made at once. -/
def checkPoolScript (rules : PoolRules) (flags : UInt32) (view : UtxoView) (tx : CTransaction)
    (nIn : Nat) (txin : CTxIn) : Check Unit :=
  match rules.scriptCheck (spentScript view txin) tx nIn flags with
  | none => .ok ()
  | some error =>
      let notMandatory := STANDARD_SCRIPT_VERIFY_FLAGS &&& ~~~MANDATORY_SCRIPT_VERIFY_FLAGS
      if flags &&& notMandatory ≠ 0 ∧
          (rules.scriptCheck (spentScript view txin) tx nIn (flags &&& ~~~notMandatory)).isNone then
        .error (invalid REJECT_NONSTANDARD "non-mandatory-script-verify-flag (No error)")
      else
        .error (dos 100 REJECT_INVALID ("mandatory-script-verify-flag-failed (" ++ error ++ ")"))

/-- `CheckInputs` as the pool calls it. -/
def checkPoolInputs (rules : PoolRules) (flags : UInt32) (view : UtxoView) (tx : CTransaction) :
    Check Unit := do
  checkInputAmounts view (rules.nHeight + 1) tx
  tx.vin.zipIdx.forM fun item => checkPoolScript rules flags view tx item.2 item.1

/-- The checks that look at nothing but the transaction, the tip and the clock. -/
def checkLoose (rules : PoolRules) (tx : CTransaction) : Check Unit := do
  checkTransaction tx
  rejectIf tx.isCoinBase (dos 100 REJECT_INVALID "coinbase")
  match rules.isStandardTx tx with
  | some reason => .error (dos 0 REJECT_NONSTANDARD reason)
  | none => .ok ()
  rejectIf (!isFinalTx tx (rules.nHeight + 1) rules.nAdjustedTime)
    (dos 0 REJECT_NONSTANDARD "non-final")

def checkEntry (rules : PoolRules) (pool : CTxMemPool) (view : UtxoView) (tx : CTransaction)
    (fLimitFree fRejectAbsurdFee : Bool) : Except Refusal CTxMemPoolEntry := do
  Refusal.of (rejectIf (!view.haveInputs tx) (invalid REJECT_DUPLICATE "bad-txns-inputs-spent"))
  let nValueIn ← Refusal.of (view.getValueIn tx)
  Refusal.declineIf (!rules.areInputsStandard view tx)
  Refusal.of (rejectIf (getLegacySigOpCount tx + getP2SHSigOpCount view tx > MAX_STANDARD_TX_SIGOPS)
    (dos 0 REJECT_NONSTANDARD "bad-txns-too-many-sigops"))
  let nValueOut ← Refusal.of tx.getValueOut
  let nFees ← Refusal.of (addAmount nValueIn (-nValueOut))
  let entry := CTxMemPoolEntry.ofTx tx nFees rules.nTime (rules.getPriority view tx rules.nHeight)
    (UInt32.ofNat rules.nHeight)
  Refusal.of (rules.checkFees pool view entry fLimitFree fRejectAbsurdFee)
  Refusal.of (checkPoolInputs rules STANDARD_SCRIPT_VERIFY_FLAGS view tx)
  Refusal.of (checkPoolInputs rules MANDATORY_SCRIPT_VERIFY_FLAGS view tx)
  pure entry

/-- `AcceptToMemoryPool`, up to the wallets. -/
def acceptToMemoryPool (rules : PoolRules) (pcoinsTip : UtxoView) (pool : CTxMemPool)
    (tx : CTransaction) (fLimitFree fRejectAbsurdFee : Bool) : Except Refusal CTxMemPool := do
  Refusal.of (checkLoose rules tx)
  Refusal.declineIf (pool.mapTx.contains tx.hash)
  Refusal.declineIf (tx.vin.any fun txin => pool.mapNextTx.contains txin.prevout)
  let view := pool.viewOver pcoinsTip
  Refusal.declineIf (view.coins tx.hash).isSome
  Refusal.missingIf (tx.vin.any fun txin => (view.coins txin.prevout.hash).isNone)
  let entry ← checkEntry rules pool view tx fLimitFree fRejectAbsurdFee
  pure (pool.addUnchecked tx.hash entry)

namespace Refusal

theorem of_eq_ok {α : Type} {check : Check α} {value : α} :
    of check = .ok value ↔ check = .ok value := by
  cases check <;> simp [of]

theorem declineIf_eq_ok {condition : Bool} :
    declineIf condition = .ok () ↔ condition = false := by
  cases condition <;> simp [declineIf]

end Refusal

/-- What `AcceptToMemoryPool` has made sure of when it returns true. -/
structure Accepted (rules : PoolRules) (pcoinsTip : UtxoView) (pool : CTxMemPool)
    (tx : CTransaction) (after : CTxMemPool) : Prop where
  loose : checkLoose rules tx = .ok ()
  absent : pool.mapTx[tx.hash]? = none
  unspent : ∀ txin ∈ tx.vin, pool.mapNextTx[txin.prevout]? = none
  unknown : (pool.viewOver pcoinsTip).coins tx.hash = none
  haveInputs : (pool.viewOver pcoinsTip).haveInputs tx = true
  inputs : checkPoolInputs rules STANDARD_SCRIPT_VERIFY_FLAGS (pool.viewOver pcoinsTip) tx = .ok ()
  added : ∃ entry, entry.tx = tx ∧ after = pool.addUnchecked tx.hash entry

section Acceptance

variable {rules : PoolRules} {pcoinsTip : UtxoView} {pool after : CTxMemPool} {tx : CTransaction}
  {fLimitFree fRejectAbsurdFee : Bool} {hash : Uint256}

theorem contains_eq_false_of_getElem? {κ ν : Type} [LinearOrder κ] {map : Std.ExtTreeMap κ ν}
    {key : κ} (absent : map[key]? = none) : map.contains key = false := by
  rw [Std.ExtTreeMap.contains_eq_isSome_getElem?, absent]
  rfl

theorem CTxMemPool.viewOver_of_absent (absent : pool.mapTx[hash]? = none) :
    (pool.viewOver pcoinsTip).coins hash = pcoinsTip.coins hash := by
  simp only [CTxMemPool.viewOver, absent]

theorem checkEntry_eq_ok {view : UtxoView} {entry : CTxMemPoolEntry}
    (passed : checkEntry rules pool view tx fLimitFree fRejectAbsurdFee = .ok entry) :
    entry.tx = tx ∧ view.haveInputs tx = true ∧
      checkPoolInputs rules STANDARD_SCRIPT_VERIFY_FLAGS view tx = .ok () := by
  obtain ⟨_, have', passed⟩ := bind_eq_ok.mp passed
  obtain ⟨_, _, passed⟩ := bind_eq_ok.mp passed
  obtain ⟨_, _, passed⟩ := bind_eq_ok.mp passed
  obtain ⟨_, _, passed⟩ := bind_eq_ok.mp passed
  obtain ⟨_, _, passed⟩ := bind_eq_ok.mp passed
  obtain ⟨_, _, passed⟩ := bind_eq_ok.mp passed
  obtain ⟨_, _, passed⟩ := bind_eq_ok.mp passed
  obtain ⟨_, inputs, passed⟩ := bind_eq_ok.mp passed
  obtain ⟨_, _, passed⟩ := bind_eq_ok.mp passed
  cases passed
  refine ⟨rfl, ?_, Refusal.of_eq_ok.mp inputs⟩
  simpa using rejectIf_eq_ok.mp (Refusal.of_eq_ok.mp have')

theorem accepted_of_eq_ok
    (returns : acceptToMemoryPool rules pcoinsTip pool tx fLimitFree fRejectAbsurdFee = .ok after) :
    Accepted rules pcoinsTip pool tx after := by
  obtain ⟨_, loose, returns⟩ := bind_eq_ok.mp returns
  obtain ⟨_, absent, returns⟩ := bind_eq_ok.mp returns
  obtain ⟨_, unspent, returns⟩ := bind_eq_ok.mp returns
  obtain ⟨_, unknown, returns⟩ := bind_eq_ok.mp returns
  obtain ⟨_, _, returns⟩ := bind_eq_ok.mp returns
  obtain ⟨entry, checked, returns⟩ := bind_eq_ok.mp returns
  cases returns
  obtain ⟨isTx, haveInputs, inputs⟩ := checkEntry_eq_ok checked
  rw [Refusal.declineIf_eq_ok] at absent unspent unknown
  refine ⟨Refusal.of_eq_ok.mp loose, ?_, ?_, ?_, haveInputs, inputs, entry, isTx, rfl⟩
  · exact Std.ExtTreeMap.getElem?_eq_none_of_contains_eq_false absent
  · intro txin member
    rw [List.any_eq_false] at unspent
    exact Std.ExtTreeMap.getElem?_eq_none_of_contains_eq_false (Bool.eq_false_iff.mpr (unspent txin member))
  · simpa using unknown

theorem acceptToMemoryPool_of_missing (loose : checkLoose rules tx = .ok ())
    (absent : pool.mapTx[tx.hash]? = none)
    (unspent : ∀ txin ∈ tx.vin, pool.mapNextTx[txin.prevout]? = none)
    (unknown : (pool.viewOver pcoinsTip).coins tx.hash = none)
    {txin : CTxIn} (member : txin ∈ tx.vin)
    (missing : (pool.viewOver pcoinsTip).coins txin.prevout.hash = none) :
    acceptToMemoryPool rules pcoinsTip pool tx fLimitFree fRejectAbsurdFee =
      .error .missingInputs := by
  have notThere : pool.mapTx.contains tx.hash = false := contains_eq_false_of_getElem? absent
  have noConflict : (tx.vin.any fun txin => pool.mapNextTx.contains txin.prevout) = false :=
    List.any_eq_false.mpr fun txin member =>
      Bool.eq_false_iff.mp (contains_eq_false_of_getElem? (unspent txin member))
  have some : (tx.vin.any fun txin =>
      ((pool.viewOver pcoinsTip).coins txin.prevout.hash).isNone) = true :=
    List.any_eq_true.mpr ⟨txin, member, by rw [missing]; rfl⟩
  simp [acceptToMemoryPool, loose, notThere, noConflict, unknown, some, Refusal.of,
    Refusal.declineIf, Refusal.missingIf, bind, Except.bind]

theorem acceptToMemoryPool_of_checkEntry {entry : CTxMemPoolEntry}
    (loose : checkLoose rules tx = .ok ()) (absent : pool.mapTx[tx.hash]? = none)
    (unspent : ∀ txin ∈ tx.vin, pool.mapNextTx[txin.prevout]? = none)
    (unknown : (pool.viewOver pcoinsTip).coins tx.hash = none)
    (known : ∀ txin ∈ tx.vin, ((pool.viewOver pcoinsTip).coins txin.prevout.hash).isSome = true)
    (checked : checkEntry rules pool (pool.viewOver pcoinsTip) tx fLimitFree fRejectAbsurdFee =
      .ok entry) :
    acceptToMemoryPool rules pcoinsTip pool tx fLimitFree fRejectAbsurdFee =
      .ok (pool.addUnchecked tx.hash entry) := by
  have notThere : pool.mapTx.contains tx.hash = false := contains_eq_false_of_getElem? absent
  have noConflict : (tx.vin.any fun txin => pool.mapNextTx.contains txin.prevout) = false :=
    List.any_eq_false.mpr fun txin member =>
      Bool.eq_false_iff.mp (contains_eq_false_of_getElem? (unspent txin member))
  have allKnown : (tx.vin.any fun txin =>
      ((pool.viewOver pcoinsTip).coins txin.prevout.hash).isNone) = false := by
    rw [List.any_eq_false]
    intro txin member
    rw [Option.isNone_iff_eq_none, ← ne_eq, Option.ne_none_iff_isSome]
    exact known txin member
  simp only [acceptToMemoryPool, loose, notThere, noConflict, unknown, allKnown, checked,
    Option.isSome_none]
  rfl

theorem acceptToMemoryPool_of_mem (loose : checkLoose rules tx = .ok ())
    (present : pool.mapTx.contains tx.hash = true) :
    acceptToMemoryPool rules pcoinsTip pool tx fLimitFree fRejectAbsurdFee = .error .declined := by
  simp [acceptToMemoryPool, loose, present, Refusal.of, Refusal.declineIf, bind, Except.bind]

theorem Accepted.sound (accepted : Accepted rules pcoinsTip pool tx after) :
    TransactionSound tx :=
  checkTransaction_spec (check_seq_eq_ok.mp accepted.loose).1

theorem Accepted.exact (accepted : Accepted rules pcoinsTip pool tx after) (exact : pool.Exact) :
    after.Exact := by
  obtain ⟨entry, rfl, rfl⟩ := accepted.added
  exact exact.addUnchecked
    { absent := accepted.absent
      distinct := accepted.sound.distinct
      unspent := accepted.unspent }

theorem Accepted.getElem?_mapTx (accepted : Accepted rules pcoinsTip pool tx after) :
    ∃ entry, entry.tx = tx ∧ ∀ hash : Uint256,
      after.mapTx[hash]? = if tx.hash = hash then some entry else pool.mapTx[hash]? := by
  obtain ⟨entry, isTx, rfl⟩ := accepted.added
  exact ⟨entry, isTx, fun hash => CTxMemPool.getElem?_insert_self_or _ _ _ _⟩

theorem Accepted.contains_iff (accepted : Accepted rules pcoinsTip pool tx after) :
    after.mapTx.contains hash = true ↔ pool.mapTx.contains hash = true ∨ hash = tx.hash := by
  obtain ⟨entry, _, lookup⟩ := accepted.getElem?_mapTx
  rw [Std.ExtTreeMap.contains_eq_isSome_getElem?, Std.ExtTreeMap.contains_eq_isSome_getElem?, lookup]
  by_cases same : tx.hash = hash
  · simp [same]
  · simp [same, Ne.symm same]

end Acceptance

end Lycancoin

import Lycancoin.Coins.UtxoView
import Lycancoin.Consensus.Params

namespace Lycancoin

def REJECT_NONSTANDARD : Nat := 0x40

/-- The script verification flags that `ConnectBlock` may set. -/
structure ScriptFlags where
  p2sh : Bool
  dersig : Bool
deriving DecidableEq, Repr

/-- The script interpreter.  `scriptCheck` is a `CScriptCheck` of one input: the
script of the output that it spends, the transaction, the input and the flags
give no error or the text of one. -/
structure ScriptInterpreter where
  scriptCheck : CScript → CTransaction → Nat → ScriptFlags → Option String
  nScriptCheckThreads : Nat

/-- What `ConnectBlock` settles before it goes through the transactions. -/
structure ConnectRules where
  scripts : ScriptInterpreter
  fScriptChecks : Bool
  fStrictPayToScriptHash : Bool
  flags : ScriptFlags
  nHeight : Nat
  nSpendHeight : Nat

/-- The loop of `CheckInputs` over the values of the inputs. -/
def checkInputValues (view : UtxoView) (nSpendHeight : Nat) : Int → List CTxIn → Check Int
  | nValueIn, [] => .ok nValueIn
  | nValueIn, txin :: rest =>
      match view.coins txin.prevout.hash, view.output txin.prevout with
      | some coins, some txout => do
          rejectIf (coins.fCoinBase && decide (nSpendHeight - coins.nHeight < COINBASE_MATURITY))
            (invalid REJECT_INVALID "bad-txns-premature-spend-of-coinbase")
          let nValueIn ← addAmount nValueIn txout.nValue
          rejectIf (!moneyRange txout.nValue || !moneyRange nValueIn)
            (dos 100 REJECT_INVALID "bad-txns-inputvalues-outofrange")
          checkInputValues view nSpendHeight nValueIn rest
      | _, _ => .error .assertion

/-- The script of the output that an input spends. -/
def spentScript (view : UtxoView) (txin : CTxIn) : CScript :=
  ((view.output txin.prevout).map CTxOut.scriptPubKey).getD []

def checkScript (rules : ConnectRules) (view : UtxoView) (tx : CTransaction) (nIn : Nat)
    (txin : CTxIn) : Check Unit :=
  match rules.scripts.scriptCheck (spentScript view txin) tx nIn rules.flags with
  | none => .ok ()
  | some error =>
      let mandatory := { rules.flags with dersig := false }
      if rules.flags.dersig &&
          (rules.scripts.scriptCheck (spentScript view txin) tx nIn mandatory).isNone then
        .error (invalid REJECT_NONSTANDARD "non-mandatory-script-verify-flag (No error)")
      else
        .error (dos 100 REJECT_INVALID ("mandatory-script-verify-flag-failed (" ++ error ++ ")"))

def checkScripts (rules : ConnectRules) (view : UtxoView) (tx : CTransaction) :
    List (CTxIn × Nat) → Check Unit
  | [] => .ok ()
  | (txin, nIn) :: rest => do
      checkScript rules view tx nIn txin
      checkScripts rules view tx rest

/-- The checks of `CheckInputs` on the amounts, and the fee of the transaction. -/
def checkInputAmounts (view : UtxoView) (nSpendHeight : Nat) (tx : CTransaction) : Check Unit := do
  rejectIf (!view.haveInputs tx) (invalid 0 "")
  let nValueIn ← checkInputValues view nSpendHeight 0 tx.vin
  let nValueOut ← tx.getValueOut
  rejectIf (nValueIn < nValueOut) (dos 100 REJECT_INVALID "bad-txns-in-belowout")
  let nTxFee ← addAmount nValueIn (-nValueOut)
  rejectIf (nTxFee < 0) (dos 100 REJECT_INVALID "bad-txns-fee-negative")
  let nFees ← addAmount 0 nTxFee
  rejectIf (!moneyRange nFees) (dos 100 REJECT_INVALID "bad-txns-fee-outofrange")

/-- `CheckInputs` for a transaction that is not a coinbase.  With script
threads the script checks are queued. -/
def checkInputs (rules : ConnectRules) (view : UtxoView) (tx : CTransaction) : Check Unit := do
  checkInputAmounts view rules.nSpendHeight tx
  if rules.fScriptChecks && rules.scripts.nScriptCheckThreads == 0 then
    checkScripts rules view tx tx.vin.zipIdx

/-- The verdict of the script checks that `CheckInputs` has queued. -/
def queuedChecksPass (rules : ConnectRules) (view : UtxoView) (tx : CTransaction) : Bool :=
  if rules.fScriptChecks && rules.scripts.nScriptCheckThreads != 0 && !tx.isCoinBase then
    tx.vin.zipIdx.all fun (txin, nIn) =>
      (rules.scripts.scriptCheck (spentScript view txin) tx nIn rules.flags).isNone
  else true

/-- `GetP2SHSigOpCount`, once `HaveInputs` holds. -/
def getP2SHSigOpCount (view : UtxoView) (tx : CTransaction) : Nat :=
  (tx.vin.map fun txin =>
    if CScript.isPayToScriptHash (spentScript view txin) then
      CScript.getSigOpCountFor (spentScript view txin) txin.scriptSig
    else 0).sum

/-- What one transaction must pass in `ConnectBlock`: the running fees and the
running number of signature operations after it. -/
def checkConnect (rules : ConnectRules) (view : UtxoView) (nFees : Int) (nSigOps : Nat)
    (tx : CTransaction) : Check (Int × Nat) := do
  let nSigOps := nSigOps + getLegacySigOpCount tx
  rejectIf (nSigOps > MAX_BLOCK_SIGOPS) (dos 100 REJECT_INVALID "bad-blk-sigops")
  if tx.isCoinBase then return (nFees, nSigOps)
  rejectIf (!view.haveInputs tx) (dos 100 REJECT_INVALID "bad-txns-inputs-missingorspent")
  let nSigOps :=
    if rules.fStrictPayToScriptHash then nSigOps + getP2SHSigOpCount view tx else nSigOps
  rejectIf (nSigOps > MAX_BLOCK_SIGOPS) (dos 100 REJECT_INVALID "bad-blk-sigops")
  let nValueIn ← view.getValueIn tx
  let nValueOut ← tx.getValueOut
  let nTxFee ← addAmount nValueIn (-nValueOut)
  let nFees ← addAmount nFees nTxFee
  checkInputs rules view tx
  return (nFees, nSigOps)

/-- What the loop of `ConnectBlock` over the transactions leaves. -/
structure Connected where
  view : UtxoView
  nFees : Int
  vtxundo : List CTxUndo
  scriptsPass : Bool

/-- The loop of `ConnectBlock`.  The first transaction of a block has no undo data. -/
def connectTransactions (rules : ConnectRules) :
    (first : Bool) → UtxoView → Int → Nat → List CTransaction → Check Connected
  | _, view, nFees, _, [] => .ok { view, nFees, vtxundo := [], scriptsPass := true }
  | first, view, nFees, nSigOps, tx :: rest => do
      let (nFees, nSigOps) ← checkConnect rules view nFees nSigOps tx
      let (after, txundo) ← view.updateCoins tx rules.nHeight
      let connected ← connectTransactions rules false after nFees nSigOps rest
      pure { connected with
        vtxundo := if first then connected.vtxundo else txundo :: connected.vtxundo
        scriptsPass := queuedChecksPass rules view tx && connected.scriptsPass }

def getTotalBlocksEstimate (env : Environment) : Nat :=
  if env.fCheckpointsEnabled then
    match env.params.mapCheckpoints.getLast? with
    | some checkpoint => checkpoint.1
    | none => 0
  else 0

/-- The rules that `ConnectBlock` derives from the entry of the block. -/
def connectRules (env : Environment) (scripts : ScriptInterpreter) (index : BlockMap)
    (block : CBlock) (pindex : CBlockIndex) (nSpendHeight : Nat) : ConnectRules :=
  let fStrictPayToScriptHash := decide (pindex.getBlockTime ≥ 1349049600)
  let parents :=
    match pindex.pprev with
    | none => []
    | some prev => chainTo index prev
  { scripts
    fScriptChecks := decide (pindex.nHeight ≥ getTotalBlocksEstimate env)
    fStrictPayToScriptHash
    flags := {
      p2sh := fStrictPayToScriptHash
      dersig := decide (block.nVersion ≥ 3) &&
        isSuperMajority env 3 parents env.consensus.nMajorityEnforceBlockUpgrade }
    nHeight := pindex.nHeight
    nSpendHeight }

/-- BIP30, which `ConnectBlock` enforces on blocks after October 1, 2012. -/
def overwritesTransaction (view : UtxoView) (block : CBlock) : Bool :=
  block.vtx.any fun tx => (view.coins tx.hash).isSome

def checkCoinbaseValue (env : Environment) (block : CBlock) (nHeight : Nat) (nFees : Int) :
    Check Unit :=
  match block.vtx with
  | [] => .error .assertion
  | coinbase :: _ => do
      let nValueOut ← coinbase.getValueOut
      match getBlockValue env.consensus nHeight nFees with
      | none => .error .overflow
      | some limit => rejectIf (nValueOut > limit) (dos 100 REJECT_INVALID "bad-cb-amount")

/-- `ConnectBlock` with `fJustCheck` off, for the entry under `hash`: the new
view, and the undo data unless the block is the genesis block. -/
def connectBlock (env : Environment) (scripts : ScriptInterpreter) (index : BlockMap)
    (nAdjustedTime : Int) (block : CBlock) (hash : Uint256) (view : UtxoView) :
    Check (UtxoView × Option (List CTxUndo)) := do
  checkBlock env nAdjustedTime block true true
  match index[hash]? with
  | none => .error .assertion
  | some pindex =>
      if pindex.pprev.getD Uint256.null ≠ view.hashBestBlock then .error .assertion
      else if env.hashes.getHash block.toCBlockHeader = env.consensus.hashGenesisBlock then
        .ok ({ view with hashBestBlock := hash }, none)
      else
        match pindex.pprev.bind fun prev => index[prev]? with
        | none => .error .assertion
        | some pindexPrev => do
            rejectIf (decide (pindex.nTime.toNat > 1349049600) && overwritesTransaction view block)
              (dos 100 REJECT_INVALID "bad-txns-BIP30")
            let rules := connectRules env scripts index block pindex (pindexPrev.nHeight + 1)
            let connected ← connectTransactions rules true view 0 0 block.vtx
            checkCoinbaseValue env block pindex.nHeight connected.nFees
            rejectIf (!connected.scriptsPass) (dos 100 0 "")
            pure ({ connected.view with hashBestBlock := hash }, some connected.vtxundo)

/-- The restoration of the inputs of one transaction in `DisconnectBlock`, last
input first. -/
def restoreInputs (view : UtxoView) : List CTxIn → CTxUndo → Bool × UtxoView
  | txin :: vin, undo :: undos =>
      let (fClean, view) := restoreInputs view vin undos
      let (inputClean, view) := view.applyTxInUndo undo txin.prevout
      (fClean && inputClean, view)
  | _, _ => (true, view)

/-- The removal of the outputs of one transaction in `DisconnectBlock`, and
whether they are the ones that the block added. -/
def removeOutputs (view : UtxoView) (tx : CTransaction) (nHeight : Nat) : Bool × UtxoView :=
  let outs := ((view.coins tx.hash).getD CCoins.empty).clearUnspendable
  let outsBlock := CCoins.fromTx tx nHeight
  let outs := if outsBlock.nVersion < 0 then { outs with nVersion := outsBlock.nVersion } else outs
  (outs.equals outsBlock, view.modifyCoins tx.hash fun _ => CCoins.empty)

/-- The loop of `DisconnectBlock` over all transactions but the first, the last
transaction first. -/
def disconnectTransactions (view : UtxoView) (nHeight : Nat) :
    List CTransaction → List CTxUndo → Check (Bool × UtxoView)
  | tx :: rest, txundo :: undos => do
      let (fClean, view) ← disconnectTransactions view nHeight rest undos
      let (outputsClean, view) := removeOutputs view tx nHeight
      if txundo.length ≠ tx.vin.length then .error .error
      else
        let (inputsClean, view) := restoreInputs view tx.vin txundo
        pure (fClean && outputsClean && inputsClean, view)
  | _, _ => .ok (true, view)

/-- `DisconnectBlock` of the entry under `hash`, with the undo data of its
block: `fClean` and the new view. -/
def disconnectBlock (index : BlockMap) (block : CBlock) (vtxundo : List CTxUndo) (hash : Uint256)
    (view : UtxoView) : Check (Bool × UtxoView) :=
  match index[hash]?, block.vtx with
  | some pindex, coinbase :: rest =>
      match pindex.pprev with
      | none => .error .assertion
      | some prev =>
          if hash ≠ view.hashBestBlock then .error .assertion
          else if vtxundo.length + 1 ≠ block.vtx.length then .error .error
          else do
            let (fClean, view) ← disconnectTransactions view pindex.nHeight rest vtxundo
            let (coinbaseClean, view) := removeOutputs view coinbase pindex.nHeight
            pure (fClean && coinbaseClean, { view with hashBestBlock := prev })
  | _, _ => .error .assertion

section Spec

variable {env : Environment} {scripts : ScriptInterpreter} {index : BlockMap}
  {nAdjustedTime : Int} {block : CBlock} {hash : Uint256} {rules : ConnectRules}
  {view after : UtxoView} {rest : List CTransaction} {tx : CTransaction} {nFees : Int}
  {nSigOps : Nat} {connected : Connected} {first : Bool} {vtxundo : Option (List CTxUndo)}

theorem connectTransactions_cons
    (passed : connectTransactions rules first view nFees nSigOps (tx :: rest) = .ok connected) :
    ∃ nextFees nextSigOps after txundo next,
      checkConnect rules view nFees nSigOps tx = .ok (nextFees, nextSigOps) ∧
      view.updateCoins tx rules.nHeight = .ok (after, txundo) ∧
      connectTransactions rules false after nextFees nextSigOps rest = .ok next ∧
      connected = { next with
        vtxundo := if first then next.vtxundo else txundo :: next.vtxundo
        scriptsPass := queuedChecksPass rules view tx && next.scriptsPass } := by
  obtain ⟨⟨nextFees, nextSigOps⟩, checked, passed⟩ := check_bind_eq_ok.mp passed
  obtain ⟨⟨after, txundo⟩, updated, passed⟩ := check_bind_eq_ok.mp passed
  obtain ⟨next, ran, finished⟩ := check_bind_eq_ok.mp passed
  cases finished
  exact ⟨nextFees, nextSigOps, after, txundo, next, checked, updated, ran, rfl⟩

/-- What a call of `ConnectBlock` that succeeds has found and done. -/
theorem connectBlock_spec
    (passed : connectBlock env scripts index nAdjustedTime block hash view = .ok (after, vtxundo)) :
    checkBlock env nAdjustedTime block true true = .ok () ∧
      ∃ pindex, index[hash]? = some pindex ∧ pindex.pprev.getD Uint256.null = view.hashBestBlock ∧
        ((env.hashes.getHash block.toCBlockHeader = env.consensus.hashGenesisBlock ∧
            after = { view with hashBestBlock := hash } ∧ vtxundo = none) ∨
          ∃ prev pindexPrev connected, pindex.pprev = some prev ∧
            index[prev]? = some pindexPrev ∧
            connectTransactions
              (connectRules env scripts index block pindex (pindexPrev.nHeight + 1))
              true view 0 0 block.vtx = .ok connected ∧
            checkCoinbaseValue env block pindex.nHeight connected.nFees = .ok () ∧
            after = { connected.view with hashBestBlock := hash } ∧
            vtxundo = some connected.vtxundo) := by
  obtain ⟨checked, passed⟩ := check_seq_eq_ok.mp passed
  refine ⟨checked, ?_⟩
  split at passed
  · contradiction
  · rename_i pindex found
    refine ⟨pindex, found, ?_⟩
    split at passed
    · contradiction
    · rename_i best
      refine ⟨not_not.mp best, ?_⟩
      split at passed
      · rename_i genesis
        cases passed
        exact Or.inl ⟨genesis, rfl, rfl⟩
      · split at passed
        · contradiction
        · rename_i pindexPrev parent
          obtain ⟨prev, pprevEq, prevFound⟩ := Option.bind_eq_some_iff.mp parent
          obtain ⟨_, passed⟩ := check_seq_eq_ok.mp passed
          obtain ⟨connected, ran, passed⟩ := check_bind_eq_ok.mp passed
          obtain ⟨coinbase, passed⟩ := check_seq_eq_ok.mp passed
          obtain ⟨_, passed⟩ := check_seq_eq_ok.mp passed
          cases passed
          exact Or.inr ⟨prev, pindexPrev, connected, pprevEq, prevFound, ran, coinbase, rfl, rfl⟩

end Spec

end Lycancoin

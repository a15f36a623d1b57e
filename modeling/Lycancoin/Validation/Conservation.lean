import Lycancoin.Chain.HeaderRun
import Lycancoin.Coins.Compressor
import Lycancoin.Coins.Supply
import Lycancoin.Validation.Undo

namespace Lycancoin

section Safe

variable {α β : Type} {check : Check α} {next : α → Check β} {middle : α → Prop} {post : β → Prop}

/-- A check that does not overflow, and what its result satisfies. -/
def Safe (check : Check α) (post : α → Prop) : Prop :=
  match check with
  | .ok value => post value
  | .error failure => failure ≠ .overflow

theorem Safe.bind (first : Safe check middle)
    (rest : ∀ value, check = .ok value → middle value → Safe (next value) post) :
    Safe (check >>= next) post := by
  cases check with
  | error failure => exact first
  | ok value => exact rest value rfl first

theorem Safe.mono {weaker : α → Prop} (safe : Safe check middle)
    (implies : ∀ value, check = .ok value → middle value → weaker value) : Safe check weaker := by
  cases check with
  | error failure => exact safe
  | ok value => exact implies value rfl safe

theorem Safe.ne_overflow (safe : Safe check middle) : check ≠ .error .overflow := by
  rintro rfl
  exact safe rfl

theorem Safe.rejectIf {condition : Bool} {failure : Failure} (other : failure ≠ .overflow)
    {next : Unit → Check β} (rest : condition = false → Safe (next ()) post) :
    Safe (Lycancoin.rejectIf condition failure >>= next) post := by
  cases condition with
  | true => exact other
  | false => exact rest rfl

theorem Safe.rejectIf_last {condition : Bool} {failure : Failure} (other : failure ≠ .overflow) :
    Safe (Lycancoin.rejectIf condition failure) fun _ => condition = false := by
  cases condition with
  | true => exact other
  | false => exact rfl

theorem Safe.addAmount {total nValue : Int} {next : Int → Check β}
    (fits : InInt64 (total + nValue)) (rest : Safe (next (total + nValue)) post) :
    Safe (Lycancoin.addAmount total nValue >>= next) post := by
  rw [addAmount_of_inInt64 fits]
  exact rest

@[simp] theorem dos_ne_overflow (level chRejectCode : Nat) (strRejectReason : String) :
    dos level chRejectCode strRejectReason ≠ .overflow := by simp [dos]

@[simp] theorem dosCorruption_ne_overflow (level chRejectCode : Nat) (strRejectReason : String) :
    dosCorruption level chRejectCode strRejectReason ≠ .overflow := by simp [dosCorruption]

@[simp] theorem invalid_ne_overflow (chRejectCode : Nat) (strRejectReason : String) :
    invalid chRejectCode strRejectReason ≠ .overflow := by simp [invalid]

end Safe

section Checks

variable {total : Int} {outputs : List CTxOut} {tx : CTransaction}

theorem safe_checkOutputValues (inRange : 0 ≤ total ∧ total ≤ MAX_MONEY) :
    Safe (checkOutputValues total outputs) fun _ => True := by
  induction outputs generalizing total with
  | nil => trivial
  | cons txout rest ih =>
      refine Safe.rejectIf (by simp) fun notNegative => ?_
      refine Safe.rejectIf (by simp) fun notLarge => ?_
      rw [decide_eq_false_iff_not] at notNegative notLarge
      have limit : MAX_MONEY = 495000000000000000 := rfl
      refine Safe.addAmount (by unfold InInt64; omega) ?_
      refine Safe.rejectIf (by simp) fun inRange => ?_
      rw [Bool.not_eq_false', moneyRange_iff] at inRange
      exact ih inRange

theorem safe_checkTransaction (tx : CTransaction) : Safe (checkTransaction tx) fun _ => True := by
  refine Safe.rejectIf (by simp) fun _ => ?_
  refine Safe.rejectIf (by simp) fun _ => ?_
  refine Safe.rejectIf (by simp) fun _ => ?_
  refine Safe.bind (safe_checkOutputValues (by decide)) fun _ _ _ => ?_
  refine Safe.rejectIf (by simp) fun _ => ?_
  split
  · exact (Safe.rejectIf_last (by simp)).mono fun _ _ _ => trivial
  · exact (Safe.rejectIf_last (by simp)).mono fun _ _ _ => trivial

theorem safe_checkTransactions (txs : List CTransaction) :
    Safe (checkTransactions txs) fun _ => True := by
  induction txs with
  | nil => trivial
  | cons tx rest ih => exact Safe.bind (safe_checkTransaction tx) fun _ _ _ => ih

theorem safe_checkBlockTransactions (block : CBlock) :
    Safe (checkBlockTransactions block) fun _ => True := by
  refine Safe.rejectIf (by simp) fun _ => ?_
  refine Safe.rejectIf (by simp) fun _ => ?_
  refine Safe.rejectIf (by simp) fun _ => ?_
  refine Safe.bind (safe_checkTransactions block.vtx) fun _ _ _ => ?_
  exact (Safe.rejectIf_last (by simp)).mono fun _ _ _ => trivial

theorem safe_checkMerkleRoot (env : Environment) (block : CBlock) :
    Safe (checkMerkleRoot env block) fun _ => True := by
  refine Safe.rejectIf (by simp) fun _ => ?_
  exact (Safe.rejectIf_last (by simp)).mono fun _ _ _ => trivial

theorem safe_checkBlock (env : Environment) (nAdjustedTime : Int) (block : CBlock) :
    Safe (checkBlock env nAdjustedTime block true true) fun _ => BlockSound block := by
  have safe : Safe (checkBlock env nAdjustedTime block true true) fun _ => True := by
    have header : Safe (checkBlockHeader env nAdjustedTime block.toCBlockHeader true)
        fun _ => True := by
      refine Safe.rejectIf (by simp) fun _ => ?_
      exact (Safe.rejectIf_last (by simp)).mono fun _ _ _ => trivial
    refine Safe.bind header fun _ _ _ => ?_
    refine Safe.bind (safe_checkMerkleRoot env block) fun _ _ _ => ?_
    exact safe_checkBlockTransactions block
  exact safe.mono fun _ passed _ => checkBlock_spec passed

end Checks

section Inputs

variable {view : UtxoView} {tx : CTransaction} {rules : ConnectRules} {vin : List CTxIn}
  {total nFees limit : Int} {nSigOps nSpendHeight : Nat}

theorem UtxoView.inputValues_cons (view : UtxoView) (txin : CTxIn) (rest : List CTxIn) :
    view.inputValues (txin :: rest) =
      view.inputValue txin.prevout + view.inputValues rest := by
  simp [UtxoView.inputValues]

theorem UtxoView.inputValue_of_output {place : COutPoint} {txout : CTxOut}
    (available : view.output place = some txout) : view.inputValue place = txout.nValue := by
  rw [UtxoView.inputValue, available, Option.elim_some]

theorem haveInputs_iff (notCoinBase : tx.isCoinBase = false) :
    view.haveInputs tx = true ↔
      ∀ place ∈ tx.vin.map CTxIn.prevout, (view.output place).isSome := by
  rw [UtxoView.haveInputs, notCoinBase, Bool.false_or, List.all_eq_true, List.forall_mem_map]

theorem safe_sumInputValues (sound : view.Sound) (nonnegative : 0 ≤ total)
    (bounded : total + view.inputValues vin < 2 ^ 63) :
    Safe (view.sumInputValues total vin) fun value => value = total + view.inputValues vin := by
  induction vin generalizing total with
  | nil => simp [UtxoView.sumInputValues, Safe, UtxoView.inputValues]
  | cons txin rest ih =>
      have own := UtxoView.inputValue_nonneg sound txin.prevout
      have others := UtxoView.inputValues_nonneg sound rest
      rw [UtxoView.inputValues_cons] at bounded ⊢
      unfold UtxoView.sumInputValues
      split
      · simp [Safe]
      · rename_i txout available
        rw [UtxoView.inputValue_of_output available] at own bounded ⊢
        refine Safe.addAmount (by unfold InInt64; omega) ?_
        refine (ih (by omega) (by omega)).mono fun value _ sum => ?_
        omega

theorem safe_checkInputValues (sound : view.Sound) (nonnegative : 0 ≤ total)
    (bounded : total + view.inputValues vin < 2 ^ 63) :
    Safe (checkInputValues view nSpendHeight total vin)
      fun value => value = total + view.inputValues vin := by
  induction vin generalizing total with
  | nil => simp [checkInputValues, Safe, UtxoView.inputValues]
  | cons txin rest ih =>
      have own := UtxoView.inputValue_nonneg sound txin.prevout
      have others := UtxoView.inputValues_nonneg sound rest
      rw [UtxoView.inputValues_cons] at bounded ⊢
      unfold checkInputValues
      split
      · rename_i coins txout _ available
        rw [UtxoView.inputValue_of_output available] at own bounded ⊢
        refine Safe.rejectIf (by simp) fun _ => ?_
        refine Safe.addAmount (by unfold InInt64; omega) ?_
        refine Safe.rejectIf (by simp) fun _ => ?_
        refine (ih (by omega) (by omega)).mono fun value _ sum => ?_
        omega
      · simp [Safe]

theorem safe_getValueOut (checked : TransactionSound tx) :
    Safe tx.getValueOut fun value => value = outputValues tx.vout := by
  rw [checked.getValueOut]
  exact rfl

/-- What the view and the running fees of a block hold together. -/
structure Balance (limit : Int) (view : UtxoView) (nFees : Int) : Prop where
  sound : view.Sound
  fees : 0 ≤ nFees
  bounded : view.total + nFees ≤ limit

theorem Balance.inputs_le (balance : Balance limit view nFees) (checked : TransactionSound tx)
    (available : ∀ place ∈ tx.vin.map CTxIn.prevout, (view.output place).isSome) :
    0 ≤ view.inputValues tx.vin ∧ view.inputValues tx.vin + nFees ≤ limit := by
  have total := UtxoView.inputValues_le_total balance.sound checked.distinct available
  have bounded := balance.bounded
  exact ⟨UtxoView.inputValues_nonneg balance.sound tx.vin, by omega⟩

theorem safe_checkInputAmounts (balance : Balance limit view nFees)
    (small : limit ≤ 2 * MAX_MONEY) (checked : TransactionSound tx)
    (notCoinBase : tx.isCoinBase = false) :
    Safe (checkInputAmounts view nSpendHeight tx)
      fun _ => outputValues tx.vout ≤ view.inputValues tx.vin := by
  refine Safe.rejectIf (by simp) fun available => ?_
  rw [Bool.not_eq_false', haveInputs_iff notCoinBase] at available
  obtain ⟨nonnegative, bounded⟩ := balance.inputs_le checked available
  have fees := balance.fees
  have outputs := checked.total
  have money : MAX_MONEY = 495000000000000000 := rfl
  refine Safe.bind (safe_checkInputValues balance.sound (Int.le_refl 0) (by omega)) ?_
  rintro nValueIn - rfl
  refine Safe.bind (safe_getValueOut checked) ?_
  rintro nValueOut - rfl
  refine Safe.rejectIf (by simp) fun covered => ?_
  rw [decide_eq_false_iff_not] at covered
  refine Safe.addAmount (by unfold InInt64; omega) ?_
  refine Safe.rejectIf (by simp) fun _ => ?_
  refine Safe.addAmount (by unfold InInt64; omega) ?_
  refine (Safe.rejectIf_last (by simp)).mono fun _ _ _ => ?_
  omega

theorem safe_checkScript (rules : ConnectRules) (view : UtxoView) (tx : CTransaction) (nIn : Nat)
    (txin : CTxIn) : Safe (checkScript rules view tx nIn txin) fun _ => True := by
  unfold checkScript
  split
  · trivial
  · dsimp only
    split
    · simp [Safe]
    · simp [Safe]

theorem safe_checkScripts (rules : ConnectRules) (view : UtxoView) (tx : CTransaction)
    (inputs : List (CTxIn × Nat)) : Safe (checkScripts rules view tx inputs) fun _ => True := by
  induction inputs with
  | nil => trivial
  | cons input rest ih => exact Safe.bind (safe_checkScript _ _ _ _ _) fun _ _ _ => ih

theorem safe_checkInputs (balance : Balance limit view nFees)
    (small : limit ≤ 2 * MAX_MONEY) (checked : TransactionSound tx)
    (notCoinBase : tx.isCoinBase = false) :
    Safe (checkInputs rules view tx)
      fun _ => outputValues tx.vout ≤ view.inputValues tx.vin := by
  refine Safe.bind (safe_checkInputAmounts balance small checked notCoinBase) fun _ _ covered => ?_
  split
  · exact (safe_checkScripts _ _ _ _).mono fun _ _ _ => covered
  · exact covered

/-- The checks of a transaction that is not the coinbase do not overflow, and
its fee is what its inputs bring beyond its outputs. -/
theorem safe_checkConnect (balance : Balance limit view nFees)
    (small : limit ≤ 2 * MAX_MONEY) (checked : TransactionSound tx)
    (notCoinBase : tx.isCoinBase = false) :
    Safe (checkConnect rules view nFees nSigOps tx) fun result =>
      result.1 = nFees + (view.inputValues tx.vin - outputValues tx.vout) ∧
      outputValues tx.vout ≤ view.inputValues tx.vin := by
  unfold checkConnect
  simp only [notCoinBase, Bool.false_eq_true, if_false]
  refine Safe.rejectIf (by simp) fun _ => ?_
  refine Safe.rejectIf (by simp) fun available => ?_
  rw [Bool.not_eq_false', haveInputs_iff notCoinBase] at available
  refine Safe.rejectIf (by simp) fun _ => ?_
  obtain ⟨nonnegative, bounded⟩ := balance.inputs_le checked available
  have fees := balance.fees
  have outputs := checked.total
  have money : MAX_MONEY = 495000000000000000 := rfl
  have valueIn : Safe (view.getValueIn tx) fun value => value = view.inputValues tx.vin := by
    rw [UtxoView.getValueIn, notCoinBase]
    refine (safe_sumInputValues balance.sound (Int.le_refl 0) (by omega)).mono ?_
    intro value _ sum
    omega
  refine Safe.bind valueIn ?_
  rintro nValueIn - rfl
  refine Safe.bind (safe_getValueOut checked) ?_
  rintro nValueOut - rfl
  refine Safe.addAmount (by unfold InInt64; omega) ?_
  refine Safe.addAmount (by unfold InInt64; omega) ?_
  refine Safe.bind (safe_checkInputs balance small checked notCoinBase) fun _ _ covered => ?_
  exact ⟨by dsimp only; omega, covered⟩

end Inputs

section Connect

variable {view : UtxoView} {tx : CTransaction} {rules : ConnectRules} {nFees limit : Int}
  {nSigOps : Nat}

theorem safe_spendInputs (view : UtxoView) (vin : List CTxIn) :
    Safe (view.spendInputs vin) fun _ => True := by
  induction vin generalizing view with
  | nil => trivial
  | cons txin rest ih =>
      have own : Safe (view.spendInput txin.prevout) fun _ => True := by
        unfold UtxoView.spendInput
        split
        · simp [Safe]
        · trivial
      refine Safe.bind own fun result _ _ => ?_
      exact Safe.bind (ih result.1) fun _ _ _ => trivial

theorem safe_updateCoins (balance : Balance limit view nFees) (checked : TransactionSound tx)
    (notCoinBase : tx.isCoinBase = false) (above : 0 < rules.nHeight)
    (covered : outputValues tx.vout ≤ view.inputValues tx.vin) :
    Safe (view.updateCoins tx rules.nHeight) fun result =>
      Balance limit result.1
        (nFees + (view.inputValues tx.vin - outputValues tx.vout)) := by
  rw [UtxoView.updateCoins, notCoinBase]
  refine Safe.bind (safe_spendInputs view tx.vin) fun result spent _ => ?_
  obtain ⟨after, undos⟩ := result
  have afterSound := (UtxoView.spendInputs_spec balance.sound spent).sound
  have taken := UtxoView.total_spendInputs balance.sound checked.distinct spent
  have given := UtxoView.total_addOutputs_le afterSound checked rules.nHeight
  have fees := balance.fees
  have bounded := balance.bounded
  refine ⟨UtxoView.sound_addOutputs afterSound checked (Int.natCast_pos.mpr above), ?_, ?_⟩
  · omega
  · dsimp only
    omega

theorem safe_connectTransactions {txs : List CTransaction} (balance : Balance limit view nFees)
    (small : limit ≤ 2 * MAX_MONEY) (checked : ∀ tx ∈ txs, TransactionSound tx)
    (notCoinBase : ∀ tx ∈ txs, tx.isCoinBase = false) (above : 0 < rules.nHeight) :
    Safe (connectTransactions rules false view nFees nSigOps txs) fun connected =>
      Balance limit connected.view connected.nFees := by
  induction txs generalizing view nFees nSigOps with
  | nil => exact balance
  | cons tx rest ih =>
      have txChecked := checked tx (by simp)
      have txNotCoinBase := notCoinBase tx (by simp)
      refine Safe.bind (safe_checkConnect balance small txChecked txNotCoinBase) ?_
      rintro ⟨nextFees, nextSigOps⟩ - ⟨rfl, covered⟩
      refine Safe.bind (safe_updateCoins balance txChecked txNotCoinBase above covered) ?_
      rintro ⟨after, txundo⟩ - afterBalance
      refine Safe.bind (ih afterBalance (fun other member => checked other (by simp [member]))
        (fun other member => notCoinBase other (by simp [member]))) ?_
      rintro connected - connectedBalance
      exact connectedBalance

/-- The coinbase comes first, before the fees that it may take are known. -/
theorem safe_connectTransactions_coinBase {coinbase : CTransaction} {txs : List CTransaction}
    (sound : view.Sound) (small : view.total ≤ MAX_MONEY)
    (checked : ∀ tx ∈ coinbase :: txs, TransactionSound tx)
    (isCoinBase : coinbase.isCoinBase = true)
    (notCoinBase : ∀ tx ∈ txs, tx.isCoinBase = false) (above : 0 < rules.nHeight) :
    Safe (connectTransactions rules true view 0 nSigOps (coinbase :: txs)) fun connected =>
      Balance (view.total + outputValues coinbase.vout) connected.view connected.nFees := by
  have own := checked coinbase (by simp)
  have outputs := own.total
  have first : Safe (checkConnect rules view 0 nSigOps coinbase) fun result => result.1 = 0 := by
    unfold checkConnect
    simp only [isCoinBase, if_true]
    exact Safe.rejectIf (by simp) fun _ => rfl
  refine Safe.bind first ?_
  rintro ⟨nFees, nextSigOps⟩ - rfl
  have given := UtxoView.total_addOutputs_le sound own rules.nHeight
  have updated : Safe (view.updateCoins coinbase rules.nHeight) fun result =>
      Balance (view.total + outputValues coinbase.vout) result.1 0 := by
    rw [UtxoView.updateCoins, isCoinBase]
    exact ⟨UtxoView.sound_addOutputs sound own (Int.natCast_pos.mpr above), Int.le_refl 0, by
      dsimp only
      omega⟩
  refine Safe.bind updated ?_
  rintro ⟨after, txundo⟩ - start
  refine Safe.bind (safe_connectTransactions start (by omega)
    (fun tx member => checked tx (by simp [member])) notCoinBase above) ?_
  rintro connected - balance
  exact balance

/-- What a block may add: the view stays sound, and its total grows by the
subsidy at most. -/
theorem safe_connectBlock {env : Environment} {scripts : ScriptInterpreter} {index : BlockMap}
    {nAdjustedTime : Int} {block : CBlock} {hash : Uint256} {nSubsidy : Nat → Nat}
    (indexed : PredecessorsIndexed index) (sound : view.Sound) (small : view.total ≤ MAX_MONEY)
    (subsidy : ∀ pindex, index[hash]? = some pindex → ∀ fees : Int,
      getBlockValue env.consensus pindex.nHeight fees = int64 (nSubsidy pindex.nHeight + fees))
    (subsidySmall : ∀ height, (nSubsidy height : Int) ≤ MAX_MONEY) :
    Safe (connectBlock env scripts index nAdjustedTime block hash view) fun result =>
      result.1.Sound ∧ ∃ pindex, index[hash]? = some pindex ∧
        result.1.total ≤ view.total + nSubsidy pindex.nHeight := by
  refine Safe.bind (safe_checkBlock env nAdjustedTime block) fun _ _ blockSound => ?_
  split
  · simp [Safe]
  · rename_i pindex found
    split
    · simp [Safe]
    · split
      · exact ⟨sound, pindex, found, by simp [UtxoView.total]⟩
      · split
        · simp [Safe]
        · rename_i pindexPrev parent
          obtain ⟨prev, pprevEq, _⟩ := Option.bind_eq_some_iff.mp parent
          have above := indexed.height_pos found pprevEq
          obtain ⟨coinbase, txs, vtxEq, isCoinBase, notCoinBase⟩ := blockSound.coinbase
          have transactions := blockSound.transactions
          rw [vtxEq] at transactions
          have own := transactions coinbase (by simp)
          have outputs := own.total
          have money : MAX_MONEY = 495000000000000000 := rfl
          have reward := subsidySmall pindex.nHeight
          refine Safe.rejectIf (by simp) fun _ => ?_
          rw [vtxEq]
          refine Safe.bind (safe_connectTransactions_coinBase sound small transactions isCoinBase
            notCoinBase above) ?_
          rintro connected - ⟨connectedSound, fees, bounded⟩
          have left := UtxoView.total_nonneg connectedSound
          have started := UtxoView.total_nonneg sound
          have paid : Safe (checkCoinbaseValue env block pindex.nHeight connected.nFees) fun _ =>
              outputValues coinbase.vout ≤ nSubsidy pindex.nHeight + connected.nFees := by
            unfold checkCoinbaseValue
            simp only [vtxEq]
            refine Safe.bind (safe_getValueOut own) ?_
            rintro nValueOut - rfl
            rw [subsidy pindex found, int64_of_inInt64 (by unfold InInt64; omega)]
            refine (Safe.rejectIf_last (by simp)).mono fun _ _ within => ?_
            rw [decide_eq_false_iff_not] at within
            omega
          refine Safe.bind paid fun _ _ within => ?_
          refine Safe.rejectIf (by simp) fun _ => ?_
          refine ⟨connectedSound, pindex, found, ?_⟩
          have sameTotal : ({ connected.view with hashBestBlock := hash } : UtxoView).total =
            connected.view.total := rfl
          dsimp only
          rw [sameTotal]
          omega

end Connect

/-- A block that `ConnectTip` connects, its entry, and the adjusted time of the call. -/
structure ConnectCall where
  nAdjustedTime : Int
  block : CBlock
  hash : Uint256

def connectTip (env : Environment) (scripts : ScriptInterpreter) (index : BlockMap)
    (view : UtxoView) (call : ConnectCall) : Check UtxoView :=
  match index[call.hash]? with
  | none => .error .assertion
  | some pindexNew =>
      if pindexNew.pprev ≠ some view.hashBestBlock then .error .assertion
      else do
        let (view, _) ←
          connectBlock env scripts index call.nAdjustedTime call.block call.hash view
        pure view

def connectChain (env : Environment) (scripts : ScriptInterpreter) (index : BlockMap) :
    UtxoView → List ConnectCall → Check UtxoView
  | view, [] => .ok view
  | view, call :: rest => do
      let view ← connectTip env scripts index view call
      connectChain env scripts index view rest

/-- The view that the genesis block leaves, which adds no coins. -/
def UtxoView.genesis (env : Environment) : UtxoView :=
  { coins := fun _ => none, hashBestBlock := env.consensus.hashGenesisBlock }

/-- The sum of `GetBlockValue(nHeight, 0)` over the connected blocks. -/
def connectedSubsidy (env : Environment) (index : BlockMap) : List ConnectCall → Option Int
  | [] => some 0
  | call :: rest => do
      let pindex ← index[call.hash]?
      let nSubsidy ← getBlockValue env.consensus pindex.nHeight 0
      let others ← connectedSubsidy env index rest
      pure (nSubsidy + others)

section Chain

variable {env : Environment} {scripts : ScriptInterpreter} {index : BlockMap}
  {view : UtxoView} {interval height : Nat} {call : ConnectCall} {calls : List ConnectCall}

/-- What the view of a chain of `height` blocks on genesis satisfies. -/
structure Conserved (index : BlockMap) (interval : Nat) (view : UtxoView) (height : Nat) :
    Prop where
  sound : view.Sound
  tip : ∃ entry, index[view.hashBestBlock]? = some entry ∧ entry.nHeight = height
  bounded : view.total ≤ (∑ h ∈ Finset.range height, subsidyAt interval (h + 1) : Nat)

/-- The facts about the network and the index that a chain needs. -/
structure ChainContext (env : Environment) (index : BlockMap) (interval : Nat) : Prop where
  isInterval : env.consensus.nSubsidyHalvingInterval = interval
  positive : 0 < interval
  small : interval ≤ 800000
  indexed : PredecessorsIndexed index
  below : ∀ (hash : Uint256) (entry : CBlockIndex), index[hash]? = some entry →
    entry.nHeight < 64 * interval

theorem sum_subsidyAt_le (positive : 0 < interval) (small : interval ≤ 800000) (height : Nat) :
    ((∑ h ∈ Finset.range height, subsidyAt interval (h + 1) : Nat) : Int) ≤ MAX_MONEY := by
  have all := Data.sum_halved_le 297000000000 positive (height + 1)
  rw [Finset.sum_range_succ'] at all
  have later : ∑ h ∈ Finset.range height, subsidyAt interval (h + 1) ≤ 495000000000000000 := by
    refine (Nat.le_add_right _ _).trans (all.trans ?_)
    omega
  change ((_ : Nat) : Int) ≤ 495000000000000000
  exact_mod_cast later

theorem ChainContext.safe_connectBlock (context : ChainContext env index interval)
    (conserved : Conserved index interval view height) (scripts : ScriptInterpreter)
    (call : ConnectCall) :
    Safe (connectBlock env scripts index call.nAdjustedTime call.block call.hash view)
      fun result => result.1.Sound ∧ ∃ pindex, index[call.hash]? = some pindex ∧
        result.1.total ≤ view.total + subsidyAt interval pindex.nHeight := by
  have total := conserved.bounded.trans
    (sum_subsidyAt_le context.positive context.small height)
  apply Lycancoin.safe_connectBlock context.indexed conserved.sound total
  · intro pindex found fees
    exact getBlockValue_eq context.isInterval context.positive
      (context.below call.hash pindex found) fees
  · intro height
    have reward := subsidyAt_le interval height
    have money : MAX_MONEY = 495000000000000000 := rfl
    omega

theorem connectBlock_hashBestBlock {nAdjustedTime : Int} {block : CBlock} {hash : Uint256}
    {after : UtxoView} {vtxundo : Option (List CTxUndo)}
    (passed : connectBlock env scripts index nAdjustedTime block hash view = .ok (after, vtxundo)) :
    after.hashBestBlock = hash := by
  obtain ⟨_, _, _, _, ⟨_, rfl, _⟩ | ⟨_, _, _, _, _, _, _, rfl, _⟩⟩ := connectBlock_spec passed
  · rfl
  · rfl

theorem Conserved.connectTip {after : UtxoView} (conserved : Conserved index interval view height)
    (context : ChainContext env index interval)
    (passed : Lycancoin.connectTip env scripts index view call = .ok after) :
    Conserved index interval after (height + 1) ∧
      ∃ pindex, index[call.hash]? = some pindex ∧ pindex.nHeight = height + 1 := by
  unfold Lycancoin.connectTip at passed
  split at passed
  · contradiction
  · rename_i pindexNew found
    split at passed
    · contradiction
    · rename_i onTip
      obtain ⟨⟨next, vtxundo⟩, connected, finished⟩ := check_bind_eq_ok.mp passed
      cases finished
      have safe := context.safe_connectBlock conserved scripts call
      rw [connected] at safe
      obtain ⟨sound, pindex, found', bounded⟩ := safe
      cases found.symm.trans found'
      obtain ⟨parent, parentFound, parentHeight⟩ := conserved.tip
      have predecessor := context.indexed call.hash pindexNew found
      rw [not_not.mp onTip] at predecessor
      obtain ⟨other, otherFound, above⟩ := predecessor
      cases parentFound.symm.trans otherFound
      have nHeight : pindexNew.nHeight = height + 1 := by omega
      refine ⟨⟨sound, ⟨pindexNew, ?_, nHeight⟩, ?_⟩, pindexNew, found, nHeight⟩
      · rw [connectBlock_hashBestBlock connected, found]
      · rw [nHeight] at bounded
        rw [Finset.sum_range_succ]
        have before := conserved.bounded
        dsimp only at bounded
        push_cast at before ⊢
        omega

theorem Conserved.connectChain {after : UtxoView}
    (conserved : Conserved index interval view height) (context : ChainContext env index interval)
    (passed : Lycancoin.connectChain env scripts index view calls = .ok after) :
    Conserved index interval after (height + calls.length) ∧
      ∃ emitted, connectedSubsidy env index calls = some emitted ∧
        (∑ h ∈ Finset.range height, subsidyAt interval (h + 1) : Nat) + emitted =
          (∑ h ∈ Finset.range (height + calls.length), subsidyAt interval (h + 1) : Nat) := by
  induction calls generalizing view height with
  | nil =>
      cases passed
      exact ⟨conserved, 0, rfl, by simp⟩
  | cons call rest ih =>
      obtain ⟨next, first, others⟩ := check_bind_eq_ok.mp passed
      obtain ⟨nextConserved, pindex, found, nHeight⟩ := conserved.connectTip context first
      obtain ⟨afterConserved, emitted, paid, sum⟩ := ih nextConserved others
      have length : height + 1 + rest.length = height + (call :: rest).length := by
        simp only [List.length_cons]
        omega
      rw [length] at afterConserved sum
      refine ⟨afterConserved, subsidyAt interval (height + 1) + emitted, ?_, ?_⟩
      · have below := context.below call.hash pindex found
        have reward := getBlockValue_zero_fees context.isInterval context.positive below
        rw [nHeight] at reward
        simp only [connectedSubsidy, found, reward, paid, nHeight, Option.bind_eq_bind,
          Option.bind_some]
        rfl
      · rw [Finset.sum_range_succ] at sum
        push_cast at sum ⊢
        omega

end Chain

/-- On every chain that is connected from genesis the unspent outputs hold no
more than the subsidies of its blocks, and no sum that `ConnectBlock` makes on
top of it, whether it succeeds or not, leaves the 64-bit range. -/
theorem connectChain_conserves_money (env : Environment) (scripts : ScriptInterpreter)
    (headers : List HeaderCall) (calls : List ConnectCall) (view : UtxoView)
    (below : ∀ (hash : Uint256) (entry : CBlockIndex),
      (HeaderIndex.run env headers).mapBlockIndex[hash]? = some entry →
      (entry.nHeight : Int) < 64 * env.consensus.nSubsidyHalvingInterval)
    (connected : connectChain env scripts (HeaderIndex.run env headers).mapBlockIndex
      (UtxoView.genesis env) calls = .ok view) :
    (∃ emitted, connectedSubsidy env (HeaderIndex.run env headers).mapBlockIndex calls =
        some emitted ∧ view.total ≤ emitted) ∧
      ∀ call : ConnectCall,
        connectBlock env scripts (HeaderIndex.run env headers).mapBlockIndex call.nAdjustedTime
          call.block call.hash view ≠ .error .overflow := by
  obtain ⟨interval, isInterval, positive, small⟩ := Network.interval_cases env.hashes env.network
  have context : ChainContext env (HeaderIndex.run env headers).mapBlockIndex interval := by
    refine ⟨isInterval, positive, small, (indexSound_run env headers).1.indexed, ?_⟩
    intro hash entry found
    have limit := below hash entry found
    have same : env.consensus.nSubsidyHalvingInterval = interval := isInterval
    rw [same] at limit
    exact_mod_cast limit
  have start : Conserved (HeaderIndex.run env headers).mapBlockIndex interval
      (UtxoView.genesis env) 0 := by
    refine ⟨?_, ⟨_, genesis_entry_run env headers, ?_⟩, ?_⟩
    · intro txid coins found
      contradiction
    · simp [newBlockIndex, CBlockIndex.ofHeader]
    · simp [UtxoView.total, UtxoView.genesis]
  obtain ⟨conserved, emitted, paid, sum⟩ := start.connectChain context connected
  refine ⟨⟨emitted, paid, ?_⟩, fun call => ?_⟩
  · have bounded := conserved.bounded
    rw [Finset.sum_range_zero] at sum
    omega
  · exact (context.safe_connectBlock conserved scripts call).ne_overflow

section Samples

/-- A block with a coinbase only, which pays to the generator. -/
def rewardBlock (nHeight : Nat) (nValue : Int) : CBlock :=
  { sampleBlock with
    hashPrevBlock := ⟨BitVec.ofNat 256 (1391485369 + nHeight)⟩
    hashMerkleRoot := ⟨BitVec.ofNat 256 nHeight⟩
    nTime := UInt32.ofNat (1391485370 + nHeight)
    vtx := [{ sampleCoinbase with
      hash := ⟨BitVec.ofNat 256 nHeight⟩, vout := [{ nValue, scriptPubKey := generatorScript }] }] }

/-- As many rewards as the first one needs to mature. -/
def maturedBlocks : List CBlock := (List.range' 1 15).map fun nHeight => rewardBlock nHeight 297000000000

/-- The block behind them spends the first reward, and spends what it made of
it.  Its own reward takes the fees of both spends. -/
def spendingBlock : CBlock :=
  { rewardBlock 16 297000000110 with
    hashMerkleRoot := 848
    vtx := (rewardBlock 16 297000000110).vtx ++
      [sampleSpend 100 1 296999999900, sampleSpend 101 100 296999999890] }

def headerCallOf (block : CBlock) : HeaderCall := ⟨1391485371, block.toCBlockHeader⟩

def connectCallOf (block : CBlock) : ConnectCall :=
  ⟨1391485371, block, sampleHashes.getHash block.toCBlockHeader⟩

def spendingHeaders : List HeaderCall := (maturedBlocks ++ [spendingBlock]).map headerCallOf

def spendingIndex : BlockMap := (HeaderIndex.run sampleEnvironment spendingHeaders).mapBlockIndex

theorem nHeight_le_spendingIndex (hash : Uint256) (pindex : CBlockIndex)
    (found : spendingIndex[hash]? = some pindex) : pindex.nHeight ≤ 16 :=
  nHeight_le_length_run sampleEnvironment spendingHeaders found

theorem connectChain_conserves_money_spendingBlock :
    ∃ view,
      connectChain sampleEnvironment sampleScripts spendingIndex
        (UtxoView.genesis sampleEnvironment)
        ((maturedBlocks ++ [spendingBlock]).map connectCallOf) = .ok view ∧
      view.coins 1 = none ∧
      ((view.coins 101).any fun coins => coins.vout.map CTxOut.nValue = [296999999890]) = true ∧
      ∃ emitted,
        connectedSubsidy sampleEnvironment spendingIndex
          ((maturedBlocks ++ [spendingBlock]).map connectCallOf) = some emitted ∧
        view.total ≤ emitted := by
  have succeeds : (connectChain sampleEnvironment sampleScripts spendingIndex
      (UtxoView.genesis sampleEnvironment)
      ((maturedBlocks ++ [spendingBlock]).map connectCallOf)).toOption.any (fun view =>
        view.coins 1 == none &&
          (view.coins 101).any fun coins => coins.vout.map CTxOut.nValue = [296999999890]) =
      true := by decide +kernel
  obtain ⟨view, connected, holds⟩ := exists_ok_of_any succeeds
  rw [Bool.and_eq_true, beq_iff_eq] at holds
  have below : ∀ (hash : Uint256) (entry : CBlockIndex), spendingIndex[hash]? = some entry →
      (entry.nHeight : Int) < 64 * sampleEnvironment.consensus.nSubsidyHalvingInterval := by
    intro hash entry found
    have within := nHeight_le_spendingIndex hash entry found
    have interval : sampleEnvironment.consensus.nSubsidyHalvingInterval = 800000 := rfl
    omega
  exact ⟨view, connected, holds.1, holds.2,
    (connectChain_conserves_money sampleEnvironment sampleScripts spendingHeaders _ view below
      connected).1⟩

end Samples

end Lycancoin

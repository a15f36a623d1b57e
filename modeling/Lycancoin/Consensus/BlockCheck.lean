import Lycancoin.Chain.Headers
import Lycancoin.Script.SigOps

namespace Lycancoin

/-- A sum of two amounts, which is undefined behaviour outside 64 bits. -/
def addAmount (total nValue : Int) : Check Int :=
  match int64 (total + nValue) with
  | some sum => .ok sum
  | none => .error .overflow

/-- The loop of `CheckTransaction` over the output values. -/
def checkOutputValues : Int → List CTxOut → Check Unit
  | _, [] => .ok ()
  | nValueOut, txout :: rest => do
      rejectIf (txout.nValue < 0) (dos 100 REJECT_INVALID "bad-txns-vout-negative")
      rejectIf (txout.nValue > MAX_MONEY) (dos 100 REJECT_INVALID "bad-txns-vout-toolarge")
      let nValueOut ← addAmount nValueOut txout.nValue
      rejectIf (!moneyRange nValueOut) (dos 100 REJECT_INVALID "bad-txns-txouttotal-toolarge")
      checkOutputValues nValueOut rest

def checkTransaction (tx : CTransaction) : Check Unit := do
  rejectIf tx.vin.isEmpty (dos 10 REJECT_INVALID "bad-txns-vin-empty")
  rejectIf tx.vout.isEmpty (dos 10 REJECT_INVALID "bad-txns-vout-empty")
  rejectIf (tx.getSerializeSize > MAX_BLOCK_SIZE) (dos 100 REJECT_INVALID "bad-txns-oversize")
  checkOutputValues 0 tx.vout
  rejectIf (!decide (tx.vin.map CTxIn.prevout).Nodup)
    (dos 100 REJECT_INVALID "bad-txns-inputs-duplicate")
  if tx.isCoinBase then
    rejectIf (tx.vin.head?.any fun txin => txin.scriptSig.length < 2 || txin.scriptSig.length > 100)
      (dos 100 REJECT_INVALID "bad-cb-length")
  else
    rejectIf (tx.vin.any fun txin => txin.prevout.isNull)
      (dos 10 REJECT_INVALID "bad-txns-prevout-null")

/-- The loop of `GetValueOut`, which throws when a value or the total is out of range. -/
def sumOutputValues : Int → List CTxOut → Check Int
  | nValueOut, [] => .ok nValueOut
  | nValueOut, txout :: rest => do
      let nValueOut ← addAmount nValueOut txout.nValue
      if !moneyRange txout.nValue || !moneyRange nValueOut then .error .error
      else sumOutputValues nValueOut rest

def CTransaction.getValueOut (tx : CTransaction) : Check Int := sumOutputValues 0 tx.vout

def getLegacySigOpCount (tx : CTransaction) : Nat :=
  (tx.vin.map fun txin => CScript.getSigOpCount txin.scriptSig false).sum +
    (tx.vout.map fun txout => CScript.getSigOpCount txout.scriptPubKey false).sum

/-- One level of `BuildMerkleTree`, and whether it ends in two identical hashes. -/
def merkleLevel (hashPair : Uint256 → Uint256 → Uint256) : List Uint256 → List Uint256 × Bool
  | [] => ([], false)
  | [last] => ([hashPair last last], false)
  | [left, right] => ([hashPair left right], left == right)
  | left :: right :: rest =>
      let (level, mutated) := merkleLevel hashPair rest
      (hashPair left right :: level, mutated)

/-- The levels of `BuildMerkleTree`: each is half as long as the one below it. -/
def merkleLoop (hashPair : Uint256 → Uint256 → Uint256) : Nat → List Uint256 → Uint256 × Bool
  | _, [] => (Uint256.null, false)
  | _, [root] => (root, false)
  | 0, _ => (Uint256.null, false)
  | fuel + 1, hashes =>
      let (level, mutated) := merkleLevel hashPair hashes
      let (root, mutatedAbove) := merkleLoop hashPair fuel level
      (root, mutated || mutatedAbove)

/-- `BuildMerkleTree`: the root, and `fMutated`. -/
def CBlock.buildMerkleTree (hashes : Digests) (block : CBlock) : Uint256 × Bool :=
  merkleLoop hashes.hashPair block.vtx.length (block.vtx.map CTransaction.hash)

/-- The check of every transaction in `CheckBlock`. -/
def checkTransactions : List CTransaction → Check Unit
  | [] => .ok ()
  | tx :: rest => do
      checkTransaction tx
      checkTransactions rest

/-- The rules of `CheckBlock` that only look at the transactions. -/
def checkBlockTransactions (block : CBlock) : Check Unit := do
  rejectIf (block.vtx.isEmpty || block.vtx.length > MAX_BLOCK_SIZE ||
      block.getSerializeSize > MAX_BLOCK_SIZE)
    (dos 100 REJECT_INVALID "bad-blk-length")
  rejectIf (!block.vtx.head?.any CTransaction.isCoinBase) (dos 100 REJECT_INVALID "bad-cb-missing")
  rejectIf (block.vtx.tail.any CTransaction.isCoinBase)
    (dos 100 REJECT_INVALID "bad-cb-multiple")
  checkTransactions block.vtx
  rejectIf ((block.vtx.map getLegacySigOpCount).sum > MAX_BLOCK_SIGOPS)
    (dosCorruption 100 REJECT_INVALID "bad-blk-sigops")

def checkMerkleRoot (env : Environment) (block : CBlock) : Check Unit := do
  let (hashMerkleRoot2, mutated) := block.buildMerkleTree env.hashes
  rejectIf (block.hashMerkleRoot != hashMerkleRoot2)
    (dosCorruption 100 REJECT_INVALID "bad-txnmrklroot")
  rejectIf mutated (dosCorruption 100 REJECT_INVALID "bad-txns-duplicate")

def checkBlock (env : Environment) (nAdjustedTime : Int) (block : CBlock)
    (fCheckPOW fCheckMerkleRoot : Bool) : Check Unit := do
  checkBlockHeader env nAdjustedTime block.toCBlockHeader fCheckPOW
  if fCheckMerkleRoot then checkMerkleRoot env block
  checkBlockTransactions block

section Values

variable {total : Int} {outputs : List CTxOut} {tx : CTransaction}

def outputValues (outputs : List CTxOut) : Int := (outputs.map CTxOut.nValue).sum

@[simp] theorem outputValues_nil : outputValues [] = 0 := by
  simp [outputValues]

@[simp] theorem outputValues_cons (txout : CTxOut) (rest : List CTxOut) :
    outputValues (txout :: rest) = txout.nValue + outputValues rest := by
  simp [outputValues]

theorem addAmount_of_inInt64 {nValue : Int} (fits : InInt64 (total + nValue)) :
    addAmount total nValue = .ok (total + nValue) := by
  rw [addAmount, int64_of_inInt64 fits]

/-- What `CheckTransaction` promises of the values: each is in range, and so is the total. -/
theorem checkOutputValues_spec (passed : checkOutputValues total outputs = .ok ())
    (inRange : 0 ≤ total ∧ total ≤ MAX_MONEY) :
    (∀ txout ∈ outputs, 0 ≤ txout.nValue ∧ txout.nValue ≤ MAX_MONEY) ∧
      0 ≤ outputValues outputs ∧ total + outputValues outputs ≤ MAX_MONEY := by
  induction outputs generalizing total with
  | nil => simpa using inRange.2
  | cons txout rest ih =>
      obtain ⟨negative, passed⟩ := check_seq_eq_ok.mp passed
      obtain ⟨large, passed⟩ := check_seq_eq_ok.mp passed
      obtain ⟨sum, added, passed⟩ := check_bind_eq_ok.mp passed
      obtain ⟨range, passed⟩ := check_seq_eq_ok.mp passed
      rw [rejectIf_eq_ok, decide_eq_false_iff_not] at negative large
      rw [rejectIf_eq_ok, Bool.not_eq_false', moneyRange_iff] at range
      have sumEq : sum = total + txout.nValue := by
        unfold addAmount at added
        split at added
        · rename_i result stored
          cases added
          exact (int64_eq_some.mp stored).2
        · contradiction
      obtain ⟨values, nonnegative, bounded⟩ := ih passed range
      refine ⟨?_, ?_, ?_⟩
      · intro other member
        rcases List.mem_cons.mp member with rfl | member
        · omega
        · exact values other member
      · rw [outputValues_cons]
        omega
      · rw [outputValues_cons]
        omega

theorem sumOutputValues_eq (values : ∀ txout ∈ outputs, 0 ≤ txout.nValue)
    (nonnegative : 0 ≤ total) (bounded : total + outputValues outputs ≤ MAX_MONEY) :
    sumOutputValues total outputs = .ok (total + outputValues outputs) := by
  induction outputs generalizing total with
  | nil => simp [sumOutputValues]
  | cons txout rest ih =>
      have own := values txout (by simp)
      have restValues : ∀ other ∈ rest, 0 ≤ other.nValue :=
        fun other member => values other (by simp [member])
      have restNonnegative : 0 ≤ outputValues rest := by
        apply List.sum_nonneg
        intro value member
        obtain ⟨other, otherMember, rfl⟩ := List.mem_map.mp member
        exact restValues other otherMember
      rw [outputValues_cons] at bounded
      have limit : MAX_MONEY = 495000000000000000 := rfl
      have fits : InInt64 (total + txout.nValue) := by
        unfold InInt64
        omega
      have ranges : moneyRange txout.nValue = true ∧ moneyRange (total + txout.nValue) = true := by
        simp only [moneyRange_iff]
        omega
      have step : sumOutputValues total (txout :: rest) =
          sumOutputValues (total + txout.nValue) rest := by
        simp [sumOutputValues, addAmount_of_inInt64 fits, ranges.1, ranges.2, bind, Except.bind]
      rw [step, ih restValues (by omega) (by omega), outputValues_cons, Int.add_assoc]

/-- What a transaction that passes `CheckTransaction` is like. -/
structure TransactionSound (tx : CTransaction) : Prop where
  vin_ne_nil : tx.vin ≠ []
  values : ∀ txout ∈ tx.vout, 0 ≤ txout.nValue ∧ txout.nValue ≤ MAX_MONEY
  total : 0 ≤ outputValues tx.vout ∧ outputValues tx.vout ≤ MAX_MONEY
  distinct : (tx.vin.map CTxIn.prevout).Nodup

theorem checkTransaction_spec (passed : checkTransaction tx = .ok ()) : TransactionSound tx := by
  obtain ⟨inputs, passed⟩ := check_seq_eq_ok.mp passed
  obtain ⟨_, passed⟩ := check_seq_eq_ok.mp passed
  obtain ⟨_, passed⟩ := check_seq_eq_ok.mp passed
  obtain ⟨outputs, passed⟩ := check_seq_eq_ok.mp passed
  obtain ⟨distinct, _⟩ := check_seq_eq_ok.mp passed
  rw [rejectIf_eq_ok, List.isEmpty_eq_false_iff] at inputs
  rw [rejectIf_eq_ok, Bool.not_eq_false', decide_eq_true_eq] at distinct
  obtain ⟨values, nonnegative, bounded⟩ := checkOutputValues_spec outputs (by decide)
  exact ⟨inputs, values, ⟨nonnegative, by omega⟩, distinct⟩

theorem TransactionSound.getValueOut (sound : TransactionSound tx) :
    tx.getValueOut = .ok (outputValues tx.vout) := by
  have bounded := sound.total.2
  rw [CTransaction.getValueOut, sumOutputValues_eq (fun txout member => (sound.values txout member).1)
    (by decide) (by omega), Int.zero_add]

/-- What a block that passes `CheckBlock` is like. -/
structure BlockSound (block : CBlock) : Prop where
  transactions : ∀ tx ∈ block.vtx, TransactionSound tx
  coinbase : ∃ coinbase rest, block.vtx = coinbase :: rest ∧ coinbase.isCoinBase = true ∧
    ∀ tx ∈ rest, tx.isCoinBase = false

theorem checkTransactions_spec {txs : List CTransaction} (passed : checkTransactions txs = .ok ()) :
    ∀ tx ∈ txs, TransactionSound tx := by
  induction txs with
  | nil => simp
  | cons first rest ih =>
      obtain ⟨own, others⟩ := check_seq_eq_ok.mp passed
      intro tx member
      rcases List.mem_cons.mp member with rfl | member
      · exact checkTransaction_spec own
      · exact ih others tx member

theorem checkBlockTransactions_spec {block : CBlock}
    (passed : checkBlockTransactions block = .ok ()) : BlockSound block := by
  obtain ⟨_, passed⟩ := check_seq_eq_ok.mp passed
  obtain ⟨first, passed⟩ := check_seq_eq_ok.mp passed
  obtain ⟨others, passed⟩ := check_seq_eq_ok.mp passed
  obtain ⟨transactions, _⟩ := check_seq_eq_ok.mp passed
  rw [rejectIf_eq_ok, Bool.not_eq_false'] at first
  rw [rejectIf_eq_ok, List.any_eq_false] at others
  refine ⟨checkTransactions_spec transactions, ?_⟩
  cases vtxEq : block.vtx with
  | nil => simp [vtxEq] at first
  | cons coinbase rest =>
      rw [vtxEq] at first others
      exact ⟨coinbase, rest, rfl, by simpa using first, fun tx member => by simpa using others tx member⟩

theorem checkBlock_spec {env : Environment} {nAdjustedTime : Int} {block : CBlock}
    {fCheckPOW fCheckMerkleRoot : Bool}
    (passed : checkBlock env nAdjustedTime block fCheckPOW fCheckMerkleRoot = .ok ()) :
    BlockSound block := by
  obtain ⟨_, passed⟩ := check_seq_eq_ok.mp passed
  cases fCheckMerkleRoot with
  | false => exact checkBlockTransactions_spec passed
  | true =>
      obtain ⟨_, passed⟩ := check_seq_eq_ok.mp passed
      exact checkBlockTransactions_spec passed

end Values

end Lycancoin

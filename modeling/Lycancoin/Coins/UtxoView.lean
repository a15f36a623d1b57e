import Lycancoin.Coins.CacheRefinement
import Lycancoin.Consensus.BlockCheck
import Lycancoin.Data.PaddedList

namespace Lycancoin

open Lycancoin.Data

namespace CCoins

def output (coins : CCoins) (n : Nat) : Option CTxOut :=
  match coins.vout[n]? with
  | some txout => if txout.isNull then none else some txout
  | none => none

/-- What holds of all coins in a view: some output is unspent, none that ends
`vout` is spent, spent outputs are set to null, and genesis has no outputs. -/
structure Sound (coins : CCoins) : Prop where
  unspent : coins.isPruned = false
  clean : coins.Clean
  canonical : PaddedList.Canonical CTxOut.null CTxOut.isNull coins.vout
  height : 0 < coins.nHeight
  values : ∀ txout ∈ coins.vout, txout.isNull = false → 0 ≤ txout.nValue

end CCoins

/-- A view of the coins, as the caches show it at their top. -/
structure UtxoView where
  coins : Level
  hashBestBlock : Uint256

/-- The undo data of an input.  The last three fields are zero unless the input
spends the last output of its transaction. -/
structure CTxInUndo where
  txout : CTxOut
  fCoinBase : Bool
  nHeight : Int
  nVersion : Int
deriving DecidableEq, Repr

abbrev CTxUndo := List CTxInUndo

namespace UtxoView

/-- `ModifyCoins`, the edit of its caller, and the end of the modifier. -/
def modifyCoins (view : UtxoView) (txid : Uint256) (edit : CCoins → CCoins) : UtxoView :=
  { view with
    coins := Function.update view.coins txid
      (edit ((view.coins txid).getD CCoins.empty)).cleanup.live }

/-- The output that `GetOutputFor` finds. -/
def output (view : UtxoView) (prevout : COutPoint) : Option CTxOut :=
  (view.coins prevout.hash).bind fun coins => coins.output prevout.n.toNat

def haveInputs (view : UtxoView) (tx : CTransaction) : Bool :=
  tx.isCoinBase || tx.vin.all fun txin => (view.output txin.prevout).isSome

/-- The loop of `GetValueIn`. -/
def sumInputValues (view : UtxoView) : Int → List CTxIn → Check Int
  | nResult, [] => .ok nResult
  | nResult, txin :: rest =>
      match view.output txin.prevout with
      | none => .error .assertion
      | some txout => do
          let nResult ← addAmount nResult txout.nValue
          view.sumInputValues nResult rest

def getValueIn (view : UtxoView) (tx : CTransaction) : Check Int :=
  if tx.isCoinBase then .ok 0 else view.sumInputValues 0 tx.vin

/-- One input of `UpdateCoins`. -/
def spendInput (view : UtxoView) (prevout : COutPoint) : Check (UtxoView × CTxInUndo) :=
  match view.output prevout with
  | none => .error .assertion
  | some txout =>
      let spent := (((view.coins prevout.hash).getD CCoins.empty).spend prevout.n.toNat).2
      let undo : CTxInUndo :=
        if spent.vout.isEmpty then
          { txout, fCoinBase := spent.fCoinBase, nHeight := spent.nHeight,
            nVersion := spent.nVersion }
        else { txout, fCoinBase := false, nHeight := 0, nVersion := 0 }
      .ok (view.modifyCoins prevout.hash fun coins => (coins.spend prevout.n.toNat).2, undo)

def spendInputs (view : UtxoView) : List CTxIn → Check (UtxoView × CTxUndo)
  | [] => .ok (view, [])
  | txin :: rest => do
      let (view, undo) ← view.spendInput txin.prevout
      let (view, undos) ← view.spendInputs rest
      pure (view, undo :: undos)

def addOutputs (view : UtxoView) (tx : CTransaction) (nHeight : Int) : UtxoView :=
  view.modifyCoins tx.hash fun _ => CCoins.fromTx tx nHeight

def updateCoins (view : UtxoView) (tx : CTransaction) (nHeight : Int) :
    Check (UtxoView × CTxUndo) :=
  if tx.isCoinBase then .ok (view.addOutputs tx nHeight, [])
  else do
    let (view, txundo) ← view.spendInputs tx.vin
    pure (view.addOutputs tx nHeight, txundo)

def applyTxInUndo (view : UtxoView) (undo : CTxInUndo) (out : COutPoint) : Bool × UtxoView :=
  let found := (view.coins out.hash).getD CCoins.empty
  let fClean := if undo.nHeight ≠ 0 then found.isPruned else !found.isPruned
  let restore (coins : CCoins) : CCoins :=
    let coins :=
      if undo.nHeight ≠ 0 then
        { CCoins.empty with
          fCoinBase := undo.fCoinBase, nHeight := undo.nHeight, nVersion := undo.nVersion }
      else coins
    let padded := coins.vout ++
      List.replicate (out.n.toNat + 1 - coins.vout.length) CTxOut.null
    { coins with vout := padded.set out.n.toNat undo.txout }
  let available := if undo.nHeight ≠ 0 then false else found.isAvailable out.n.toNat
  (fClean && !available, view.modifyCoins out.hash restore)

def Sound (view : UtxoView) : Prop := ∀ txid coins, view.coins txid = some coins → coins.Sound

end UtxoView

namespace CCoins

variable {coins other : CCoins} {n : Nat} {txout : CTxOut}

theorem output_eq_slot (coins : CCoins) (n : Nat) :
    coins.output n =
      if (PaddedList.slot CTxOut.null coins.vout n).isNull then none
      else some (PaddedList.slot CTxOut.null coins.vout n) := by
  unfold output PaddedList.slot
  cases coins.vout[n]? <;> rfl

theorem isAvailable_eq (coins : CCoins) (n : Nat) :
    coins.isAvailable n = (coins.output n).isSome := by
  unfold isAvailable output
  cases coins.vout[n]? with
  | none => rfl
  | some txout => cases isNull : txout.isNull <;> simp [isNull]

theorem output_eq_some (available : coins.output n = some txout) :
    coins.vout[n]? = some txout ∧ txout.isNull = false := by
  unfold output at available
  split at available
  · rename_i found stored
    split at available
    · contradiction
    · rename_i notNull
      cases available
      exact ⟨stored, Bool.eq_false_iff.mpr notNull⟩
  · contradiction

theorem output_eq_none_of_isPruned (pruned : coins.isPruned = true) (n : Nat) :
    coins.output n = none := by
  rw [isPruned, List.all_eq_true] at pruned
  unfold output
  split
  · rename_i txout found
    simp [pruned txout (List.mem_of_getElem? found)]
  · rfl

theorem canonical_cleanup
    (canonical : PaddedList.Canonical CTxOut.null CTxOut.isNull coins.vout) :
    PaddedList.Canonical CTxOut.null CTxOut.isNull coins.cleanup.vout :=
  fun txout member => canonical txout ((List.rdropWhile_prefix CTxOut.isNull _).subset member)

theorem slot_cleanup (canonical : PaddedList.Canonical CTxOut.null CTxOut.isNull coins.vout) :
    PaddedList.slot CTxOut.null coins.cleanup.vout = PaddedList.slot CTxOut.null coins.vout :=
  PaddedList.slot_rdropWhile canonical

/-- Clean coins with the same outputs and the same record of their transaction are equal. -/
theorem eq_of_slot_eq (clean : coins.Clean) (otherClean : other.Clean)
    (slots : PaddedList.slot CTxOut.null coins.vout = PaddedList.slot CTxOut.null other.vout)
    (fCoinBase : coins.fCoinBase = other.fCoinBase) (nHeight : coins.nHeight = other.nHeight)
    (nVersion : coins.nVersion = other.nVersion) : coins = other := by
  have vout : coins.vout = other.vout :=
    PaddedList.eq_of_slot_eq CTxOut.isNull_null clean otherClean slots
  cases coins
  cases other
  simp_all

theorem spend_of_output (available : coins.output n = some txout) :
    (coins.spend n).2 = cleanup { coins with vout := coins.vout.set n CTxOut.null } := by
  simp [spend, isAvailable_eq, available]

theorem canonical_set_null (canonical : PaddedList.Canonical CTxOut.null CTxOut.isNull coins.vout) :
    PaddedList.Canonical CTxOut.null CTxOut.isNull (coins.vout.set n CTxOut.null) := by
  intro txout member isNull
  rcases List.mem_or_eq_of_mem_set member with old | rfl
  · exact canonical txout old isNull
  · rfl

theorem slot_spend (sound : coins.Sound) (available : coins.output n = some txout) :
    PaddedList.slot CTxOut.null (coins.spend n).2.vout =
      Function.update (PaddedList.slot CTxOut.null coins.vout) n CTxOut.null := by
  have within : n < coins.vout.length := by
    have found := (output_eq_some available).1
    exact (List.getElem?_eq_some_iff.mp found).1
  rw [spend_of_output available, slot_cleanup (canonical_set_null sound.canonical)]
  exact PaddedList.slot_set within CTxOut.null

theorem output_spend (sound : coins.Sound) (available : coins.output n = some txout)
    (position : Nat) :
    (coins.spend n).2.output position = if position = n then none else coins.output position := by
  rw [output_eq_slot, slot_spend sound available, Function.update_apply]
  split
  · simp
  · rw [output_eq_slot]

theorem sound_spend (sound : coins.Sound) (available : coins.output n = some txout)
    (unspent : (coins.spend n).2.isPruned = false) : (coins.spend n).2.Sound := by
  have spent := spend_of_output available
  refine ⟨unspent, by rw [spent]; exact clean_cleanup _, ?_, ?_, ?_⟩
  · rw [spent]
    exact canonical_cleanup (canonical_set_null sound.canonical)
  · rw [spent]
    exact sound.height
  · intro other member notNull
    rw [spent] at member
    have kept := (List.rdropWhile_prefix CTxOut.isNull _).subset member
    rcases List.mem_or_eq_of_mem_set kept with old | rfl
    · exact sound.values other old notNull
    · simp at notNull

end CCoins

end Lycancoin

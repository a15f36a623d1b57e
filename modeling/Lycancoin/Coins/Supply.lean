import Lycancoin.Coins.Spending

namespace Lycancoin

open Lycancoin.Data

/-- The value that an output holds while it is not spent. -/
def CTxOut.unspentValue (txout : CTxOut) : Int := if txout.isNull then 0 else txout.nValue

def CCoins.value (coins : CCoins) : Int := (coins.vout.map CTxOut.unspentValue).sum

namespace CCoins

variable {coins : CCoins} {n : Nat} {txout : CTxOut} {tx : CTransaction}

theorem value_cleanup (coins : CCoins) : coins.cleanup.value = coins.value := by
  have split : coins.vout = coins.vout.rdropWhile CTxOut.isNull ++
      coins.vout.rtakeWhile CTxOut.isNull := List.rdropWhile_append_rtakeWhile.symm
  have dropped : ((coins.vout.rtakeWhile CTxOut.isNull).map CTxOut.unspentValue).sum = 0 := by
    apply List.sum_eq_zero
    intro value member
    obtain ⟨txout, txoutMember, rfl⟩ := List.mem_map.mp member
    rw [CTxOut.unspentValue, if_pos (List.mem_rtakeWhile_imp txoutMember)]
  have whole : coins.value = ((coins.vout.rdropWhile CTxOut.isNull ++
      coins.vout.rtakeWhile CTxOut.isNull).map CTxOut.unspentValue).sum := by
    rw [← split, value]
  rw [whole, List.map_append, List.sum_append, dropped, Int.add_zero]
  rfl

theorem value_spend (available : coins.output n = some txout) :
    (coins.spend n).2.value = coins.value - txout.nValue := by
  obtain ⟨stored, notNull⟩ := output_eq_some available
  obtain ⟨within, found⟩ := List.getElem?_eq_some_iff.mp stored
  have spent : CTxOut.null.unspentValue = 0 := rfl
  have worth : txout.unspentValue = txout.nValue := by
    rw [CTxOut.unspentValue, notNull]
    rfl
  rw [spend_of_output available, value_cleanup, value, value, List.map_set, List.sum_set',
    dif_pos (by simpa using within), List.getElem_map, found, spent, worth]
  omega

theorem value_nonneg (sound : coins.Sound) : 0 ≤ coins.value := by
  apply List.sum_nonneg
  intro value member
  obtain ⟨txout, txoutMember, rfl⟩ := List.mem_map.mp member
  unfold CTxOut.unspentValue
  split
  · exact Int.le_refl 0
  · rename_i notNull
    exact sound.values txout txoutMember (Bool.eq_false_iff.mpr notNull)

theorem output_nonneg (sound : coins.Sound) (available : coins.output n = some txout) :
    0 ≤ txout.nValue := by
  obtain ⟨stored, notNull⟩ := output_eq_some available
  exact sound.values txout (List.mem_of_getElem? stored) notNull

/-- Unspendable outputs drop out when a transaction is added. -/
theorem value_fromTx_le (checked : TransactionSound tx) (nHeight : Int) :
    (fromTx tx nHeight).value ≤ outputValues tx.vout := by
  rw [fromTx, clearUnspendable, value_cleanup, value, outputValues, List.map_map]
  apply List.sum_le_sum
  intro txout member
  have nonnegative := (checked.values txout member).1
  simp only [Function.comp_apply]
  split
  · exact nonnegative
  · rw [CTxOut.unspentValue, CTxOut.isNull_of_nonneg nonnegative]
    exact Int.le_refl _

end CCoins

namespace UtxoView

variable {view after : UtxoView} {prevout : COutPoint} {undo : CTxInUndo} {tx : CTransaction}

def total (view : UtxoView) : Int := ∑ txid : Uint256, (view.coins txid).elim 0 CCoins.value

theorem value_live (coins : CCoins) : coins.live.elim 0 CCoins.value = coins.value := by
  cases pruned : coins.isPruned with
  | false => rw [CCoins.live_of_not_isPruned pruned, Option.elim_some]
  | true =>
      rw [CCoins.live_of_isPruned pruned, Option.elim_none, CCoins.value]
      symm
      apply List.sum_eq_zero
      intro value member
      obtain ⟨txout, txoutMember, rfl⟩ := List.mem_map.mp member
      rw [CCoins.isPruned, List.all_eq_true] at pruned
      rw [CTxOut.unspentValue, if_pos (pruned txout txoutMember)]

theorem total_update (view : UtxoView) (txid : Uint256) (entry : Option CCoins) :
    ({ view with coins := Function.update view.coins txid entry } : UtxoView).total =
      view.total - (view.coins txid).elim 0 CCoins.value + entry.elim 0 CCoins.value := by
  have values : (fun other => (Function.update view.coins txid entry other).elim 0 CCoins.value) =
      Function.update (fun other => (view.coins other).elim 0 CCoins.value) txid
        (entry.elim 0 CCoins.value) := by
    funext other
    simp only [Function.update_apply]
    split <;> rfl
  have before := Finset.add_sum_erase Finset.univ
    (fun other => (view.coins other).elim 0 CCoins.value) (Finset.mem_univ txid)
  simp only [total]
  rw [values, Finset.sum_update_of_mem (Finset.mem_univ txid), Finset.sdiff_singleton_eq_erase,
    ← before]
  omega

theorem total_nonneg (sound : view.Sound) : 0 ≤ view.total := by
  apply Finset.sum_nonneg
  intro txid _
  cases found : view.coins txid with
  | none => exact Int.le_refl 0
  | some coins => exact CCoins.value_nonneg (sound txid coins found)

def inputValue (view : UtxoView) (place : COutPoint) : Int :=
  (view.output place).elim 0 CTxOut.nValue

def inputValues (view : UtxoView) (vin : List CTxIn) : Int :=
  (vin.map fun txin => view.inputValue txin.prevout).sum

theorem inputValue_nonneg (sound : view.Sound) (place : COutPoint) : 0 ≤ view.inputValue place := by
  unfold inputValue
  cases available : view.output place with
  | none => exact Int.le_refl 0
  | some txout =>
      obtain ⟨coins, found, output⟩ := output_eq_some available
      exact CCoins.output_nonneg (sound _ _ found) output

theorem inputValues_nonneg (sound : view.Sound) (vin : List CTxIn) : 0 ≤ view.inputValues vin := by
  apply List.sum_nonneg
  intro value member
  obtain ⟨txin, _, rfl⟩ := List.mem_map.mp member
  exact inputValue_nonneg sound txin.prevout

theorem total_spendInput (spent : view.spendInput prevout = .ok (after, undo)) :
    after.total = view.total - view.inputValue prevout := by
  obtain ⟨coins, txout, found, available, rfl, _⟩ := spendInput_spec spent
  have worth : view.inputValue prevout = txout.nValue := by
    rw [inputValue, output, found, Option.bind_some, available, Option.elim_some]
  rw [total_update, value_live, CCoins.value_spend available, found, worth, Option.elim_some]
  omega

/-- A spent input does not change what the other inputs bring. -/
theorem inputValues_spendInput {vin : List CTxIn} (sound : view.Sound)
    (spent : view.spendInput prevout = .ok (after, undo))
    (distinct : prevout ∉ vin.map CTxIn.prevout) :
    after.inputValues vin = view.inputValues vin := by
  unfold inputValues
  congr 1
  apply List.map_congr_left
  intro txin member
  have different : txin.prevout ≠ prevout := by
    rintro rfl
    exact distinct (List.mem_map_of_mem member)
  rw [inputValue, inputValue, output_spendInput sound spent, if_neg different]

theorem total_spendInputs {vin : List CTxIn} {undos : CTxUndo} (sound : view.Sound)
    (distinct : (vin.map CTxIn.prevout).Nodup)
    (spent : view.spendInputs vin = .ok (after, undos)) :
    after.total = view.total - view.inputValues vin := by
  induction vin generalizing view undos with
  | nil =>
      cases spent
      simp [inputValues]
  | cons txin rest ih =>
      obtain ⟨next, undo, restUndos, first, others, rfl⟩ := spendInputs_cons spent
      rw [List.map_cons, List.nodup_cons] at distinct
      have restTotal := ih (sound_spendInput sound first) distinct.2 others
      rw [restTotal, total_spendInput first, inputValues_spendInput sound first distinct.1]
      simp only [inputValues, List.map_cons, List.sum_cons]
      omega

theorem exists_spendInput (available : (view.output prevout).isSome) :
    ∃ after undo, view.spendInput prevout = .ok (after, undo) := by
  obtain ⟨txout, found⟩ := Option.isSome_iff_exists.mp available
  simp only [spendInput, found]
  exact ⟨_, _, rfl⟩

theorem exists_spendInputs {vin : List CTxIn} (sound : view.Sound)
    (distinct : (vin.map CTxIn.prevout).Nodup)
    (available : ∀ place ∈ vin.map CTxIn.prevout, (view.output place).isSome) :
    ∃ after undos, view.spendInputs vin = .ok (after, undos) := by
  induction vin generalizing view with
  | nil => exact ⟨_, _, rfl⟩
  | cons txin rest ih =>
      rw [List.map_cons, List.nodup_cons] at distinct
      obtain ⟨next, undo, first⟩ := exists_spendInput (available txin.prevout (by simp))
      have left : ∀ place ∈ rest.map CTxIn.prevout, (next.output place).isSome := by
        intro place member
        have different : place ≠ txin.prevout := by
          rintro rfl
          exact distinct.1 member
        rw [output_spendInput sound first, if_neg different]
        exact available place (List.mem_cons_of_mem _ member)
      obtain ⟨after, undos, others⟩ := ih (sound_spendInput sound first) distinct.2 left
      exact ⟨after, undo :: undos, by simp [spendInputs, first, others, bind, Except.bind, pure, Except.pure]⟩

/-- No transaction brings more than the view holds. -/
theorem inputValues_le_total {vin : List CTxIn} (sound : view.Sound)
    (distinct : (vin.map CTxIn.prevout).Nodup)
    (available : ∀ place ∈ vin.map CTxIn.prevout, (view.output place).isSome) :
    view.inputValues vin ≤ view.total := by
  obtain ⟨after, undos, spent⟩ := exists_spendInputs sound distinct available
  have left := total_nonneg (spendInputs_spec sound spent).sound
  rw [total_spendInputs sound distinct spent] at left
  omega

theorem total_addOutputs_le (sound : view.Sound) (checked : TransactionSound tx) (nHeight : Int) :
    (view.addOutputs tx nHeight).total ≤ view.total + outputValues tx.vout := by
  have added : (view.addOutputs tx nHeight).total =
      view.total - (view.coins tx.hash).elim 0 CCoins.value + (CCoins.fromTx tx nHeight).value := by
    rw [← value_live (CCoins.fromTx tx nHeight), ← total_update]
    simp only [total, coins_addOutputs]
  have overwritten : 0 ≤ (view.coins tx.hash).elim 0 CCoins.value := by
    cases found : view.coins tx.hash with
    | none => exact Int.le_refl 0
    | some coins => exact CCoins.value_nonneg (sound _ _ found)
  have worth := CCoins.value_fromTx_le checked nHeight
  omega

end UtxoView

end Lycancoin

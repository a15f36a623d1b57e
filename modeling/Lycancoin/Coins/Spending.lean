import Lycancoin.Coins.UtxoView

namespace Lycancoin

open Lycancoin.Data

section Coins

variable {coins : CCoins} {n : Nat} {txout : CTxOut} {tx : CTransaction}

theorem CCoins.clearUnspendable_clean (coins : CCoins) : coins.clearUnspendable.Clean :=
  CCoins.clean_cleanup _

theorem CTxOut.isNull_of_nonneg {txout : CTxOut} (nonnegative : 0 ≤ txout.nValue) :
    txout.isNull = false := by
  rw [CTxOut.isNull, beq_eq_false_iff_ne]
  omega

theorem TransactionSound.canonical_cleared (sound : TransactionSound tx) :
    PaddedList.Canonical CTxOut.null CTxOut.isNull (tx.vout.map fun txout =>
      if CScript.isUnspendable txout.scriptPubKey then CTxOut.null else txout) := by
  intro txout member isNull
  obtain ⟨original, originalMember, rfl⟩ := List.mem_map.mp member
  split at isNull
  · simp_all
  · rw [CTxOut.isNull_of_nonneg (sound.values original originalMember).1] at isNull
    contradiction

/-- Coins that a checked transaction adds are sound once some output can be spent. -/
theorem TransactionSound.fromTx (sound : TransactionSound tx) {nHeight : Int}
    (above : 0 < nHeight) (unspent : (CCoins.fromTx tx nHeight).isPruned = false) :
    (CCoins.fromTx tx nHeight).Sound where
  unspent := unspent
  clean := CCoins.clearUnspendable_clean _
  canonical := CCoins.canonical_cleanup sound.canonical_cleared
  height := above
  values := by
    intro txout member notNull
    have kept := (List.rdropWhile_prefix CTxOut.isNull _).subset member
    obtain ⟨original, originalMember, rfl⟩ := List.mem_map.mp kept
    split
    · simp_all
    · exact (sound.values original originalMember).1

theorem CCoins.clearUnspendable_of_spendable
    (spendable : coins.vout.map (fun txout =>
      if CScript.isUnspendable txout.scriptPubKey then CTxOut.null else txout) = coins.vout) :
    coins.clearUnspendable = coins.cleanup := by
  rw [CCoins.clearUnspendable, spendable]

/-- Clearing the unspendable outputs a second time changes nothing. -/
theorem CCoins.clearUnspendable_idem (coins : CCoins) :
    coins.clearUnspendable.clearUnspendable = coins.clearUnspendable := by
  have kept : ∀ txout ∈ coins.clearUnspendable.vout,
      (if CScript.isUnspendable txout.scriptPubKey then CTxOut.null else txout) = txout := by
    intro txout member
    have cleared := (List.rdropWhile_prefix CTxOut.isNull _).subset member
    obtain ⟨original, _, rfl⟩ := List.mem_map.mp cleared
    split
    · split <;> rfl
    · rfl
  have same : coins.clearUnspendable.vout.map (fun txout =>
      if CScript.isUnspendable txout.scriptPubKey then CTxOut.null else txout) =
      coins.clearUnspendable.vout := by
    rw [List.map_congr_left kept, List.map_id']
  rw [CCoins.clearUnspendable_of_spendable same,
    CCoins.cleanup_of_clean coins.clearUnspendable_clean]

end Coins

namespace UtxoView

variable {view after : UtxoView} {prevout : COutPoint} {undo : CTxInUndo} {txout : CTxOut}

theorem output_eq_some (available : view.output prevout = some txout) :
    ∃ coins, view.coins prevout.hash = some coins ∧
      coins.output prevout.n.toNat = some txout :=
  Option.bind_eq_some_iff.mp available

theorem spendInput_spec (spent : view.spendInput prevout = .ok (after, undo)) :
    ∃ coins txout, view.coins prevout.hash = some coins ∧
      coins.output prevout.n.toNat = some txout ∧
      after = { view with
        coins := Function.update view.coins prevout.hash
          (coins.spend prevout.n.toNat).2.live } ∧
      undo = if (coins.spend prevout.n.toNat).2.vout.isEmpty then
          { txout, fCoinBase := coins.fCoinBase, nHeight := coins.nHeight,
            nVersion := coins.nVersion }
        else { txout, fCoinBase := false, nHeight := 0, nVersion := 0 } := by
  unfold spendInput at spent
  split at spent
  · contradiction
  · rename_i txout available
    obtain ⟨coins, found, output⟩ := output_eq_some available
    cases spent
    have kept := CCoins.spend_of_output output
    have tidy : (coins.spend prevout.n.toNat).2.cleanup = (coins.spend prevout.n.toNat).2 := by
      rw [kept]
      exact CCoins.cleanup_of_clean (CCoins.clean_cleanup _)
    refine ⟨coins, txout, found, output, ?_, ?_⟩
    · simp only [modifyCoins, found, Option.getD_some, tidy]
    · simp only [found, Option.getD_some]
      rw [kept]
      rfl

theorem output_congr (same : after.coins prevout.hash = view.coins prevout.hash) :
    after.output prevout = view.output prevout := by
  rw [output, output, same]

theorem output_live (coins : CCoins) (n : Nat) :
    (coins.live.bind fun found => found.output n) = coins.output n := by
  cases pruned : coins.isPruned with
  | true =>
      rw [CCoins.live_of_isPruned pruned, CCoins.output_eq_none_of_isPruned pruned]
      rfl
  | false =>
      rw [CCoins.live_of_not_isPruned pruned]
      rfl

theorem output_spendInput (sound : view.Sound)
    (spent : view.spendInput prevout = .ok (after, undo)) (place : COutPoint) :
    after.output place = if place = prevout then none else view.output place := by
  obtain ⟨coins, txout, found, available, rfl, _⟩ := spendInput_spec spent
  have left := CCoins.output_spend (sound _ _ found) available
  by_cases sameHash : place.hash = prevout.hash
  · have coinsLeft : ({ view with
        coins := Function.update view.coins prevout.hash
          (coins.spend prevout.n.toNat).2.live } : UtxoView).output place =
        (coins.spend prevout.n.toNat).2.output place.n.toNat := by
      simp only [output, sameHash, Function.update_self, output_live]
    have before : view.output place = coins.output place.n.toNat := by
      simp only [output, sameHash, found, Option.bind_some]
    rw [coinsLeft, left, before]
    have same : place.n.toNat = prevout.n.toNat ↔ place = prevout := by
      rw [UInt32.toNat_inj]
      cases place
      cases prevout
      simp_all
    simp only [same]
  · have different : place ≠ prevout := fun equal => sameHash (congrArg COutPoint.hash equal)
    rw [if_neg different]
    apply output_congr
    exact Function.update_of_ne sameHash _ _

theorem spendInput_available (spent : view.spendInput prevout = .ok (after, undo)) :
    (view.output prevout).isSome := by
  obtain ⟨coins, txout, found, available, -, -⟩ := spendInput_spec spent
  rw [output, found, Option.bind_some, available]
  rfl

theorem coins_spendInput (spent : view.spendInput prevout = .ok (after, undo)) {txid : Uint256}
    (absent : view.coins txid = none) : after.coins txid = none := by
  obtain ⟨coins, txout, found, available, rfl, _⟩ := spendInput_spec spent
  have different : txid ≠ prevout.hash := by
    rintro rfl
    rw [absent] at found
    contradiction
  rw [← absent]
  exact Function.update_of_ne different _ _

theorem sound_update {txid : Uint256} {entry : Option CCoins} (sound : view.Sound)
    (entrySound : ∀ coins, entry = some coins → coins.Sound) :
    ({ view with coins := Function.update view.coins txid entry } : UtxoView).Sound := by
  intro other coins found
  dsimp only at found
  rw [Function.update_apply] at found
  split at found
  · exact entrySound coins found
  · exact sound other coins found

theorem sound_spendInput (sound : view.Sound)
    (spent : view.spendInput prevout = .ok (after, undo)) : after.Sound := by
  obtain ⟨coins, txout, found, available, rfl, _⟩ := spendInput_spec spent
  apply sound_update sound
  intro left equal
  cases pruned : (coins.spend prevout.n.toNat).2.isPruned with
  | true =>
      rw [CCoins.live_of_isPruned pruned] at equal
      contradiction
  | false =>
      rw [CCoins.live_of_not_isPruned pruned] at equal
      cases equal
      exact CCoins.sound_spend (sound _ _ found) available pruned

theorem spendInputs_cons {txin : CTxIn} {rest : List CTxIn} {undos : CTxUndo}
    (spent : view.spendInputs (txin :: rest) = .ok (after, undos)) :
    ∃ next undo restUndos, view.spendInput txin.prevout = .ok (next, undo) ∧
      next.spendInputs rest = .ok (after, restUndos) ∧ undos = undo :: restUndos := by
  obtain ⟨⟨next, undo⟩, first, others⟩ := check_bind_eq_ok.mp spent
  obtain ⟨⟨final, restUndos⟩, spentRest, finished⟩ := check_bind_eq_ok.mp others
  cases finished
  exact ⟨next, undo, restUndos, first, spentRest, rfl⟩

/-- What a run through the inputs of a transaction does to the view. -/
structure InputsSpent (view after : UtxoView) (places : List COutPoint) : Prop where
  sound : after.Sound
  bestBlock : after.hashBestBlock = view.hashBestBlock
  output : ∀ place, after.output place = if place ∈ places then none else view.output place
  available : ∀ place ∈ places, (view.output place).isSome
  absent : ∀ txid, view.coins txid = none → after.coins txid = none

theorem spendInputs_spec {vin : List CTxIn} {undos : CTxUndo} (sound : view.Sound)
    (spent : view.spendInputs vin = .ok (after, undos)) :
    InputsSpent view after (vin.map CTxIn.prevout) := by
  induction vin generalizing view undos with
  | nil =>
      cases spent
      exact ⟨sound, rfl, by simp, by simp, fun _ absent => absent⟩
  | cons txin rest ih =>
      obtain ⟨next, undo, restUndos, first, others, rfl⟩ := spendInputs_cons spent
      have nextOutput := output_spendInput sound first
      have restSpent := ih (sound_spendInput sound first) others
      refine ⟨restSpent.sound, ?_, ?_, ?_, ?_⟩
      · rw [restSpent.bestBlock]
        obtain ⟨_, _, _, _, rfl, _⟩ := spendInput_spec first
        rfl
      · intro place
        rw [restSpent.output, nextOutput, List.map_cons]
        by_cases later : place ∈ rest.map CTxIn.prevout
        · rw [if_pos later, if_pos (List.mem_cons_of_mem _ later)]
        · simp [later]
      · intro place member
        rcases List.mem_cons.mp member with rfl | later
        · exact spendInput_available first
        · have found := restSpent.available place later
          rw [nextOutput] at found
          split at found
          · contradiction
          · exact found
      · intro txid absent
        exact restSpent.absent txid (coins_spendInput first absent)

theorem coins_addOutputs (view : UtxoView) (tx : CTransaction) (nHeight : Int) :
    (view.addOutputs tx nHeight).coins =
      Function.update view.coins tx.hash (CCoins.fromTx tx nHeight).live := by
  have tidy : (CCoins.fromTx tx nHeight).cleanup = CCoins.fromTx tx nHeight :=
    CCoins.cleanup_of_clean (CCoins.clearUnspendable_clean _)
  simp only [addOutputs, modifyCoins, tidy]

theorem sound_addOutputs {tx : CTransaction} {nHeight : Int} (sound : view.Sound)
    (checked : TransactionSound tx) (above : 0 < nHeight) :
    (view.addOutputs tx nHeight).Sound := by
  have coinsEq := coins_addOutputs view tx nHeight
  have entry : ∀ coins, (CCoins.fromTx tx nHeight).live = some coins → coins.Sound := by
    intro coins equal
    cases pruned : (CCoins.fromTx tx nHeight).isPruned with
    | true =>
        rw [CCoins.live_of_isPruned pruned] at equal
        contradiction
    | false =>
        rw [CCoins.live_of_not_isPruned pruned] at equal
        cases equal
        exact checked.fromTx above pruned
  intro txid coins found
  rw [coinsEq] at found
  exact sound_update sound entry txid coins found

theorem output_addOutputs {tx : CTransaction} {place : COutPoint} (nHeight : Int)
    (different : place.hash ≠ tx.hash) :
    (view.addOutputs tx nHeight).output place = view.output place := by
  apply output_congr
  rw [coins_addOutputs]
  exact Function.update_of_ne different _ _

theorem updateCoins_of_not_coinBase {tx : CTransaction} {txundo : CTxUndo} {nHeight : Int}
    (notCoinBase : tx.isCoinBase = false)
    (updated : view.updateCoins tx nHeight = .ok (after, txundo)) :
    ∃ spent, view.spendInputs tx.vin = .ok (spent, txundo) ∧
      after = spent.addOutputs tx nHeight := by
  rw [updateCoins, notCoinBase] at updated
  obtain ⟨⟨spent, undos⟩, spentInputs, finished⟩ := check_bind_eq_ok.mp updated
  cases finished
  exact ⟨spent, spentInputs, rfl⟩

theorem updateCoins_of_coinBase {tx : CTransaction} {txundo : CTxUndo} {nHeight : Int}
    (isCoinBase : tx.isCoinBase = true)
    (updated : view.updateCoins tx nHeight = .ok (after, txundo)) :
    after = view.addOutputs tx nHeight := by
  rw [updateCoins, isCoinBase] at updated
  cases updated
  rfl

end UtxoView

end Lycancoin

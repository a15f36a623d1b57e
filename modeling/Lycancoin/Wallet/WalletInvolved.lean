import Lycancoin.Validation.Providers
import Lycancoin.Wallet.WalletDepth

namespace Lycancoin

open Std Data

/-- An output of the wallet that is worth something. -/
def CTxOut.Owned (isMine : CScript → IsMineType) (txout : CTxOut) : Prop :=
  isMine txout.scriptPubKey ≠ .no ∧ 0 < txout.nValue

/-- The transaction pays to the wallet, or spends an output of the wallet that is worth something.
`known` are all transactions that the run meets. -/
def CTransaction.Involves (isMine : CScript → IsMineType) (known : Set CTransaction)
    (tx : CTransaction) : Prop :=
  tx.isMine isMine = true ∨ tx.isCoinBase = false ∧ ∃ txin ∈ tx.vin, ∃ parent ∈ known,
    ∃ txout, parent.Provides txin.prevout txout ∧ txout.Owned isMine

structure WalletSound (known : Set CTransaction) (mapWallet : WalletMap) : Prop where
  hash_eq : ∀ (txid : Uint256) (wtx : CWalletTx), mapWallet[txid]? = some wtx → wtx.tx.hash = txid
  known : ∀ (txid : Uint256) (wtx : CWalletTx), mapWallet[txid]? = some wtx → wtx.tx ∈ known
  checked : ∀ (txid : Uint256) (wtx : CWalletTx), mapWallet[txid]? = some wtx →
    checkTransaction wtx.tx = .ok ()

theorem CTxOut.eight_le_getSerializeSize (txout : CTxOut) : 8 ≤ txout.getSerializeSize := by
  rw [CTxOut.getSerializeSize]
  omega

theorem checkTransaction_length_lt {tx : CTransaction} (checked : checkTransaction tx = .ok ()) :
    tx.vout.length < 0xffffffff := by
  obtain ⟨_, passed⟩ := check_seq_eq_ok.mp checked
  obtain ⟨_, passed⟩ := check_seq_eq_ok.mp passed
  obtain ⟨size, _⟩ := check_seq_eq_ok.mp passed
  rw [rejectIf_eq_ok, decide_eq_false_iff_not, Nat.not_lt] at size
  have outputs : tx.vout.length * 8 ≤ (tx.vout.map CTxOut.getSerializeSize).sum := by
    have each := List.card_nsmul_le_sum (tx.vout.map CTxOut.getSerializeSize) 8 fun length member => by
      obtain ⟨txout, _, rfl⟩ := List.mem_map.mp member
      exact txout.eight_le_getSerializeSize
    simpa using each
  have limit : MAX_BLOCK_SIZE = 1000000 := rfl
  rw [CTransaction.getSerializeSize] at size
  omega

theorem IsMineFilter.ne_no_of_accepts {filter : IsMineFilter} {mine : IsMineType}
    (accepted : filter.accepts mine = true) : mine ≠ .no := by
  rintro rfl
  contradiction

theorem IsMineFilter.accepts_all {mine : IsMineType} (involved : mine ≠ .no) :
    ISMINE_ALL.accepts mine = true := by
  cases mine with
  | no => contradiction
  | watchOnly => rfl
  | spendable => rfl

theorem sum_pos_iff {values : List Int} (nonnegative : ∀ value ∈ values, 0 ≤ value) :
    0 < values.sum ↔ ∃ value ∈ values, 0 < value := by
  induction values with
  | nil => simp
  | cons value rest ih =>
      obtain ⟨own, others⟩ := List.forall_mem_cons.mp nonnegative
      have sum := List.sum_nonneg others
      rw [List.sum_cons, List.exists_mem_cons_iff, ← ih others]
      omega

section Debit

variable {filter : IsMineFilter} {isMine : CScript → IsMineType} {known : Set CTransaction} {mapWallet : WalletMap}
  {tx : CTransaction} {txin : CTxIn} {txout : CTxOut} {view : UtxoView}

theorem getDebitOf_eq {wtx : CWalletTx} (found : mapWallet[txin.prevout.hash]? = some wtx)
    (stored : wtx.tx.vout[txin.prevout.n.toNat]? = some txout) :
    mapWallet.getDebitOf isMine filter txin =
      if filter.accepts (isMine txout.scriptPubKey) then txout.nValue else 0 := by
  simp only [WalletMap.getDebitOf, found, stored]

theorem exists_of_getDebitOf_ne_zero (debited : mapWallet.getDebitOf isMine filter txin ≠ 0) :
    ∃ wtx txout, mapWallet[txin.prevout.hash]? = some wtx ∧
      wtx.tx.vout[txin.prevout.n.toNat]? = some txout ∧
      filter.accepts (isMine txout.scriptPubKey) = true ∧
      mapWallet.getDebitOf isMine filter txin = txout.nValue := by
  cases found : mapWallet[txin.prevout.hash]? with
  | none => simp [WalletMap.getDebitOf, found] at debited
  | some wtx =>
      cases stored : wtx.tx.vout[txin.prevout.n.toNat]? with
      | none => simp [WalletMap.getDebitOf, found, stored] at debited
      | some txout =>
          have value := @getDebitOf_eq filter isMine _ _ _ _ found stored
          rw [value] at debited ⊢
          split at debited
          · rename_i mine
            exact ⟨wtx, txout, rfl, stored, mine, if_pos mine⟩
          · contradiction

theorem getDebitOf_bounds (sound : WalletSound known mapWallet)
    (identified : Set.InjOn CTransaction.hash known) (provided : view.ProvidedBy (· ∈ known))
    (available : view.output txin.prevout = some txout) (nonnegative : 0 ≤ txout.nValue) :
    0 ≤ mapWallet.getDebitOf isMine filter txin ∧
      mapWallet.getDebitOf isMine filter txin ≤ txout.nValue := by
  by_cases debited : mapWallet.getDebitOf isMine filter txin = 0
  · rw [debited]
    exact ⟨le_rfl, nonnegative⟩
  · obtain ⟨wtx, spent, found, stored, _, value⟩ := exists_of_getDebitOf_ne_zero debited
    obtain ⟨parent, isKnown, hash, place⟩ := provided _ _ available
    have same : wtx.tx = parent := identified (sound.known _ _ found) isKnown
      ((sound.hash_eq _ _ found).trans hash.symm)
    rw [same, place] at stored
    cases stored
    rw [value]
    exact ⟨nonnegative, le_rfl⟩

theorem checkInputValues_cons {nSpendHeight : Nat} {nValueIn total : Int} {rest : List CTxIn}
    (passed : checkInputValues view nSpendHeight nValueIn (txin :: rest) = .ok total) :
    ∃ txout, view.output txin.prevout = some txout ∧ 0 ≤ txout.nValue ∧
      nValueIn + txout.nValue ≤ MAX_MONEY ∧
      checkInputValues view nSpendHeight (nValueIn + txout.nValue) rest = .ok total := by
  unfold checkInputValues at passed
  split at passed
  · rename_i coins txout _ available
    obtain ⟨_, passed⟩ := check_seq_eq_ok.mp passed
    obtain ⟨sum, added, passed⟩ := check_bind_eq_ok.mp passed
    obtain ⟨ranges, passed⟩ := check_seq_eq_ok.mp passed
    have exact : sum = nValueIn + txout.nValue := by
      rw [addAmount] at added
      split at added
      · rename_i fits
        cases added
        exact (int64_eq_some.mp fits).2
      · contradiction
    rw [rejectIf_eq_ok, Bool.or_eq_false_iff, Bool.not_eq_false', Bool.not_eq_false',
      moneyRange_iff, moneyRange_iff, exact] at ranges
    rw [exact] at passed
    exact ⟨txout, available, ranges.1.1, ranges.2.2, passed⟩
  · contradiction

theorem exists_output_of_checkInputValues {nSpendHeight : Nat} {nValueIn total : Int}
    {vin : List CTxIn} (passed : checkInputValues view nSpendHeight nValueIn vin = .ok total) :
    ∀ txin ∈ vin, ∃ txout, view.output txin.prevout = some txout := by
  induction vin generalizing nValueIn with
  | nil => simp
  | cons first rest ih =>
      obtain ⟨txout, available, _, _, restValues⟩ := checkInputValues_cons passed
      exact List.forall_mem_cons.mpr ⟨⟨txout, available⟩, ih restValues⟩

/-- `GetDebit` of a transaction whose inputs were added up does not throw: it is the sum of what
the inputs are debited, none of them below zero. -/
theorem sumDebits_spec (sound : WalletSound known mapWallet)
    (identified : Set.InjOn CTransaction.hash known) (provided : view.ProvidedBy (· ∈ known))
    {nSpendHeight : Nat} {nValueIn total nDebit : Int} {vin : List CTxIn}
    (values : checkInputValues view nSpendHeight nValueIn vin = .ok total)
    (nonnegative : 0 ≤ nDebit) (bounded : nDebit ≤ nValueIn) :
    (∀ txin ∈ vin, 0 ≤ mapWallet.getDebitOf isMine filter txin) ∧
      mapWallet.sumDebits isMine filter nDebit vin =
        some (nDebit + (vin.map (mapWallet.getDebitOf isMine filter)).sum) := by
  induction vin generalizing nValueIn nDebit with
  | nil => exact ⟨nofun, by simp [WalletMap.sumDebits]⟩
  | cons txin rest ih =>
      obtain ⟨txout, available, positive, limit, restValues⟩ := checkInputValues_cons values
      obtain ⟨low, high⟩ := @getDebitOf_bounds filter isMine _ _ _ _ _ sound identified provided
        available positive
      have sum : 0 ≤ nDebit + mapWallet.getDebitOf isMine filter txin := by omega
      obtain ⟨others, ran⟩ := ih restValues sum (by omega)
      have inRange : moneyRange (nDebit + mapWallet.getDebitOf isMine filter txin) = true := by
        rw [moneyRange_iff]
        omega
      refine ⟨List.forall_mem_cons.mpr ⟨low, others⟩, ?_⟩
      rw [WalletMap.sumDebits, if_pos inRange, ran, List.map_cons, List.sum_cons, add_assoc]

theorem getDebit_spec (sound : WalletSound known mapWallet)
    (identified : Set.InjOn CTransaction.hash known) (notCoinBase : tx.isCoinBase = false)
    (funded : tx.Funded (· ∈ known)) :
    (∀ txin ∈ tx.vin, 0 ≤ mapWallet.getDebitOf isMine filter txin) ∧
      mapWallet.getDebit isMine filter tx =
        some (tx.vin.map (mapWallet.getDebitOf isMine filter)).sum := by
  obtain ⟨view, nSpendHeight, nValueIn, provided, values⟩ := funded notCoinBase
  obtain ⟨each, ran⟩ :=
    @sumDebits_spec filter isMine _ _ _ sound identified provided _ _ _ _ _ values le_rfl le_rfl
  rw [zero_add] at ran
  exact ⟨each, ran⟩

/-- A coinbase is not debited, since no transaction has an output under the null outpoint. -/
theorem getDebit_coinBase (sound : WalletSound known mapWallet) (isCoinBase : tx.isCoinBase = true) :
    mapWallet.getDebit isMine filter tx = some 0 := by
  obtain ⟨txin, vin, isNull⟩ : ∃ txin, tx.vin = [txin] ∧ txin.prevout.isNull = true := by
    rw [CTransaction.isCoinBase] at isCoinBase
    split at isCoinBase
    · rename_i txin vin
      exact ⟨txin, vin, isCoinBase⟩
    · contradiction
  have nothing : mapWallet.getDebitOf isMine filter txin = 0 := by
    by_contra debited
    obtain ⟨wtx, txout, found, stored, _⟩ := exists_of_getDebitOf_ne_zero debited
    have short := checkTransaction_length_lt (sound.checked _ _ found)
    have within := (List.getElem?_eq_some_iff.mp stored).1
    rw [COutPoint.isNull, Bool.and_eq_true, beq_iff_eq] at isNull
    rw [isNull.2] at within
    have last : (0xffffffff : UInt32).toNat = 0xffffffff := rfl
    omega
  rw [WalletMap.getDebit, vin, WalletMap.sumDebits, nothing]
  rfl

end Debit

/-! What the wallet takes notice of. -/

section Notice

variable {hashes : Digests} {isMine : CScript → IsMineType} {known : Set CTransaction}
  {mapWallet after : WalletMap} {tx other : CTransaction} {txs : CTransaction → Prop}
  {pblock : Option CBlock}

theorem CTransaction.Funded.mono {more : CTransaction → Prop} (funded : tx.Funded txs)
    (weaker : ∀ tx, txs tx → more tx) : tx.Funded more := by
  intro notCoinBase
  obtain ⟨view, nSpendHeight, nValueIn, provided, values⟩ := funded notCoinBase
  exact ⟨view, nSpendHeight, nValueIn, provided.mono weaker, values⟩

/-- A transaction that `AddToWalletIfInvolvingMe` passes on. -/
def Noticed (isMine : CScript → IsMineType) (mapWallet : WalletMap) (tx : CTransaction) : Prop :=
  mapWallet.contains tx.hash = true ∨ tx.isMine isMine = true ∨
    tx.isCoinBase = false ∧ ∃ txin ∈ tx.vin, 0 < mapWallet.getDebitOf isMine .ISMINE_ALL txin

theorem isFromMe_spec (sound : WalletSound known mapWallet)
    (identified : Set.InjOn CTransaction.hash known) (funded : tx.Funded (· ∈ known)) :
    ∃ fromMe, mapWallet.isFromMe isMine tx = some fromMe ∧
      (fromMe = true ↔ tx.isCoinBase = false ∧
        ∃ txin ∈ tx.vin, 0 < mapWallet.getDebitOf isMine .ISMINE_ALL txin) := by
  cases isCoinBase : tx.isCoinBase with
  | true =>
      refine ⟨false, ?_, by simp⟩
      rw [WalletMap.isFromMe, getDebit_coinBase sound isCoinBase]
      rfl
  | false =>
      obtain ⟨nonnegative, debit⟩ :=
        @getDebit_spec .ISMINE_ALL isMine _ _ _ sound identified isCoinBase funded
      refine ⟨_, by rw [WalletMap.isFromMe, debit, Option.map_some], ?_⟩
      rw [decide_eq_true_eq, gt_iff_lt, sum_pos_iff (List.forall_mem_map.mpr nonnegative)]
      simp

theorem syncTransaction_spec (sound : WalletSound known mapWallet)
    (identified : Set.InjOn CTransaction.hash known) (funded : tx.Funded (· ∈ known)) :
    (Noticed isMine mapWallet tx → mapWallet.syncTransaction hashes isMine tx pblock =
        some (mapWallet.addToWallet (.ofSync hashes tx pblock))) ∧
      (¬Noticed isMine mapWallet tx →
        mapWallet.syncTransaction hashes isMine tx pblock = some mapWallet) := by
  obtain ⟨fromMe, isFromMe, spends⟩ := @isFromMe_spec isMine _ _ _ sound identified funded
  unfold WalletMap.syncTransaction Noticed
  rw [← spends, isFromMe, ← or_assoc, ← Bool.or_eq_true]
  cases mapWallet.contains tx.hash || tx.isMine isMine with
  | true => simp
  | false => cases fromMe <;> simp

theorem getElem?_of_contains {txid : Uint256} (present : mapWallet.contains txid = true) :
    ∃ wtx, mapWallet[txid]? = some wtx := by
  rw [ExtTreeMap.contains_eq_isSome_getElem?, Option.isSome_iff_exists] at present
  exact present

theorem contains_of_getElem? {txid : Uint256} {wtx : CWalletTx}
    (found : mapWallet[txid]? = some wtx) : mapWallet.contains txid = true := by
  rw [ExtTreeMap.contains_eq_isSome_getElem?, found]
  rfl

theorem Noticed.involves (noticed : Noticed isMine mapWallet tx)
    (sound : WalletSound known mapWallet) (new : mapWallet[tx.hash]? = none) :
    tx.Involves isMine known := by
  rcases noticed with present | pays | ⟨notCoinBase, txin, member, debited⟩
  · obtain ⟨wtx, found⟩ := getElem?_of_contains present
    rw [new] at found
    contradiction
  · exact .inl pays
  · obtain ⟨wtx, txout, found, stored, mine, value⟩ := exists_of_getDebitOf_ne_zero debited.ne'
    rw [value] at debited
    exact .inr ⟨notCoinBase, txin, member, wtx.tx, sound.known _ _ found, txout,
      ⟨sound.hash_eq _ _ found, stored⟩, IsMineFilter.ne_no_of_accepts mine, debited⟩

/-- A transaction of the chain or the pool: if it involves the wallet, the wallet has it. -/
structure Accounted (isMine : CScript → IsMineType) (known : Set CTransaction)
    (mapWallet : WalletMap) (tx : CTransaction) : Prop where
  isKnown : tx ∈ known
  checked : checkTransaction tx = .ok ()
  funded : tx.Funded (· ∈ known)
  held : tx.Involves isMine known → mapWallet.contains tx.hash = true

theorem Accounted.noticed (settled : Accounted isMine known mapWallet tx)
    (involves : tx.Involves isMine known) : Noticed isMine mapWallet tx :=
  .inl (settled.held involves)

theorem noticed_of_funded (sound : WalletSound known mapWallet)
    (identified : Set.InjOn CTransaction.hash known)
    (funded : tx.Funded (Accounted isMine known mapWallet)) (involves : tx.Involves isMine known) :
    Noticed isMine mapWallet tx := by
  rcases involves with pays | ⟨notCoinBase, txin, member, parent, isKnown, txout, provides, mine, worth⟩
  · exact .inr (.inl pays)
  · obtain ⟨view, nSpendHeight, nValueIn, provided, values⟩ := funded notCoinBase
    obtain ⟨spent, available⟩ := exists_output_of_checkInputValues values txin member
    obtain ⟨source, settled, hash, _⟩ := provided _ _ available
    have same : source = parent := identified settled.isKnown isKnown (hash.trans provides.1.symm)
    subst same
    have pays : source.isMine isMine = true :=
      List.any_eq_true.mpr ⟨txout, List.mem_of_getElem? provides.2, bne_iff_ne.mpr mine⟩
    obtain ⟨wtx, found⟩ := getElem?_of_contains (settled.held (.inl pays))
    have isTx : wtx.tx = source := identified (sound.known _ _ found) settled.isKnown
      (sound.hash_eq _ _ found)
    rw [hash] at found
    have value := @getDebitOf_eq .ISMINE_ALL isMine _ _ _ _ found (isTx ▸ provides.2)
    rw [if_pos (IsMineFilter.accepts_all mine)] at value
    exact .inr (.inr ⟨notCoinBase, txin, member, value ▸ worth⟩)

end Notice

/-! What one call of `SyncTransaction` keeps. -/

section Sync

variable {hashes : Digests} {isMine : CScript → IsMineType} {known : Set CTransaction}
  {mapWallet after : WalletMap} {tx other : CTransaction} {txs : CTransaction → Prop}
  {pblock : Option CBlock} {block : List CTransaction}

@[simp] theorem CWalletTx.tx_ofSync (hashes : Digests) (tx : CTransaction) (pblock : Option CBlock) :
    (CWalletTx.ofSync hashes tx pblock).tx = tx := by
  cases pblock with
  | none => rfl
  | some block =>
      rw [CWalletTx.ofSync, CWalletTx.setMerkleBranch]
      dsimp only
      split <;> rfl

@[simp] theorem CWalletTx.tx_merge (wtx wtxIn : CWalletTx) : (wtx.merge wtxIn).tx = wtx.tx := by
  simp only [CWalletTx.merge]
  split <;> split <;> rfl

/-- The wallet after one call: an entry that the call leaves alone, the new entry, or the entry
that takes over from the new one. -/
theorem getElem?_sync {txid : Uint256} {wtx : CWalletTx}
    (found : (mapWallet.addToWallet (.ofSync hashes tx pblock))[txid]? = some wtx) :
    (txid ≠ tx.hash ∧ mapWallet[txid]? = some wtx) ∨
      (txid = tx.hash ∧ mapWallet[txid]? = none ∧ wtx = .ofSync hashes tx pblock) ∨
      (txid = tx.hash ∧ ∃ old, mapWallet[txid]? = some old ∧
        wtx = old.merge (.ofSync hashes tx pblock)) := by
  rw [WalletMap.getElem?_addToWallet, CWalletTx.tx_ofSync] at found
  split at found
  · rename_i here
    cases present : mapWallet[txid]? with
    | none =>
        rw [present] at found
        cases found
        exact .inr (.inl ⟨here, rfl, rfl⟩)
    | some old =>
        rw [present] at found
        cases found
        exact .inr (.inr ⟨here, old, rfl, rfl⟩)
  · rename_i elsewhere
    exact .inl ⟨elsewhere, found⟩

theorem contains_addToWallet {txid : Uint256} (mapWallet : WalletMap) (wtxIn : CWalletTx)
    (present : mapWallet.contains txid = true ∨ txid = wtxIn.tx.hash) :
    (mapWallet.addToWallet wtxIn).contains txid = true := by
  rw [ExtTreeMap.contains_eq_isSome_getElem?, WalletMap.getElem?_addToWallet]
  split
  · rfl
  · rename_i elsewhere
    rw [← ExtTreeMap.contains_eq_isSome_getElem?]
    exact present.resolve_right elsewhere

theorem Accounted.mono (settled : Accounted isMine known mapWallet other)
    (grows : ∀ txid, mapWallet.contains txid = true → after.contains txid = true) :
    Accounted isMine known after other :=
  { settled with held := fun involves => grows _ (settled.held involves) }

theorem syncTransaction_settles (sound : WalletSound known mapWallet)
    (identified : Set.InjOn CTransaction.hash known) (isKnown : tx ∈ known)
    (checked : checkTransaction tx = .ok ()) (funded : tx.Funded (· ∈ known))
    (noticed : tx.Involves isMine known → Noticed isMine mapWallet tx) :
    ∃ after, mapWallet.syncTransaction hashes isMine tx pblock = some after ∧
      WalletSound known after ∧
      (∀ txid, mapWallet.contains txid = true → after.contains txid = true) ∧
      Accounted isMine known after tx := by
  obtain ⟨adds, stays⟩ :=
    @syncTransaction_spec hashes isMine _ _ _ pblock sound identified funded
  by_cases isNoticed : Noticed isMine mapWallet tx
  · refine ⟨_, adds isNoticed, ⟨?_, ?_, ?_⟩, ?_, isKnown, checked, funded, ?_⟩
    · intro txid wtx found
      rcases getElem?_sync found with ⟨_, old⟩ | ⟨here, _, rfl⟩ | ⟨_, old, present, rfl⟩
      · exact sound.hash_eq _ _ old
      · rw [CWalletTx.tx_ofSync, here]
      · rw [CWalletTx.tx_merge]
        exact sound.hash_eq _ _ present
    · intro txid wtx found
      rcases getElem?_sync found with ⟨_, old⟩ | ⟨_, _, rfl⟩ | ⟨_, old, present, rfl⟩
      · exact sound.known _ _ old
      · rwa [CWalletTx.tx_ofSync]
      · rw [CWalletTx.tx_merge]
        exact sound.known _ _ present
    · intro txid wtx found
      rcases getElem?_sync found with ⟨_, old⟩ | ⟨_, _, rfl⟩ | ⟨_, old, present, rfl⟩
      · exact sound.checked _ _ old
      · rwa [CWalletTx.tx_ofSync]
      · rw [CWalletTx.tx_merge]
        exact sound.checked _ _ present
    · exact fun txid present => contains_addToWallet _ _ (.inl present)
    · intro _
      exact contains_addToWallet _ _ (.inr (by rw [CWalletTx.tx_ofSync]))
  · exact ⟨_, stays isNoticed, sound, fun _ => id, isKnown, checked, funded,
      fun involves => absurd (noticed involves) isNoticed⟩

end Sync

end Lycancoin

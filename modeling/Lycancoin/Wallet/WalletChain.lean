import Lycancoin.Wallet.WalletRun

namespace Lycancoin

open Std Data

namespace NodeFault

variable {α β : Type} {result : Except NodeFault α} {next : α → Except NodeFault β}
  {middle : α → Prop} {post : β → Prop}

/-- A call that goes through leaves what `post` says, and the wallet does not throw. -/
def Keeps (result : Except NodeFault α) (post : α → Prop) : Prop :=
  match result with
  | .ok after => post after
  | .error fault => fault ≠ .thrown

theorem Keeps.bind (first : Keeps result middle)
    (rest : ∀ value, middle value → Keeps (next value) post) : Keeps (result >>= next) post := by
  cases result with
  | ok value => exact rest value first
  | error fault => exact first

theorem keeps_ofCheck (check : Check α) : Keeps (ofCheck check) fun value => check = .ok value := by
  cases check with
  | ok value => exact rfl
  | error failure => exact nofun

theorem keeps_ofPool (call : Except PoolFault α) :
    Keeps (ofPool call) fun value => call = .ok value := by
  cases call with
  | ok value => exact rfl
  | error fault => exact nofun

end NodeFault

open NodeFault

namespace WalletNode

variable {setting : WalletSetting} {known : Set CTransaction} {node after : WalletNode}
  {txs : CTransaction → Prop}

structure PoolSettled (setting : WalletSetting) (known : Set CTransaction) (mapWallet : WalletMap)
    (pool : CTxMemPool) : Prop where
  exact : pool.Exact
  settled : ∀ tx, pool.Holds tx →
    Accounted setting.isMine known mapWallet tx ∧ tx ≠ genesisCoinbase

theorem ne_genesisCoinbase {tx : CTransaction} (notCoinBase : tx.isCoinBase = false) :
    tx ≠ genesisCoinbase := by
  rintro rfl
  contradiction

theorem PoolSettled.mono {mapWallet grown : WalletMap} {pool left : CTxMemPool}
    (settled : PoolSettled setting known mapWallet pool) (exact : left.Exact)
    (kept : ∀ tx, left.Holds tx → pool.Holds tx)
    (grows : ∀ txid, mapWallet.contains txid = true → grown.contains txid = true) :
    PoolSettled setting known grown left where
  exact := exact
  settled := fun tx held =>
    ⟨(settled.settled tx (kept tx held)).1.mono grows, (settled.settled tx (kept tx held)).2⟩

/-- What `AcceptToMemoryPool` and the call of the wallet after it leave. -/
theorem sync_of_accepted {rules : PoolRules} {tx : CTransaction} {mempool : CTxMemPool}
    (accepted : Accepted rules node.pcoinsTip node.mempool tx mempool)
    (identified : Set.InjOn CTransaction.hash known) (isKnown : tx ∈ known)
    (pool : PoolSettled setting known node.mapWallet node.mempool)
    (wallet : WalletPlaced setting known node.index node.chainActive node.mapWallet)
    (coins : node.pcoinsTip.ProvidedBy (Accounted setting.isMine known node.mapWallet)) :
    ∃ mapWallet, { node with mempool }.syncWithWallets setting [tx] none =
        .ok { node with mempool, mapWallet } ∧
      PoolSettled setting known mapWallet mempool ∧
      WalletPlaced setting known node.index node.chainActive mapWallet ∧
      ∀ txid, node.mapWallet.contains txid = true → mapWallet.contains txid = true := by
  have funded : tx.Funded (Accounted setting.isMine known node.mapWallet) :=
    (accepted.funded pool.exact coins).mono fun other source =>
      source.elim id fun held => (pool.settled other held).1
  have checked : checkTransaction tx = .ok () := (check_seq_eq_ok.mp accepted.loose).1
  have notGenesis := ne_genesisCoinbase accepted.not_coinBase
  obtain ⟨mapWallet, ran, placed, grows, settled⟩ := wallet.sync identified isKnown checked
    (funded.mono fun other source => source.isKnown) notGenesis
    (noticed_of_funded wallet.sound identified funded)
  refine ⟨mapWallet, ?_, ⟨accepted.exact pool.exact, fun other held => ?_⟩, placed, grows⟩
  · rw [syncWithWallets, WalletMap.syncTransactions, ran]
    rfl
  · rcases accepted.holds_iff held with before | rfl
    · exact ⟨(pool.settled other before).1.mono grows, (pool.settled other before).2⟩
    · exact ⟨settled, notGenesis⟩

/-! `DisconnectTip`. -/

/-- The node while the transactions of a block go back to the pool. -/
structure Resurrecting (setting : WalletSetting) (known : Set CTransaction) (start : WalletNode)
    (node : WalletNode) : Prop where
  same : ∃ mempool mapWallet, node = { start with mempool, mapWallet }
  pool : PoolSettled setting known node.mapWallet node.mempool
  wallet : WalletPlaced setting known start.index start.chainActive node.mapWallet
  coins : start.pcoinsTip.ProvidedBy (Accounted setting.isMine known node.mapWallet)

theorem Resurrecting.step {start : WalletNode} (resurrecting : Resurrecting setting known start node)
    (identified : Set.InjOn CTransaction.hash known) (rules : PoolRules) {tx : CTransaction}
    (isKnown : tx ∈ known) :
    Keeps (node.resurrect setting rules tx) (Resurrecting setting known start) := by
  obtain ⟨mempool, mapWallet, rfl⟩ := resurrecting.same
  obtain ⟨_, pool, wallet, coins⟩ := resurrecting
  have dropped : Keeps (do
      let removed ← ofPool (mempool.remove tx [] true)
      pure { start with mempool := removed.1, mapWallet }) (Resurrecting setting known start) := by
    refine (keeps_ofPool _).bind fun result removed => ?_
    obtain ⟨left, gone, ran, exact, removal⟩ := pool.exact.remove tx [] true
    rw [ran] at removed
    cases removed
    exact ⟨⟨left, mapWallet, rfl⟩, pool.mono exact (fun _ => removal.holds) fun _ => id, wallet,
      coins⟩
  unfold resurrect
  split
  · exact dropped
  · split
    · exact dropped
    · rename_i accepted ran
      obtain ⟨grown, synced, poolAfter, walletAfter, grows⟩ := sync_of_accepted
        (accepted_of_eq_ok ran) identified isKnown pool wallet coins
      rw [synced]
      exact ⟨⟨accepted, grown, rfl⟩, poolAfter, walletAfter,
        coins.mono fun other settled => settled.mono grows⟩

theorem Resurrecting.run {start : WalletNode} (resurrecting : Resurrecting setting known start node)
    (identified : Set.InjOn CTransaction.hash known) (rules : CTransaction → PoolRules)
    {block : List CTransaction} (isKnown : ∀ tx ∈ block, tx ∈ known) :
    Keeps (resurrectAll setting rules node block) (Resurrecting setting known start) := by
  induction block generalizing node with
  | nil => exact resurrecting
  | cons tx rest ih =>
      obtain ⟨own, others⟩ := List.forall_mem_cons.mp isKnown
      exact (resurrecting.step identified (rules tx) own).bind fun middle kept => ih kept others

/-! What holds of a node in every run. -/

/-- The transactions of the chain and the pool are settled, the coins come from the chain, and the
undo data of a block gives back coins of the chain below it. -/
structure NodeSound (setting : WalletSetting) (known : Set CTransaction) (node : WalletNode) :
    Prop where
  headers : ∃ calls, node.headers = HeaderIndex.run setting.env calls
  linked : ChainLinked node.index node.chainActive
  coins : node.pcoinsTip.ProvidedBy (InActive setting node.chainActive)
  undo : ∀ hash undos, node.vtxundo hash = some undos → ∀ block,
    setting.readBlockFromDisk hash = some block → ∃ below coinbase rest,
      block.vtx = coinbase :: rest ∧ below ≠ [] ∧ ChainLinked node.index (hash :: below) ∧
        UndoProvided (fun other => InActive setting below other ∨ other = coinbase) rest undos
  aboveGenesis : ∀ tx, InActive setting node.chainActive tx → tx ≠ genesisCoinbase
  notNull : ∀ hash ∈ node.chainActive.dropLast, hash ≠ Uint256.null
  pool : PoolSettled setting known node.mapWallet node.mempool
  wallet : WalletPlaced setting known node.index node.chainActive node.mapWallet

theorem NodeSound.indexed (sound : NodeSound setting known node) :
    PredecessorsIndexed node.index := by
  obtain ⟨calls, same⟩ := sound.headers
  rw [index, same]
  exact (indexSound_run setting.env calls).1.indexed

theorem NodeSound.coins_settled (sound : NodeSound setting known node) :
    node.pcoinsTip.ProvidedBy (Accounted setting.isMine known node.mapWallet) :=
  sound.coins.mono sound.wallet.settled

theorem NodeSound.acceptBlockHeader (sound : NodeSound setting known node) (call : HeaderCall) :
    NodeSound setting known { node with headers :=
      (Lycancoin.acceptBlockHeader setting.env call.nAdjustedTime call.block node.headers).2 } := by
  obtain ⟨calls, same⟩ := sound.headers
  have genesisKnown := (indexSound_run setting.env calls).1.genesisKnown
  have kept : ∀ (hash : Uint256) (pindex : CBlockIndex), node.index[hash]? = some pindex →
      (Lycancoin.acceptBlockHeader setting.env call.nAdjustedTime call.block
        node.headers).2.mapBlockIndex[hash]? = some pindex := by
    intro hash pindex found
    rw [index, same] at found
    rw [same]
    by_cases passes : PassesChecks setting.env (HeaderIndex.run setting.env calls) call
    · rw [acceptBlockHeader_of_passesChecks genesisKnown passes]
      exact getElem?_insert_of_present passes.unknown found _
    · rw [acceptBlockHeader_of_not_passesChecks genesisKnown passes]
      exact found
  exact {
    headers := ⟨calls ++ [call], by rw [HeaderIndex.run_append, same]⟩
    linked := sound.linked.mono kept
    coins := sound.coins
    undo := by
      intro hash undos written block stored
      obtain ⟨below, coinbase, rest, vtx, more, linked, provided⟩ :=
        sound.undo hash undos written block stored
      exact ⟨below, coinbase, rest, vtx, more, linked.mono kept, provided⟩
    aboveGenesis := sound.aboveGenesis
    notNull := sound.notNull
    pool := sound.pool
    wallet := sound.wallet.mono kept }

theorem NodeSound.acceptToMemoryPool (sound : NodeSound setting known node)
    (identified : Set.InjOn CTransaction.hash known) (rules : PoolRules) {tx : CTransaction}
    (isKnown : tx ∈ known) (fLimitFree fRejectAbsurdFee : Bool) :
    Keeps (node.acceptToMemoryPool setting rules tx fLimitFree fRejectAbsurdFee)
      (NodeSound setting known) := by
  unfold WalletNode.acceptToMemoryPool
  split
  · exact nofun
  · rename_i mempool ran
    obtain ⟨mapWallet, synced, pool, wallet, _⟩ := sync_of_accepted (accepted_of_eq_ok ran)
      identified isKnown sound.pool sound.wallet sound.coins_settled
    rw [synced]
    exact { sound with pool, wallet }

/-- The wallet when the tip has been taken off the chain. -/
theorem placed_of_disconnected {index : BlockMap} {hash : Uint256} {rest : CChain}
    {mapWallet : WalletMap} (placed : WalletPlaced setting known index (hash :: rest) mapWallet)
    (more : rest ≠ []) : WalletPlaced setting known index rest mapWallet where
  sound := placed.sound
  last := by
    have last := placed.last
    rwa [List.getLast?_cons_of_ne_nil more] at last
  settled := by
    rintro tx ⟨other, member, block, stored, inside⟩
    refine placed.settled tx ⟨other, ?_, block, stored, inside⟩
    rw [dropLast_cons hash more]
    exact List.mem_cons_of_mem _ member
  entries := fun txid wtx found =>
    { placed.entries txid wtx found with
      active := fun other member =>
        (placed.entries txid wtx found).active other (List.mem_cons_of_mem _ member) }

theorem NodeSound.disconnectTip (sound : NodeSound setting known node)
    (identified : Set.InjOn CTransaction.hash known) (rules : CTransaction → PoolRules) :
    Keeps (node.disconnectTip setting rules) (NodeSound setting known) := by
  unfold WalletNode.disconnectTip
  split
  · exact nofun
  · rename_i hash rest chain
    split
    · rename_i block pindexDelete vtxundo stored found written
      obtain ⟨below, coinbase, others, vtx, more, linkedBelow, undone⟩ :=
        sound.undo hash vtxundo written block stored
      have linked := sound.linked
      rw [chain] at linked
      obtain rfl := linked.unique linkedBelow
      have active : ∀ tx, InActive setting node.chainActive tx ↔
          InActive setting below tx ∨ tx ∈ block.vtx := by
        intro tx
        rw [chain]
        exact inActive_cons more stored
      refine (keeps_ofCheck _).bind fun result ran => ?_
      obtain ⟨fClean, view⟩ := result
      have provided : view.ProvidedBy (InActive setting below) :=
        disconnectBlock_provided vtx (sound.coins.mono fun tx => (active tx).mp) undone ran
      dsimp only
      split
      · exact nofun
      · have settled : ∀ tx ∈ block.vtx, Accounted setting.isMine known node.mapWallet tx :=
          fun tx member => sound.wallet.settled tx ((active tx).mpr (.inr member))
        have start : Resurrecting setting known { node with pcoinsTip := view }
            { node with pcoinsTip := view } :=
          ⟨⟨node.mempool, node.mapWallet, rfl⟩, sound.pool, sound.wallet,
            provided.mono fun tx member => sound.wallet.settled tx ((active tx).mpr (.inl member))⟩
        refine (start.run identified rules fun tx member => (settled tx member).isKnown).bind
          fun middle kept => ?_
        obtain ⟨mempool, mapWallet, rfl⟩ := kept.same
        refine (keeps_ofPool _).bind fun left swept => ?_
        have poolLeft : PoolSettled setting known mapWallet left := by
          rcases kept.pool.exact.removeCoinbaseSpends view (UInt32.ofNat pindexDelete.nHeight) with
            ⟨same, gone, ran, exact, removal⟩ | ⟨failed, _⟩
          · rw [ran] at swept
            cases swept
            exact kept.pool.mono exact (fun _ => removal.holds) fun _ => id
          · rw [failed] at swept
            contradiction
        have wallet := kept.wallet
        dsimp only at wallet
        rw [chain] at wallet
        obtain ⟨grown, synced, placed, grows⟩ :=
          (placed_of_disconnected wallet more).syncAll identified fun tx member =>
            ⟨kept.wallet.settled tx ((active tx).mpr (.inr member)),
              sound.aboveGenesis tx ((active tx).mpr (.inr member))⟩
        simp only [syncWithWallets, synced]
        exact {
          headers := sound.headers
          linked := linked.tail more
          coins := provided
          undo := sound.undo
          aboveGenesis := fun tx member => sound.aboveGenesis tx ((active tx).mpr (.inl member))
          notNull := by
            intro other member
            refine sound.notNull other ?_
            rw [chain, dropLast_cons hash more]
            exact List.mem_cons_of_mem _ member
          pool := poolLeft.mono poolLeft.exact (fun _ => id) grows
          wallet := placed }
    · exact nofun

/-- A block that may be connected: the transactions of the run have hashes of their own, the entry
was made from the header of the block, and no active block has one of its transactions. -/
def Connectable (setting : WalletSetting) (known : Set CTransaction) (node : WalletNode)
    (hash : Uint256) : Prop :=
  ∀ block, setting.readBlockFromDisk hash = some block →
    hash ≠ Uint256.null ∧ (∀ tx ∈ block.vtx, tx ∈ known) ∧
      (∀ pindex, node.index[hash]? = some pindex →
        pindex.hashMerkleRoot = block.hashMerkleRoot) ∧
      ∀ tx ∈ block.vtx, ∀ other ∈ node.chainActive, ∀ old,
        setting.readBlockFromDisk other = some old → tx ∉ old.vtx

theorem checkBlock_transactions {env : Environment} {nAdjustedTime : Int} {block : CBlock}
    (passed : checkBlock env nAdjustedTime block true true = .ok ()) :
    ∀ tx ∈ block.vtx, checkTransaction tx = .ok () := by
  obtain ⟨_, passed⟩ := check_seq_eq_ok.mp passed
  obtain ⟨_, passed⟩ := check_seq_eq_ok.mp passed
  obtain ⟨_, passed⟩ := check_seq_eq_ok.mp passed
  obtain ⟨_, passed⟩ := check_seq_eq_ok.mp passed
  obtain ⟨_, passed⟩ := check_seq_eq_ok.mp passed
  obtain ⟨transactions, _⟩ := check_seq_eq_ok.mp passed
  generalize block.vtx = txs at transactions
  induction txs with
  | nil => simp
  | cons tx rest ih =>
      obtain ⟨own, others⟩ := check_seq_eq_ok.mp transactions
      exact List.forall_mem_cons.mpr ⟨own, ih others⟩

theorem NodeSound.ne_genesis (sound : NodeSound setting known node) {hash : Uint256}
    {pindex : CBlockIndex} (found : node.index[hash]? = some pindex)
    (pprev : pindex.pprev = node.chainActive.head?) :
    hash ≠ setting.env.consensus.hashGenesisBlock := by
  rintro rfl
  obtain ⟨calls, same⟩ := sound.headers
  rw [index, same, genesis_entry_run] at found
  cases found
  have root : (newBlockIndex ∅ setting.env.params.genesis).pprev = none := by
    simp [newBlockIndex, CBlockIndex.ofHeader]
  rw [root] at pprev
  have linked := sound.linked
  rw [List.head?_eq_none_iff.mp pprev.symm] at linked
  exact linked

theorem Connectable.nextBlock {hash : Uint256}
    {pindex : CBlockIndex} {block : CBlock} {nAdjustedTime : Int}
    (connectable : Connectable setting known node hash) (found : node.index[hash]? = some pindex)
    (stored : setting.readBlockFromDisk hash = some block)
    (checked : checkBlock setting.env nAdjustedTime block true true = .ok ()) :
    NextBlock setting known node.index node.chainActive hash block := by
  obtain ⟨notNull, isKnown, root, fresh⟩ := connectable block stored
  refine ⟨notNull, stored, ⟨pindex, found, ?_⟩, isKnown, checkBlock_transactions checked, fresh⟩
  rw [root pindex found, (checkBlock_merkle checked).2.1]

theorem NodeSound.connectTip (sound : NodeSound setting known node)
    (identified : Set.InjOn CTransaction.hash known) (nAdjustedTime : Int) {hash : Uint256}
    (connectable : Connectable setting known node hash) :
    Keeps (node.connectTip setting nAdjustedTime hash) (NodeSound setting known) := by
  unfold WalletNode.connectTip
  split
  · rename_i pindexNew block found stored
    split
    · exact nofun
    · rename_i parent
      rw [ne_eq, not_not] at parent
      refine (keeps_ofCheck _).bind fun result ran => ?_
      obtain ⟨view, vtxundo⟩ := result
      have behind : setting.env.hashes.getHash block.toCBlockHeader ≠
          setting.env.consensus.hashGenesisBlock := by
        rw [setting.getHash_eq hash block stored]
        exact sound.ne_genesis found parent
      obtain ⟨provided, funded, coinbase, rest, undos, vtx, rfl, undone⟩ :=
        connectBlock_provided sound.coins ran behind
      have next := connectable.nextBlock found stored (connectBlock_spec ran).1
      have more : node.chainActive ≠ [] := by
        intro empty
        have linked := sound.linked
        rw [empty] at linked
        exact linked
      have active : ∀ tx, InActive setting (hash :: node.chainActive) tx ↔
          InActive setting node.chainActive tx ∨ tx ∈ block.vtx :=
        fun tx => inActive_cons more stored
      obtain ⟨mempool, txConflicted, removed, exact, kept, reported, _⟩ :=
        sound.pool.exact.removeForBlock_members block.vtx []
      obtain ⟨middle, conflictsSynced, middlePlaced, middleGrows⟩ :=
        sound.wallet.syncAll identified fun tx member =>
          sound.pool.settled tx ((reported tx member).resolve_left List.not_mem_nil)
      have passing : Passing setting known node.index node.chainActive hash [] middle :=
        ⟨middlePlaced, nofun, nofun⟩
      obtain ⟨grown, synced, passed, grows⟩ := passing.run next identified (fun _ => id)
        (fun tx member => (sound.wallet.settled tx member).mono middleGrows) funded
      simp only [removed, ofPool, syncWithWallets, conflictsSynced, ofWallet, bind, Except.bind,
        pure, Except.pure, synced]
      have linked : ChainLinked node.index (hash :: node.chainActive) :=
        sound.linked.cons found parent
      exact {
        headers := sound.headers
        linked := linked
        coins := provided.mono fun tx member => (active tx).mpr member
        undo := by
          intro place written isWritten old oldStored
          dsimp only at isWritten
          by_cases here : place = hash
          · subst here
            rw [Function.update_self] at isWritten
            cases before : node.vtxundo place with
            | none =>
                rw [before] at isWritten
                cases isWritten
                rw [stored] at oldStored
                cases oldStored
                exact ⟨node.chainActive, coinbase, rest, vtx, more, linked, undone⟩
            | some earlier =>
                rw [before] at isWritten
                cases isWritten
                exact sound.undo place _ before old oldStored
          · rw [Function.update_of_ne here] at isWritten
            exact sound.undo place written isWritten old oldStored
        aboveGenesis := by
          intro tx member
          rcases (active tx).mp member with below | inside
          · exact sound.aboveGenesis tx below
          · exact next.notGenesis sound.wallet.last tx inside
        notNull := by
          intro other member
          rw [dropLast_cons hash more] at member
          rcases List.mem_cons.mp member with rfl | below
          · exact next.notNull
          · exact sound.notNull other below
        pool := sound.pool.mono exact kept fun txid present => grows txid (middleGrows txid present)
        wallet := passed.finish next }
  · exact nofun

/-- `GetDepthInMainChain` leaves its note. -/
theorem NodeSound.note (sound : NodeSound setting known node) {txid : Uint256} {wtx : CWalletTx}
    (found : node.mapWallet[txid]? = some wtx) (fMerkleVerified : Bool) :
    NodeSound setting known { node with
      mapWallet := node.mapWallet.insert txid { wtx with fMerkleVerified } } := by
  have entries : ∀ (place : Uint256) (shown : CWalletTx),
      (node.mapWallet.insert txid { wtx with fMerkleVerified })[place]? = some shown →
        ∃ old fMerkleVerified, node.mapWallet[place]? = some old ∧
          shown = { old with fMerkleVerified } := by
    intro place shown stands
    rw [KeyedBatch.getElem?_insert_eq] at stands
    split at stands
    · rename_i here
      cases stands
      exact ⟨wtx, fMerkleVerified, here ▸ found, rfl⟩
    · exact ⟨shown, shown.fMerkleVerified, stands, rfl⟩
  have grows : ∀ place, node.mapWallet.contains place = true →
      (node.mapWallet.insert txid { wtx with fMerkleVerified }).contains place = true := by
    intro place present
    rw [ExtTreeMap.contains_insert, present, Bool.or_true]
  exact { sound with
    pool := sound.pool.mono sound.pool.exact (fun _ => id) grows
    wallet := {
      sound := {
        hash_eq := by
          intro place shown stands
          obtain ⟨old, _, before, rfl⟩ := entries place shown stands
          exact sound.wallet.sound.hash_eq place old before
        known := by
          intro place shown stands
          obtain ⟨old, _, before, rfl⟩ := entries place shown stands
          exact sound.wallet.sound.known place old before
        checked := by
          intro place shown stands
          obtain ⟨old, _, before, rfl⟩ := entries place shown stands
          exact sound.wallet.sound.checked place old before }
      last := sound.wallet.last
      settled := fun tx active => (sound.wallet.settled tx active).mono grows
      entries := by
        intro place shown stands
        obtain ⟨old, _, before, rfl⟩ := entries place shown stands
        obtain ⟨placed, notGenesis, active⟩ := sound.wallet.entries place old before
        refine ⟨placed.imp id ?_, notGenesis, active⟩
        rintro ⟨block, inBlock⟩
        exact ⟨block, inBlock.notNull, inBlock.stored, inBlock.root, inBlock.branch,
          inBlock.known⟩ } }

def Admissible (setting : WalletSetting) (known : Set CTransaction) (node : WalletNode) :
    Call → Prop
  | .acceptToMemoryPool _ tx _ _ => tx ∈ known
  | .connectTip _ hash => Connectable setting known node hash
  | _ => True

/-- The nodes that calls lead to from the genesis block with an empty wallet. -/
inductive Reaches (setting : WalletSetting) (known : Set CTransaction) : WalletNode → Prop
  | genesis (fSanityCheck : Bool) : Reaches setting known (genesis setting fSanityCheck)
  | step {node after : WalletNode} {call : Call} :
      Reaches setting known node → Admissible setting known node call →
      node.step setting call = .ok after → Reaches setting known after

theorem nodeSound_genesis (fSanityCheck : Bool) :
    NodeSound setting known (genesis setting fSanityCheck) where
  headers := ⟨[], rfl⟩
  linked := by
    refine ⟨newBlockIndex ∅ setting.env.params.genesis, ?_, ?_⟩
    · exact genesis_entry_run setting.env []
    · simp [newBlockIndex, CBlockIndex.ofHeader]
  coins := by
    intro place txout available
    contradiction
  undo := nofun
  aboveGenesis := by
    rintro tx ⟨hash, member, _⟩
    contradiction
  notNull := by
    intro hash member
    contradiction
  pool := {
    exact := {
      hash_eq := CTxMemPool.exact_new.hash_eq
      next_iff := CTxMemPool.exact_new.next_iff
      size_eq := CTxMemPool.exact_new.size_eq }
    settled := by
      rintro tx ⟨entry, found, _⟩
      simp [genesis, CTxMemPool.new] at found }
  wallet := {
    sound := {
      hash_eq := by simp [genesis]
      known := by simp [genesis]
      checked := by simp [genesis] }
    last := rfl
    settled := by
      rintro tx ⟨hash, member, _⟩
      contradiction
    entries := by simp [genesis] }

theorem NodeSound.step (sound : NodeSound setting known node)
    (identified : Set.InjOn CTransaction.hash known) (call : Call)
    (admissible : Admissible setting known node call) :
    Keeps (node.step setting call) (NodeSound setting known) := by
  cases call with
  | acceptBlockHeader call => exact sound.acceptBlockHeader call
  | acceptToMemoryPool rules tx fLimitFree fRejectAbsurdFee =>
      exact sound.acceptToMemoryPool identified rules admissible fLimitFree fRejectAbsurdFee
  | connectTip nAdjustedTime hash => exact sound.connectTip identified nAdjustedTime admissible
  | disconnectTip rules => exact sound.disconnectTip identified rules
  | getDepthInMainChain txid =>
      rw [WalletNode.step]
      cases found : node.mapWallet[txid]? with
      | none => exact sound
      | some wtx =>
          obtain ⟨fMerkleVerified, same⟩ := CWalletTx.getDepthInMainChain_snd setting.env.hashes
            node.index node.chainActive node.mempool wtx
          dsimp only
          rw [WalletNode.getDepthInMainChain, same]
          exact sound.note found fMerkleVerified

theorem Reaches.sound (reached : Reaches setting known node)
    (identified : Set.InjOn CTransaction.hash known) : NodeSound setting known node := by
  induction reached with
  | genesis fSanityCheck => exact nodeSound_genesis fSanityCheck
  | step _ admissible ran ih =>
      have kept := ih.step identified _ admissible
      rw [ran] at kept
      exact kept

theorem NodeSound.depth (sound : NodeSound setting known node)
    (identified : Set.InjOn CTransaction.hash known) {txid : Uint256} {wtx : CWalletTx}
    (found : node.mapWallet[txid]? = some wtx) :
    (∀ (nHeight : Nat) hash block, node.chainActive.atHeight nHeight = some hash →
      setting.readBlockFromDisk hash = some block → wtx.tx ∈ block.vtx →
      (node.getDepthInMainChain setting wtx).1 = node.chainActive.height - nHeight + 1) ∧
    ((∀ hash ∈ node.chainActive, ∀ block, setting.readBlockFromDisk hash = some block →
        wtx.tx ∉ block.vtx) →
      (node.getDepthInMainChain setting wtx).1 =
        if node.mempool.mapTx.contains wtx.tx.hash then 0 else -1) := by
  have entry := sound.wallet.entries txid wtx found
  constructor
  · intro nHeight hash block stands stored inside
    have member := ChainLinked.mem_of_atHeight stands
    have hashBlock := entry.active hash member block stored inside
    rcases entry.placed with null | ⟨own, inBlock⟩
    · rcases mem_dropLast_or_genesis sound.wallet.last member with above | rfl
      · exact absurd (hashBlock.symm.trans null) (sound.notNull hash above)
      · rw [setting.genesis] at stored
        cases stored
        exact absurd (List.mem_singleton.mp inside) entry.notGenesis
    · have depth := inBlock.depth_of_active sound.linked sound.indexed (hashBlock.symm ▸ stands)
      have within := (List.getElem?_eq_some_iff.mp stands).1
      rw [List.length_reverse] at within
      have positive : node.chainActive.height - nHeight + 1 ≠ 0 := by
        rw [CChain.height]
        omega
      rw [WalletNode.getDepthInMainChain, CWalletTx.getDepthInMainChain]
      dsimp only
      rw [depth, if_neg (fun none => positive none.1)]
  · intro outside
    have zero : (wtx.getDepthInMainChainINTERNAL setting.env.hashes node.index
        node.chainActive).1 = 0 := by
      rcases entry.placed with null | ⟨block, inBlock⟩
      · exact CWalletTx.depth_of_null null
      · refine inBlock.depth_of_not_active sound.linked sound.indexed fun member => ?_
        obtain ⟨nIndex, _, located, _⟩ := inBlock.branch
        rw [CBlock.txids, List.getElem?_map, Option.map_eq_some_iff] at located
        obtain ⟨tx, stands, hash⟩ := located
        have inside := List.mem_of_getElem? stands
        have same : tx = wtx.tx := identified (inBlock.known tx inside)
          (sound.wallet.sound.known txid wtx found) hash
        subst same
        exact outside _ member block inBlock.stored inside
    have isTx : (wtx.getDepthInMainChainINTERNAL setting.env.hashes node.index
        node.chainActive).2.tx = wtx.tx := CWalletTx.tx_getDepthInMainChainINTERNAL ..
    rw [WalletNode.getDepthInMainChain, CWalletTx.getDepthInMainChain]
    dsimp only
    rw [zero, isTx]
    cases node.mempool.mapTx.contains wtx.tx.hash <;> rfl

/-- In every run that starts with an empty wallet at the genesis block, the wallet has every
transaction of the chain above genesis and of the pool that pays to it or spends an output of it
that is worth something, every depth is right, and the wallet never throws. -/
theorem wallet_run (setting : WalletSetting) (known : Set CTransaction) (node : WalletNode)
    (identified : Set.InjOn CTransaction.hash known) (reached : Reaches setting known node) :
    (∀ tx, InActive setting node.chainActive tx ∨ node.mempool.Holds tx →
      tx.Involves setting.isMine known →
      ∃ wtx, node.mapWallet[tx.hash]? = some wtx ∧ wtx.tx = tx) ∧
    (∀ (txid : Uint256) (wtx : CWalletTx), node.mapWallet[txid]? = some wtx →
      (∀ (nHeight : Nat) hash block, node.chainActive.atHeight nHeight = some hash →
        setting.readBlockFromDisk hash = some block → wtx.tx ∈ block.vtx →
        (node.getDepthInMainChain setting wtx).1 = node.chainActive.height - nHeight + 1) ∧
      ((∀ hash ∈ node.chainActive, ∀ block, setting.readBlockFromDisk hash = some block →
          wtx.tx ∉ block.vtx) →
        (node.getDepthInMainChain setting wtx).1 =
          if node.mempool.mapTx.contains wtx.tx.hash then 0 else -1)) ∧
    ∀ call, Admissible setting known node call → node.step setting call ≠ .error .thrown := by
  have sound := reached.sound identified
  refine ⟨fun tx present involves => ?_, fun txid wtx found => sound.depth identified found,
    fun call admissible thrown => ?_⟩
  · have settled : Accounted setting.isMine known node.mapWallet tx := by
      rcases present with active | held
      · exact sound.wallet.settled tx active
      · exact (sound.pool.settled tx held).1
    obtain ⟨wtx, found⟩ := getElem?_of_contains (settled.held involves)
    exact ⟨wtx, found, identified (sound.wallet.sound.known _ _ found) settled.isKnown
      (sound.wallet.sound.hash_eq _ _ found)⟩
  · have kept := sound.step identified call admissible
    rw [thrown] at kept
    exact kept rfl

/-! Runs that connect one block after the other, and the wallet at the end of one. -/

section Extend

variable (setting : WalletSetting) (txs : List CTransaction)

/-- What `Connectable` asks of a block, for the transactions of a list. -/
def connectable (node : WalletNode) (hash : Uint256) (block : CBlock) : Bool :=
  !hash.isNull && block.vtx.all (fun tx => txs.contains tx) &&
    node.index[hash]?.all (fun pindex => pindex.hashMerkleRoot == block.hashMerkleRoot) &&
    node.chainActive.all fun other => (setting.readBlockFromDisk other).all fun old =>
      block.vtx.all fun tx => !old.vtx.contains tx

def extend (nAdjustedTime : Int) (node : WalletNode) (block : CBlock) : Option WalletNode :=
  let hash := setting.env.hashes.getHash block.toCBlockHeader
  let headers :=
    (acceptBlockHeader setting.env nAdjustedTime block.toCBlockHeader node.headers).2
  let node := { node with headers }
  if connectable setting txs node hash block && setting.readBlockFromDisk hash == some block then
    (node.connectTip setting nAdjustedTime hash).toOption
  else none

def extendAll (nAdjustedTime : Int) : WalletNode → List CBlock → Option WalletNode
  | node, [] => some node
  | node, block :: rest =>
      (extend setting txs nAdjustedTime node block).bind fun node =>
        extendAll nAdjustedTime node rest

end Extend

variable {listed : List CTransaction} {nAdjustedTime : Int}

theorem connectable_sound {hash : Uint256} {block : CBlock}
    (stored : setting.readBlockFromDisk hash = some block)
    (passed : connectable setting listed node hash block = true) :
    Connectable setting { tx | tx ∈ listed } node hash := by
  simp only [connectable, Bool.and_eq_true, List.all_eq_true, Option.all_eq_true, beq_iff_eq,
    Bool.not_eq_true', List.contains_iff_mem] at passed
  obtain ⟨⟨⟨notNull, inList⟩, root⟩, fresh⟩ := passed
  intro other isBlock
  rw [stored] at isBlock
  cases isBlock
  refine ⟨?_, inList, root, fun tx member place active old found inside => ?_⟩
  · rintro rfl
    contradiction
  · have absent := fresh place active old found tx member
    rw [List.contains_iff_mem.mpr inside] at absent
    contradiction

theorem Reaches.extend {block : CBlock} (reached : Reaches setting { tx | tx ∈ listed } node)
    (ran : extend setting listed nAdjustedTime node block = some after) :
    Reaches setting { tx | tx ∈ listed } after := by
  unfold WalletNode.extend at ran
  dsimp only at ran
  split at ran
  · rename_i passed
    rw [Bool.and_eq_true, beq_iff_eq] at passed
    cases connected : connectTip setting { node with headers := (acceptBlockHeader setting.env
        nAdjustedTime block.toCBlockHeader node.headers).2 } nAdjustedTime
        (setting.env.hashes.getHash block.toCBlockHeader) with
    | error fault =>
        rw [connected] at ran
        cases ran
    | ok result =>
        rw [connected] at ran
        cases ran
        have header : Reaches setting { tx | tx ∈ listed } { node with headers :=
            (acceptBlockHeader setting.env nAdjustedTime block.toCBlockHeader node.headers).2 } :=
          @Reaches.step _ _ _ _ (.acceptBlockHeader ⟨nAdjustedTime, block.toCBlockHeader⟩) reached
            trivial rfl
        exact @Reaches.step _ _ _ _ (.connectTip nAdjustedTime _) header
          (connectable_sound passed.2 passed.1) connected
  · cases ran

theorem Reaches.extendAll {blocks : List CBlock}
    (reached : Reaches setting { tx | tx ∈ listed } node)
    (ran : extendAll setting listed nAdjustedTime node blocks = some after) :
    Reaches setting { tx | tx ∈ listed } after := by
  induction blocks generalizing node with
  | nil =>
      cases ran
      exact reached
  | cons block rest ih =>
      obtain ⟨middle, first, others⟩ := Option.bind_eq_some_iff.mp ran
      exact ih (reached.extend first) others

/-- A script of the sample wallet, which also watches the output of the genesis block. -/
def ownScript : CScript := [0x51]

/-- The first of these coinbases pays `nValue` to the sample wallet. -/
def plainCoinbase (nValue : Int) (nHeight : Nat) : CTransaction :=
  { sampleCoinbase with
    hash := ⟨BitVec.ofNat 256 nHeight⟩
    vout := if nHeight = 1 then [{ nValue, scriptPubKey := ownScript }]
      else [{ nValue := 0, scriptPubKey := [] }] }

def plainBlock (nValue : Int) (nHeight : Nat) (rest : List CTransaction)
    (hashMerkleRoot : Uint256) : CBlock :=
  { sampleBlock with
    hashPrevBlock :=
      if nHeight = 1 then sampleEnvironment.consensus.hashGenesisBlock
      else ⟨BitVec.ofNat 256 (1391485369 + nHeight)⟩
    hashMerkleRoot
    nTime := UInt32.ofNat (1391485370 + nHeight)
    vtx := plainCoinbase nValue nHeight :: rest }

/-- A transaction that takes the output of the first coinbase from the wallet. -/
def plainSpend (nValue : Int) : CTransaction := sampleSpend 17 1 nValue

/-- Blocks on genesis, the last of which spends the first coinbase. -/
def plainBlocks (nValue : Int) : List CBlock :=
  (List.range 15).map (fun n => plainBlock nValue (n + 1) [] ⟨BitVec.ofNat 256 (n + 1)⟩) ++
    [plainBlock nValue 16 [plainSpend nValue] 65]

def plainTransactions (nValue : Int) : List CTransaction :=
  (plainBlocks nValue).flatMap fun block => block.vtx

def settingOf (blocks : List CBlock) : WalletSetting where
  env := sampleEnvironment
  scripts := sampleScripts
  isMine script :=
    if script = ownScript then .spendable
    else if genesisCoinbase.vout.any fun txout => txout.scriptPubKey = script then .watchOnly
    else .no
  readBlockFromDisk hash :=
    (genesisBlock sampleEnvironment :: blocks).find? fun block =>
      sampleHashes.getHash block.toCBlockHeader == hash
  genesis := List.find?_cons_of_pos (beq_self_eq_true _)
  getHash_eq := by
    intro hash block found
    have same := List.find?_some found
    exact eq_of_beq same

def plainSetting (nValue : Int) : WalletSetting := settingOf (plainBlocks nValue)

/-- The blocks of a list come in on top of genesis. -/
def runOf (blocks : List CBlock) : Option WalletNode :=
  extendAll (settingOf blocks) (blocks.flatMap fun block => block.vtx) 1391489000
    (genesis (settingOf blocks) true) blocks

theorem runOf_of_any {blocks : List CBlock} {property : WalletNode → Bool}
    (holds : (runOf blocks).any property = true) :
    ∃ node, Reaches (settingOf blocks) { tx | tx ∈ blocks.flatMap fun block => block.vtx } node ∧
      property node = true := by
  obtain ⟨node, ran, result⟩ := (Option.any_eq_true _ _).mp holds
  exact ⟨node, (Reaches.genesis true).extendAll ran, result⟩

theorem plainRun_of_any {nValue : Int} {property : WalletNode → Bool}
    (holds : (runOf (plainBlocks nValue)).any property = true) :
    ∃ node, Reaches (plainSetting nValue) { tx | tx ∈ plainTransactions nValue } node ∧
      property node = true :=
  runOf_of_any holds

theorem identified_of_apart
    (apart : ∀ tx ∈ listed, ∀ other ∈ listed, tx.hash = other.hash → tx = other) :
    Set.InjOn CTransaction.hash { tx | tx ∈ listed } :=
  fun tx member other otherMember => apart tx member other otherMember

/-- The depth of the first coinbase at the end of the sample run. -/
theorem wallet_run_plain :
    ∃ node, Reaches (plainSetting 0) { tx | tx ∈ plainTransactions 0 } node ∧
      ∃ wtx, node.mapWallet[(plainCoinbase 0 1).hash]? = some wtx ∧ wtx.tx = plainCoinbase 0 1 ∧
        (node.getDepthInMainChain (plainSetting 0) wtx).1 = 16 := by
  let hash := sampleHashes.getHash (plainBlock 0 1 [] 1).toCBlockHeader
  obtain ⟨node, reached, holds⟩ := @plainRun_of_any 0
    (fun node => node.chainActive.length == 17 && node.chainActive.atHeight 1 == some hash &&
      decide (hash ∈ node.chainActive.dropLast)) (by decide +kernel)
  rw [Bool.and_eq_true, Bool.and_eq_true, beq_iff_eq, beq_iff_eq, decide_eq_true_eq] at holds
  obtain ⟨⟨length, stands⟩, above⟩ := holds
  have stored : (plainSetting 0).readBlockFromDisk hash = some (plainBlock 0 1 [] 1) := by
    decide
  have inside : plainCoinbase 0 1 ∈ (plainBlock 0 1 [] 1).vtx := List.mem_cons_self
  have active : InActive (plainSetting 0) node.chainActive (plainCoinbase 0 1) :=
    ⟨hash, above, _, stored, inside⟩
  obtain ⟨held, depth, _⟩ := wallet_run (plainSetting 0) _ node
    (identified_of_apart (by decide)) reached
  obtain ⟨wtx, found, isTx⟩ := held (plainCoinbase 0 1) (.inl active) (.inl (by decide))
  refine ⟨node, reached, wtx, found, isTx, ?_⟩
  rw [(depth _ wtx found).1 1 hash _ stands stored (isTx ▸ inside), CChain.height, length]
  rfl

/-- The last transaction of the sample run spends an output of the wallet, and the genesis block
pays to the wallet, but the wallet has neither transaction. -/
theorem wallet_run_misses_transactions :
    Set.InjOn CTransaction.hash { tx | tx ∈ plainTransactions 0 } ∧
    ∃ node, Reaches (plainSetting 0) { tx | tx ∈ plainTransactions 0 } node ∧
      (∃ hash ∈ node.chainActive, ∃ block, (plainSetting 0).readBlockFromDisk hash = some block ∧
        plainSpend 0 ∈ block.vtx) ∧
      (∃ txin ∈ (plainSpend 0).vin, ∃ txout, (plainCoinbase 0 1).Provides txin.prevout txout ∧
        (plainSetting 0).isMine txout.scriptPubKey = .spendable) ∧
      node.mapWallet.contains (plainSpend 0).hash = false ∧
      (∃ hash ∈ node.chainActive, ∃ block, (plainSetting 0).readBlockFromDisk hash = some block ∧
        genesisCoinbase ∈ block.vtx) ∧
      genesisCoinbase.isMine (plainSetting 0).isMine = true ∧
      node.mapWallet.contains genesisCoinbase.hash = false := by
  let hash := sampleHashes.getHash (plainBlock 0 16 [plainSpend 0] 65).toCBlockHeader
  obtain ⟨node, reached, holds⟩ := @plainRun_of_any 0
    (fun node => decide (hash ∈ node.chainActive) &&
      decide (sampleEnvironment.consensus.hashGenesisBlock ∈ node.chainActive) &&
      !node.mapWallet.contains (plainSpend 0).hash &&
      !node.mapWallet.contains genesisCoinbase.hash) (by decide +kernel)
  simp only [Bool.and_eq_true, decide_eq_true_eq, Bool.not_eq_true'] at holds
  obtain ⟨⟨⟨active, atGenesis⟩, spendAbsent⟩, genesisAbsent⟩ := holds
  refine ⟨identified_of_apart (by decide), node, reached,
    ⟨hash, active, plainBlock 0 16 [plainSpend 0] 65, by decide,
      List.mem_cons_of_mem _ (List.mem_singleton_self _)⟩, ?_, spendAbsent, ⟨_, atGenesis, _, (plainSetting 0).genesis, List.mem_singleton_self _⟩, by decide,
    genesisAbsent⟩
  exact ⟨_, List.mem_singleton_self _, _, ⟨rfl, rfl⟩, by decide⟩

end WalletNode

end Lycancoin

import Lycancoin.Mempool.Accept
import Lycancoin.Mempool.PoolApart
import Lycancoin.Validation.Conservation
import Lycancoin.Wallet.WalletInvolved
import Lycancoin.Wallet.WalletTx

namespace Lycancoin

def pszTimestamp : String := "Lycancoin Build V.1.0 January 22, 2014"

def genesisCoinbase : CTransaction where
  hash := 0x269910b6413f0b424d62db021fed2758ce6761f9b45f5e3a7640ef9dfbe2c218
  nVersion := 1
  vin := [{
    prevout := COutPoint.null
    scriptSig := [0x04, 0xff, 0xff, 0x00, 0x1d, 0x01, 0x04, 0x26] ++
      pszTimestamp.toList.map fun letter => UInt8.ofNat letter.toNat
    nSequence := 0xffffffff }]
  vout := [{ nValue := 0, scriptPubKey := [0x00, 0xac] }]
  nLockTime := 0

def genesisBlock (env : Environment) : CBlock :=
  { env.params.genesis with vtx := [genesisCoinbase] }

/-- What a node with a wallet works under: the keys of the wallet, and the blocks that
`ReadBlockFromDisk` finds under the hashes of their entries. -/
structure WalletSetting where
  env : Environment
  scripts : ScriptInterpreter
  isMine : CScript → IsMineType
  readBlockFromDisk : Uint256 → Option CBlock
  genesis : readBlockFromDisk env.consensus.hashGenesisBlock = some (genesisBlock env)
  getHash_eq : ∀ hash block, readBlockFromDisk hash = some block →
    env.hashes.getHash block.toCBlockHeader = hash

/-- The chain, the coins, the pool and the wallet of a node.  `vtxundo` is the undo data on disk. -/
structure WalletNode where
  headers : HeaderIndex
  vtxundo : Uint256 → Option (List CTxUndo)
  chainActive : CChain
  pcoinsTip : UtxoView
  mempool : CTxMemPool
  mapWallet : WalletMap

/-- Why a call does not go through: a block is not valid or cannot be read, a transaction is
refused, the pool stops, or the wallet throws. -/
inductive NodeFault where
  | invalid (failure : Failure)
  | unread
  | refused (refusal : Refusal)
  | pool (fault : PoolFault)
  | thrown
deriving DecidableEq, Repr

namespace NodeFault

def ofCheck {α : Type} : Check α → Except NodeFault α
  | .ok value => .ok value
  | .error failure => .error (.invalid failure)

def ofPool {α : Type} : Except PoolFault α → Except NodeFault α
  | .ok value => .ok value
  | .error fault => .error (.pool fault)

def ofWallet {α : Type} : Option α → Except NodeFault α
  | some value => .ok value
  | none => .error .thrown

end NodeFault

namespace WalletNode

def genesis (setting : WalletSetting) (fSanityCheck : Bool) : WalletNode :=
  { headers := HeaderIndex.genesis setting.env
    vtxundo := fun _ => none
    chainActive := [setting.env.consensus.hashGenesisBlock]
    pcoinsTip := UtxoView.genesis setting.env
    mempool := { CTxMemPool.new with fSanityCheck }
    mapWallet := ∅ }

variable (setting : WalletSetting) (node : WalletNode)

def index : BlockMap := node.headers.mapBlockIndex

def syncWithWallets (txs : List CTransaction) (pblock : Option CBlock) :
    Except NodeFault WalletNode := do
  let mapWallet ← NodeFault.ofWallet
    (WalletMap.syncTransactions setting.env.hashes setting.isMine pblock node.mapWallet txs)
  pure { node with mapWallet }

/-- `AcceptToMemoryPool`, the wallet included. -/
def acceptToMemoryPool (rules : PoolRules) (tx : CTransaction)
    (fLimitFree fRejectAbsurdFee : Bool) : Except NodeFault WalletNode :=
  match Lycancoin.acceptToMemoryPool rules node.pcoinsTip node.mempool tx fLimitFree
      fRejectAbsurdFee with
  | .error refusal => .error (.refused refusal)
  | .ok mempool => { node with mempool }.syncWithWallets setting [tx] none

/-- What `DisconnectTip` does for a transaction that leaves the chain. -/
def resurrect (rules : PoolRules) (tx : CTransaction) : Except NodeFault WalletNode :=
  let drop : Except NodeFault WalletNode := do
    let (mempool, _) ← NodeFault.ofPool (node.mempool.remove tx [] true)
    pure { node with mempool }
  if tx.isCoinBase then drop
  else
    match Lycancoin.acceptToMemoryPool rules node.pcoinsTip node.mempool tx false false with
    | .error _ => drop
    | .ok mempool => { node with mempool }.syncWithWallets setting [tx] none

def resurrectAll (rules : CTransaction → PoolRules) :
    WalletNode → List CTransaction → Except NodeFault WalletNode
  | node, [] => .ok node
  | node, tx :: rest => do
      let node ← node.resurrect setting (rules tx) tx
      resurrectAll rules node rest

/-- `DisconnectTip`, with disk writes that succeed.  `rules` is what `AcceptToMemoryPool` reads at
each of its calls. -/
def disconnectTip (rules : CTransaction → PoolRules) : Except NodeFault WalletNode :=
  match node.chainActive with
  | [] => .error (.invalid .assertion)
  | hash :: rest =>
      match setting.readBlockFromDisk hash, node.index[hash]?, node.vtxundo hash with
      | some block, some pindexDelete, some vtxundo => do
          let (fClean, view) ← NodeFault.ofCheck
            (disconnectBlock node.index block vtxundo hash node.pcoinsTip)
          if !fClean then .error (.invalid .error)
          else do
            let node ← resurrectAll setting rules { node with pcoinsTip := view } block.vtx
            let mempool ← NodeFault.ofPool
              (node.mempool.removeCoinbaseSpends view (UInt32.ofNat pindexDelete.nHeight))
            { node with mempool, chainActive := rest }.syncWithWallets setting block.vtx none
      | _, _, _ => .error .unread

/-- `ConnectTip`, with disk writes that succeed.  Undo data is written once for a block. -/
def connectTip (nAdjustedTime : Int) (hash : Uint256) : Except NodeFault WalletNode :=
  match node.index[hash]?, setting.readBlockFromDisk hash with
  | some pindexNew, some block =>
      if pindexNew.pprev ≠ node.chainActive.head? then .error (.invalid .assertion)
      else do
        let (view, vtxundo) ← NodeFault.ofCheck (connectBlock setting.env setting.scripts
          node.index nAdjustedTime block hash node.pcoinsTip)
        let (mempool, txConflicted) ← NodeFault.ofPool (node.mempool.removeForBlock block.vtx [])
        let node ← { node with
          vtxundo := Function.update node.vtxundo hash ((node.vtxundo hash).or vtxundo)
          pcoinsTip := view
          mempool
          chainActive := hash :: node.chainActive }.syncWithWallets setting txConflicted none
        node.syncWithWallets setting block.vtx (some block)
  | _, _ => .error .unread

def getDepthInMainChain (wtx : CWalletTx) : Int × CWalletTx :=
  wtx.getDepthInMainChain setting.env.hashes node.index node.chainActive node.mempool

inductive Call where
  | acceptBlockHeader (call : HeaderCall)
  | acceptToMemoryPool (rules : PoolRules) (tx : CTransaction) (fLimitFree fRejectAbsurdFee : Bool)
  | connectTip (nAdjustedTime : Int) (hash : Uint256)
  | disconnectTip (rules : CTransaction → PoolRules)
  | getDepthInMainChain (txid : Uint256)

/-- One call.  `GetDepthInMainChain` leaves its note in the wallet. -/
def step : Call → Except NodeFault WalletNode
  | .acceptBlockHeader call =>
      .ok { node with headers :=
        (acceptBlockHeader setting.env call.nAdjustedTime call.block node.headers).2 }
  | .acceptToMemoryPool rules tx fLimitFree fRejectAbsurdFee =>
      node.acceptToMemoryPool setting rules tx fLimitFree fRejectAbsurdFee
  | .connectTip nAdjustedTime hash => node.connectTip setting nAdjustedTime hash
  | .disconnectTip rules => node.disconnectTip setting rules
  | .getDepthInMainChain txid =>
      match node.mapWallet[txid]? with
      | none => .ok node
      | some wtx => .ok { node with
          mapWallet := node.mapWallet.insert txid (node.getDepthInMainChain setting wtx).2 }

end WalletNode

open Std Data

/-- A transaction of an active block above genesis. -/
def InActive (setting : WalletSetting) (chain : CChain) (tx : CTransaction) : Prop :=
  ∃ hash ∈ chain.dropLast, ∃ block, setting.readBlockFromDisk hash = some block ∧ tx ∈ block.vtx

/-- An entry of the wallet under an active chain: it notes the active block of its transaction. -/
structure EntryPlaced (setting : WalletSetting) (known : Set CTransaction) (index : BlockMap)
    (chain : CChain) (wtx : CWalletTx) : Prop where
  placed : Placed setting.env.hashes setting.readBlockFromDisk known index wtx
  notGenesis : wtx.tx ≠ genesisCoinbase
  active : ∀ hash ∈ chain, ∀ block, setting.readBlockFromDisk hash = some block →
    wtx.tx ∈ block.vtx → wtx.hashBlock = hash

structure WalletPlaced (setting : WalletSetting) (known : Set CTransaction) (index : BlockMap)
    (chain : CChain) (mapWallet : WalletMap) : Prop where
  sound : WalletSound known mapWallet
  last : chain.getLast? = some setting.env.consensus.hashGenesisBlock
  settled : ∀ tx, InActive setting chain tx → Accounted setting.isMine known mapWallet tx
  entries : ∀ (txid : Uint256) (wtx : CWalletTx), mapWallet[txid]? = some wtx →
    EntryPlaced setting known index chain wtx

section Placing

variable {setting : WalletSetting} {known : Set CTransaction} {index after : BlockMap}
  {chain rest : CChain} {mapWallet : WalletMap} {tx : CTransaction} {hash : Uint256}
  {wtx : CWalletTx} {block : CBlock}

theorem mem_dropLast_or_genesis
    (last : chain.getLast? = some setting.env.consensus.hashGenesisBlock) (member : hash ∈ chain) :
    hash ∈ chain.dropLast ∨ hash = setting.env.consensus.hashGenesisBlock := by
  rw [← List.dropLast_append_getLast? _ last, List.mem_append, List.mem_singleton] at member
  exact member

theorem dropLast_cons (hash : Uint256) (more : chain ≠ []) :
    (hash :: chain).dropLast = hash :: chain.dropLast :=
  List.dropLast_cons_of_ne_nil more

theorem inActive_cons (more : chain ≠ []) (stored : setting.readBlockFromDisk hash = some block) :
    InActive setting (hash :: chain) tx ↔ InActive setting chain tx ∨ tx ∈ block.vtx := by
  rw [InActive, dropLast_cons hash more]
  constructor
  · rintro ⟨other, member, found, read, inside⟩
    rcases List.mem_cons.mp member with rfl | member
    · rw [stored] at read
      cases read
      exact .inr inside
    · exact .inl ⟨other, member, found, read, inside⟩
  · rintro (⟨other, member, found, read, inside⟩ | inside)
    · exact ⟨other, List.mem_cons_of_mem _ member, found, read, inside⟩
    · exact ⟨hash, List.mem_cons_self, block, stored, inside⟩

theorem WalletPlaced.not_active_of_new (placed : WalletPlaced setting known index chain mapWallet)
    (new : mapWallet[tx.hash]? = none) (involves : tx.Involves setting.isMine known)
    (notGenesis : tx ≠ genesisCoinbase) (member : hash ∈ chain)
    (stored : setting.readBlockFromDisk hash = some block) : tx ∉ block.vtx := by
  intro inside
  rcases mem_dropLast_or_genesis placed.last member with above | rfl
  · obtain ⟨wtx, found⟩ := getElem?_of_contains
      ((placed.settled tx ⟨hash, above, block, stored, inside⟩).held involves)
    rw [new] at found
    contradiction
  · rw [setting.genesis] at stored
    cases stored
    exact notGenesis (List.mem_singleton.mp inside)

theorem EntryPlaced.mono (entry : EntryPlaced setting known index chain wtx)
    (kept : ∀ (hash : Uint256) (pindex : CBlockIndex), index[hash]? = some pindex →
      after[hash]? = some pindex) : EntryPlaced setting known after chain wtx :=
  { entry with placed := entry.placed.mono kept }

theorem WalletPlaced.mono (placed : WalletPlaced setting known index chain mapWallet)
    (kept : ∀ (hash : Uint256) (pindex : CBlockIndex), index[hash]? = some pindex →
      after[hash]? = some pindex) : WalletPlaced setting known after chain mapWallet :=
  { placed with entries := fun txid wtx found => (placed.entries txid wtx found).mono kept }

/-- A call of `SyncTransaction` without a block. -/
theorem WalletPlaced.sync (placed : WalletPlaced setting known index chain mapWallet)
    (identified : Set.InjOn CTransaction.hash known) (isKnown : tx ∈ known)
    (checked : checkTransaction tx = .ok ()) (funded : tx.Funded (· ∈ known))
    (notGenesis : tx ≠ genesisCoinbase)
    (noticed : tx.Involves setting.isMine known → Noticed setting.isMine mapWallet tx) :
    ∃ after, mapWallet.syncTransaction setting.env.hashes setting.isMine tx none = some after ∧
      WalletPlaced setting known index chain after ∧
      (∀ txid, mapWallet.contains txid = true → after.contains txid = true) ∧
      Accounted setting.isMine known after tx := by
  obtain ⟨after, ran, sound, grows, settled⟩ := syncTransaction_settles placed.sound identified
    isKnown checked funded noticed
  refine ⟨after, ran, ⟨sound, placed.last, fun other active =>
    (placed.settled other active).mono grows, ?_⟩, grows, settled⟩
  intro txid wtx found
  obtain ⟨adds, stays⟩ := syncTransaction_spec placed.sound identified funded
  by_cases isNoticed : Noticed setting.isMine mapWallet tx
  · rw [adds isNoticed] at ran
    cases ran
    rcases getElem?_sync found with ⟨_, old⟩ | ⟨rfl, new, rfl⟩ | ⟨_, old, present, same⟩
    · exact placed.entries txid wtx old
    · exact ⟨.inl rfl, notGenesis, fun hash member block stored inside => absurd inside
        (placed.not_active_of_new new (isNoticed.involves placed.sound new) notGenesis member
          stored)⟩
    · rw [same]
      exact placed.entries txid old present
  · rw [stays isNoticed] at ran
    cases ran
    exact placed.entries txid wtx found

theorem WalletPlaced.syncAll (placed : WalletPlaced setting known index chain mapWallet)
    (identified : Set.InjOn CTransaction.hash known) {txs : List CTransaction}
    (settled : ∀ tx ∈ txs, Accounted setting.isMine known mapWallet tx ∧ tx ≠ genesisCoinbase) :
    ∃ after, WalletMap.syncTransactions setting.env.hashes setting.isMine none mapWallet txs =
        some after ∧ WalletPlaced setting known index chain after ∧
      ∀ txid, mapWallet.contains txid = true → after.contains txid = true := by
  induction txs generalizing mapWallet with
  | nil => exact ⟨mapWallet, rfl, placed, fun _ => id⟩
  | cons tx rest ih =>
      obtain ⟨⟨own, notGenesis⟩, others⟩ := List.forall_mem_cons.mp settled
      obtain ⟨middle, ran, middlePlaced, grows, _⟩ := placed.sync identified own.isKnown own.checked
        own.funded notGenesis own.noticed
      obtain ⟨after, restRan, afterPlaced, restGrows⟩ := ih middlePlaced fun other member =>
        ⟨(others other member).1.mono grows, (others other member).2⟩
      refine ⟨after, ?_, afterPlaced, fun txid present => restGrows txid (grows txid present)⟩
      rw [WalletMap.syncTransactions, ran]
      exact restRan

end Placing

/-! The calls for a block that was connected. -/

section Connecting

variable {setting : WalletSetting} {known : Set CTransaction} {index : BlockMap} {chain : CChain}
  {mapWallet : WalletMap} {hash : Uint256} {block : CBlock} {done : List CTransaction}

structure NextBlock (setting : WalletSetting) (known : Set CTransaction) (index : BlockMap)
    (chain : CChain) (hash : Uint256) (block : CBlock) : Prop where
  notNull : hash ≠ Uint256.null
  stored : setting.readBlockFromDisk hash = some block
  root : ∃ pindex, index[hash]? = some pindex ∧
    pindex.hashMerkleRoot = (block.buildMerkleTree setting.env.hashes).1
  isKnown : ∀ tx ∈ block.vtx, tx ∈ known
  checked : ∀ tx ∈ block.vtx, checkTransaction tx = .ok ()
  fresh : ∀ tx ∈ block.vtx, ∀ other ∈ chain, ∀ old, setting.readBlockFromDisk other = some old →
    tx ∉ old.vtx

theorem NextBlock.notGenesis (next : NextBlock setting known index chain hash block)
    (last : chain.getLast? = some setting.env.consensus.hashGenesisBlock) :
    ∀ tx ∈ block.vtx, tx ≠ genesisCoinbase := by
  rintro tx member rfl
  exact next.fresh _ member _ (List.mem_of_getLast? last) _ setting.genesis
    (List.mem_singleton_self _)

theorem NextBlock.entry (next : NextBlock setting known index chain hash block)
    (last : chain.getLast? = some setting.env.consensus.hashGenesisBlock) {wtx : CWalletTx}
    {tx : CTransaction} (member : tx ∈ block.vtx) (isTx : wtx.tx = tx)
    (hashBlock : wtx.hashBlock = hash)
    (branch : ∃ nIndex : Nat, wtx.nIndex = nIndex ∧ block.txids[nIndex]? = some tx.hash ∧
      wtx.vMerkleBranch = block.getMerkleBranch setting.env.hashes nIndex) :
    EntryPlaced setting known index chain wtx where
  placed := by
    refine .inr ⟨block, ?_, ?_, ?_, ?_, next.isKnown⟩
    · rw [hashBlock]
      exact next.notNull
    · rw [hashBlock]
      exact next.stored
    · rw [hashBlock]
      exact next.root
    · rw [isTx]
      exact branch
  notGenesis := by
    rw [isTx]
    exact next.notGenesis last tx member
  active := by
    intro other otherMember old stored inside
    rw [isTx] at inside
    exact absurd inside (next.fresh tx member other otherMember old stored)

structure Passing (setting : WalletSetting) (known : Set CTransaction) (index : BlockMap)
    (chain : CChain) (hash : Uint256) (done : List CTransaction) (mapWallet : WalletMap) :
    Prop where
  placed : WalletPlaced setting known index chain mapWallet
  settled : ∀ tx ∈ done, Accounted setting.isMine known mapWallet tx
  inside : ∀ (txid : Uint256) (wtx : CWalletTx), mapWallet[txid]? = some wtx → wtx.tx ∈ done →
    wtx.hashBlock = hash

theorem Passing.step (passing : Passing setting known index chain hash done mapWallet)
    (next : NextBlock setting known index chain hash block)
    (identified : Set.InjOn CTransaction.hash known) {tx : CTransaction} (member : tx ∈ block.vtx)
    (funded : tx.Funded (Accounted setting.isMine known mapWallet)) :
    ∃ after, mapWallet.syncTransaction setting.env.hashes setting.isMine tx (some block) =
        some after ∧ Passing setting known index chain hash (done ++ [tx]) after ∧
      ∀ txid, mapWallet.contains txid = true → after.contains txid = true := by
  have placed := passing.placed
  have inKnown : tx.Funded (· ∈ known) := funded.mono fun other settled => settled.isKnown
  obtain ⟨after, ran, sound, grows, settled⟩ := syncTransaction_settles placed.sound identified
    (next.isKnown tx member) (next.checked tx member) inKnown
    (noticed_of_funded placed.sound identified funded)
  obtain ⟨nIndex, located, new⟩ := @CWalletTx.ofSync_block setting.env.hashes _ _ member
  rw [setting.getHash_eq hash block next.stored] at new
  have entries : ∀ (txid : Uint256) (wtx : CWalletTx), after[txid]? = some wtx →
      EntryPlaced setting known index chain wtx ∧
        (wtx.tx ∈ done ++ [tx] → wtx.hashBlock = hash) := by
    intro txid wtx found
    obtain ⟨adds, stays⟩ := @syncTransaction_spec setting.env.hashes setting.isMine _ _ _
      (some block) placed.sound identified inKnown
    by_cases isNoticed : Noticed setting.isMine mapWallet tx
    · rw [adds isNoticed] at ran
      cases ran
      rcases getElem?_sync found with ⟨elsewhere, old⟩ | ⟨_, _, same⟩ | ⟨here, old, present, same⟩
      · refine ⟨placed.entries txid wtx old, fun inside => ?_⟩
        rcases List.mem_append.mp inside with earlier | isTx
        · exact passing.inside txid wtx old earlier
        · have own := placed.sound.hash_eq txid wtx old
          rw [List.mem_singleton.mp isTx] at own
          exact absurd own.symm elsewhere
      · rw [new] at same
        rw [same]
        exact ⟨next.entry placed.last member rfl rfl ⟨nIndex, rfl, located, rfl⟩, fun _ => rfl⟩
      · have isTx : old.tx = tx := identified (placed.sound.known _ _ present)
          (next.isKnown tx member) ((placed.sound.hash_eq _ _ present).trans here)
        rw [new, CWalletTx.merge_block old next.notNull (by simp)] at same
        rw [same]
        exact ⟨next.entry placed.last member isTx rfl ⟨nIndex, rfl, located, rfl⟩, fun _ => rfl⟩
    · rw [stays isNoticed] at ran
      cases ran
      refine ⟨placed.entries txid wtx found, fun inside => ?_⟩
      rcases List.mem_append.mp inside with earlier | isTx
      · exact passing.inside txid wtx found earlier
      · have own := placed.sound.hash_eq txid wtx found
        rw [List.mem_singleton.mp isTx] at own
        subst own
        exact absurd (.inl (contains_of_getElem? found)) isNoticed
  refine ⟨after, ran, ⟨⟨sound, placed.last, fun other active =>
    (placed.settled other active).mono grows, fun txid wtx found => (entries txid wtx found).1⟩,
    ?_, fun txid wtx found => (entries txid wtx found).2⟩, grows⟩
  intro other otherMember
  rcases List.mem_append.mp otherMember with earlier | here
  · exact (passing.settled other earlier).mono grows
  · rw [List.mem_singleton.mp here]
    exact settled

theorem Passing.run (next : NextBlock setting known index chain hash block)
    (identified : Set.InjOn CTransaction.hash known) {rest : List CTransaction}
    {txs : CTransaction → Prop} (passing : Passing setting known index chain hash done mapWallet)
    (members : ∀ tx ∈ rest, tx ∈ block.vtx)
    (sources : ∀ tx, txs tx → Accounted setting.isMine known mapWallet tx)
    (funded : FundedInOrder txs rest) :
    ∃ after, WalletMap.syncTransactions setting.env.hashes setting.isMine (some block) mapWallet
        rest = some after ∧ Passing setting known index chain hash (done ++ rest) after ∧
      ∀ txid, mapWallet.contains txid = true → after.contains txid = true := by
  induction rest generalizing mapWallet done txs with
  | nil =>
      rw [List.append_nil]
      exact ⟨mapWallet, rfl, passing, fun _ => id⟩
  | cons tx rest ih =>
      obtain ⟨own, others⟩ := List.forall_mem_cons.mp members
      obtain ⟨middle, ran, middlePassing, grows⟩ :=
        passing.step next identified own (funded.1.mono sources)
      obtain ⟨after, restRan, afterPassing, restGrows⟩ := ih middlePassing others
        (fun other member => member.elim (fun source => (sources other source).mono grows)
          fun isTx => isTx ▸ middlePassing.settled tx (by simp)) funded.2
      refine ⟨after, ?_, ?_, fun txid present => restGrows txid (grows txid present)⟩
      · rw [WalletMap.syncTransactions, ran]
        exact restRan
      · rw [List.append_assoc] at afterPassing
        exact afterPassing

theorem Passing.finish (passing : Passing setting known index chain hash block.vtx mapWallet)
    (next : NextBlock setting known index chain hash block) :
    WalletPlaced setting known index (hash :: chain) mapWallet where
  sound := passing.placed.sound
  last := by
    rw [List.getLast?_cons, passing.placed.last]
    rfl
  settled := by
    intro tx active
    have more : chain ≠ [] := by
      rintro rfl
      have last := passing.placed.last
      contradiction
    rcases (inActive_cons more next.stored).mp active with below | inside
    · exact passing.placed.settled tx below
    · exact passing.settled tx inside
  entries := by
    intro txid wtx found
    refine { passing.placed.entries txid wtx found with active := fun other member old stored inside => ?_ }
    rcases List.mem_cons.mp member with rfl | below
    · rw [next.stored] at stored
      cases stored
      exact passing.inside txid wtx found inside
    · exact (passing.placed.entries txid wtx found).active other below old stored inside

end Connecting

end Lycancoin

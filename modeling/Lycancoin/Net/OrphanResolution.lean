import Lycancoin.Data.Release
import Lycancoin.Mempool.Accept
import Lycancoin.Mempool.OrphanPool

namespace Lycancoin

/-- The globals that a `tx` message changes, and the calls of `Misbehaving`. -/
structure TxNode where
  mempool : CTxMemPool
  orphans : OrphanPool
  misbehaving : List (NodeId × Nat)

/-- A `tx` message.  `random` lists what `GetRandHash` returns while it is handled. -/
structure TxMessage where
  tx : CTransaction
  fromPeer : NodeId
  random : Nat → Uint256

/-- What a node keeps while messages arrive. -/
structure TxContext where
  rules : PoolRules
  pcoinsTip : UtxoView
  nMaxOrphanTx : Nat

/-- The locals of the orphan resolution loop.  `vWorkQueue` holds what is still
to come of it. -/
structure Resolution where
  mempool : CTxMemPool
  vWorkQueue : List Uint256
  vEraseQueue : List Uint256
  setMisbehaving : List NodeId
  misbehaving : List (NodeId × Nat)

namespace Resolution

variable (context : TxContext) (orphans : OrphanPool)

/-- The body of the inner loop.  There is no result when the orphan is not
stored, for `operator[]` then makes one up, and when `AcceptToMemoryPool` does
not return. -/
def retryOrphan (state : Resolution) (orphanHash : Uint256) : Option Resolution :=
  match orphans.mapOrphanTransactions[orphanHash]? with
  | none => none
  | some orphan =>
      let state := { state with vEraseQueue := state.vEraseQueue ++ [orphanHash] }
      if state.setMisbehaving.contains orphan.fromPeer then some state
      else
        match acceptToMemoryPool context.rules context.pcoinsTip state.mempool orphan.tx true
            false with
        | .ok mempool =>
            some { state with mempool, vWorkQueue := state.vWorkQueue ++ [orphanHash] }
        | .error (.failed (.invalid rejection)) =>
            if rejection.nDoS > 0 then
              some { state with
                misbehaving := state.misbehaving ++ [(orphan.fromPeer, rejection.nDoS)]
                setMisbehaving := orphan.fromPeer :: state.setMisbehaving }
            else some state
        | .error (.failed .error) | .error .declined | .error .missingInputs => some state
        | .error (.failed .assertion) | .error (.failed .overflow) => none

def filed (hash : Uint256) : List Uint256 :=
  match orphans.mapOrphanTransactionsByPrev[hash]? with
  | none => []
  | some keys => keys.toList

/-- The loop over `vWorkQueue`. -/
def loop : Nat → Resolution → Option Resolution
  | 0, state => if state.vWorkQueue.isEmpty then some state else none
  | passes + 1, state =>
      match state.vWorkQueue with
      | [] => some state
      | hash :: vWorkQueue => do
          let state ← (filed orphans hash).foldlM (retryOrphan context orphans)
            { state with vWorkQueue }
          loop passes state

end Resolution

/-- The `tx` message: there is no result where the node stops.  No orphan is
queued twice, so the loop makes at most one pass more than there are orphans. -/
def processTx (context : TxContext) (node : TxNode) (message : TxMessage) : Option TxNode :=
  let tx := message.tx
  match acceptToMemoryPool context.rules context.pcoinsTip node.mempool tx true false with
  | .ok mempool => do
      let state ← Resolution.loop context node.orphans
        (node.orphans.mapOrphanTransactions.size + 1)
        { mempool, vWorkQueue := [tx.hash], vEraseQueue := [tx.hash], setMisbehaving := []
          misbehaving := node.misbehaving }
      let orphans ← state.vEraseQueue.foldlM OrphanPool.eraseOrphanTx node.orphans
      some { mempool := state.mempool, orphans, misbehaving := state.misbehaving }
  | .error .missingInputs => do
      let (_, orphans) := node.orphans.addOrphanTx tx message.fromPeer
      let orphans ← orphans.limitOrphanTxSize context.nMaxOrphanTx message.random
      some { node with orphans }
  | .error (.failed (.invalid rejection)) =>
      some (if rejection.nDoS > 0 then
        { node with misbehaving := node.misbehaving ++ [(message.fromPeer, rejection.nDoS)] }
      else node)
  | .error (.failed .error) | .error .declined => some node
  | .error (.failed .assertion) | .error (.failed .overflow) => none

def runTx (context : TxContext) (node : TxNode) (messages : List TxMessage) : Option TxNode :=
  messages.foldlM (processTx context) node

open Lycancoin.Data OrphanPool

/-- The transaction is in the pool or has unspent outputs in the chain. -/
def TxContext.available (context : TxContext) (pool : CTxMemPool) (prev : Uint256) : Bool :=
  pool.mapTx.contains prev || (context.pcoinsTip.coins prev).isSome

structure GrownFrom (start : CTxMemPool) (txs : List CTransaction) (pool : CTxMemPool) : Prop where
  exact : pool.Exact
  kept : ∀ (hash : Uint256) (entry : CTxMemPoolEntry), start.mapTx[hash]? = some entry →
    pool.mapTx[hash]? = some entry
  members : ∀ (hash : Uint256) (entry : CTxMemPoolEntry), pool.mapTx[hash]? = some entry →
    start.mapTx[hash]? = some entry ∨ entry.tx ∈ txs

/-- Transactions without conflicts that are all acceptable as soon as their
parents are in the pool or in the chain. -/
structure MutuallyConsistent (context : TxContext) (start : CTxMemPool) (txs : List CTransaction) :
    Prop where
  exact : start.Exact
  distinct : (txs.map CTransaction.hash).Nodup
  absent : ∀ tx ∈ txs, start.mapTx[tx.hash]? = none
  unconfirmed : ∀ tx ∈ txs, context.pcoinsTip.coins tx.hash = none
  unspent : ∀ tx ∈ txs, ∀ txin ∈ tx.vin, start.mapNextTx[txin.prevout]? = none
  conflictFree : ∀ tx ∈ txs, ∀ other ∈ txs, ∀ txin ∈ tx.vin, ∀ otherIn ∈ other.vin,
    txin.prevout = otherIn.prevout → tx = other
  parents : ∀ tx ∈ txs, ∀ prev ∈ prevHashes tx, context.available start prev = true ∨
    ∃ parent ∈ txs, parent.hash = prev
  acyclic : ∃ rank : Uint256 → Nat, ∀ tx ∈ txs, ∀ parent ∈ txs, parent.hash ∈ prevHashes tx →
    rank parent.hash < rank tx.hash
  loose : ∀ tx ∈ txs, checkLoose context.rules tx = .ok ()
  acceptable : ∀ tx ∈ txs, ∀ pool, GrownFrom start txs pool → pool.mapTx[tx.hash]? = none →
    (∀ prev ∈ prevHashes tx, context.available pool prev = true) →
    ∃ after, acceptToMemoryPool context.rules context.pcoinsTip pool tx true false = .ok after

section Members

variable {context : TxContext} {start pool after : CTxMemPool} {txs : List CTransaction}
  {tx : CTransaction} {prev : Uint256}

theorem MutuallyConsistent.eq_of_hash_eq (consistent : MutuallyConsistent context start txs)
    {other : CTransaction} (member : tx ∈ txs) (otherMember : other ∈ txs)
    (same : tx.hash = other.hash) : tx = other :=
  List.inj_on_of_nodup_map consistent.distinct member otherMember same

theorem GrownFrom.refl (exact : start.Exact) : GrownFrom start txs start where
  exact := exact
  kept _ _ found := found
  members _ _ found := Or.inl found

theorem GrownFrom.accept (grown : GrownFrom start txs pool) (member : tx ∈ txs)
    (accepted : Accepted context.rules context.pcoinsTip pool tx after) :
    GrownFrom start txs after := by
  obtain ⟨entry, isTx, lookup⟩ := accepted.getElem?_mapTx
  refine ⟨accepted.exact grown.exact, fun hash old found => ?_, fun hash old found => ?_⟩
  · have present := grown.kept hash old found
    have differs : tx.hash ≠ hash := by
      intro same
      rw [← same, accepted.absent] at present
      contradiction
    rw [lookup, if_neg differs, present]
  · rw [lookup] at found
    split at found
    · cases found
      exact Or.inr (isTx ▸ member)
    · exact grown.members hash old found

theorem GrownFrom.available (grown : GrownFrom start txs pool)
    (before : context.available start prev = true) : context.available pool prev = true := by
  simp only [TxContext.available, Bool.or_eq_true,
    Std.ExtTreeMap.contains_eq_isSome_getElem?] at before ⊢
  rcases before with inPool | inChain
  · obtain ⟨entry, found⟩ := Option.isSome_iff_exists.mp inPool
    exact Or.inl (by rw [grown.kept prev entry found]; rfl)
  · exact Or.inr inChain

/-- Nothing in the pool spends what the inputs of an absent transaction without conflicts spend. -/
theorem GrownFrom.unspent_in (grown : GrownFrom start txs pool) (exact : start.Exact)
    (unspent : ∀ txin ∈ tx.vin, start.mapNextTx[txin.prevout]? = none)
    (conflictFree : ∀ other ∈ txs, ∀ txin ∈ tx.vin, ∀ otherIn ∈ other.vin,
      txin.prevout = otherIn.prevout → tx = other)
    (absent : pool.mapTx[tx.hash]? = none) {txin : CTxIn} (input : txin ∈ tx.vin) :
    pool.mapNextTx[txin.prevout]? = none := by
  cases spender : pool.mapNextTx[txin.prevout]? with
  | none => rfl
  | some inpoint =>
      obtain ⟨entry, found, spends⟩ := (grown.exact.next_iff _ _).mp spender
      rcases grown.members _ _ found with old | isMember
      · have earlier := (exact.next_iff _ _).mpr ⟨entry, old, spends⟩
        rw [unspent txin input] at earlier
        contradiction
      · obtain ⟨otherIn, isInput, sameOutpoint⟩ := Option.map_eq_some_iff.mp spends
        have same := conflictFree entry.tx isMember txin input otherIn
          (List.mem_of_getElem? isInput) sameOutpoint.symm
        have isHash := grown.exact.hash_eq _ _ found
        rw [same, isHash, found] at absent
        contradiction

/-- `AcceptToMemoryPool` on a member: it is accepted, or waits for a parent, or is there. -/
theorem MutuallyConsistent.accept (consistent : MutuallyConsistent context start txs)
    (grown : GrownFrom start txs pool) (member : tx ∈ txs) (absent : pool.mapTx[tx.hash]? = none)
    (ready : ∀ prev ∈ prevHashes tx, context.available pool prev = true) :
    ∃ after, acceptToMemoryPool context.rules context.pcoinsTip pool tx true false = .ok after ∧
      Accepted context.rules context.pcoinsTip pool tx after ∧ GrownFrom start txs after := by
  obtain ⟨after, returns⟩ := consistent.acceptable tx member pool grown absent ready
  have accepted := accepted_of_eq_ok returns
  exact ⟨after, returns, accepted, grown.accept member accepted⟩

theorem MutuallyConsistent.missing (consistent : MutuallyConsistent context start txs)
    (grown : GrownFrom start txs pool) (member : tx ∈ txs) (absent : pool.mapTx[tx.hash]? = none)
    (needed : prev ∈ prevHashes tx) (missing : context.available pool prev = false) :
    acceptToMemoryPool context.rules context.pcoinsTip pool tx true false =
      .error .missingInputs := by
  obtain ⟨txin, input, isPrev⟩ := List.mem_map.mp needed
  rw [TxContext.available, Bool.or_eq_false_iff] at missing
  have unknown := (CTxMemPool.viewOver_of_absent absent).trans (consistent.unconfirmed tx member)
  have notThere := Std.ExtTreeMap.getElem?_eq_none_of_contains_eq_false missing.1
  have noCoins : (pool.viewOver context.pcoinsTip).coins txin.prevout.hash = none := by
    rw [isPrev, CTxMemPool.viewOver_of_absent notThere]
    simpa using missing.2
  exact acceptToMemoryPool_of_missing (consistent.loose tx member) absent
    (fun txin input => grown.unspent_in consistent.exact (consistent.unspent tx member)
      (consistent.conflictFree tx member) absent input) unknown input noCoins

end Members

/-- What the orphan that is stored under a hash waits for. -/
def needs (context : TxContext) (node : TxNode) (hash : Uint256) : List Uint256 :=
  match node.orphans.mapOrphanTransactions[hash]? with
  | none => []
  | some orphan => (prevHashes orphan.tx).filter fun prev => !context.available node.mempool prev

structure Settled (context : TxContext) (start : CTxMemPool) (txs arrived : List CTransaction)
    (node : TxNode) : Prop where
  grown : GrownFrom start txs node.mempool
  index : node.orphans.Consistent
  waiting : ∀ (hash : Uint256) (orphan : COrphanTx),
    node.orphans.mapOrphanTransactions[hash]? = some orphan →
      orphan.tx ∈ arrived ∧ node.mempool.mapTx[hash]? = none ∧
        ∃ prev ∈ prevHashes orphan.tx, context.available node.mempool prev = false
  kept : ∀ tx ∈ arrived, node.mempool.mapTx.contains tx.hash = true ∨
    node.orphans.mapOrphanTransactions.contains tx.hash = true
  arrived : ∀ tx ∈ txs, node.mempool.mapTx.contains tx.hash = true → tx ∈ arrived

/-- The resolution loop runs as the release of what the orphans wait for. -/
structure Resolves (start : CTxMemPool) (txs : List CTransaction) (node : TxNode)
    (root : Uint256) (state : Resolution) (release : Release Uint256) : Prop where
  grown : GrownFrom start txs state.mempool
  contains_iff : ∀ hash : Uint256, state.mempool.mapTx.contains hash = true ↔
    node.mempool.mapTx.contains hash = true ∨ hash ∈ release.released
  vWorkQueue : state.vWorkQueue = release.pending
  vEraseQueue : state.vEraseQueue = root :: release.visited
  setMisbehaving : state.setMisbehaving = []
  misbehaving : state.misbehaving = node.misbehaving

section Loop

variable {context : TxContext} {start : CTxMemPool} {txs arrived : List CTransaction}
  {node : TxNode} {root hash prev : Uint256} {state : Resolution} {release final : Release Uint256}
  {orphan : COrphanTx}

theorem Resolves.available_iff (resolves : Resolves start txs node root state release) :
    context.available state.mempool prev = true ↔
      context.available node.mempool prev = true ∨ prev ∈ release.released := by
  simp only [TxContext.available, Bool.or_eq_true, resolves.contains_iff]
  tauto

theorem ready_iff_available (resolves : Resolves start txs node root state release)
    (found : node.orphans.mapOrphanTransactions[hash]? = some orphan) :
    Release.ready (needs context node) release.released hash = true ↔
      ∀ prev ∈ prevHashes orphan.tx, context.available state.mempool prev = true := by
  simp only [Release.ready_iff, needs, found, List.mem_filter, Bool.not_eq_true',
    resolves.available_iff]
  constructor
  · intro all prev member
    cases before : context.available node.mempool prev with
    | true => exact Or.inl rfl
    | false => exact Or.inr (all prev ⟨member, before⟩)
  · rintro all prev ⟨member, before⟩
    exact (all prev member).resolve_left (by simp [before])

theorem Resolves.retryOrphan (consistent : MutuallyConsistent context start txs)
    (subset : arrived ⊆ txs) (settled : Settled context start txs arrived node)
    (resolves : Resolves start txs node root state release)
    (found : node.orphans.mapOrphanTransactions[hash]? = some orphan) :
    ∃ after, Resolution.retryOrphan context node.orphans state hash = some after ∧
      Resolves start txs node root after (Release.visit (needs context node) release hash) := by
  obtain ⟨hasArrived, absentBefore, _⟩ := settled.waiting hash orphan found
  have member := subset hasArrived
  have isHash := settled.index.hash_eq hash orphan found
  have notBefore : node.mempool.mapTx.contains hash = false :=
    contains_eq_false_of_getElem? absentBefore
  have listed : state.vEraseQueue ++ [hash] = root :: (release.visited ++ [hash]) := by
    rw [resolves.vEraseQueue, List.cons_append]
  have available : Release.ready (needs context node) release.released hash = true ↔
      ∀ prev ∈ prevHashes orphan.tx, context.available state.mempool prev = true :=
    ready_iff_available resolves found
  have present := resolves.contains_iff hash
  rw [notBefore] at present
  simp only [Bool.false_eq_true, false_or] at present
  rw [Resolution.retryOrphan, found]
  simp only [resolves.setMisbehaving, List.contains_nil, Bool.false_eq_true, if_false]
  by_cases released : hash ∈ release.released
  · have inPool : state.mempool.mapTx.contains orphan.tx.hash = true := by
      rw [isHash, present]
      exact released
    have stays : ¬(hash ∉ release.released ∧
        Release.ready (needs context node) release.released hash = true) := fun both =>
      both.1 released
    rw [acceptToMemoryPool_of_mem (consistent.loose orphan.tx member) inPool, Release.visit,
      if_neg stays]
    exact ⟨_, rfl, resolves.grown, resolves.contains_iff, resolves.vWorkQueue, listed, rfl,
      resolves.misbehaving⟩
  · have absent : state.mempool.mapTx[orphan.tx.hash]? = none := by
      apply Std.ExtTreeMap.getElem?_eq_none_of_contains_eq_false
      rw [isHash, Bool.eq_false_iff, ne_eq, present]
      exact released
    by_cases isReady : Release.ready (needs context node) release.released hash = true
    · obtain ⟨mempool, returns, accepted, grown⟩ :=
        consistent.accept resolves.grown member absent (available.mp isReady)
      rw [returns, Release.visit, if_pos ⟨released, isReady⟩]
      refine ⟨_, rfl, grown, fun other => ?_, ?_, listed, rfl, resolves.misbehaving⟩
      · rw [accepted.contains_iff, resolves.contains_iff, isHash, List.mem_append,
          List.mem_singleton, or_assoc]
      · simp only [resolves.vWorkQueue]
    · obtain ⟨prev, needed, missing⟩ : ∃ prev ∈ prevHashes orphan.tx,
          context.available state.mempool prev = false := by
        by_contra none
        simp only [not_exists, not_and, Bool.not_eq_false] at none
        exact isReady (available.mpr none)
      rw [consistent.missing resolves.grown member absent needed missing, Release.visit,
        if_neg fun both => isReady both.2]
      exact ⟨_, rfl, resolves.grown, resolves.contains_iff, resolves.vWorkQueue, listed, rfl,
        resolves.misbehaving⟩

theorem Resolves.retryAll (consistent : MutuallyConsistent context start txs)
    (subset : arrived ⊆ txs) (settled : Settled context start txs arrived node)
    (resolves : Resolves start txs node root state release) {hashes : List Uint256}
    (stored : ∀ hash ∈ hashes, ∃ orphan, node.orphans.mapOrphanTransactions[hash]? = some orphan) :
    ∃ after, hashes.foldlM (Resolution.retryOrphan context node.orphans) state = some after ∧
      Resolves start txs node root after
        (hashes.foldl (Release.visit (needs context node)) release) := by
  induction hashes generalizing state release with
  | nil => exact ⟨state, rfl, resolves⟩
  | cons hash rest ih =>
      obtain ⟨orphan, found⟩ := stored hash List.mem_cons_self
      obtain ⟨next, retried, nextResolves⟩ := resolves.retryOrphan consistent subset settled found
      obtain ⟨after, ran, final⟩ := ih nextResolves fun other member =>
        stored other (List.mem_cons_of_mem hash member)
      exact ⟨after, by rw [List.foldlM_cons, retried]; exact ran, final⟩

theorem mem_filed_iff (index : node.orphans.Consistent) :
    hash ∈ Resolution.filed node.orphans prev ↔
      Spends node.orphans.mapOrphanTransactions hash prev := by
  rw [← index.exact.mem_holders hash prev, Resolution.filed, InverseIndex.holders]
  cases node.orphans.mapOrphanTransactionsByPrev[prev]? with
  | none => simp
  | some keys => simp

/-- The code runs the loop to its end whenever the release comes to its end. -/
theorem Resolves.loop (consistent : MutuallyConsistent context start txs)
    (subset : arrived ⊆ txs) (settled : Settled context start txs arrived node) {passes : Nat}
    (resolves : Resolves start txs node root state release)
    (ran : Release.run (needs context node) (Resolution.filed node.orphans) passes release =
      some final) :
    ∃ after, Resolution.loop context node.orphans passes state = some after ∧
      Resolves start txs node root after final := by
  induction passes generalizing state release with
  | zero =>
      rw [Release.run] at ran
      split at ran
      · rename_i ended
        cases ran
        exact ⟨state, by rw [Resolution.loop, resolves.vWorkQueue, if_pos ended], resolves⟩
      · contradiction
  | succ passes ih =>
      rw [Release.run] at ran
      rw [Resolution.loop, resolves.vWorkQueue]
      cases isPending : release.pending with
      | nil =>
          rw [isPending] at ran
          cases ran
          exact ⟨state, rfl, resolves⟩
      | cons hash pending =>
          rw [isPending] at ran
          have taken : Resolves start txs node root { state with vWorkQueue := pending }
              { release with pending } :=
            ⟨resolves.grown, resolves.contains_iff, rfl, resolves.vEraseQueue,
              resolves.setMisbehaving, resolves.misbehaving⟩
          have stored : ∀ other ∈ Resolution.filed node.orphans hash,
              ∃ orphan, node.orphans.mapOrphanTransactions[other]? = some orphan := by
            intro other member
            obtain ⟨orphan, found, _⟩ := (mem_filed_iff settled.index).mp member
            exact ⟨orphan, found⟩
          obtain ⟨next, retried, nextResolves⟩ := taken.retryAll consistent subset settled stored
          obtain ⟨after, rest, finished⟩ := ih nextResolves ran
          exact ⟨after, by simp only [retried, Option.bind_eq_bind, Option.bind_some]; exact rest,
            finished⟩

theorem waiting_filed (settled : Settled context start txs arrived node) :
    Release.Waiting (needs context node) (Resolution.filed node.orphans)
      node.orphans.mapOrphanTransactions.keys where
  listed need hash member needed := by
    rw [mem_filed_iff settled.index]
    rw [needs] at needed
    split at needed
    · contradiction
    · rename_i orphan found
      exact ⟨orphan, found, (List.mem_filter.mp needed).1⟩
  known need hash member := by
    obtain ⟨orphan, found, _⟩ := (mem_filed_iff settled.index).mp member
    rw [Std.ExtTreeMap.mem_keys]
    exact Std.ExtTreeMap.mem_iff_isSome_getElem?.mpr (by rw [found]; rfl)

end Loop

end Lycancoin

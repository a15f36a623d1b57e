import Lycancoin.Net.TxArrivalSteps

namespace Lycancoin

open Lycancoin.Data OrphanPool

section Run

variable {context : TxContext} {start : CTxMemPool} {txs arrived : List CTransaction}
  {node after : TxNode} {hash prev : Uint256} {message : TxMessage}

theorem Settled.arrival_of_ready (consistent : MutuallyConsistent context start txs)
    (subset : arrived ⊆ txs) (settled : Settled context start txs arrived node)
    (member : message.tx ∈ txs) (isNew : message.tx ∉ arrived)
    (available : ∀ prev ∈ prevHashes message.tx, context.available node.mempool prev = true) :
    (ResolvesWhole context node message.tx.hash → ∃ after,
      processTx context node message = some after ∧
        Settled context start txs (message.tx :: arrived) after) ∧
    (¬ResolvesWhole context node message.tx.hash → ∀ after,
      processTx context node message = some after → ∃ tx ∈ arrived, Lost after tx.hash) := by
  obtain ⟨state, final, ended, walk, resolves, order, processed⟩ :=
    processTx_of_ready consistent subset settled member isNew available
  have fresh := settled.fresh consistent subset member isNew
  have whole := complete_iff_visited_released consistent subset settled ⟨_, member, rfl⟩ fresh ended
    walk
  obtain ⟨defined, erasure⟩ := settled.index.eraseAll (message.tx.hash :: final.visited)
  constructor
  · intro ⟨complete, erasable⟩
    rw [order, ← defined] at erasable
    obtain ⟨orphans, erased⟩ := Option.isSome_iff_exists.mp erasable
    obtain ⟨index, isErased⟩ := erasure orphans erased
    refine ⟨_, by rw [processed, erased]; rfl, ?_⟩
    exact settled.resolved consistent subset member walk resolves (whole.mp complete) index isErased
      node.misbehaving
  · intro partly after returns
    rw [processed] at returns
    obtain ⟨orphans, erased, done⟩ := Option.map_eq_some_iff.mp returns
    obtain ⟨index, isErased⟩ := erasure orphans erased
    have erasable := defined.mp (Option.isSome_iff_exists.mpr ⟨orphans, erased⟩)
    rw [← order] at erasable
    have notAll : ¬∀ hash ∈ final.visited, hash ∈ final.released := fun all =>
      partly ⟨whole.mpr all, erasable⟩
    obtain ⟨hash, visited, unreleased⟩ : ∃ hash ∈ final.visited, hash ∉ final.released := by
      simpa using notAll
    obtain ⟨_, _, waits⟩ := walk.mem_visited_iff.mp visited
    obtain ⟨orphan, found, _⟩ := (mem_filed_iff settled.index).mp waits
    obtain ⟨hasArrived, absent, _⟩ := settled.waiting hash orphan found
    refine ⟨orphan.tx, hasArrived, ?_⟩
    rw [settled.index.hash_eq hash orphan found, ← done]
    refine ⟨index, ?_, ?_⟩
    · rw [Bool.eq_false_iff, ne_eq, resolves.contains_iff, contains_eq_false_of_getElem? absent]
      simpa using unreleased
    · have lookup := KeyedBatch.getElem?_foldl_erase id node.orphans.mapOrphanTransactions
        (message.tx.hash :: final.visited) hash
      rw [List.map_id, if_pos (List.mem_cons_of_mem _ visited)] at lookup
      rw [isErased]
      exact lookup

/-- Once all have arrived, nothing waits any more. -/
theorem Settled.all_in_pool (consistent : MutuallyConsistent context start txs)
    (subset : arrived ⊆ txs) (settled : Settled context start txs arrived node)
    (all : txs ⊆ arrived) :
    ∀ tx ∈ txs, node.mempool.mapTx.contains tx.hash = true := by
  obtain ⟨rank, increases⟩ := consistent.acyclic
  intro tx member
  induction level : rank tx.hash using Nat.strong_induction_on generalizing tx with
  | _ level ih =>
      refine (settled.kept tx (all member)).resolve_right fun isStored => ?_
      rw [Std.ExtTreeMap.contains_eq_isSome_getElem?] at isStored
      obtain ⟨orphan, found⟩ := Option.isSome_iff_exists.mp isStored
      obtain ⟨hasArrived, _, prev, spends, missing⟩ := settled.waiting tx.hash orphan found
      have isTx := consistent.eq_of_hash_eq (subset hasArrived) member
        (settled.index.hash_eq tx.hash orphan found)
      rw [isTx] at spends
      rcases consistent.parents tx member prev spends with before | ⟨parent, isMember, isPrev⟩
      · rw [settled.grown.available before] at missing
        contradiction
      · have below := increases tx member parent isMember (isPrev ▸ spends)
        have inPool := ih (rank parent.hash) (level ▸ below) parent isMember rfl
        rw [isPrev] at inPool
        rw [TxContext.available, inPool] at missing
        contradiction

/-- An orphan leaves the orphan pool only for the mempool. -/
def RemovesOnlyAccepted (context : TxContext) (node : TxNode) (message : TxMessage) : Prop :=
  ∀ after, processTx context node message = some after → ∀ hash : Uint256,
    node.orphans.mapOrphanTransactions.contains hash = true →
      after.mempool.mapTx.contains hash = true ∨
        after.orphans.mapOrphanTransactions.contains hash = true

theorem Settled.removesOnlyAccepted (settled : Settled context start txs arrived node)
    (processed : processTx context node message = some after)
    (next : Settled context start txs (message.tx :: arrived) after) :
    RemovesOnlyAccepted context node message := by
  intro other same hash stored
  rw [processed] at same
  cases same
  rw [Std.ExtTreeMap.contains_eq_isSome_getElem?] at stored
  obtain ⟨orphan, found⟩ := Option.isSome_iff_exists.mp stored
  obtain ⟨hasArrived, _⟩ := settled.waiting hash orphan found
  have kept := next.kept orphan.tx (List.mem_cons_of_mem _ hasArrived)
  rw [settled.index.hash_eq hash orphan found] at kept
  exact kept

/-- All messages are handled, all transactions are in the mempool, and no
orphan is removed before. -/
def HoldsAll (context : TxContext) (node : TxNode) (txs : List CTransaction)
    (messages : List TxMessage) : Prop :=
  (∃ final, runTx context node messages = some final ∧
    ∀ tx ∈ txs, final.mempool.mapTx.contains tx.hash = true) ∧
  AtEachArrival (RemovesOnlyAccepted context) context node messages

/-- From a state in which nothing is lost yet. -/
theorem Settled.run_iff (consistent : MutuallyConsistent context start txs)
    (subset : arrived ⊆ txs) (settled : Settled context start txs arrived node)
    {messages : List TxMessage} (toCome : ∀ message ∈ messages, message.tx ∈ txs)
    (onlyNew : ∀ message ∈ messages, message.tx ∉ arrived)
    (distinct : (messages.map fun message => message.tx.hash).Nodup)
    (all : ∀ tx ∈ txs, tx ∈ arrived ∨ ∃ message ∈ messages, message.tx = tx)
    (limits : AtEachArrival (WithinLimits context) context node messages) :
    HoldsAll context node txs messages ↔
      AtEachArrival (ResolvesOnArrival context) context node messages := by
  induction messages generalizing node arrived with
  | nil =>
      have complete : txs ⊆ arrived := fun tx member => (all tx member).resolve_right (by simp)
      exact ⟨fun _ => trivial,
        fun _ => ⟨⟨node, rfl, settled.all_in_pool consistent subset complete⟩, trivial⟩⟩
  | cons first rest ih =>
      obtain ⟨firstLimits, restLimits⟩ := limits
      have member := toCome first List.mem_cons_self
      have isNew := onlyNew first List.mem_cons_self
      rw [List.map_cons, List.nodup_cons] at distinct
      -- what follows an arrival that loses nothing
      have continues : ∀ {after}, processTx context node first = some after →
          Settled context start txs (first.tx :: arrived) after →
          (ResolvesOnArrival context node first) →
          (HoldsAll context node txs (first :: rest) ↔
            AtEachArrival (ResolvesOnArrival context) context node (first :: rest)) := by
        intro after processed next clean
        have step : runTx context node (first :: rest) = runTx context after rest := by
          rw [runTx, List.foldlM_cons, processed]
          rfl
        have further := ih (List.cons_subset.mpr ⟨member, subset⟩) next
          (fun message isRest => toCome message (List.mem_cons_of_mem _ isRest))
          (fun message isRest => by
            rw [List.mem_cons, not_or]
            refine ⟨fun same => distinct.1 ?_, onlyNew message (List.mem_cons_of_mem _ isRest)⟩
            exact same ▸ List.mem_map_of_mem isRest)
          distinct.2
          (fun tx isMember => by
            rcases all tx isMember with before | ⟨message, isMessage, isTx⟩
            · exact Or.inl (List.mem_cons_of_mem _ before)
            · rcases List.mem_cons.mp isMessage with same | isRest
              · exact Or.inl (by rw [← isTx, same]; exact List.mem_cons_self)
              · exact Or.inr ⟨message, isRest, isTx⟩)
          (restLimits after processed)
        have removes := settled.removesOnlyAccepted processed next
        rw [HoldsAll, step]
        constructor
        · rintro ⟨inPool, _, later⟩
          refine ⟨clean, fun other same => ?_⟩
          rw [processed] at same
          cases same
          exact further.mp ⟨inPool, later after processed⟩
        · rintro ⟨_, later⟩
          obtain ⟨inPool, others⟩ := further.mpr (later after processed)
          refine ⟨inPool, removes, fun other same => ?_⟩
          rw [processed] at same
          cases same
          exact others
      by_cases available : ∀ prev ∈ prevHashes first.tx, context.available node.mempool prev = true
      · obtain ⟨whole, partly⟩ :=
          settled.arrival_of_ready consistent subset member isNew available
        by_cases resolves : ResolvesWhole context node first.tx.hash
        · obtain ⟨after, processed, next⟩ := whole resolves
          exact continues processed next fun _ => resolves
        · constructor
          · rintro ⟨⟨final, ran, contains⟩, _⟩
            rw [runTx, List.foldlM_cons] at ran
            obtain ⟨after, processed, remaining⟩ := Option.bind_eq_some_iff.mp ran
            obtain ⟨tx, hasArrived, lost⟩ := partly resolves after processed
            have others : ∀ message ∈ rest, message.tx.hash ≠ tx.hash := by
              intro message isRest same
              have isTx := consistent.eq_of_hash_eq
                (toCome message (List.mem_cons_of_mem _ isRest)) (subset hasArrived) same
              exact onlyNew message (List.mem_cons_of_mem _ isRest) (isTx ▸ hasArrived)
            have absent := (lost.runTx others remaining).notInPool
            rw [contains tx (subset hasArrived)] at absent
            contradiction
          · exact fun all => absurd (all.1 available) resolves
      · obtain ⟨prev, needed, missing⟩ : ∃ prev ∈ prevHashes first.tx,
            context.available node.mempool prev = false := by
          simpa using available
        obtain ⟨after, processed, next⟩ := settled.stored consistent subset member isNew needed
          missing firstLimits
        exact continues processed next fun allThere => absurd allThere available

theorem settled_start (consistent : MutuallyConsistent context node.mempool txs)
    (noOrphans : node.orphans = OrphanPool.empty) :
    Settled context node.mempool txs [] node where
  grown := .refl consistent.exact
  index := noOrphans ▸ consistent_empty
  waiting hash orphan found := by simp [noOrphans, OrphanPool.empty] at found
  kept tx member := by simp at member
  arrived tx member present := by
    rw [contains_eq_false_of_getElem? (consistent.absent tx member)] at present
    contradiction

/-- Consistent transactions end up in the mempool, in whatever order they
arrive, exactly when each one that is accepted on arrival resolves all orphans
behind it. -/
theorem holdsAll_iff_resolvesOnArrival {messages : List TxMessage}
    (consistent : MutuallyConsistent context node.mempool (messages.map TxMessage.tx))
    (noOrphans : node.orphans = OrphanPool.empty)
    (limits : AtEachArrival (WithinLimits context) context node messages) :
    HoldsAll context node (messages.map TxMessage.tx) messages ↔
      AtEachArrival (ResolvesOnArrival context) context node messages := by
  have distinct : (messages.map fun message => message.tx.hash).Nodup := by
    have hashes := consistent.distinct
    rw [List.map_map] at hashes
    exact hashes
  exact (settled_start consistent noOrphans).run_iff consistent (List.nil_subset _)
    (fun message member => List.mem_map_of_mem member) (fun message _ => List.not_mem_nil)
    distinct (fun tx member => Or.inr (List.mem_map.mp member)) limits

end Run

/-- A transaction of outputs that are worth nothing and that anyone can spend. -/
def freeTx (hash : Uint256) (prevouts : List COutPoint) : CTransaction where
  hash := hash
  nVersion := 1
  vin := prevouts.map fun prevout => { prevout, scriptSig := [], nSequence := 0xffffffff }
  vout := [{ nValue := 0, scriptPubKey := [] }]
  nLockTime := 0

def freeCoins : CCoins where
  fCoinBase := false
  vout := [{ nValue := 0, scriptPubKey := [] }, { nValue := 0, scriptPubKey := [] }]
  nHeight := 1
  nVersion := 1

/-- A node that relays everything, with one confirmed transaction of two such outputs. -/
def freeContext : TxContext where
  rules :=
    { nHeight := 100
      nTime := 0
      nAdjustedTime := 0
      isStandardTx := fun _ => none
      areInputsStandard := fun _ _ => true
      getPriority := fun _ _ _ => 0
      checkFees := fun _ _ _ _ _ => .ok ()
      scriptCheck := fun _ _ _ _ => none }
  pcoinsTip :=
    { hashBestBlock := 0
      coins := fun txid => if txid = 7 then some freeCoins else none }
  nMaxOrphanTx := 100

def freshNode : TxNode := { mempool := CTxMemPool.new, orphans := OrphanPool.empty, misbehaving := [] }

section Free

variable {view : UtxoView} {pool : CTxMemPool} {tx : CTransaction} {txs : List CTransaction}

/-- The outputs that an input list spends are there and worth nothing. -/
def SpendsFree (view : UtxoView) (vin : List CTxIn) : Prop :=
  ∀ txin ∈ vin, ∃ coins, view.coins txin.prevout.hash = some coins ∧ coins.fCoinBase = false ∧
    view.output txin.prevout = some { nValue := 0, scriptPubKey := [] }

theorem SpendsFree.sumInputValues {vin : List CTxIn} (free : SpendsFree view vin) :
    view.sumInputValues 0 vin = .ok 0 := by
  induction vin with
  | nil => rfl
  | cons txin rest ih =>
      obtain ⟨_, _, _, output⟩ := free txin List.mem_cons_self
      rw [UtxoView.sumInputValues, output]
      exact ih fun other member => free other (List.mem_cons_of_mem _ member)

theorem SpendsFree.checkInputValues {vin : List CTxIn} (free : SpendsFree view vin)
    (nSpendHeight : Nat) : checkInputValues view nSpendHeight 0 vin = .ok 0 := by
  induction vin with
  | nil => rfl
  | cons txin rest ih =>
      obtain ⟨coins, found, notCoinBase, output⟩ := free txin List.mem_cons_self
      rw [Lycancoin.checkInputValues, found, output]
      simp only [notCoinBase]
      exact ih fun other member => free other (List.mem_cons_of_mem _ member)

theorem SpendsFree.haveInputs (free : SpendsFree view tx.vin) : view.haveInputs tx = true := by
  rw [UtxoView.haveInputs, Bool.or_eq_true, List.all_eq_true]
  right
  intro txin member
  obtain ⟨_, _, _, output⟩ := free txin member
  rw [output]
  rfl

theorem SpendsFree.getP2SHSigOpCount (free : SpendsFree view tx.vin) :
    getP2SHSigOpCount view tx = 0 := by
  rw [Lycancoin.getP2SHSigOpCount, List.sum_eq_zero_iff]
  intro count member
  obtain ⟨txin, input, rfl⟩ := List.mem_map.mp member
  obtain ⟨_, _, _, output⟩ := free txin input
  rw [spentScript, output]
  rfl

theorem checkPoolInputs_of_free (flags : UInt32) (free : SpendsFree view tx.vin)
    (valueOut : tx.getValueOut = .ok 0) :
    checkPoolInputs freeContext.rules flags view tx = .ok () := by
  have amounts : checkInputAmounts view 101 tx = .ok () := by
    rw [checkInputAmounts, free.haveInputs, free.checkInputValues, valueOut]
    rfl
  have scripts : ∀ items : List (CTxIn × Nat), (items.forM fun item =>
      checkPoolScript freeContext.rules flags view tx item.2 item.1) = .ok () := by
    intro items
    induction items with
    | nil => rfl
    | cons item rest ih => exact ih
  rw [checkPoolInputs]
  simp only [freeContext] at amounts ⊢
  rw [amounts]
  exact scripts _

theorem checkEntry_of_free (pool : CTxMemPool) (free : SpendsFree view tx.vin)
    (notCoinBase : tx.isCoinBase = false) (valueOut : tx.getValueOut = .ok 0)
    (noSigOps : getLegacySigOpCount tx = 0) :
    ∃ entry, checkEntry freeContext.rules pool view tx true false = .ok entry := by
  have valueIn : view.getValueIn tx = .ok 0 := by
    rw [UtxoView.getValueIn, notCoinBase, free.sumInputValues]
    rfl
  refine ⟨CTxMemPoolEntry.ofTx tx 0 0 0 100, ?_⟩
  rw [checkEntry, free.haveInputs, valueIn, noSigOps, free.getP2SHSigOpCount, valueOut,
    checkPoolInputs_of_free _ free valueOut, checkPoolInputs_of_free _ free valueOut]
  rfl

/-- Sets of such transactions, each spending the confirmed outputs or one another. -/
structure FreeSet (txs : List CTransaction) : Prop where
  distinct : (txs.map CTransaction.hash).Nodup
  unconfirmed : ∀ tx ∈ txs, tx.hash ≠ 7
  vout : ∀ tx ∈ txs, tx.vout = [{ nValue := 0, scriptPubKey := [] }]
  notCoinBase : ∀ tx ∈ txs, tx.isCoinBase = false
  noSigOps : ∀ tx ∈ txs, getLegacySigOpCount tx = 0
  loose : ∀ tx ∈ txs, checkLoose freeContext.rules tx = .ok ()
  conflictFree : ∀ tx ∈ txs, ∀ other ∈ txs, ∀ txin ∈ tx.vin, ∀ otherIn ∈ other.vin,
    txin.prevout = otherIn.prevout → tx = other
  spends : ∀ tx ∈ txs, ∀ txin ∈ tx.vin, txin.prevout.hash = 7 ∧ txin.prevout.n.toNat < 2 ∨
    txin.prevout.n = 0 ∧ txin.prevout.hash.value < tx.hash.value ∧
      ∃ parent ∈ txs, parent.hash = txin.prevout.hash

theorem FreeSet.spendsFree (set : FreeSet txs) (member : tx ∈ txs)
    (grown : GrownFrom CTxMemPool.new txs pool)
    (available : ∀ prev ∈ prevHashes tx, freeContext.available pool prev = true) :
    SpendsFree (pool.viewOver freeContext.pcoinsTip) tx.vin := by
  have isMember : ∀ (hash : Uint256) (entry : CTxMemPoolEntry), pool.mapTx[hash]? = some entry →
      entry.tx ∈ txs := by
    intro hash entry found
    refine (grown.members hash entry found).resolve_left fun old => ?_
    simp [CTxMemPool.new] at old
  intro txin input
  rcases set.spends tx member txin input with ⟨confirmed, index⟩ | ⟨index, _, parent, isParent, isPrev⟩
  · have absent : pool.mapTx[txin.prevout.hash]? = none := by
      cases found : pool.mapTx[txin.prevout.hash]? with
      | none => rfl
      | some entry =>
          have isHash := grown.exact.hash_eq _ _ found
          exact absurd (isHash.trans confirmed) (set.unconfirmed _ (isMember _ _ found))
    have coins : (pool.viewOver freeContext.pcoinsTip).coins txin.prevout.hash = some freeCoins := by
      rw [CTxMemPool.viewOver_of_absent absent, confirmed]
      rfl
    refine ⟨freeCoins, coins, rfl, ?_⟩
    rw [UtxoView.output, coins]
    generalize txin.prevout.n.toNat = n at index
    interval_cases n <;> rfl
  · have there := available txin.prevout.hash (List.mem_map_of_mem input)
    have notConfirmed : freeContext.pcoinsTip.coins txin.prevout.hash = none :=
      if_neg (isPrev ▸ set.unconfirmed parent isParent)
    rw [TxContext.available, notConfirmed, Option.isSome_none, Bool.or_false,
      Std.ExtTreeMap.contains_eq_isSome_getElem?] at there
    obtain ⟨entry, found⟩ := Option.isSome_iff_exists.mp there
    have isEntry : entry.tx = parent :=
      List.inj_on_of_nodup_map set.distinct (isMember _ _ found) isParent
        ((grown.exact.hash_eq _ _ found).trans isPrev.symm)
    have vout := set.vout parent isParent
    have fromParent : CCoins.fromTx parent MEMPOOL_HEIGHT =
        { fCoinBase := false, vout := [{ nValue := 0, scriptPubKey := [] }],
          nHeight := MEMPOOL_HEIGHT, nVersion := parent.nVersion } := by
      rw [CCoins.fromTx, vout, set.notCoinBase parent isParent]
      rfl
    have coins : (pool.viewOver freeContext.pcoinsTip).coins txin.prevout.hash =
        some (CCoins.fromTx parent MEMPOOL_HEIGHT) := by
      simp only [CTxMemPool.viewOver, found, isEntry]
      rw [fromParent]
      rfl
    refine ⟨_, coins, by rw [fromParent], ?_⟩
    rw [UtxoView.output, coins, fromParent, index]
    rfl

theorem FreeSet.consistent (set : FreeSet txs) :
    MutuallyConsistent freeContext CTxMemPool.new txs where
  exact := CTxMemPool.exact_new
  distinct := set.distinct
  absent tx _ := by simp [CTxMemPool.new]
  unconfirmed tx member := if_neg (set.unconfirmed tx member)
  unspent tx _ txin _ := by simp [CTxMemPool.new]
  conflictFree := set.conflictFree
  parents tx member prev needed := by
    obtain ⟨txin, input, rfl⟩ := List.mem_map.mp needed
    rcases set.spends tx member txin input with ⟨confirmed, _⟩ | ⟨_, _, parent⟩
    · left
      rw [confirmed]
      rfl
    · exact Or.inr parent
  acyclic := by
    refine ⟨fun hash => hash.value.toNat, fun tx member parent isParent spends => ?_⟩
    obtain ⟨txin, input, isPrev⟩ := List.mem_map.mp spends
    rcases set.spends tx member txin input with ⟨confirmed, _⟩ | ⟨_, below, _⟩
    · exact absurd (isPrev.symm.trans confirmed) (set.unconfirmed parent isParent)
    · rw [isPrev] at below
      exact below
  loose := set.loose
  acceptable tx member pool grown absent available := by
    have free := set.spendsFree member grown available
    have nothingSpent : ∀ txin ∈ tx.vin, CTxMemPool.new.mapNextTx[txin.prevout]? = none :=
      fun txin _ => by simp [CTxMemPool.new]
    have unspent : ∀ txin ∈ tx.vin, pool.mapNextTx[txin.prevout]? = none := fun txin input =>
      grown.unspent_in CTxMemPool.exact_new nothingSpent (set.conflictFree tx member) absent input
    have unknown : (pool.viewOver freeContext.pcoinsTip).coins tx.hash = none :=
      (CTxMemPool.viewOver_of_absent absent).trans (if_neg (set.unconfirmed tx member))
    have valueOut : tx.getValueOut = .ok 0 := by
      rw [CTransaction.getValueOut, set.vout tx member]
      rfl
    obtain ⟨entry, checked⟩ := checkEntry_of_free pool free (set.notCoinBase tx member) valueOut
      (set.noSigOps tx member)
    exact ⟨_, acceptToMemoryPool_of_checkEntry (set.loose tx member) absent unspent unknown
      (fun txin input => by
        obtain ⟨coins, found, _⟩ := free txin input
        rw [found]
        rfl) checked⟩

end Free

/-- Two transactions, the second of which spends an output of the first; the second arrives first. -/
def childFirst : List TxMessage :=
  [{ tx := freeTx 2 [⟨1, 0⟩], fromPeer := 0, random := fun _ => 0 },
    { tx := freeTx 1 [⟨7, 0⟩], fromPeer := 0, random := fun _ => 0 }]

theorem freeSet_childFirst : FreeSet (childFirst.map TxMessage.tx) where
  distinct := by decide
  unconfirmed := by decide
  vout := by decide
  notCoinBase := by decide
  noSigOps := by decide
  loose := by decide
  conflictFree := by decide
  spends := by decide

theorem childFirst_holdsAll_iff :
    HoldsAll freeContext freshNode (childFirst.map TxMessage.tx) childFirst ↔
      AtEachArrival (ResolvesOnArrival freeContext) freeContext freshNode childFirst :=
  holdsAll_iff_resolvesOnArrival freeSet_childFirst.consistent rfl
    (withinLimits_of_few OrphanPool.consistent_empty (by decide) (by decide))

/-- Three transactions, the last of which spends outputs of the other two. -/
def parentsAndChild : List TxMessage :=
  [{ tx := freeTx 3 [⟨1, 0⟩, ⟨2, 0⟩], fromPeer := 0, random := fun _ => 0 },
    { tx := freeTx 1 [⟨7, 0⟩], fromPeer := 0, random := fun _ => 0 },
    { tx := freeTx 2 [⟨7, 1⟩], fromPeer := 0, random := fun _ => 0 }]

theorem freeSet_parentsAndChild : FreeSet (parentsAndChild.map TxMessage.tx) where
  distinct := by decide
  unconfirmed := by decide
  vout := by decide
  notCoinBase := by decide
  noSigOps := by decide
  loose := by decide
  conflictFree := by decide
  spends := by decide

/-- The child arrives first.  It is retried and erased when the first parent
arrives, so it is missing once all three have arrived. -/
theorem parentsAndChild_loses_child :
    (MutuallyConsistent freeContext freshNode.mempool (parentsAndChild.map TxMessage.tx) ∧
      AtEachArrival (WithinLimits freeContext) freeContext freshNode parentsAndChild ∧
      (runTx freeContext freshNode parentsAndChild).map
        (fun final => [1, 2, 3].map final.mempool.mapTx.contains) = some [true, true, false]) ∧
    ¬∀ context node messages,
      MutuallyConsistent context node.mempool (messages.map TxMessage.tx) →
      node.orphans = OrphanPool.empty →
      AtEachArrival (WithinLimits context) context node messages →
      HoldsAll context node (messages.map TxMessage.tx) messages := by
  have consistent := freeSet_parentsAndChild.consistent
  have limits : AtEachArrival (WithinLimits freeContext) freeContext freshNode parentsAndChild :=
    withinLimits_of_few OrphanPool.consistent_empty (by decide) (by decide)
  have lost : (runTx freeContext freshNode parentsAndChild).map
      (fun final => [1, 2, 3].map final.mempool.mapTx.contains) = some [true, true, false] := by
    decide
  refine ⟨⟨consistent, limits, lost⟩, fun always => ?_⟩
  obtain ⟨⟨final, ran, all⟩, _⟩ := always freeContext freshNode parentsAndChild consistent rfl limits
  rw [ran, Option.map_some, Option.some.injEq] at lost
  have inPool := all (freeTx 3 [⟨1, 0⟩, ⟨2, 0⟩]) List.mem_cons_self
  simp only [List.map_cons, List.cons.injEq] at lost
  exact absurd (inPool.symm.trans lost.2.2.1) (by decide)

end Lycancoin

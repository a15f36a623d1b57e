import Lycancoin.Chain.BlockIndex
import Lycancoin.Chain.CommonAncestor
import Lycancoin.Data.Ancestors
import Lycancoin.Net.InFlight

namespace Lycancoin

open Std Lycancoin.Data

/-- `mapBlockIndex` with what the choice of downloads reads of an entry. -/
structure DownloadIndex extends IndexTree Uint256 where
  nChainWork : Uint256 → ArithUint256
  nStatus : Uint256 → BlockStatus
  nChainTx : Uint256 → UInt32

/-- The part of a peer's state that says which blocks it has. -/
structure PeerBlocks where
  pindexBestKnownBlock : Option Uint256
  hashLastUnknownBlock : Uint256
  pindexLastCommonBlock : Option Uint256
deriving DecidableEq, Repr

def BLOCK_DOWNLOAD_WINDOW : Nat := 1024

namespace DownloadIndex

variable (index : DownloadIndex)

def isKnown (hash : Uint256) : Prop := hash ∈ index.entries ∧ 0 < index.nChainWork hash

instance (hash : Uint256) : Decidable (index.isKnown hash) := inferInstanceAs (Decidable (_ ∧ _))

/-- `pindexBestKnownBlock` after a known block was announced: of two blocks with equal work it is
the later one. -/
def betterKnown (state : PeerBlocks) (hash : Uint256) : Option Uint256 :=
  match state.pindexBestKnownBlock with
  | none => some hash
  | some best =>
      if index.nChainWork best ≤ index.nChainWork hash then some hash else some best

def processBlockAvailability (state : PeerBlocks) : PeerBlocks :=
  if state.hashLastUnknownBlock ≠ Uint256.null ∧ index.isKnown state.hashLastUnknownBlock then
    { state with
      pindexBestKnownBlock := index.betterKnown state state.hashLastUnknownBlock
      hashLastUnknownBlock := Uint256.null }
  else state

def updateBlockAvailability (state : PeerBlocks) (hash : Uint256) : PeerBlocks :=
  let state := index.processBlockAvailability state
  if index.isKnown hash then
    { state with pindexBestKnownBlock := index.betterKnown state hash }
  else { state with hashLastUnknownBlock := hash }

end DownloadIndex

namespace BlockLinks

variable {α : Type} (links : BlockLinks α)

/-- `vToFetch`, filled from its last entry downwards. -/
def fillToFetch : Nat → α → List α → Option (List α)
  | 0, pindex, rest => some (pindex :: rest)
  | i + 1, pindex, rest =>
      match links.pprev pindex with
      | none => none
      | some prev => fillToFetch i prev (pindex :: rest)

end BlockLinks

/-- What the loops of `FindNextBlocksToDownload` change. -/
structure Fetch where
  pindexLastCommonBlock : Uint256
  vBlocks : List Uint256
  waitingfor : NodeId
  nodeStaller : NodeId

namespace DownloadIndex

variable (index : DownloadIndex) (mapBlocksInFlight : ExtTreeMap Uint256 (NodeId × Nat))
  (nodeid : NodeId) (count : UInt32)

/-- The body of the inner loop, where an error stands for `return`. -/
def scanBlock (nWindowEnd : Nat) (fetch : Fetch) (pindex : Uint256) : Except Fetch Fetch :=
  if ¬(index.nStatus pindex).isValid .tree then .error fetch
  else if (index.nStatus pindex).haveData then
    if index.nChainTx pindex ≠ 0 then .ok { fetch with pindexLastCommonBlock := pindex }
    else .ok fetch
  else
    match mapBlocksInFlight[pindex]? with
    | none =>
        if index.nHeight pindex > nWindowEnd then
          if fetch.vBlocks.length = 0 ∧ fetch.waitingfor ≠ nodeid then
            .error { fetch with nodeStaller := fetch.waitingfor }
          else .error fetch
        else if fetch.vBlocks.length + 1 = count.toNat then
          .error { fetch with vBlocks := fetch.vBlocks ++ [pindex] }
        else .ok { fetch with vBlocks := fetch.vBlocks ++ [pindex] }
    | some (peer, _) =>
        if fetch.waitingfor = -1 then .ok { fetch with waitingfor := peer } else .ok fetch

/-- The size of a batch, where the difference of `count` and `vBlocks.size()` is read as an
`int`. -/
@[irreducible] def nToFetch (nMaxHeight nHeight size : Nat) : Int :=
  min ((nMaxHeight : Int) - nHeight) (max (Int.bmod ((count.toNat : Int) - size) (2 ^ 32)) 128)

/-- `vToFetch` with its last block, which the walk reaches. -/
def readToFetch (best : Uint256) (nMaxHeight nHeight size : Nat) :
    Option (Uint256 × List Uint256) := do
  let last ← (index.getAncestor best (nHeight + nToFetch count nMaxHeight nHeight size)).join
  let vToFetch ← index.fillToFetch ((nToFetch count nMaxHeight nHeight size).toNat - 1) last []
  return (last, vToFetch)

/-- The outer loop, in so many rounds. -/
def fetchLoop (best : Uint256) (nWindowEnd nMaxHeight : Nat) : Nat → Uint256 → Fetch → Option Fetch
  | 0, pindexWalk, fetch => if index.nHeight pindexWalk < nMaxHeight then none else some fetch
  | rounds + 1, pindexWalk, fetch =>
      if index.nHeight pindexWalk < nMaxHeight then
        match index.readToFetch count best nMaxHeight (index.nHeight pindexWalk)
          fetch.vBlocks.length with
        | none => none
        | some (last, vToFetch) =>
            match vToFetch.foldlM
              (scanBlock index mapBlocksInFlight nodeid count nWindowEnd) fetch with
            | .error fetch => some fetch
            | .ok fetch => fetchLoop best nWindowEnd nMaxHeight rounds last fetch
      else some fetch

/-- `FindNextBlocksToDownload` from where the peer is known to have something. -/
def fetchFrom (chain : ActiveChain Uint256) (state : PeerBlocks) (best : Uint256)
    (vBlocks : List Uint256) (nodeStaller : NodeId) :
    Option (PeerBlocks × List Uint256 × NodeId) := do
  let guess ← state.pindexLastCommonBlock <|>
    chain.entryAt (min (index.nHeight best : Int) chain.height)
  let common ← (index.lastCommonAncestor guess best).join
  if common = best then
    some ({ state with pindexLastCommonBlock := some common }, vBlocks, nodeStaller)
  else
    let nWindowEnd := index.nHeight common + BLOCK_DOWNLOAD_WINDOW
    let nMaxHeight := min (index.nHeight best) (nWindowEnd + 1)
    let fetch ← index.fetchLoop mapBlocksInFlight nodeid count best nWindowEnd nMaxHeight
      (nMaxHeight - index.nHeight common) common
      { pindexLastCommonBlock := common, vBlocks, waitingfor := -1, nodeStaller }
    some ({ state with pindexLastCommonBlock := some fetch.pindexLastCommonBlock },
      fetch.vBlocks, fetch.nodeStaller)

/-- `FindNextBlocksToDownload`: the peer's state, `vBlocks` and `nodeStaller`. -/
def findNextBlocksToDownload (chain : ActiveChain Uint256) (state : PeerBlocks)
    (vBlocks : List Uint256) (nodeStaller : NodeId) :
    Option (PeerBlocks × List Uint256 × NodeId) :=
  if count = 0 then some (state, vBlocks, nodeStaller)
  else
    let state := index.processBlockAvailability state
    match state.pindexBestKnownBlock with
    | none => some (state, vBlocks, nodeStaller)
    | some best =>
        match chain.tip with
        | none => none
        | some tip =>
            if index.nChainWork best < index.nChainWork tip then
              some (state, vBlocks, nodeStaller)
            else index.fetchFrom mapBlocksInFlight nodeid count chain state best vBlocks nodeStaller

end DownloadIndex

namespace DownloadIndex

variable {index : DownloadIndex} {mapBlocksInFlight : ExtTreeMap Uint256 (NodeId × Nat)}
  {nodeid : NodeId} {count : UInt32}

/-! ## What a peer has -/

/-- The pointers of a peer's state lead to entries. -/
structure Known (index : DownloadIndex) (state : PeerBlocks) : Prop where
  best : ∀ best ∈ state.pindexBestKnownBlock, best ∈ index.entries
  lastCommon : ∀ last ∈ state.pindexLastCommonBlock, last ∈ index.entries

/-- The best known block is as good as the one before. -/
def NoWorse (index : DownloadIndex) (before after : PeerBlocks) : Prop :=
  ∀ best ∈ before.pindexBestKnownBlock, ∃ better ∈ after.pindexBestKnownBlock,
    index.nChainWork best ≤ index.nChainWork better

theorem betterKnown_spec (state : PeerBlocks) (hash : Uint256) :
    ∃ better, index.betterKnown state hash = some better ∧
      (better = hash ∨ state.pindexBestKnownBlock = some better) ∧
      ∀ best ∈ state.pindexBestKnownBlock, index.nChainWork best ≤ index.nChainWork better := by
  unfold betterKnown
  cases isBest : state.pindexBestKnownBlock with
  | none => exact ⟨hash, rfl, Or.inl rfl, fun _ contradicted => by cases contradicted⟩
  | some best =>
      by_cases better : index.nChainWork best ≤ index.nChainWork hash
      · refine ⟨hash, by simp only [if_pos better], Or.inl rfl, ?_⟩
        intro other isOther
        cases isOther
        exact better
      · refine ⟨best, by simp only [if_neg better], Or.inr rfl, ?_⟩
        intro other isOther
        cases isOther
        exact le_refl _

theorem Known.announce {state : PeerBlocks} (known : index.Known state) {hash hashLast : Uint256}
    (isKnown : index.isKnown hash) :
    index.Known { state with
      pindexBestKnownBlock := index.betterKnown state hash, hashLastUnknownBlock := hashLast } ∧
    index.NoWorse state { state with
      pindexBestKnownBlock := index.betterKnown state hash, hashLastUnknownBlock := hashLast } := by
  obtain ⟨better, found, source, higher⟩ := index.betterKnown_spec state hash
  refine ⟨⟨?_, known.lastCommon⟩, ?_⟩
  · intro best isBest
    rw [found] at isBest
    cases isBest
    cases source with
    | inl same => exact same ▸ isKnown.1
    | inr old => exact known.best better old
  · intro best isBest
    exact ⟨better, found, higher best isBest⟩

theorem NoWorse.refl (state : PeerBlocks) : index.NoWorse state state :=
  fun best isBest => ⟨best, isBest, le_refl _⟩

theorem NoWorse.trans {first second third : PeerBlocks} (early : index.NoWorse first second)
    (late : index.NoWorse second third) : index.NoWorse first third := by
  intro best isBest
  obtain ⟨better, isBetter, higher⟩ := early best isBest
  obtain ⟨top, isTop, highest⟩ := late better isBetter
  exact ⟨top, isTop, le_trans higher highest⟩

theorem Known.processBlockAvailability {state : PeerBlocks} (known : index.Known state) :
    index.Known (index.processBlockAvailability state) ∧
      index.NoWorse state (index.processBlockAvailability state) ∧
      (index.processBlockAvailability state).pindexLastCommonBlock =
        state.pindexLastCommonBlock := by
  unfold DownloadIndex.processBlockAvailability
  split_ifs with arrived
  · obtain ⟨after, noWorse⟩ := @Known.announce _ _ known _ Uint256.null arrived.2
    exact ⟨after, noWorse, rfl⟩
  · exact ⟨known, NoWorse.refl state, rfl⟩

theorem Known.updateBlockAvailability {state : PeerBlocks} (known : index.Known state)
    (hash : Uint256) :
    index.Known (index.updateBlockAvailability state hash) ∧
      index.NoWorse state (index.updateBlockAvailability state hash) := by
  obtain ⟨between, noWorse, -⟩ := known.processBlockAvailability
  unfold DownloadIndex.updateBlockAvailability
  by_cases isKnown : index.isKnown hash
  · obtain ⟨after, better⟩ := @Known.announce _ _ between hash
      (index.processBlockAvailability state).hashLastUnknownBlock isKnown
    rw [if_pos isKnown]
    exact ⟨after, noWorse.trans better⟩
  · rw [if_neg isKnown]
    exact ⟨⟨between.best, between.lastCommon⟩, noWorse⟩

/-- Whatever a peer announces, its best known block gets no worse. -/
theorem Known.announcements {state : PeerBlocks} (known : index.Known state)
    (hashes : List Uint256) :
    index.Known (hashes.foldl index.updateBlockAvailability state) ∧
      index.NoWorse state (hashes.foldl index.updateBlockAvailability state) := by
  induction hashes generalizing state with
  | nil => exact ⟨known, NoWorse.refl state⟩
  | cons hash rest ih =>
      obtain ⟨next, noWorse⟩ := known.updateBlockAvailability hash
      obtain ⟨after, better⟩ := ih next
      exact ⟨after, noWorse.trans better⟩

/-! ## One pass over the path -/

def fetchable (index : DownloadIndex) (mapBlocksInFlight : ExtTreeMap Uint256 (NodeId × Nat))
    (nWindowEnd : Nat) (hash : Uint256) : Bool :=
  !(index.nStatus hash).haveData && !mapBlocksInFlight.contains hash &&
    decide (index.nHeight hash ≤ nWindowEnd)

/-- What is to be fetched of a path, up to its first invalid block. -/
def wanted (index : DownloadIndex) (mapBlocksInFlight : ExtTreeMap Uint256 (NodeId × Nat))
    (nWindowEnd : Nat) (blocks : List Uint256) : List Uint256 :=
  (blocks.takeWhile fun hash => (index.nStatus hash).isValid .tree).filter
    (index.fetchable mapBlocksInFlight nWindowEnd)

def Awaited (index : DownloadIndex) (mapBlocksInFlight : ExtTreeMap Uint256 (NodeId × Nat))
    (nWindowEnd : Nat) (hash : Uint256) : Prop :=
  index.nHeight hash ≤ nWindowEnd → (index.nStatus hash).haveData = false →
    hash ∈ mapBlocksInFlight

/-- A block that is there and so are all below it: `nChainTx` is set only then. -/
def Received (index : DownloadIndex) (hash : Uint256) : Prop :=
  (index.nStatus hash).haveData = true ∧ index.nChainTx hash ≠ 0

/-- What a pass over blocks makes of the state before it. -/
structure Scanned (index : DownloadIndex)
    (mapBlocksInFlight : ExtTreeMap Uint256 (NodeId × Nat)) (nodeid : NodeId) (count : UInt32)
    (nWindowEnd : Nat) (blocks : List Uint256) (before after : Fetch) : Prop where
  vBlocks : after.vBlocks = before.vBlocks ++
    (index.wanted mapBlocksInFlight nWindowEnd blocks).take (count.toNat - before.vBlocks.length)
  lastCommon : after.pindexLastCommonBlock = before.pindexLastCommonBlock ∨
    after.pindexLastCommonBlock ∈ blocks ∧ index.Received after.pindexLastCommonBlock
  nodeStaller : after.nodeStaller = before.nodeStaller ∨
    after.nodeStaller ≠ nodeid ∧ after.vBlocks = [] ∧
      (∀ hash ∈ blocks, index.Awaited mapBlocksInFlight nWindowEnd hash) ∧
      (after.nodeStaller = before.waitingfor ∨ ∃ hash ∈ blocks, ∃ address,
        mapBlocksInFlight[hash]? = some (after.nodeStaller, address))

/-- The state at the end of a pass, however it ended. -/
def settled : Except Fetch Fetch → Fetch
  | .error fetch => fetch
  | .ok fetch => fetch

variable {nWindowEnd : Nat} {blocks rest : List Uint256} {pindex : Uint256} {fetch : Fetch}

theorem wanted_cons_invalid (invalid : ¬(index.nStatus pindex).isValid .tree) :
    index.wanted mapBlocksInFlight nWindowEnd (pindex :: rest) = [] := by
  simp [wanted, invalid]

theorem wanted_cons_skip (skipped : index.fetchable mapBlocksInFlight nWindowEnd pindex = false)
    (valid : (index.nStatus pindex).isValid .tree = true) :
    index.wanted mapBlocksInFlight nWindowEnd (pindex :: rest) =
      index.wanted mapBlocksInFlight nWindowEnd rest := by
  simp [wanted, valid, skipped]

theorem wanted_cons_take (taken : index.fetchable mapBlocksInFlight nWindowEnd pindex = true)
    (valid : (index.nStatus pindex).isValid .tree = true) :
    index.wanted mapBlocksInFlight nWindowEnd (pindex :: rest) =
      pindex :: index.wanted mapBlocksInFlight nWindowEnd rest := by
  simp [wanted, valid, taken]

theorem wanted_eq_nil (beyond : ∀ hash ∈ blocks, nWindowEnd < index.nHeight hash) :
    index.wanted mapBlocksInFlight nWindowEnd blocks = [] := by
  rw [wanted, List.filter_eq_nil_iff]
  intro hash member
  have above := beyond hash (List.takeWhile_subset _ member)
  simp only [fetchable, Bool.and_eq_true, decide_eq_true_eq]
  omega

/-- Behind the window nothing is fetched. -/
theorem wanted_append (beyond : ∀ hash ∈ rest, nWindowEnd < index.nHeight hash) :
    index.wanted mapBlocksInFlight nWindowEnd (blocks ++ rest) =
      index.wanted mapBlocksInFlight nWindowEnd blocks := by
  induction blocks with
  | nil =>
      rw [List.nil_append, wanted_eq_nil beyond]
      rfl
  | cons hash blocks ih =>
      rw [List.cons_append]
      by_cases valid : (index.nStatus hash).isValid .tree = true
      · cases taken : index.fetchable mapBlocksInFlight nWindowEnd hash with
        | false => rw [wanted_cons_skip taken valid, wanted_cons_skip taken valid, ih]
        | true => rw [wanted_cons_take taken valid, wanted_cons_take taken valid, ih]
      · rw [wanted_cons_invalid valid, wanted_cons_invalid valid]

theorem Scanned.stop (before : Fetch) (none : index.wanted mapBlocksInFlight nWindowEnd blocks = []) :
    index.Scanned mapBlocksInFlight nodeid count nWindowEnd blocks before before where
  vBlocks := by rw [none, List.take_nil, List.append_nil]
  lastCommon := Or.inl rfl
  nodeStaller := Or.inl rfl

/-- A block that is not to be fetched leaves the rest of the pass to what comes behind it. -/
theorem Scanned.skip {before middle after : Fetch}
    (valid : (index.nStatus pindex).isValid .tree = true)
    (skipped : index.fetchable mapBlocksInFlight nWindowEnd pindex = false)
    (awaited : index.Awaited mapBlocksInFlight nWindowEnd pindex)
    (sameBlocks : middle.vBlocks = before.vBlocks)
    (sameStaller : middle.nodeStaller = before.nodeStaller)
    (lastCommon : middle.pindexLastCommonBlock = before.pindexLastCommonBlock ∨
      middle.pindexLastCommonBlock = pindex ∧ index.Received pindex)
    (waiting : middle.waitingfor = before.waitingfor ∨
      ∃ address, mapBlocksInFlight[pindex]? = some (middle.waitingfor, address))
    (scanned : index.Scanned mapBlocksInFlight nodeid count nWindowEnd rest middle after) :
    index.Scanned mapBlocksInFlight nodeid count nWindowEnd (pindex :: rest) before after := by
  constructor
  · rw [wanted_cons_skip skipped valid, ← sameBlocks]
    exact scanned.vBlocks
  · cases scanned.lastCommon with
    | inr later => exact Or.inr ⟨List.mem_cons_of_mem _ later.1, later.2⟩
    | inl same =>
        rw [same]
        cases lastCommon with
        | inl unchanged => exact Or.inl unchanged
        | inr isThis =>
            rw [isThis.1]
            exact Or.inr ⟨List.mem_cons_self, isThis.2⟩
  · cases scanned.nodeStaller with
    | inl same => exact Or.inl (same.trans sameStaller)
    | inr stalled =>
        obtain ⟨other, empty, behind, source⟩ := stalled
        refine Or.inr ⟨other, empty, ?_, ?_⟩
        · intro hash member
          cases member with
          | head => exact awaited
          | tail _ later => exact behind hash later
        · cases source with
          | inr later =>
              obtain ⟨hash, member, found⟩ := later
              exact Or.inr ⟨hash, List.mem_cons_of_mem _ member, found⟩
          | inl same =>
              rw [same]
              cases waiting with
              | inl unchanged => exact Or.inl unchanged
              | inr first => exact Or.inr ⟨pindex, List.mem_cons_self, first⟩

theorem Scanned.push {before after : Fetch} (valid : (index.nStatus pindex).isValid .tree = true)
    (taken : index.fetchable mapBlocksInFlight nWindowEnd pindex = true)
    (room : before.vBlocks.length < count.toNat)
    (scanned : index.Scanned mapBlocksInFlight nodeid count nWindowEnd rest
      { before with vBlocks := before.vBlocks ++ [pindex] } after) :
    index.Scanned mapBlocksInFlight nodeid count nWindowEnd (pindex :: rest) before after := by
  have left : count.toNat - before.vBlocks.length =
      count.toNat - (before.vBlocks ++ [pindex]).length + 1 := by
    rw [List.length_append, List.length_singleton]
    omega
  constructor
  · rw [wanted_cons_take taken valid, left, List.take_succ_cons, scanned.vBlocks,
      List.append_assoc, List.singleton_append]
  · cases scanned.lastCommon with
    | inl same => exact Or.inl same
    | inr later => exact Or.inr ⟨List.mem_cons_of_mem _ later.1, later.2⟩
  · cases scanned.nodeStaller with
    | inl same => exact Or.inl same
    | inr stalled =>
        have empty := stalled.2.1
        rw [scanned.vBlocks] at empty
        simp at empty

/-- A pass that stops with a full vector has taken what was left to take. -/
theorem Scanned.full {before : Fetch} (full : before.vBlocks.length = count.toNat) :
    index.Scanned mapBlocksInFlight nodeid count nWindowEnd blocks before before where
  vBlocks := by rw [full, Nat.sub_self, List.take_zero, List.append_nil]
  lastCommon := Or.inl rfl
  nodeStaller := Or.inl rfl

/-- A block behind the window that could be fetched shows whom the peers wait for. -/
theorem Scanned.stall {before : Fetch} (beyond : ∀ hash ∈ blocks, nWindowEnd < index.nHeight hash)
    (empty : before.vBlocks.length = 0) (other : before.waitingfor ≠ nodeid) :
    index.Scanned mapBlocksInFlight nodeid count nWindowEnd blocks before
      { before with nodeStaller := before.waitingfor } where
  vBlocks := by rw [wanted_eq_nil beyond, List.take_nil, List.append_nil]
  lastCommon := Or.inl rfl
  nodeStaller := by
    refine Or.inr ⟨other, List.length_eq_zero_iff.mp empty, ?_, Or.inl rfl⟩
    intro hash member within
    have above := beyond hash member
    omega

/-- A step ends the pass, or hands it on to the blocks behind. -/
def Handed (index : DownloadIndex) (mapBlocksInFlight : ExtTreeMap Uint256 (NodeId × Nat))
    (nodeid : NodeId) (count : UInt32) (nWindowEnd : Nat) (pindex : Uint256) (rest : List Uint256)
    (before : Fetch) : Except Fetch Fetch → Prop
  | .error after =>
      index.Scanned mapBlocksInFlight nodeid count nWindowEnd (pindex :: rest) before after
  | .ok middle => middle.vBlocks.length < count.toNat ∧ ∀ after,
      index.Scanned mapBlocksInFlight nodeid count nWindowEnd rest middle after →
      index.Scanned mapBlocksInFlight nodeid count nWindowEnd (pindex :: rest) before after

theorem scanBlock_data (valid : (index.nStatus pindex).isValid .tree = true)
    (room : fetch.vBlocks.length < count.toNat)
    (hasData : (index.nStatus pindex).haveData = true) :
    index.Handed mapBlocksInFlight nodeid count nWindowEnd pindex rest fetch
      (index.scanBlock mapBlocksInFlight nodeid count nWindowEnd fetch pindex) := by
  have skipped : index.fetchable mapBlocksInFlight nWindowEnd pindex = false := by
    simp [fetchable, hasData]
  have awaited : index.Awaited mapBlocksInFlight nWindowEnd pindex := by
    intro _ missing
    simp [hasData] at missing
  by_cases unlinked : index.nChainTx pindex = 0
  · have step : index.scanBlock mapBlocksInFlight nodeid count nWindowEnd fetch pindex =
        .ok fetch := by
      simp [scanBlock, valid, hasData, unlinked]
    rw [step]
    exact ⟨room, fun after => Scanned.skip valid skipped awaited rfl rfl (Or.inl rfl) (Or.inl rfl)⟩
  · have step : index.scanBlock mapBlocksInFlight nodeid count nWindowEnd fetch pindex =
        .ok { fetch with pindexLastCommonBlock := pindex } := by
      simp [scanBlock, valid, hasData, unlinked]
    rw [step]
    exact ⟨room, fun after => Scanned.skip valid skipped awaited rfl rfl
      (Or.inr ⟨rfl, hasData, unlinked⟩) (Or.inl rfl)⟩

theorem scanBlock_queued {peer : NodeId} {address : Nat}
    (valid : (index.nStatus pindex).isValid .tree = true)
    (room : fetch.vBlocks.length < count.toNat)
    (missing : (index.nStatus pindex).haveData = false)
    (queued : mapBlocksInFlight[pindex]? = some (peer, address)) :
    index.Handed mapBlocksInFlight nodeid count nWindowEnd pindex rest fetch
      (index.scanBlock mapBlocksInFlight nodeid count nWindowEnd fetch pindex) := by
  have inFlight : pindex ∈ mapBlocksInFlight := by
    rw [← ExtTreeMap.isSome_getElem?_iff_mem, queued]
    rfl
  have skipped : index.fetchable mapBlocksInFlight nWindowEnd pindex = false := by
    simp [fetchable, inFlight]
  by_cases first : fetch.waitingfor = -1
  · have step : index.scanBlock mapBlocksInFlight nodeid count nWindowEnd fetch pindex =
        .ok { fetch with waitingfor := peer } := by
      simp [scanBlock, valid, missing, queued, first]
    rw [step]
    exact ⟨room, fun after => Scanned.skip valid skipped (fun _ _ => inFlight) rfl rfl (Or.inl rfl)
      (Or.inr ⟨address, queued⟩)⟩
  · have step : index.scanBlock mapBlocksInFlight nodeid count nWindowEnd fetch pindex =
        .ok fetch := by
      simp [scanBlock, valid, missing, queued, first]
    rw [step]
    exact ⟨room, fun after => Scanned.skip valid skipped (fun _ _ => inFlight) rfl rfl (Or.inl rfl)
      (Or.inl rfl)⟩

theorem scanBlock_beyond (valid : (index.nStatus pindex).isValid .tree = true)
    (missing : (index.nStatus pindex).haveData = false)
    (idle : mapBlocksInFlight[pindex]? = none)
    (beyond : ∀ hash ∈ pindex :: rest, nWindowEnd < index.nHeight hash) :
    index.Handed mapBlocksInFlight nodeid count nWindowEnd pindex rest fetch
      (index.scanBlock mapBlocksInFlight nodeid count nWindowEnd fetch pindex) := by
  have above := beyond pindex List.mem_cons_self
  by_cases stalls : fetch.vBlocks.length = 0 ∧ fetch.waitingfor ≠ nodeid
  · have step : index.scanBlock mapBlocksInFlight nodeid count nWindowEnd fetch pindex =
        .error { fetch with nodeStaller := fetch.waitingfor } := by
      simp [scanBlock, valid, missing, idle, above, stalls]
    rw [step]
    exact Scanned.stall beyond stalls.1 stalls.2
  · have step : index.scanBlock mapBlocksInFlight nodeid count nWindowEnd fetch pindex =
        .error fetch := by
      rw [scanBlock, if_neg (not_not_intro valid), if_neg (ne_true_of_eq_false missing), idle]
      simp only [gt_iff_lt, if_pos above, if_neg stalls]
    rw [step]
    exact Scanned.stop fetch (wanted_eq_nil beyond)

theorem scanBlock_inside (valid : (index.nStatus pindex).isValid .tree = true)
    (room : fetch.vBlocks.length < count.toNat)
    (missing : (index.nStatus pindex).haveData = false)
    (idle : mapBlocksInFlight[pindex]? = none) (within : index.nHeight pindex ≤ nWindowEnd) :
    index.Handed mapBlocksInFlight nodeid count nWindowEnd pindex rest fetch
      (index.scanBlock mapBlocksInFlight nodeid count nWindowEnd fetch pindex) := by
  have taken : index.fetchable mapBlocksInFlight nWindowEnd pindex = true := by
    have absent : mapBlocksInFlight.contains pindex = false := by
      rw [ExtTreeMap.contains_eq_isSome_getElem?, idle]
      rfl
    simp [fetchable, missing, absent, within]
  have inside : ¬ index.nHeight pindex > nWindowEnd := Nat.not_lt.mpr within
  by_cases last : fetch.vBlocks.length + 1 = count.toNat
  · have step : index.scanBlock mapBlocksInFlight nodeid count nWindowEnd fetch pindex =
        .error { fetch with vBlocks := fetch.vBlocks ++ [pindex] } := by
      simp [scanBlock, valid, missing, idle, inside, last]
    rw [step]
    exact Scanned.push valid taken room (Scanned.full (by simpa using last))
  · have step : index.scanBlock mapBlocksInFlight nodeid count nWindowEnd fetch pindex =
        .ok { fetch with vBlocks := fetch.vBlocks ++ [pindex] } := by
      simp [scanBlock, valid, missing, idle, inside, last]
    rw [step]
    refine ⟨?_, fun after => Scanned.push valid taken room⟩
    rw [List.length_append, List.length_singleton]
    omega

theorem scanBlock_spec (lowest : ∀ hash ∈ rest, index.nHeight pindex < index.nHeight hash)
    (room : fetch.vBlocks.length < count.toNat) :
    index.Handed mapBlocksInFlight nodeid count nWindowEnd pindex rest fetch
      (index.scanBlock mapBlocksInFlight nodeid count nWindowEnd fetch pindex) := by
  by_cases valid : (index.nStatus pindex).isValid .tree = true
  · cases hasData : (index.nStatus pindex).haveData with
    | true => exact scanBlock_data valid room hasData
    | false =>
        cases queued : mapBlocksInFlight[pindex]? with
        | some entry => exact scanBlock_queued valid room hasData queued
        | none =>
            by_cases within : index.nHeight pindex ≤ nWindowEnd
            · exact scanBlock_inside valid room hasData queued within
            · apply scanBlock_beyond valid hasData queued
              intro hash member
              cases member with
              | head => exact Nat.lt_of_not_le within
              | tail _ later => exact Nat.lt_trans (Nat.lt_of_not_le within) (lowest hash later)
  · rw [scanBlock, if_pos valid]
    exact Scanned.stop fetch (wanted_cons_invalid valid)

theorem scan_spec (increasing : blocks.Pairwise fun below above =>
      index.nHeight below < index.nHeight above)
    (room : fetch.vBlocks.length < count.toNat) :
    index.Scanned mapBlocksInFlight nodeid count nWindowEnd blocks fetch
      (settled (blocks.foldlM (scanBlock index mapBlocksInFlight nodeid count nWindowEnd) fetch)) := by
  induction blocks generalizing fetch with
  | nil => exact Scanned.stop fetch rfl
  | cons pindex rest ih =>
      obtain ⟨lowest, increasingRest⟩ := List.pairwise_cons.mp increasing
      have handed := @scanBlock_spec index mapBlocksInFlight nodeid count nWindowEnd rest pindex
        fetch lowest room
      rw [List.foldlM_cons]
      cases step : index.scanBlock mapBlocksInFlight nodeid count nWindowEnd fetch pindex with
      | error after =>
          rw [step] at handed
          exact handed
      | ok middle =>
          rw [step] at handed
          exact handed.2 _ (ih increasingRest handed.1)

end DownloadIndex

end Lycancoin

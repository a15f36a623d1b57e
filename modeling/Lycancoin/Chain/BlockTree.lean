import Lycancoin.Chain.Headers
import Lycancoin.Data.Forest

namespace Lycancoin

open Std Lycancoin.Data

/-- What is fixed besides the environment: which blocks `ConnectBlock` finds
invalid, and where the entries of `mapBlockIndex` lie in memory. -/
structure NodeContext where
  env : Environment
  rejects : Uint256 → Bool
  address : Uint256 → Nat
  address_injective : Function.Injective address

namespace NodeContext

def hashGenesisBlock (context : NodeContext) : Uint256 := context.env.consensus.hashGenesisBlock

/-- The verdict of `ConnectBlock`, which connects the genesis block unseen. -/
def rejected (context : NodeContext) (hash : Uint256) : Bool :=
  hash != context.hashGenesisBlock && context.rejects hash

end NodeContext

def CBlockIndex.null : CBlockIndex :=
  CBlockIndex.ofHeader {
    nVersion := 0, hashPrevBlock := Uint256.null, hashMerkleRoot := Uint256.null,
    nTime := 0, nBits := 0, nNonce := 0 }

/-- The block tree.  `chainActive` lists the tip first, and the entries of
`mapBlocksUnlinked` stand in the order in which they were inserted.  The
sequence numbers and `nChainTx`, of 32 bits in the source, are not bounded. -/
structure BlockTree extends HeaderIndex where
  chainActive : List Uint256
  setBlockIndexCandidates : List Uint256
  mapBlocksUnlinked : List (Uint256 × Uint256)
  nBlockSequenceId : Nat
  fHavePruned : Bool

namespace BlockTree

variable (context : NodeContext) (tree : BlockTree)

def entry (hash : Uint256) : CBlockIndex := tree.mapBlockIndex[hash]?.getD CBlockIndex.null

def pprev (hash : Uint256) : Option Uint256 := (tree.entry hash).pprev

def nHeight (hash : Uint256) : Nat := (tree.entry hash).nHeight

def nTx (hash : Uint256) : Nat := (tree.entry hash).nTx

def nChainTx (hash : Uint256) : Nat := (tree.entry hash).nChainTx

def nStatus (hash : Uint256) : BlockStatus := (tree.entry hash).nStatus

/-- An assignment through a pointer. -/
def edit (hash : Uint256) (change : CBlockIndex → CBlockIndex) : BlockTree :=
  { tree with mapBlockIndex := tree.mapBlockIndex.insert hash (change (tree.entry hash)) }

def editStatus (hash : Uint256) (change : BlockStatus → BlockStatus) : BlockTree :=
  tree.edit hash fun pindex => { pindex with nStatus := change pindex.nStatus }

/-- An entry and all its ancestors, genesis last. -/
def ancestry (hash : Uint256) : List Uint256 := Forest.path tree.pprev tree.nHeight hash

def getAncestor (hash : Uint256) (height : Nat) : Option Uint256 :=
  (tree.ancestry hash).find? fun walk => tree.nHeight walk == height

def tip : Option Uint256 := tree.chainActive.head?

/-- `CBlockIndexWorkComparator`. -/
def workComparator (pa pb : Uint256) : Bool :=
  if (tree.entry pa).nChainWork > (tree.entry pb).nChainWork then false
  else if (tree.entry pa).nChainWork < (tree.entry pb).nChainWork then true
  else if (tree.entry pa).nSequenceId < (tree.entry pb).nSequenceId then false
  else if (tree.entry pa).nSequenceId > (tree.entry pb).nSequenceId then true
  else if context.address pa < context.address pb then false
  else decide (context.address pa > context.address pb)

/-- An entry sorts below the tip. -/
def worseThanTip (pindex : Uint256) : Bool :=
  tree.tip.any fun pindexTip => tree.workComparator context pindex pindexTip

def insertCandidate (pindex : Uint256) : BlockTree :=
  { tree with setBlockIndexCandidates := tree.setBlockIndexCandidates.insert pindex }

def eraseCandidate (pindex : Uint256) : BlockTree :=
  { tree with setBlockIndexCandidates :=
      tree.setBlockIndexCandidates.filter fun other => other != pindex }

/-- The last element of a set that `CBlockIndexWorkComparator` orders. -/
def lastCandidate : List Uint256 → Option Uint256
  | [] => none
  | pindex :: rest =>
      match lastCandidate rest with
      | none => some pindex
      | some last => if tree.workComparator context last pindex then some pindex else some last

/-- The loop of `ReceivedBlockTransactions` over its queue.  To renumber an
entry of `setBlockIndexCandidates` breaks the order of the set, which leaves
the behaviour undefined. -/
def linkBlocks : Nat → List Uint256 → BlockTree → Option BlockTree
  | 0, _, _ => none
  | _ + 1, [], tree => some tree
  | fuel + 1, pindex :: queue, tree =>
      if pindex ∈ tree.setBlockIndexCandidates then none
      else
        let linked := tree.edit pindex fun entry =>
          { entry with
            nChainTx := (entry.pprev.map tree.nChainTx).getD 0 + entry.nTx
            nSequenceId := tree.nBlockSequenceId }
        let numbered := { linked with nBlockSequenceId := tree.nBlockSequenceId + 1 }
        let candidates :=
          if numbered.worseThanTip context pindex then numbered
          else numbered.insertCandidate pindex
        let range := (tree.mapBlocksUnlinked.filter fun pair => pair.1 == pindex).map Prod.snd
        linkBlocks fuel (queue ++ range)
          { candidates with
            mapBlocksUnlinked := tree.mapBlocksUnlinked.filter fun pair => pair.1 != pindex }

/-- What `ReceivedBlockTransactions` stores first. -/
def storeBlock (nTx nFile : Nat) (pindexNew : Uint256) : BlockTree :=
  tree.edit pindexNew fun entry =>
    { entry with
      nTx
      nChainTx := 0
      nFile
      nStatus := { entry.nStatus with haveData := true }.raiseValidity .transactions }

def receivedBlockTransactions (nTx nFile : Nat) (pindexNew : Uint256) : Option BlockTree :=
  let stored := tree.storeBlock nTx nFile pindexNew
  match stored.pprev pindexNew with
  | none => stored.linkBlocks context (stored.mapBlocksUnlinked.length + 2) [pindexNew]
  | some pprev =>
      if stored.nChainTx pprev ≠ 0 then
        stored.linkBlocks context (stored.mapBlocksUnlinked.length + 2) [pindexNew]
      else if (stored.nStatus pprev).isValid .tree then
        some { stored with
          mapBlocksUnlinked := stored.mapBlocksUnlinked ++ [(pprev, pindexNew)] }
      else some stored

/-- `AcceptBlockHeader`. -/
def acceptHeader (nAdjustedTime : Int) (block : CBlockHeader) : Check Unit × BlockTree :=
  let accepted := acceptBlockHeader context.env nAdjustedTime block tree.toHeaderIndex
  (accepted.1, { tree with toHeaderIndex := accepted.2 })

/-- The part of `AcceptBlock` behind the header.  `checked` is what `CheckBlock` and
`ContextualCheckBlock` say of the block, with the number of its transactions when they pass;
`nFile` is the file that it is written to. -/
def acceptTransactions (checked : Check ℕ+) (nFile : Nat) (hash : Uint256) : Option BlockTree :=
  if (tree.nStatus hash).haveData || decide (hash ∈ tree.chainActive) then some tree
  else
    match checked with
    | .error (.invalid rejection) =>
        if rejection.corruptionPossible then some tree
        else some (tree.editStatus hash fun nStatus => { nStatus with failedValid := true })
    | .error _ => some tree
    | .ok nTx => tree.receivedBlockTransactions context nTx nFile hash

def acceptBlock (nAdjustedTime : Int) (block : CBlockHeader) (checked : Check ℕ+) (nFile : Nat) :
    Option BlockTree :=
  let accepted := tree.acceptHeader context nAdjustedTime block
  match accepted.1 with
  | .error _ => some accepted.2
  | .ok () => accepted.2.acceptTransactions context checked nFile (context.env.hashes.getHash block)

/-- The inner walk of `FindMostWorkChain`: the first entry before the active
chain that is failed or lacks its data.  `none` is a failing assertion. -/
def findUnusable : List Uint256 → Option (Option Uint256)
  | [] => some none
  | pindexTest :: rest =>
      if pindexTest ∈ tree.chainActive then some none
      else if tree.nChainTx pindexTest = 0 ∧ tree.nHeight pindexTest ≠ 0 then none
      else if (tree.nStatus pindexTest).failed || !(tree.nStatus pindexTest).haveData then
        some (some pindexTest)
      else findUnusable rest

/-- The removal of a candidate chain in `FindMostWorkChain`, from the candidate
down to `pindexTest`. -/
def removeChain (fFailedChain : Bool) (pindexTest : Uint256) :
    List Uint256 → BlockTree → BlockTree
  | [], tree => tree
  | pindexFailed :: rest, tree =>
      if pindexFailed = pindexTest then tree.eraseCandidate pindexTest
      else
        let marked :=
          if fFailedChain then
            tree.editStatus pindexFailed fun nStatus => { nStatus with failedChild := true }
          else
            { tree with
              mapBlocksUnlinked := tree.mapBlocksUnlinked ++
                ((tree.pprev pindexFailed).map fun pprev => (pprev, pindexFailed)).toList }
        removeChain fFailedChain pindexTest rest (marked.eraseCandidate pindexFailed)

def findMostWorkChain : Nat → BlockTree → Option (Option Uint256 × BlockTree)
  | 0, _ => none
  | fuel + 1, tree =>
      match tree.lastCandidate context tree.setBlockIndexCandidates with
      | none => some (none, tree)
      | some pindexNew =>
          match tree.findUnusable (tree.ancestry pindexNew) with
          | none => none
          | some none => some (some pindexNew, tree)
          | some (some pindexTest) =>
              findMostWorkChain fuel
                (removeChain (tree.nStatus pindexTest).failed pindexTest
                  (tree.ancestry pindexNew) tree)

/-- `PruneBlockIndexCandidates`.  `none` is a failing assertion. -/
def pruneBlockIndexCandidates : Option BlockTree :=
  let kept := tree.setBlockIndexCandidates.filter fun pindex =>
    !tree.worseThanTip context pindex
  if kept.isEmpty then none else some { tree with setBlockIndexCandidates := kept }

/-- `DisconnectTip`, which needs the data and the undo data of the tip.  Reads
and writes do not fail otherwise, here and below. -/
def disconnectTip : Option BlockTree :=
  match tree.chainActive with
  | [] => none
  | pindexDelete :: rest =>
      if (tree.nStatus pindexDelete).haveData && (tree.nStatus pindexDelete).haveUndo then
        some { tree with chainActive := rest }
      else none

/-- `ConnectTip`, and whether the block is connected. -/
def connectTip (pindexNew : Uint256) : Option (Bool × BlockTree) :=
  if tree.pprev pindexNew ≠ tree.tip then none
  else if !(tree.nStatus pindexNew).haveData then none
  else if context.rejected pindexNew then
    some (false,
      (tree.editStatus pindexNew fun nStatus => { nStatus with failedValid := true }).eraseCandidate
        pindexNew)
  else
    let validated :=
      if pindexNew = context.hashGenesisBlock then tree
      else
        tree.editStatus pindexNew fun nStatus =>
          { nStatus with haveUndo := true }.raiseValidity .scripts
    some (true, { validated with chainActive := pindexNew :: tree.chainActive })

/-- The first loop of `ActivateBestChainStep`. -/
def disconnectTo (pindexFork : Option Uint256) : Nat → BlockTree → Option BlockTree
  | 0, tree => some tree
  | fuel + 1, tree =>
      if tree.tip = none ∨ tree.tip = pindexFork then some tree
      else do
        let tree ← tree.disconnectTip
        disconnectTo pindexFork fuel tree

/-- The inner loop of `ActivateBestChainStep` over blocks to connect, and
`fContinue` after it. -/
def connectBlocks (pindexOldTip : Option Uint256) :
    List Uint256 → BlockTree → Option (Bool × BlockTree)
  | [], tree => some (true, tree)
  | pindexConnect :: rest, tree => do
      let (connected, tree) ← tree.connectTip context pindexConnect
      if !connected then some (false, tree)
      else
        let tree ← tree.pruneBlockIndexCandidates context
        let improved := pindexOldTip.all fun oldTip =>
          (tree.entry oldTip).nChainWork < (tree.entry pindexConnect).nChainWork
        if improved then some (false, tree)
        else connectBlocks pindexOldTip rest tree

/-- The outer loop of `ActivateBestChainStep`, which connects up to 32 blocks
at a time. -/
def connectTowards (pindexOldTip : Option Uint256) (pindexMostWork : Uint256) :
    Nat → Int → BlockTree → Option BlockTree
  | 0, _, _ => none
  | fuel + 1, nHeight, tree =>
      if nHeight = tree.nHeight pindexMostWork then some tree
      else
        let nTargetHeight := min (nHeight + 32) (tree.nHeight pindexMostWork)
        let vpindexToConnect :=
          match tree.getAncestor pindexMostWork nTargetHeight.toNat with
          | none => []
          | some pindexIter =>
              (tree.ancestry pindexIter).takeWhile fun walk => (tree.nHeight walk : Int) != nHeight
        do
          let (fContinue, tree) ←
            connectBlocks context pindexOldTip vpindexToConnect.reverse tree
          if fContinue then
            connectTowards pindexOldTip pindexMostWork fuel nTargetHeight tree
          else some tree

def activateBestChainStep (pindexMostWork : Uint256) : Option BlockTree := do
  let pindexFork := (tree.ancestry pindexMostWork).find? fun walk => decide (walk ∈ tree.chainActive)
  let disconnected ← disconnectTo pindexFork tree.chainActive.length tree
  connectTowards context tree.tip pindexMostWork (tree.nHeight pindexMostWork + 2)
    ((pindexFork.map fun fork => (tree.nHeight fork : Int)).getD (-1)) disconnected

/-- The loop of `ActivateBestChain`. -/
def activateLoop : Nat → BlockTree → Option BlockTree
  | 0, _ => none
  | fuel + 1, tree => do
      let (pindexMostWork, tree) ←
        findMostWorkChain context (tree.setBlockIndexCandidates.length + 1) tree
      match pindexMostWork with
      | none => some tree
      | some mostWork =>
          if tree.tip = some mostWork then some tree
          else do
            let tree ← tree.activateBestChainStep context mostWork
            if tree.tip = some mostWork then some tree else activateLoop fuel tree

/-- `ActivateBestChain` without the call of `CheckBlockIndex` at its end.  `none`
is a read that fails or a failing assertion. -/
def activateBestChain : Option BlockTree :=
  activateLoop context ((tree.mapBlockIndex.size + 1) * (tree.mapBlockIndex.size + 1)) tree

end BlockTree

end Lycancoin

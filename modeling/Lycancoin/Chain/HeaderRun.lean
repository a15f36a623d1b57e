import Lycancoin.Chain.Headers

namespace Lycancoin

open Std

section Ancestry

variable {index : BlockMap} {hash new : Uint256} {entry : CBlockIndex}

def PredecessorsIndexed (index : BlockMap) : Prop :=
  ∀ (hash : Uint256) (entry : CBlockIndex), index[hash]? = some entry →
    match entry.pprev with
    | none => entry.nHeight = 0
    | some prev => ∃ parent, index[prev]? = some parent ∧ entry.nHeight = parent.nHeight + 1

theorem PredecessorsIndexed.height_pos (indexed : PredecessorsIndexed index) {prev : Uint256}
    (found : index[hash]? = some entry) (pprev : entry.pprev = some prev) : 0 < entry.nHeight := by
  have predecessor := indexed hash entry found
  simp only [pprev] at predecessor
  obtain ⟨parent, _, above⟩ := predecessor
  omega

theorem getElem?_insert_of_present (absent : index[new]? = none) (present : index[hash]? = some entry)
    (value : CBlockIndex) : (index.insert new value)[hash]? = some entry := by
  have different : new ≠ hash := by
    rintro rfl
    rw [absent] at present
    contradiction
  simp [ExtTreeMap.getElem?_insert, different, present]

theorem chainFrom_insert (indexed : PredecessorsIndexed index) (absent : index[new]? = none)
    (value : CBlockIndex) (fuel : Nat) (present : index[hash]? = some entry) :
    chainFrom (index.insert new value) fuel hash = chainFrom index fuel hash := by
  induction fuel generalizing hash entry with
  | zero => rfl
  | succ fuel ih =>
      have lookup := getElem?_insert_of_present absent present value
      have predecessor := indexed hash entry present
      cases found : entry.pprev with
      | none => simp only [chainFrom, lookup, present, found]
      | some prev =>
          simp only [found] at predecessor
          obtain ⟨parent, parentPresent, _⟩ := predecessor
          simp only [chainFrom, lookup, present, found, ih parentPresent]

theorem chainTo_insert (indexed : PredecessorsIndexed index) (absent : index[new]? = none)
    (value : CBlockIndex) (present : index[hash]? = some entry) :
    chainTo (index.insert new value) hash = chainTo index hash := by
  simp only [chainTo, getElem?_insert_of_present absent present value, present]
  exact chainFrom_insert indexed absent value _ present

/-- The walk along `pprev` reaches genesis. -/
theorem length_chainTo (indexed : PredecessorsIndexed index) (present : index[hash]? = some entry) :
    (chainTo index hash).length = entry.nHeight + 1 := by
  simp only [chainTo, present]
  generalize heightEq : entry.nHeight = height
  induction height generalizing hash entry with
  | zero =>
      have predecessor := indexed hash entry present
      cases found : entry.pprev with
      | none => simp [chainFrom, present, found]
      | some prev =>
          simp only [found] at predecessor
          obtain ⟨parent, _, above⟩ := predecessor
          omega
  | succ height ih =>
      have predecessor := indexed hash entry present
      cases found : entry.pprev with
      | none =>
          simp only [found] at predecessor
          omega
      | some prev =>
          simp only [found] at predecessor
          obtain ⟨parent, parentPresent, above⟩ := predecessor
          have rest := ih parentPresent (by omega)
          rw [chainFrom]
          simp only [present, found, List.length_cons, rest]

end Ancestry

/-- Everything that the checks of `AcceptBlockHeader` look at, for a header
that it does not know yet. -/
structure PassesChecks (env : Environment) (state : HeaderIndex) (call : HeaderCall) : Prop where
  unknown : state.mapBlockIndex[env.hashes.getHash call.block]? = none
  header : checkBlockHeader env call.nAdjustedTime call.block true = .ok ()
  parent : ∃ pindexPrev, state.mapBlockIndex[call.block.hashPrevBlock]? = some pindexPrev ∧
    pindexPrev.nStatus.failed = false
  context : contextualCheckBlockHeader env state.mapBlockIndex call.block
    call.block.hashPrevBlock = .ok ()

/-- What an entry of the index promises, the comparison of its proof-of-work
hash with its target apart. -/
structure EntrySound (env : Environment) (index : BlockMap) (hash : Uint256) (entry : CBlockIndex) :
    Prop where
  hash_eq : env.hashes.getHash entry.getBlockHeader = hash
  target : TargetInRange env.consensus entry.nBits
  parent : ∃ prev pindexPrev, entry.pprev = some prev ∧ index[prev]? = some pindexPrev ∧
    getNextWorkRequired env.consensus (chainTo index prev) entry.getBlockHeader =
      some entry.nBits ∧
    getMedianTimePast (chainTo index prev) < entry.getBlockTime ∧
    entry.nHeight = pindexPrev.nHeight + 1 ∧
    entry.nChainWork = pindexPrev.nChainWork + getBlockProof entry

section Step

variable {env : Environment} {state : HeaderIndex} {call : HeaderCall}

theorem checkBlockHeader_target {nAdjustedTime : Int} {block : CBlockHeader}
    (passed : checkBlockHeader env nAdjustedTime block true = .ok ()) :
    TargetInRange env.consensus block.nBits := by
  obtain ⟨work, _⟩ := check_seq_eq_ok.mp passed
  rw [rejectIf_eq_ok, Bool.true_and, Bool.not_eq_false'] at work
  exact checkProofOfWork_iff.mp work

theorem contextualCheckBlockHeader_spec {index : BlockMap} {block : CBlockHeader} {prev : Uint256}
    (passed : contextualCheckBlockHeader env index block prev = .ok ())
    (notGenesis : env.hashes.getHash block ≠ env.consensus.hashGenesisBlock) :
    getNextWorkRequired env.consensus (chainTo index prev) block = some block.nBits ∧
      getMedianTimePast (chainTo index prev) < block.getBlockTime := by
  unfold contextualCheckBlockHeader at passed
  simp only [if_neg notGenesis] at passed
  split at passed
  · rename_i pindexPrev rest nBits chainEq required
    obtain ⟨bits, passed⟩ := check_seq_eq_ok.mp passed
    obtain ⟨time, _⟩ := check_seq_eq_ok.mp passed
    rw [rejectIf_eq_ok, bne_eq_false_iff_eq] at bits
    rw [rejectIf_eq_ok, decide_eq_false_iff_not, Int.not_le] at time
    exact ⟨by rw [required, bits], time⟩
  · contradiction

theorem newBlockIndex_of_parent {index : BlockMap} {block : CBlockHeader}
    {pindexPrev : CBlockIndex} (found : index[block.hashPrevBlock]? = some pindexPrev) :
    newBlockIndex index block =
      { CBlockIndex.ofHeader block with
        pprev := some block.hashPrevBlock
        nHeight := pindexPrev.nHeight + 1
        nChainWork := pindexPrev.nChainWork + getBlockProof (CBlockIndex.ofHeader block)
        nStatus := BlockStatus.null.raiseValidity .tree } := by
  simp only [newBlockIndex, found]
  rfl

theorem addToBlockIndex_of_unknown
    (unknown : state.mapBlockIndex[env.hashes.getHash call.block]? = none) :
    (addToBlockIndex env state call.block).mapBlockIndex =
      state.mapBlockIndex.insert (env.hashes.getHash call.block)
        (newBlockIndex state.mapBlockIndex call.block) := by
  have absent : env.hashes.getHash call.block ∉ state.mapBlockIndex := by
    rw [ExtTreeMap.mem_iff_isSome_getElem?, unknown]
    simp
  simp only [addToBlockIndex, if_neg absent]

theorem checkNewHeader_eq_ok {nAdjustedTime : Int} {block : CBlockHeader} {index : BlockMap}
    (notGenesis : env.hashes.getHash block ≠ env.consensus.hashGenesisBlock) :
    checkNewHeader env nAdjustedTime block index = .ok () ↔
      checkBlockHeader env nAdjustedTime block true = .ok () ∧
      (∃ pindexPrev, index[block.hashPrevBlock]? = some pindexPrev ∧
        pindexPrev.nStatus.failed = false) ∧
      contextualCheckBlockHeader env index block block.hashPrevBlock = .ok () := by
  unfold checkNewHeader
  simp only [ne_eq, notGenesis, not_false_eq_true, if_true, check_seq_eq_ok]
  cases found : index[block.hashPrevBlock]? with
  | none => simp [check_seq_eq_ok]
  | some pindexPrev => simp [check_seq_eq_ok, rejectIf_eq_ok]

theorem notGenesis_of_unknown (genesisKnown : env.consensus.hashGenesisBlock ∈ state.mapBlockIndex)
    {block : CBlockHeader} (unknown : state.mapBlockIndex[env.hashes.getHash block]? = none) :
    env.hashes.getHash block ≠ env.consensus.hashGenesisBlock := by
  intro same
  rw [← same, ExtTreeMap.mem_iff_isSome_getElem?, unknown] at genesisKnown
  contradiction

theorem acceptBlockHeader_of_passesChecks
    (genesisKnown : env.consensus.hashGenesisBlock ∈ state.mapBlockIndex)
    (passes : PassesChecks env state call) :
    (acceptBlockHeader env call.nAdjustedTime call.block state).2.mapBlockIndex =
      state.mapBlockIndex.insert (env.hashes.getHash call.block)
        (newBlockIndex state.mapBlockIndex call.block) := by
  have checked :
      checkNewHeader env call.nAdjustedTime call.block state.mapBlockIndex = .ok () :=
    (checkNewHeader_eq_ok (notGenesis_of_unknown genesisKnown passes.unknown)).mpr
      ⟨passes.header, passes.parent, passes.context⟩
  simp only [acceptBlockHeader, passes.unknown, checked, addToBlockIndex_of_unknown passes.unknown]

theorem acceptBlockHeader_of_not_passesChecks
    (genesisKnown : env.consensus.hashGenesisBlock ∈ state.mapBlockIndex)
    (fails : ¬ PassesChecks env state call) :
    (acceptBlockHeader env call.nAdjustedTime call.block state).2 = state := by
  unfold acceptBlockHeader
  cases unknown : state.mapBlockIndex[env.hashes.getHash call.block]? with
  | some pindex =>
      dsimp only
      split <;> rfl
  | none =>
      cases checked : checkNewHeader env call.nAdjustedTime call.block state.mapBlockIndex with
      | error failure => rfl
      | ok value =>
          obtain ⟨header, parent, context⟩ :=
            (checkNewHeader_eq_ok (notGenesis_of_unknown genesisKnown unknown)).mp checked
          exact absurd ⟨unknown, header, parent, context⟩ fails

end Step

structure IndexSound (env : Environment) (state : HeaderIndex) : Prop where
  genesisKnown : env.consensus.hashGenesisBlock ∈ state.mapBlockIndex
  indexed : PredecessorsIndexed state.mapBlockIndex
  sound : ∀ hash entry, state.mapBlockIndex[hash]? = some entry →
    hash ≠ env.consensus.hashGenesisBlock → EntrySound env state.mapBlockIndex hash entry

/-- The comparison that the source leaves out, for all entries but genesis. -/
def AllMeetTarget (env : Environment) (state : HeaderIndex) : Prop :=
  ∀ hash entry, state.mapBlockIndex[hash]? = some entry →
    hash ≠ env.consensus.hashGenesisBlock →
    HashMeetsTarget (env.hashes.getPoWHash entry.getBlockHeader) entry.nBits

section Run

variable {env : Environment} {state : HeaderIndex} {call : HeaderCall}

theorem params_hashGenesisBlock (env : Environment) :
    env.hashes.getHash env.params.genesis = env.consensus.hashGenesisBlock := by
  obtain ⟨hashes, network, fCheckpointsEnabled⟩ := env
  cases network <;> rfl

theorem genesis_mapBlockIndex (env : Environment) :
    (HeaderIndex.genesis env).mapBlockIndex =
      (∅ : BlockMap).insert env.consensus.hashGenesisBlock
        (newBlockIndex ∅ env.params.genesis) := by
  rw [← params_hashGenesisBlock]
  simp [HeaderIndex.genesis, addToBlockIndex]

theorem indexSound_genesis (env : Environment) : IndexSound env (HeaderIndex.genesis env) := by
  have index := genesis_mapBlockIndex env
  have entries : ∀ (hash : Uint256) (entry : CBlockIndex),
      (HeaderIndex.genesis env).mapBlockIndex[hash]? = some entry →
      hash = env.consensus.hashGenesisBlock ∧ entry = newBlockIndex ∅ env.params.genesis := by
    intro hash entry found
    rw [index, ExtTreeMap.getElem?_insert] at found
    split at found
    · rename_i same
      exact ⟨(Std.compare_eq_iff_eq.mp same).symm, (Option.some.inj found).symm⟩
    · simp at found
  refine ⟨by simp [index], ?_, ?_⟩
  · intro hash entry found
    obtain ⟨_, rfl⟩ := entries hash entry found
    simp [newBlockIndex, CBlockIndex.ofHeader]
  · intro hash entry found other
    exact absurd (entries hash entry found).1 other

theorem getBlockHeader_newBlockIndex {index : BlockMap} {block : CBlockHeader}
    {pindexPrev : CBlockIndex} (found : index[block.hashPrevBlock]? = some pindexPrev) :
    (newBlockIndex index block).getBlockHeader = block := by
  rw [newBlockIndex_of_parent found]
  rfl

/-- One call keeps every promise but that of the proof-of-work hash, which holds
of the new entry just if it holds of the header. -/
theorem IndexSound.accept (sound : IndexSound env state) (passes : PassesChecks env state call) :
    IndexSound env (acceptBlockHeader env call.nAdjustedTime call.block state).2 ∧
      (AllMeetTarget env (acceptBlockHeader env call.nAdjustedTime call.block state).2 ↔
        AllMeetTarget env state ∧
          HashMeetsTarget (env.hashes.getPoWHash call.block) call.block.nBits) := by
  have after := acceptBlockHeader_of_passesChecks sound.genesisKnown passes
  generalize (acceptBlockHeader env call.nAdjustedTime call.block state).2 = next at *
  obtain ⟨pindexPrev, found, _⟩ := passes.parent
  have absent := passes.unknown
  have notGenesis := notGenesis_of_unknown sound.genesisKnown absent
  have header := getBlockHeader_newBlockIndex found
  have built := newBlockIndex_of_parent found
  -- An entry of the new index is the new one or an old one.
  have entries : ∀ (hash : Uint256) (entry : CBlockIndex), next.mapBlockIndex[hash]? = some entry →
      (hash = env.hashes.getHash call.block ∧
        entry = newBlockIndex state.mapBlockIndex call.block) ∨
      state.mapBlockIndex[hash]? = some entry := by
    intro hash entry lookup
    rw [after, ExtTreeMap.getElem?_insert] at lookup
    split at lookup
    · rename_i same
      exact .inl ⟨(Std.compare_eq_iff_eq.mp same).symm, (Option.some.inj lookup).symm⟩
    · exact .inr lookup
  have kept : ∀ (hash : Uint256) (entry : CBlockIndex), state.mapBlockIndex[hash]? = some entry →
      next.mapBlockIndex[hash]? = some entry := by
    intro hash entry lookup
    rw [after]
    exact getElem?_insert_of_present absent lookup _
  have ancestry : ∀ (hash : Uint256) (entry : CBlockIndex),
      state.mapBlockIndex[hash]? = some entry →
      chainTo next.mapBlockIndex hash = chainTo state.mapBlockIndex hash := by
    intro hash entry lookup
    rw [after]
    exact chainTo_insert sound.indexed absent _ lookup
  refine ⟨⟨?_, ?_, ?_⟩, ?_⟩
  · rw [after, ExtTreeMap.mem_insert]
    exact .inr sound.genesisKnown
  · intro hash entry lookup
    cases entries hash entry lookup with
    | inl fresh =>
        obtain ⟨_, rfl⟩ := fresh
        rw [built]
        exact ⟨pindexPrev, kept _ _ found, rfl⟩
    | inr old =>
        have predecessor := sound.indexed hash entry old
        cases prevEq : entry.pprev with
        | none => simpa only [prevEq] using predecessor
        | some prev =>
            simp only [prevEq] at predecessor
            obtain ⟨parent, parentFound, above⟩ := predecessor
            exact ⟨parent, kept _ _ parentFound, above⟩
  · intro hash entry lookup other
    cases entries hash entry lookup with
    | inl fresh =>
        obtain ⟨rfl, rfl⟩ := fresh
        obtain ⟨required, later⟩ := contextualCheckBlockHeader_spec passes.context notGenesis
        refine ⟨by rw [header], ?_, call.block.hashPrevBlock, pindexPrev, ?_, kept _ _ found,
          ?_, ?_, ?_, ?_⟩
        · rw [built]
          exact checkBlockHeader_target passes.header
        · rw [built]
        · rw [ancestry _ _ found, header, required, built]
          rfl
        · rw [ancestry _ _ found, built]
          exact later
        · rw [built]
        · rw [built]
          rfl
    | inr old =>
        obtain ⟨hashEq, target, prev, parent, prevEq, parentFound, required, later, above, work⟩ :=
          sound.sound hash entry old other
        rw [← ancestry _ _ parentFound] at required later
        exact ⟨hashEq, target, prev, parent, prevEq, kept _ _ parentFound, required, later, above,
          work⟩
  · constructor
    · intro all
      refine ⟨fun hash entry old other => all hash entry (kept hash entry old) other, ?_⟩
      have own := all _ (newBlockIndex state.mapBlockIndex call.block)
        (by rw [after, ExtTreeMap.getElem?_insert_self]) notGenesis
      rw [header, built] at own
      exact own
    · rintro ⟨all, own⟩ hash entry lookup other
      cases entries hash entry lookup with
      | inl fresh =>
          obtain ⟨_, rfl⟩ := fresh
          rw [header, built]
          exact own
      | inr old => exact all hash entry old other

/-- Every header that the run adds has a proof-of-work hash within its target. -/
def AddedHeadersMeetTarget (env : Environment) (calls : List HeaderCall) : Prop :=
  ∀ before call after, calls = before ++ call :: after →
    PassesChecks env (HeaderIndex.run env before) call →
    HashMeetsTarget (env.hashes.getPoWHash call.block) call.block.nBits

theorem HeaderIndex.run_append (env : Environment) (calls : List HeaderCall) (call : HeaderCall) :
    HeaderIndex.run env (calls ++ [call]) =
      (acceptBlockHeader env call.nAdjustedTime call.block (HeaderIndex.run env calls)).2 := by
  simp [HeaderIndex.run]

theorem addedHeadersMeetTarget_append (calls : List HeaderCall) (call : HeaderCall) :
    AddedHeadersMeetTarget env (calls ++ [call]) ↔
      AddedHeadersMeetTarget env calls ∧
        (PassesChecks env (HeaderIndex.run env calls) call →
          HashMeetsTarget (env.hashes.getPoWHash call.block) call.block.nBits) := by
  constructor
  · intro all
    refine ⟨fun before earlier after split => ?_, all calls call [] rfl⟩
    exact all before earlier (after ++ [call]) (by rw [split]; simp)
  · rintro ⟨earlier, last⟩ before added after split
    cases after using List.reverseRecOn with
    | nil =>
        obtain ⟨rfl, same⟩ := List.append_inj' split rfl
        cases same
        exact last
    | append_singleton rest final =>
        rw [← List.cons_append, ← List.append_assoc] at split
        obtain ⟨rfl, _⟩ := List.append_inj' split rfl
        exact earlier before added rest rfl

theorem indexSound_run (env : Environment) (calls : List HeaderCall) :
    IndexSound env (HeaderIndex.run env calls) ∧
      (AllMeetTarget env (HeaderIndex.run env calls) ↔ AddedHeadersMeetTarget env calls) := by
  induction calls using List.reverseRecOn with
  | nil =>
      have start := indexSound_genesis env
      refine ⟨start, ?_⟩
      constructor
      · intro _ before call after split
        simp at split
      · intro _ hash entry found other
        have index := genesis_mapBlockIndex env
        rw [HeaderIndex.run, List.foldl_nil, index, ExtTreeMap.getElem?_insert] at found
        split at found
        · rename_i same
          exact absurd (Std.compare_eq_iff_eq.mp same).symm other
        · simp at found
  | append_singleton calls call ih =>
      obtain ⟨sound, meets⟩ := ih
      rw [HeaderIndex.run_append, addedHeadersMeetTarget_append, ← meets]
      by_cases passes : PassesChecks env (HeaderIndex.run env calls) call
      · obtain ⟨nextSound, nextMeets⟩ := sound.accept passes
        exact ⟨nextSound, by rw [nextMeets]; simp [passes]⟩
      · rw [acceptBlockHeader_of_not_passesChecks sound.genesisKnown passes]
        exact ⟨sound, by simp [passes]⟩

theorem genesis_entry_run (env : Environment) (calls : List HeaderCall) :
    (HeaderIndex.run env calls).mapBlockIndex[env.consensus.hashGenesisBlock]? =
      some (newBlockIndex ∅ env.params.genesis) := by
  induction calls using List.reverseRecOn with
  | nil =>
      rw [HeaderIndex.run, List.foldl_nil, genesis_mapBlockIndex, ExtTreeMap.getElem?_insert_self]
  | append_singleton calls call ih =>
      have known := (indexSound_run env calls).1.genesisKnown
      rw [HeaderIndex.run_append]
      by_cases passes : PassesChecks env (HeaderIndex.run env calls) call
      · rw [acceptBlockHeader_of_passesChecks known passes]
        exact getElem?_insert_of_present passes.unknown ih _
      · rw [acceptBlockHeader_of_not_passesChecks known passes]
        exact ih

theorem nHeight_le_length_run (env : Environment) (calls : List HeaderCall) {hash : Uint256}
    {entry : CBlockIndex} (found : (HeaderIndex.run env calls).mapBlockIndex[hash]? = some entry) :
    entry.nHeight ≤ calls.length := by
  induction calls using List.reverseRecOn generalizing hash entry with
  | nil =>
      rw [HeaderIndex.run, List.foldl_nil, genesis_mapBlockIndex, ExtTreeMap.getElem?_insert] at found
      split at found
      · cases found
        simp [newBlockIndex, CBlockIndex.ofHeader]
      · simp at found
  | append_singleton calls call ih =>
      have known := (indexSound_run env calls).1.genesisKnown
      rw [List.length_append, List.length_singleton]
      rw [HeaderIndex.run_append] at found
      by_cases passes : PassesChecks env (HeaderIndex.run env calls) call
      · rw [acceptBlockHeader_of_passesChecks known passes, ExtTreeMap.getElem?_insert] at found
        split at found
        · obtain ⟨pindexPrev, parentFound, _⟩ := passes.parent
          rw [newBlockIndex_of_parent parentFound] at found
          cases found
          exact Nat.succ_le_succ (ih parentFound)
        · exact Nat.le_succ_of_le (ih found)
      · rw [acceptBlockHeader_of_not_passesChecks known passes] at found
        exact Nat.le_succ_of_le (ih found)

end Run

/-- Every entry but genesis is sound and its proof-of-work hash is within its target. -/
def EntriesProven (env : Environment) (state : HeaderIndex) : Prop :=
  ∀ hash entry, state.mapBlockIndex[hash]? = some entry →
    hash ≠ env.consensus.hashGenesisBlock →
    EntrySound env state.mapBlockIndex hash entry ∧
      HashMeetsTarget (env.hashes.getPoWHash entry.getBlockHeader) entry.nBits

/-- The index built by a run holds proven entries only, exactly when every
header that got past the checks had a proof-of-work hash within its target. -/
theorem entriesProven_run_iff (env : Environment) (calls : List HeaderCall) :
    EntriesProven env (HeaderIndex.run env calls) ↔ AddedHeadersMeetTarget env calls := by
  obtain ⟨sound, meets⟩ := indexSound_run env calls
  rw [← meets]
  constructor
  · intro proven hash entry found other
    exact (proven hash entry found other).2
  · intro all hash entry found other
    exact ⟨sound.sound hash entry found other, all hash entry found other⟩

/-- Digests under which no proof-of-work hash is within any target. -/
def hopelessHashes : Digests where
  getHash block := ⟨BitVec.ofNat 256 block.nTime.toNat⟩
  getPoWHash _ := ⟨BitVec.allOnes 256⟩
  hashPair _ _ := 0

def hopelessEnvironment : Environment :=
  { hashes := hopelessHashes, network := .main, fCheckpointsEnabled := true }

/-- A header on top of genesis with the target of genesis. -/
def unminedHeader : CBlockHeader where
  nVersion := 3
  hashPrevBlock := hopelessEnvironment.consensus.hashGenesisBlock
  hashMerkleRoot := 1
  nTime := 1391485371
  nBits := 0x1e0ffff0
  nNonce := 0

/-- That header is accepted although its proof-of-work hash is above its target. -/
theorem unminedHeader_enters_index :
    ((HeaderIndex.run hopelessEnvironment [⟨1391485371, unminedHeader⟩]).mapBlockIndex[
        hopelessHashes.getHash unminedHeader]?).map CBlockIndex.nBits = some 0x1e0ffff0 ∧
      ¬ ∀ env calls, EntriesProven env (HeaderIndex.run env calls) := by
  have added : ((HeaderIndex.run hopelessEnvironment [⟨1391485371, unminedHeader⟩]).mapBlockIndex[
      hopelessHashes.getHash unminedHeader]?).map CBlockIndex.nBits = some 0x1e0ffff0 := by decide
  refine ⟨added, fun proven => ?_⟩
  obtain ⟨entry, found, nBits⟩ := Option.map_eq_some_iff.mp added
  have meets := (proven _ _ _ entry found (by decide)).2
  rw [nBits] at meets
  have above : ¬ BitVec.allOnes 256 ≤ (setCompact 0x1e0ffff0).value := by decide
  exact above meets

end Lycancoin

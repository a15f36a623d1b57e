import Lycancoin.Primitives.Block

namespace Lycancoin

/-- A block of the active chain, as a rescan reads it. -/
structure ScanBlock where
  nTime : UInt32
  vtx : List CTransaction

namespace ScanBlock

def getBlockTime (block : ScanBlock) : Int := block.nTime.toNat

end ScanBlock

/-- The readings of `GetTime` in a rescan: at the start, and after each block, where a reading that
is logged is taken once more. -/
structure ScanClock where
  start : Int
  test : Nat → Int
  logged : Nat → Int

inductive ScanFault where
  | nullIndex
  | running
deriving DecidableEq, Repr

section

variable {Wallet : Type} (chain : List ScanBlock)

/-- `chainActive.Next` of an index that is on the chain, by heights. -/
def nextHeight (pindex : Nat) : Option Nat :=
  if pindex + 1 < chain.length then some (pindex + 1) else none

/-- The loop over the blocks before the first key, for at most `fuel` blocks. -/
def skipEarlier (nTimeFirstKey : Int) : Nat → Option Nat → Except ScanFault (Option Nat)
  | _, none => .ok none
  | 0, some _ => .error .running
  | fuel + 1, some pindex =>
      match chain[pindex]? with
      | none => .error .nullIndex
      | some block =>
          if nTimeFirstKey ≠ 0 ∧ block.getBlockTime < nTimeFirstKey - 7200 then
            skipEarlier nTimeFirstKey fuel (nextHeight chain pindex)
          else .ok (some pindex)

/-- What is known in the course of a rescan: the clock, the wallet, the transactions that were
passed on, and how many of them concerned the wallet. -/
structure ScanState (Wallet : Type) where
  nNow : Int
  wallet : Wallet
  passed : List (CTransaction × Nat)
  ret : Nat

/-- Passes the transactions of a block on to `AddToWalletIfInvolvingMe`. -/
def scanBlock (addToWalletIfInvolvingMe : CTransaction → ScanBlock → Wallet → Bool × Wallet)
    (pindex : Nat) (block : ScanBlock) : List CTransaction → ScanState Wallet → ScanState Wallet
  | [], state => state
  | tx :: vtx, state =>
      let (fAdded, wallet) := addToWalletIfInvolvingMe tx block state.wallet
      scanBlock addToWalletIfInvolvingMe pindex block vtx
        { state with
          wallet := wallet
          passed := state.passed ++ [(tx, pindex)]
          ret := if fAdded then state.ret + 1 else state.ret }

/-- The loop over the blocks.  The line that is logged each minute reads the height of the block
that comes next. -/
def scanFrom (addToWalletIfInvolvingMe : CTransaction → ScanBlock → Wallet → Bool × Wallet)
    (clock : ScanClock) :
    Nat → Nat → Option Nat → ScanState Wallet → Except ScanFault (ScanState Wallet)
  | _, _, none, state => .ok state
  | 0, _, some _, _ => .error .running
  | fuel + 1, round, some pindex, state =>
      match chain[pindex]? with
      | none => .error .nullIndex
      | some block =>
          let state := scanBlock addToWalletIfInvolvingMe pindex block block.vtx state
          let next := nextHeight chain pindex
          if clock.test round ≥ state.nNow + 60 then
            match next with
            | none => .error .nullIndex
            | some _ =>
                scanFrom addToWalletIfInvolvingMe clock fuel (round + 1) next
                  { state with nNow := clock.logged round }
          else scanFrom addToWalletIfInvolvingMe clock fuel (round + 1) next state

/-- `CWallet::ScanForWalletTransactions`, for at most `fuel` rounds of each loop. -/
def scanForWalletTransactions
    (addToWalletIfInvolvingMe : CTransaction → ScanBlock → Wallet → Bool × Wallet)
    (clock : ScanClock) (nTimeFirstKey : Int) (pindexStart fuel : Nat) (wallet : Wallet) :
    Except ScanFault (ScanState Wallet) := do
  let pindex ← skipEarlier chain nTimeFirstKey fuel (some pindexStart)
  scanFrom chain addToWalletIfInvolvingMe clock fuel 0 pindex
    { nNow := clock.start, wallet := wallet, passed := [], ret := 0 }

end

/-- `nTimeFirstKey` and the creation times of the keys. -/
structure KeyTimes (Key : Type) where
  nTimeFirstKey : Int
  nCreateTime : Key → Option Int

namespace KeyTimes

variable {Key : Type} [DecidableEq Key]

/-- `GenerateNewKey`, as far as the times go. -/
def generateNewKey (key : Key) (nCreationTime : Int) (times : KeyTimes Key) : KeyTimes Key where
  nTimeFirstKey :=
    if times.nTimeFirstKey = 0 ∨ nCreationTime < times.nTimeFirstKey then nCreationTime
    else times.nTimeFirstKey
  nCreateTime := Function.update times.nCreateTime key (some nCreationTime)

def loadKeyMetadata (key : Key) (nCreateTime : Int) (times : KeyTimes Key) : KeyTimes Key where
  nTimeFirstKey :=
    if nCreateTime ≠ 0 ∧ (times.nTimeFirstKey = 0 ∨ nCreateTime < times.nTimeFirstKey) then
      nCreateTime
    else times.nTimeFirstKey
  nCreateTime := Function.update times.nCreateTime key (some nCreateTime)

/-- The times that are reached from a wallet without keys, at clocks that show positive times. -/
inductive Reaches : KeyTimes Key → Prop where
  | empty : Reaches ⟨0, fun _ => none⟩
  | generateNewKey {times : KeyTimes Key} (key : Key) (nCreationTime : Int)
      (positive : 0 < nCreationTime) (reached : Reaches times) :
      Reaches (times.generateNewKey key nCreationTime)
  | loadKeyMetadata {times : KeyTimes Key} (key : Key) (nCreateTime : Int)
      (nonneg : 0 ≤ nCreateTime) (reached : Reaches times) :
      Reaches (times.loadKeyMetadata key nCreateTime)

/-- The first time is at most the creation time of every key whose time is known. -/
theorem Reaches.first_le {times : KeyTimes Key} (reached : Reaches times) :
    0 ≤ times.nTimeFirstKey ∧ ∀ key nCreateTime, times.nCreateTime key = some nCreateTime →
      nCreateTime ≠ 0 → times.nTimeFirstKey ≠ 0 ∧ times.nTimeFirstKey ≤ nCreateTime := by
  induction reached with
  | empty => simp
  | @generateNewKey times key nCreationTime positive _ ih =>
      refine ⟨?_, fun other time found known => ?_⟩
      · simp only [KeyTimes.generateNewKey]
        split <;> omega
      · simp only [KeyTimes.generateNewKey, Function.update_apply] at found ⊢
        split at found
        · obtain rfl := Option.some.inj found
          split <;> omega
        · have before := ih.2 other time found known
          split <;> omega
  | @loadKeyMetadata times key nCreateTime nonneg _ ih =>
      refine ⟨?_, fun other time found known => ?_⟩
      · simp only [KeyTimes.loadKeyMetadata]
        split <;> omega
      · simp only [KeyTimes.loadKeyMetadata, Function.update_apply] at found ⊢
        split at found
        · obtain rfl := Option.some.inj found
          split <;> omega
        · have before := ih.2 other time found known
          split <;> omega

end KeyTimes

def transactionsFrom : List ScanBlock → Nat → List (CTransaction × Nat)
  | [], _ => []
  | block :: blocks, height =>
      block.vtx.map (fun tx => (tx, height)) ++ transactionsFrom blocks (height + 1)

/-- The last reading that was logged, or the first one, after some rounds. -/
def ScanClock.lastLogged (clock : ScanClock) : Nat → Nat → Int → Int
  | 0, _, nNow => nNow
  | count + 1, round, nNow =>
      clock.lastLogged count (round + 1)
        (if clock.test round ≥ nNow + 60 then clock.logged round else nNow)

/-- The blocks that a rescan reads: from the first one that is not two hours before the first key. -/
def scannedBlocks (chain : List ScanBlock) (nTimeFirstKey : Int) (pindexStart : Nat) :
    List ScanBlock :=
  (chain.drop pindexStart).dropWhile fun block =>
    decide (block.getBlockTime < nTimeFirstKey - 7200)

/-- No minute ends just after the last of the blocks: the reading that is taken then is less than
60 seconds after the one that was logged last. -/
def QuietAtTip (clock : ScanClock) (count : Nat) : Prop :=
  count = 0 ∨ clock.test (count - 1) < clock.lastLogged (count - 1) 0 clock.start + 60

def skippedBlocks (chain : List ScanBlock) (nTimeFirstKey : Int) (pindexStart : Nat) :
    List ScanBlock :=
  (chain.drop pindexStart).takeWhile fun block =>
    decide (block.getBlockTime < nTimeFirstKey - 7200)

variable {Wallet : Type} {chain : List ScanBlock}

theorem getBlockTime_nonneg (block : ScanBlock) : 0 ≤ block.getBlockTime := by
  simp [ScanBlock.getBlockTime]

theorem skipEarlier_spec {nTimeFirstKey : Int} {fuel pindex : Nat} (onChain : pindex < chain.length)
    (enough : chain.length - pindex ≤ fuel) :
    ∃ result, skipEarlier chain nTimeFirstKey fuel (some pindex) = .ok result ∧
      match result with
      | none => scannedBlocks chain nTimeFirstKey pindex = []
      | some height => height < chain.length ∧
          scannedBlocks chain nTimeFirstKey pindex = chain.drop height := by
  induction fuel generalizing pindex with
  | zero => omega
  | succ fuel ih =>
      have step := List.drop_eq_getElem_cons onChain
      unfold skipEarlier
      rw [List.getElem?_eq_getElem onChain]
      dsimp only
      have nonneg := getBlockTime_nonneg chain[pindex]
      by_cases early : chain[pindex].getBlockTime < nTimeFirstKey - 7200
      · have skipped : scannedBlocks chain nTimeFirstKey pindex =
            scannedBlocks chain nTimeFirstKey (pindex + 1) := by
          simp only [scannedBlocks]
          rw [step, List.dropWhile_cons_of_pos (by simpa using early)]
        rw [if_pos ⟨by omega, early⟩, skipped, nextHeight]
        by_cases more : pindex + 1 < chain.length
        · rw [if_pos more]
          exact ih more (by omega)
        · refine ⟨none, ?_, ?_⟩
          · rw [if_neg more]
            cases fuel <;> rfl
          · simp only [scannedBlocks]
            rw [List.drop_eq_nil_of_le (by omega), List.dropWhile_nil]
      · rw [if_neg fun both => early both.2]
        refine ⟨some pindex, rfl, onChain, ?_⟩
        simp only [scannedBlocks]
        rw [step, List.dropWhile_cons_of_neg (by simpa using early)]

theorem scanBlock_spec (add : CTransaction → ScanBlock → Wallet → Bool × Wallet) (pindex : Nat)
    (block : ScanBlock) (vtx : List CTransaction) (state : ScanState Wallet) :
    (scanBlock add pindex block vtx state).passed =
        state.passed ++ vtx.map (fun tx => (tx, pindex)) ∧
      (scanBlock add pindex block vtx state).nNow = state.nNow := by
  induction vtx generalizing state with
  | nil => simp [scanBlock]
  | cons tx vtx ih => simp [scanBlock, ih]

/-- The second loop passes the transactions of all the blocks on, and goes wrong just when a minute
ends at the tip. -/
theorem scanFrom_spec (add : CTransaction → ScanBlock → Wallet → Bool × Wallet)
    (clock : ScanClock) {fuel round pindex : Nat} {state : ScanState Wallet}
    (onChain : pindex < chain.length) (enough : chain.length - pindex ≤ fuel) :
    if clock.test (round + (chain.length - pindex - 1)) <
        clock.lastLogged (chain.length - pindex - 1) round state.nNow + 60 then
      ∃ after, scanFrom chain add clock fuel round (some pindex) state = .ok after ∧
        after.passed = state.passed ++ transactionsFrom (chain.drop pindex) pindex
    else scanFrom chain add clock fuel round (some pindex) state = .error .nullIndex := by
  induction fuel generalizing round pindex state with
  | zero => omega
  | succ fuel ih =>
      have step := List.drop_eq_getElem_cons onChain
      unfold scanFrom
      rw [List.getElem?_eq_getElem onChain]
      dsimp only
      obtain ⟨passed, nNow⟩ := scanBlock_spec add pindex chain[pindex] chain[pindex].vtx state
      rw [nNow, nextHeight]
      by_cases more : pindex + 1 < chain.length
      · -- the next block: one round less is left
        have counts : chain.length - pindex - 1 = (chain.length - (pindex + 1) - 1) + 1 := by omega
        have rounds : round + (chain.length - pindex - 1) =
            round + 1 + (chain.length - (pindex + 1) - 1) := by omega
        rw [if_pos more, rounds, counts, ScanClock.lastLogged]
        by_cases logs : clock.test round ≥ state.nNow + 60
        · have rest := @ih (round + 1) (pindex + 1)
            { scanBlock add pindex chain[pindex] chain[pindex].vtx state with
              nNow := clock.logged round } more (by omega)
          rw [if_pos logs, if_pos logs, step, transactionsFrom, ← List.append_assoc, ← passed]
          exact rest
        · have rest := @ih (round + 1) (pindex + 1)
            (scanBlock add pindex chain[pindex] chain[pindex].vtx state) more (by omega)
          rw [nNow] at rest
          rw [if_neg logs, if_neg logs, step, transactionsFrom, ← List.append_assoc, ← passed]
          exact rest
      · have last : chain.length - pindex - 1 = 0 := by omega
        rw [if_neg more, last, ScanClock.lastLogged, Nat.add_zero]
        by_cases logs : clock.test round ≥ state.nNow + 60
        · rw [if_neg (by omega), if_pos logs]
        · rw [if_pos (by omega), if_neg logs]
          refine ⟨_, by cases fuel <;> rfl, ?_⟩
          rw [passed, step, List.drop_eq_nil_of_le (by omega)]
          simp [transactionsFrom]

theorem skippedBlocks_not_paying {Key : Type} {nTimeFirstKey : Int} {pindexStart : Nat}
    (nCreateTime : Key → Int) (pays : CTransaction → Key → Prop) {firstExists : CTransaction → Int}
    (dated : ∀ block ∈ chain, ∀ tx ∈ block.vtx, firstExists tx - 7200 ≤ block.getBlockTime)
    (known : ∀ tx key, pays tx key → nCreateTime key ≤ firstExists tx)
    (first : ∀ key, nTimeFirstKey ≤ nCreateTime key) {block : ScanBlock}
    (skipped : block ∈ skippedBlocks chain nTimeFirstKey pindexStart) {tx : CTransaction}
    (inside : tx ∈ block.vtx) (key : Key) : ¬pays tx key := by
  intro paysKey
  have early := List.mem_takeWhile_imp skipped
  have onChain : block ∈ chain :=
    List.mem_of_mem_drop ((List.takeWhile_sublist _).subset skipped)
  have date := dated block onChain tx inside
  have created := known tx key paysKey
  have least := first key
  simp only [decide_eq_true_eq] at early
  omega

/-- The same for the times that `GenerateNewKey` and `LoadKeyMetadata` keep, of keys whose creation
is known. -/
theorem KeyTimes.Reaches.skippedBlocks_not_paying {Key : Type} [DecidableEq Key]
    {times : KeyTimes Key} (reached : times.Reaches) {pindexStart : Nat}
    {pays : CTransaction → Key → Prop} {firstExists : CTransaction → Int}
    (dated : ∀ block ∈ chain, ∀ tx ∈ block.vtx, firstExists tx - 7200 ≤ block.getBlockTime)
    (known : ∀ tx key, pays tx key → ∃ nCreateTime, times.nCreateTime key = some nCreateTime ∧
      nCreateTime ≠ 0 ∧ nCreateTime ≤ firstExists tx) {block : ScanBlock}
    (skipped : block ∈ skippedBlocks chain times.nTimeFirstKey pindexStart) {tx : CTransaction}
    (inside : tx ∈ block.vtx) (key : Key) : ¬pays tx key := by
  intro paysKey
  obtain ⟨nCreateTime, found, given, created⟩ := known tx key paysKey
  have least := (reached.first_le.2 key nCreateTime found given).2
  exact Lycancoin.skippedBlocks_not_paying (fun _ : Unit => nCreateTime)
    (fun other _ => other = tx) dated (by rintro _ _ rfl; exact created) (fun _ => least)
    skipped inside () rfl

/-- What is claimed of a rescan: it ends well and passes every transaction on once and in order,
and the blocks that it skips pay to no key of the wallet. -/
structure RescansAll (chain : List ScanBlock)
    (add : CTransaction → ScanBlock → Wallet → Bool × Wallet) (clock : ScanClock)
    (nTimeFirstKey : Int) (pindexStart : Nat) (wallet : Wallet) : Prop where
  passes : ∀ fuel, chain.length ≤ fuel → ∃ after,
    scanForWalletTransactions chain add clock nTimeFirstKey pindexStart fuel wallet = .ok after ∧
    after.passed = transactionsFrom (scannedBlocks chain nTimeFirstKey pindexStart)
      (chain.length - (scannedBlocks chain nTimeFirstKey pindexStart).length)
  skips : ∀ (Key : Type) (nCreateTime : Key → Int) (pays : CTransaction → Key → Prop)
    (firstExists : CTransaction → Int),
    (∀ block ∈ chain, ∀ tx ∈ block.vtx, firstExists tx - 7200 ≤ block.getBlockTime) →
    (∀ tx key, pays tx key → nCreateTime key ≤ firstExists tx) →
    (∀ key, nTimeFirstKey ≤ nCreateTime key) →
    ∀ block ∈ skippedBlocks chain nTimeFirstKey pindexStart, ∀ tx ∈ block.vtx, ∀ key,
      ¬pays tx key

/-- **Rescan.**  It does what it should just when no minute ends at the tip. -/
theorem scanForWalletTransactions_iff (chain : List ScanBlock)
    (add : CTransaction → ScanBlock → Wallet → Bool × Wallet) (clock : ScanClock)
    (nTimeFirstKey : Int) (pindexStart : Nat) (wallet : Wallet)
    (onChain : pindexStart < chain.length) :
    RescansAll chain add clock nTimeFirstKey pindexStart wallet ↔
      QuietAtTip clock (scannedBlocks chain nTimeFirstKey pindexStart).length := by
  have runs : ∀ fuel, chain.length ≤ fuel →
      (QuietAtTip clock (scannedBlocks chain nTimeFirstKey pindexStart).length →
        ∃ after, scanForWalletTransactions chain add clock nTimeFirstKey pindexStart fuel wallet =
            .ok after ∧
          after.passed = transactionsFrom (scannedBlocks chain nTimeFirstKey pindexStart)
            (chain.length - (scannedBlocks chain nTimeFirstKey pindexStart).length)) ∧
      (¬QuietAtTip clock (scannedBlocks chain nTimeFirstKey pindexStart).length →
        scanForWalletTransactions chain add clock nTimeFirstKey pindexStart fuel wallet =
          .error .nullIndex) := by
    intro fuel enough
    obtain ⟨result, skipEq, stops⟩ := @skipEarlier_spec chain nTimeFirstKey fuel pindexStart onChain
      (by omega)
    have runEq : scanForWalletTransactions chain add clock nTimeFirstKey pindexStart fuel wallet =
        scanFrom chain add clock fuel 0 result
          { nNow := clock.start, wallet := wallet, passed := [], ret := 0 } := by
      unfold scanForWalletTransactions
      rw [skipEq]
      rfl
    rw [runEq]
    cases result with
    | none =>
        dsimp only at stops
        rw [stops]
        refine ⟨fun _ => ⟨_, by cases fuel <;> rfl, by simp [transactionsFrom]⟩, fun loud => ?_⟩
        exact absurd (Or.inl rfl) loud
    | some height =>
        obtain ⟨bound, scanned⟩ := stops
        have left : (scannedBlocks chain nTimeFirstKey pindexStart).length =
            chain.length - height := by
          rw [scanned, List.length_drop]
        have whole := @scanFrom_spec Wallet chain add clock fuel 0 height
          { nNow := clock.start, wallet := wallet, passed := [], ret := 0 } bound (by omega)
        have quiet : QuietAtTip clock (scannedBlocks chain nTimeFirstKey pindexStart).length ↔
            clock.test (0 + (chain.length - height - 1)) <
              clock.lastLogged (chain.length - height - 1) 0 clock.start + 60 := by
          rw [left, QuietAtTip, Nat.zero_add]
          exact or_iff_right (by omega)
        constructor
        · intro isQuiet
          rw [if_pos (quiet.1 isQuiet)] at whole
          obtain ⟨after, run, passed⟩ := whole
          refine ⟨after, run, ?_⟩
          rw [passed, left, scanned, List.nil_append]
          congr 1
          omega
        · intro loud
          rwa [if_neg fun test => loud (quiet.2 test)] at whole
  constructor
  · intro all
    by_contra loud
    obtain ⟨after, run, _⟩ := all.passes chain.length le_rfl
    rw [(runs chain.length le_rfl).2 loud] at run
    simp at run
  · intro quiet
    refine ⟨fun fuel enough => (runs fuel enough).1 quiet, ?_⟩
    intro Key nCreateTime pays firstExists dated known first block skipped tx inside key
    exact skippedBlocks_not_paying nCreateTime pays dated known first skipped inside key

def plainScanChain : List ScanBlock := [⟨1391489000, []⟩]

def slowClock : ScanClock := { start := 0, test := fun _ => 60, logged := fun _ => 60 }

theorem scanForWalletTransactions_fails_at_tip :
    slowClock.start ≤ slowClock.test 0 ∧ (∀ round, slowClock.test round ≤ slowClock.logged round) ∧
      (∀ round, slowClock.logged round ≤ slowClock.test (round + 1)) ∧
      (∀ fuel, scanForWalletTransactions plainScanChain (fun _ _ wallet => (false, wallet)) slowClock
        1 0 (fuel + 1) () = .error .nullIndex) ∧
      ¬RescansAll plainScanChain (fun _ _ wallet => (false, wallet)) slowClock 1 0 () := by
  have fails : ∀ fuel, scanForWalletTransactions plainScanChain (fun _ _ wallet => (false, wallet))
      slowClock 1 0 (fuel + 1) () = .error .nullIndex := fun _ => rfl
  refine ⟨by decide, by simp [slowClock], by simp [slowClock], fails, ?_⟩
  intro all
  obtain ⟨after, run, _⟩ := all.passes 1 (by decide)
  rw [fails 0] at run
  simp at run

/-- A transaction without inputs that pays a value to the script `OP_TRUE`. -/
def scanPayment (hash : Uint256) (nValue : Int) : CTransaction :=
  { hash := hash, nVersion := 1, vin := [], vout := [⟨nValue, [0x51]⟩], nLockTime := 0 }

/-- Three blocks, the first of them more than two hours older than the others. -/
def paidScanChain : List ScanBlock :=
  [⟨1391480000, [scanPayment 1 50]⟩, ⟨1391489000, [scanPayment 2 30]⟩,
    ⟨1391489060, [scanPayment 3 20, scanPayment 4 70]⟩]

/-- A minute ends after the first block that is read, and none after the second. -/
def quietClock : ScanClock :=
  { start := 0, test := fun round => 61 + 50 * round, logged := fun _ => 62 }

/-- The later transactions reach a wallet that keeps those of at least 50. -/
theorem scanForWalletTransactions_iff_paid :
    RescansAll paidScanChain
        (fun tx _ wallet => if tx.vout.any fun txout => decide (50 ≤ txout.nValue)
          then (true, wallet ++ [tx.hash]) else (false, wallet))
        quietClock 1391489000 0 ([] : List Uint256) ∧
      transactionsFrom (scannedBlocks paidScanChain 1391489000 0) 1 =
        [(scanPayment 2 30, 1), (scanPayment 3 20, 2), (scanPayment 4 70, 2)] :=
  ⟨(scanForWalletTransactions_iff paidScanChain _ quietClock 1391489000 0 [] (by decide)).2
    (Or.inr (by decide)), by decide⟩

end Lycancoin

import Lycancoin.Coins.CacheStack

namespace Lycancoin

open Std Lycancoin.Data

/-- One full map from transaction to coins, where pruned coins are absent. -/
abbrev Level := Uint256 → Option CCoins

/-- The map that a stack shows at its top. -/
def contents (view : CCoinsView) : List CCoinsViewCache → Level
  | [], txid => (view.coins[txid]?).bind TidyCoins.live
  | cache :: below, txid =>
      match cache.cacheCoins[txid]? with
      | some entry => entry.coins.live
      | none => contents view below txid

/-- The maps that the caches of a stack show, the top one first. -/
def levels (view : CCoinsView) : List CCoinsViewCache → List Level
  | [] => []
  | cache :: below => contents view (cache :: below) :: levels view below

/-- The view below holds an entry for the transaction, if it is a cache. -/
def Knows (below : List CCoinsViewCache) (txid : Uint256) : Prop :=
  ∀ parent rest, below = parent :: rest → (parent.cacheCoins[txid]?).isSome

structure EntryValid (view : CCoinsView) (below : List CCoinsViewCache) (txid : Uint256)
    (entry : CCoinsCacheEntry) : Prop where
  fresh : entry.fresh = true → contents view below txid = none
  known : entry.fresh = false → Knows below txid
  unmodified : entry.dirty = false → entry.coins.live = contents view below txid

def CacheValid (view : CCoinsView) (below : List CCoinsViewCache) (cache : CCoinsViewCache) :
    Prop :=
  ∀ txid entry, cache.cacheCoins[txid]? = some entry → EntryValid view below txid entry

def StackValid (view : CCoinsView) : List CCoinsViewCache → Prop
  | [] => True
  | cache :: below => CacheValid view below cache ∧ StackValid view below

section Lookup

variable {view : CCoinsView} {cache : CCoinsViewCache} {below after : List CCoinsViewCache}
  {txid : Uint256} {entry : CCoinsCacheEntry}

theorem contents_of_found (found : cache.cacheCoins[txid]? = some entry) :
    contents view (cache :: below) txid = entry.coins.live := by
  simp only [contents, found]

theorem contents_of_absent (absent : cache.cacheCoins[txid]? = none) :
    contents view (cache :: below) txid = contents view below txid := by
  simp only [contents, absent]

theorem CCoinsView.live_getCoins (view : CCoinsView) (reportsPruned : Bool) (txid : Uint256) :
    (view.getCoins reportsPruned txid).bind TidyCoins.live = contents view [] txid := by
  unfold CCoinsView.getCoins contents
  cases found : view.coins[txid]? with
  | none => rfl
  | some coins =>
      dsimp only
      split
      · rename_i hidden
        have pruned : coins.val.isPruned = true := (Bool.and_eq_true_iff.mp hidden).1
        exact (CCoins.live_of_isPruned pruned).symm
      · rfl

/-- What a change to the views below leaves alone when it only fills their caches. -/
structure Filled (view : CCoinsView) (before after : List CCoinsViewCache) : Prop where
  contents_eq : contents view after = contents view before
  levels_eq : levels view after = levels view before
  knows : ∀ txid, Knows before txid → Knows after txid

theorem Filled.refl (view : CCoinsView) (caches : List CCoinsViewCache) :
    Filled view caches caches :=
  ⟨rfl, rfl, fun _ known => known⟩

theorem EntryValid.filled (valid : EntryValid view below txid entry)
    (filled : Filled view below after) : EntryValid view after txid entry where
  fresh isFresh := by rw [filled.contents_eq]; exact valid.fresh isFresh
  known notFresh := filled.knows txid (valid.known notFresh)
  unmodified clean := by rw [filled.contents_eq]; exact valid.unmodified clean

theorem CacheValid.filled (valid : CacheValid view below cache)
    (filled : Filled view below after) : CacheValid view after cache :=
  fun txid entry found => (valid txid entry found).filled filled

theorem EntryValid.fetched {coins : TidyCoins} (live : coins.live = contents view below txid)
    (known : Knows below txid) :
    EntryValid view below txid { coins, dirty := false, fresh := coins.isPruned } where
  fresh isFresh := by
    rw [← live]
    exact CCoins.live_of_isPruned isFresh
  known _ := known
  unmodified _ := live

theorem getElem?_put (cache : CCoinsViewCache) (txid other : Uint256)
    (value : Option CCoinsCacheEntry) :
    (cache.put txid value).cacheCoins[other]? =
      if txid = other then value else cache.cacheCoins[other]? :=
  KeyedMerge.getElem?_set _ _ _ _

theorem contents_put_self (cache : CCoinsViewCache) (below : List CCoinsViewCache)
    (txid : Uint256) (value : Option CCoinsCacheEntry) :
    contents view (cache.put txid value :: below) txid =
      match value with
      | some entry => entry.coins.live
      | none => contents view below txid := by
  simp only [contents, getElem?_put, if_pos]

theorem contents_put_of_ne {other : Uint256} (different : txid ≠ other)
    (value : Option CCoinsCacheEntry) :
    contents view (cache.put txid value :: below) other =
      contents view (cache :: below) other := by
  simp only [contents, getElem?_put, if_neg different]

theorem CacheValid.put {value : Option CCoinsCacheEntry} (valid : CacheValid view below cache)
    (stored : ∀ entry, value = some entry → EntryValid view below txid entry) :
    CacheValid view below (cache.put txid value) := by
  intro other entry found
  rw [getElem?_put] at found
  split at found
  · rename_i same
    subst same
    exact stored entry found
  · exact valid other entry found

theorem Filled.cons (filled : Filled view below after) (cache : CCoinsViewCache) :
    Filled view (cache :: below) (cache :: after) := by
  have shown : contents view (cache :: after) = contents view (cache :: below) := by
    funext txid
    simp only [contents, filled.contents_eq]
  refine ⟨shown, by simp only [levels, shown, filled.levels_eq], ?_⟩
  rintro txid knows parent rest ⟨rfl, rfl⟩
  exact knows cache below rfl

/-- Storing what the views below show for an unknown transaction. -/
theorem Filled.put (absent : cache.cacheCoins[txid]? = none)
    (same : entry.coins.live = contents view below txid) :
    Filled view (cache :: below) (cache.put txid (some entry) :: below) := by
  have shown : contents view (cache.put txid (some entry) :: below) =
      contents view (cache :: below) := by
    funext other
    by_cases equal : txid = other
    · subst equal
      rw [contents_put_self, contents_of_absent absent]
      exact same
    · exact contents_put_of_ne equal _
  refine ⟨shown, by simp only [levels, shown], ?_⟩
  rintro other knows parent rest ⟨rfl, rfl⟩
  have before := knows cache below rfl
  rw [getElem?_put]
  split
  · rfl
  · exact before

theorem Filled.trans {caches : List CCoinsViewCache} (first : Filled view caches below)
    (second : Filled view below after) : Filled view caches after :=
  ⟨second.contents_eq.trans first.contents_eq, second.levels_eq.trans first.levels_eq,
    fun txid knows => second.knows txid (first.knows txid knows)⟩

theorem knows_put (cache : CCoinsViewCache) (below : List CCoinsViewCache) (txid : Uint256)
    (entry : CCoinsCacheEntry) : Knows (cache.put txid (some entry) :: below) txid := by
  rintro parent rest ⟨rfl, rfl⟩
  rw [getElem?_put, if_pos rfl]
  rfl

/-- A lookup returns what the stack shows and fills caches at most. -/
theorem fetchCoins_spec (reportsPruned : Bool) (txid : Uint256) {caches : List CCoinsViewCache}
    (valid : StackValid view caches) :
    (fetchCoins view reportsPruned txid caches).1.bind TidyCoins.live =
        contents view caches txid ∧
      StackValid view (fetchCoins view reportsPruned txid caches).2 ∧
      Filled view caches (fetchCoins view reportsPruned txid caches).2 ∧
      ((fetchCoins view reportsPruned txid caches).1.isSome →
        Knows (fetchCoins view reportsPruned txid caches).2 txid) := by
  induction caches with
  | nil =>
      refine ⟨view.live_getCoins reportsPruned txid, trivial, Filled.refl _ _, fun _ => ?_⟩
      intro parent rest equal
      exact absurd equal (List.cons_ne_nil _ _).symm
  | cons cache below ih =>
      obtain ⟨cacheValid, belowValid⟩ := valid
      obtain ⟨live, filledValid, filled, known⟩ := ih belowValid
      unfold fetchCoins
      cases cached : cache.cacheCoins[txid]? with
      | some entry =>
          refine ⟨(contents_of_found cached).symm, ⟨cacheValid, belowValid⟩, Filled.refl _ _, ?_⟩
          rintro - parent rest equal
          cases equal
          simp [cached]
      | none =>
          generalize fetched : fetchCoins view reportsPruned txid below = result at *
          obtain ⟨found, after⟩ := result
          have shown : found.bind TidyCoins.live = contents view (cache :: below) txid := by
            rw [contents_of_absent cached]
            exact live
          cases found with
          | none => exact ⟨shown, ⟨cacheValid.filled filled, filledValid⟩, filled.cons cache, by simp⟩
          | some coins =>
              have value : coins.live = contents view after txid := by
                rw [filled.contents_eq]
                exact live
              refine ⟨shown, ⟨?_, filledValid⟩, (filled.cons cache).trans (Filled.put cached value),
                fun _ => knows_put _ _ _ _⟩
              apply (cacheValid.filled filled).put
              rintro entry ⟨rfl⟩
              exact EntryValid.fetched value (known rfl)

theorem modifiedEntry_spec (reportsPruned : Bool) (txid : Uint256)
    (cacheValid : CacheValid view below cache) (belowValid : StackValid view below)
    (handedOut : modifiedEntry view reportsPruned txid cache below = (entry, after)) :
    EntryValid view after txid entry ∧ entry.coins.live = contents view (cache :: below) txid ∧
      StackValid view after ∧ Filled view below after := by
  unfold modifiedEntry at handedOut
  cases cached : cache.cacheCoins[txid]? with
  | some ours =>
      simp only [cached, Prod.mk.injEq] at handedOut
      obtain ⟨rfl, rfl⟩ := handedOut
      exact ⟨cacheValid txid ours cached, (contents_of_found cached).symm, belowValid,
        Filled.refl _ _⟩
  | none =>
      obtain ⟨live, filledValid, filled, known⟩ := fetchCoins_spec reportsPruned txid belowValid
      rw [contents_of_absent cached]
      simp only [cached] at handedOut
      generalize fetchCoins view reportsPruned txid below = fetched at *
      obtain ⟨found, filledBelow⟩ := fetched
      cases found with
      | none =>
          simp only [Prod.mk.injEq] at handedOut
          obtain ⟨rfl, rfl⟩ := handedOut
          have nothing : contents view filledBelow txid = none := by
            rw [filled.contents_eq]
            exact live.symm
          exact ⟨⟨fun _ => nothing, (nomatch ·), fun _ => nothing.symm⟩,
            live, filledValid, filled⟩
      | some coins =>
          simp only [Prod.mk.injEq] at handedOut
          obtain ⟨rfl, rfl⟩ := handedOut
          have value : coins.live = contents view filledBelow txid := by
            rw [filled.contents_eq]
            exact live
          exact ⟨EntryValid.fetched value (known rfl), live, filledValid, filled⟩

/-- A modification hands out what the stack shows, and then the stack shows
what the caller has made of it. -/
theorem modifyCoins_spec (reportsPruned : Bool) (txid : Uint256) (edit : CCoins → CCoins)
    (cacheValid : CacheValid view below cache) (belowValid : StackValid view below) :
    ∃ coins top after,
      modifyCoins view reportsPruned txid edit cache below = (coins, top :: after) ∧
      coins.live = contents view (cache :: below) txid ∧
      StackValid view (top :: after) ∧ Filled view below after ∧
      contents view (top :: after) =
        Function.update (contents view (cache :: below)) txid (edit coins).cleanup.live := by
  unfold modifyCoins
  generalize handedOut : modifiedEntry view reportsPruned txid cache below = result
  obtain ⟨entry, after⟩ := result
  obtain ⟨entryValid, live, afterValid, filled⟩ :=
    modifiedEntry_spec reportsPruned txid cacheValid belowValid handedOut
  refine ⟨_, _, _, rfl, live, ⟨?_, afterValid⟩, filled, ?_⟩
  · apply (cacheValid.filled filled).put
    intro stored storedEq
    split at storedEq
    · contradiction
    · cases storedEq
      exact ⟨entryValid.fresh, entryValid.known, (nomatch ·)⟩
  · funext other
    by_cases same : txid = other
    · subst same
      rw [Function.update_self, contents_put_self]
      split
      · rename_i stored storedEq
        split at storedEq
        · contradiction
        · cases storedEq
          rfl
      · rename_i erased
        split at erased
        · rename_i dropped
          obtain ⟨isFresh, pruned⟩ := Bool.and_eq_true_iff.mp dropped
          rw [entryValid.fresh isFresh]
          exact (CCoins.live_of_isPruned pruned).symm
        · contradiction
    · rw [Function.update_of_ne (Ne.symm same), contents_put_of_ne same]
      simp only [contents, filled.contents_eq]

end Lookup

section Flush

variable {view : CCoinsView} {cache parent : CCoinsViewCache} {below : List CCoinsViewCache}
  {txid : Uint256} {entry : CCoinsCacheEntry}

/-- Writing one valid entry: the assertion holds, the parent shows the entry's
coins afterwards, and what it stores is valid over the views below it. -/
theorem batchWriteEntry_spec (parentValid : CacheValid view below parent)
    (entryValid : EntryValid view (parent :: below) txid entry) :
    ∃ written, CCoinsViewCache.batchWriteEntry txid entry parent.cacheCoins[txid]? = some written ∧
      (∀ stored, written = some stored → EntryValid view below txid stored) ∧
      (match written with
        | some stored => stored.coins.live
        | none => contents view below txid) = entry.coins.live := by
  unfold CCoinsViewCache.batchWriteEntry
  cases isDirty : entry.dirty with
  | false =>
      refine ⟨_, rfl, fun stored found => parentValid txid stored found, ?_⟩
      rw [entryValid.unmodified isDirty]
      rfl
  | true =>
      cases ours : parent.cacheCoins[txid]? with
      | none =>
          -- An entry that the parent does not know is fresh.
          have isFresh : entry.fresh = true := by
            by_contra stale
            have known := entryValid.known (Bool.eq_false_iff.mpr stale) parent below rfl
            simp [ours] at known
          have nothing : contents view below txid = none := by
            rw [← contents_of_absent ours]
            exact entryValid.fresh isFresh
          cases pruned : entry.coins.isPruned with
          | true =>
              refine ⟨none, by simp, by simp, ?_⟩
              exact nothing.trans (CCoins.live_of_isPruned pruned).symm
          | false =>
              refine ⟨some { coins := entry.coins, dirty := true, fresh := true },
                by simp [isFresh], ?_, rfl⟩
              rintro stored ⟨rfl⟩
              exact ⟨fun _ => nothing, (nomatch ·), (nomatch ·)⟩
      | some ours' =>
          have oursValid := parentValid txid ours' ours
          cases dropped : ours'.fresh && entry.coins.isPruned with
          | true =>
              obtain ⟨isFresh, pruned⟩ := Bool.and_eq_true_iff.mp dropped
              refine ⟨none, by simp [isFresh, pruned], by simp, ?_⟩
              exact (oursValid.fresh isFresh).trans (CCoins.live_of_isPruned pruned).symm
          | false =>
              refine ⟨some { ours' with coins := entry.coins, dirty := true },
                by simp [dropped], ?_, rfl⟩
              rintro stored ⟨rfl⟩
              exact ⟨oursValid.fresh, oursValid.known, (nomatch ·)⟩

/-- The assertion of `BatchWrite` holds, and the parent shows afterwards what
the cache showed. -/
theorem CCoinsViewCache.batchWrite_spec (cacheValid : CacheValid view (parent :: below) cache)
    (parentValid : CacheValid view below parent) (hashBlock : Uint256) :
    ∃ merged, parent.batchWrite cache.cacheCoins hashBlock = some merged ∧
      CacheValid view below merged ∧
      contents view (merged :: below) = contents view (cache :: parent :: below) := by
  have accepted : ∀ txid entry, cache.cacheCoins[txid]? = some entry →
      (batchWriteEntry txid entry parent.cacheCoins[txid]?).isSome := fun txid entry found => by
    obtain ⟨written, defined, _⟩ := batchWriteEntry_spec parentValid (cacheValid txid entry found)
    simp [defined]
  obtain ⟨coins, merged, changed, kept⟩ := KeyedMerge.merge?_eq_some accepted
  refine ⟨{ hashBlock, cacheCoins := coins }, by simp [batchWrite, merged], ?_, ?_⟩
  · intro txid stored found
    cases child : cache.cacheCoins[txid]? with
    | none => exact parentValid txid stored ((kept txid child).symm.trans found)
    | some entry =>
        obtain ⟨written, defined, valid, _⟩ :=
          batchWriteEntry_spec parentValid (cacheValid txid entry child)
        have same := (changed txid entry child).symm.trans defined
        rw [Option.some.injEq] at same
        exact valid stored (same.symm.trans found)
  · funext txid
    cases child : cache.cacheCoins[txid]? with
    | none => simp only [contents, child, kept txid child]
    | some entry =>
        obtain ⟨written, defined, _, live⟩ :=
          batchWriteEntry_spec parentValid (cacheValid txid entry child)
        have same := (changed txid entry child).symm.trans defined
        rw [Option.some.injEq] at same
        rw [contents_of_found child, ← live]
        simp only [contents, same]

theorem CCoinsView.batchWriteEntry_spec (policy : WritePolicy)
    (entryValid : EntryValid view [] txid entry) :
    ∃ written, CCoinsView.batchWriteEntry policy txid entry view.coins[txid]? = some written ∧
      written.bind TidyCoins.live = entry.coins.live := by
  unfold CCoinsView.batchWriteEntry
  split
  · split
    · rename_i dropped
      have pruned : entry.coins.val.isPruned = true := (Bool.and_eq_true_iff.mp dropped).1
      exact ⟨none, rfl, (CCoins.live_of_isPruned pruned).symm⟩
    · exact ⟨_, rfl, rfl⟩
  · rename_i skipped
    have clean : entry.dirty = false := by
      cases isDirty : entry.dirty with
      | false => rfl
      | true => simp [isDirty] at skipped
    exact ⟨_, rfl, (entryValid.unmodified clean).symm⟩

/-- The bottom view holds afterwards what the cache showed. -/
theorem CCoinsView.batchWrite_spec (policy : WritePolicy) (cacheValid : CacheValid view [] cache)
    (hashBlock : Uint256) :
    ∃ written, view.batchWrite policy cache.cacheCoins hashBlock = some written ∧
      contents written [] = contents view [cache] := by
  have accepted : ∀ txid entry, cache.cacheCoins[txid]? = some entry →
      (batchWriteEntry policy txid entry view.coins[txid]?).isSome := fun txid entry found => by
    obtain ⟨written, defined, _⟩ :=
      CCoinsView.batchWriteEntry_spec policy (cacheValid txid entry found)
    simp [defined]
  obtain ⟨coins, merged, changed, kept⟩ := KeyedMerge.merge?_eq_some accepted
  refine ⟨{ hashBestBlock := hashBlock, coins }, by simp [batchWrite, merged], ?_⟩
  funext txid
  cases child : cache.cacheCoins[txid]? with
  | none => simp only [contents, child, kept txid child]
  | some entry =>
      obtain ⟨written, defined, live⟩ :=
        CCoinsView.batchWriteEntry_spec policy (cacheValid txid entry child)
      have same := (changed txid entry child).symm.trans defined
      rw [Option.some.injEq] at same
      rw [contents_of_found child, ← live]
      simp only [contents, same]

end Flush

/-- The base map and one full map for each cache, the top one first. -/
structure PlainModel where
  base : Level
  levels : List Level

/-- What an operation tells about coins. -/
inductive Answer where
  | coins (found : Option CCoins)
  | have (found : Bool)
  | done

def Observation.read : Observation → Answer
  | .coins found => .coins (found.bind CCoins.live)
  | .have found => .have found
  | .reference handed => .coins handed.live
  | .bestBlock _ => .done
  | .done => .done

namespace PlainModel

def ofBase (base : CCoinsView) : PlainModel := { base := contents base [], levels := [] }

def answer (model : PlainModel) (operation : Operation) : Answer :=
  match operation, model.levels with
  | .accessCoins txid _, top :: _ => .coins (top txid)
  | .getCoins txid _, top :: _ => .coins (top txid)
  | .haveCoins txid _, top :: _ => .have (top txid).isSome
  | .modifyCoins txid _ _, top :: _ => .coins (top txid)
  | _, _ => .done

/-- A push copies the top map, a flush writes it over the map below, a discard
drops it.  A modification stores what the caller has made of the coins that it
was handed. -/
def perform (model : PlainModel) (operation : Operation) (observation : Observation) :
    PlainModel :=
  match operation, observation, model.levels with
  | .modifyCoins txid _ edit, .reference coins, top :: below =>
      { model with levels := Function.update top txid (edit coins).cleanup.live :: below }
  | .push, _, [] => { model with levels := [model.base] }
  | .push, _, top :: below => { model with levels := top :: top :: below }
  | .flush _, _, [top] => { base := top, levels := [] }
  | .flush _, _, top :: _ :: below => { model with levels := top :: below }
  | .discard, _, _ :: below => { model with levels := below }
  | _, _, _ => model

/-- The answers to a sequence of operations, and the maps at its end. -/
def run (model : PlainModel) : List (Operation × Observation) → List Answer × PlainModel
  | [] => ([], model)
  | (operation, observation) :: rest =>
      let (answers, final) := (model.perform operation observation).run rest
      (model.answer operation :: answers, final)

end PlainModel

/-- Every level of the stack shows the map of the model at that level. -/
structure Represents (stack : CacheStack) (model : PlainModel) : Prop where
  valid : StackValid stack.base stack.caches
  base_eq : contents stack.base [] = model.base
  levels_eq : levels stack.base stack.caches = model.levels

/-- What an entry flagged `FRESH` caches is absent or pruned in the level below. -/
def FreshAbsentBelow (stack : CacheStack) : Prop :=
  ∀ above cache below, stack.caches = above ++ cache :: below →
    ∀ txid entry, cache.cacheCoins[txid]? = some entry → entry.fresh = true →
      contents stack.base below txid = none

section Run

variable {view : CCoinsView} {cache : CCoinsViewCache} {below caches : List CCoinsViewCache}
  {stack : CacheStack} {model : PlainModel}

theorem freshAbsentBelow_of_stackValid (valid : StackValid stack.base stack.caches) :
    FreshAbsentBelow stack := by
  obtain ⟨base, caches⟩ := stack
  intro above cache below split txid entry found isFresh
  dsimp only at split valid
  subst split
  induction above with
  | nil => exact (valid.1 txid entry found).fresh isFresh
  | cons _ _ ih => exact ih valid.2

theorem contents_push (view : CCoinsView) (caches : List CCoinsViewCache) :
    contents view (CCoinsViewCache.empty :: caches) = contents view caches := by
  funext txid
  simp [contents, CCoinsViewCache.empty]

theorem cacheValid_empty (view : CCoinsView) (caches : List CCoinsViewCache) :
    CacheValid view caches CCoinsViewCache.empty := by
  intro txid entry found
  simp [CCoinsViewCache.empty] at found

/-- `HaveCoins` looks at `vout` only, which is empty in tidy coins that are pruned. -/
theorem any_nonempty_vout (found : Option TidyCoins) :
    (found.any fun coins => !coins.val.vout.isEmpty) = (found.bind TidyCoins.live).isSome := by
  cases found with
  | none => rfl
  | some coins => simp [coins.isEmpty_vout]

theorem Filled.hashBlock (view : CCoinsView) (cache : CCoinsViewCache)
    (below : List CCoinsViewCache) (hashBlock : Uint256) :
    Filled view (cache :: below) ({ cache with hashBlock } :: below) := by
  refine ⟨rfl, rfl, ?_⟩
  rintro txid knows parent rest ⟨rfl, rfl⟩
  exact knows cache below rfl

theorem getBestBlock_spec (valid : StackValid view caches) :
    StackValid view (getBestBlock view caches).2 ∧
      Filled view caches (getBestBlock view caches).2 := by
  induction caches with
  | nil => exact ⟨trivial, Filled.refl _ _⟩
  | cons cache below ih =>
      obtain ⟨cacheValid, belowValid⟩ := valid
      obtain ⟨filledValid, filled⟩ := ih belowValid
      unfold getBestBlock
      split
      · exact ⟨⟨cacheValid.filled filled, filledValid⟩,
          (filled.cons cache).trans (Filled.hashBlock _ _ _ _)⟩
      · exact ⟨⟨cacheValid, belowValid⟩, Filled.refl _ _⟩

theorem Represents.filled {base : CCoinsView} (represents : Represents { base, caches } model)
    {after : List CCoinsViewCache} (valid : StackValid base after)
    (filled : Filled base caches after) : Represents { base, caches := after } model :=
  ⟨valid, represents.base_eq, filled.levels_eq.trans represents.levels_eq⟩

/-- One operation: it is defined, it answers as the model does, and the stack
goes on representing the model. -/
theorem Represents.perform (represents : Represents stack model) (operation : Operation) :
    ∃ observation after, stack.perform operation = some (observation, after) ∧
      observation.read = model.answer operation ∧
      Represents after (model.perform operation observation) := by
  obtain ⟨base, caches⟩ := stack
  obtain ⟨modelBase, modelLevels⟩ := model
  obtain ⟨valid, baseEq, levelsEq⟩ := id represents
  dsimp only at valid baseEq levelsEq
  subst baseEq levelsEq
  cases caches with
  | nil =>
      cases operation with
      | push =>
          refine ⟨_, _, rfl, rfl, ⟨cacheValid_empty _ _, trivial⟩, rfl, ?_⟩
          simp only [levels, contents_push, PlainModel.perform]
      | _ => exact ⟨_, _, rfl, rfl, represents⟩
  | cons cache below =>
      obtain ⟨cacheValid, belowValid⟩ := id valid
      cases operation with
      | accessCoins txid reportsPruned =>
          obtain ⟨live, afterValid, filled, _⟩ := fetchCoins_spec reportsPruned txid valid
          refine ⟨_, _, rfl, ?_, represents.filled afterValid filled⟩
          simp only [Observation.read, PlainModel.answer, levels, Option.bind_map, ← live]
          rfl
      | getCoins txid reportsPruned =>
          obtain ⟨live, afterValid, filled, _⟩ := fetchCoins_spec reportsPruned txid valid
          refine ⟨_, _, rfl, ?_, represents.filled afterValid filled⟩
          simp only [Observation.read, PlainModel.answer, levels, Option.bind_map, ← live]
          rfl
      | haveCoins txid reportsPruned =>
          obtain ⟨live, afterValid, filled, _⟩ := fetchCoins_spec reportsPruned txid valid
          refine ⟨_, _, rfl, ?_, represents.filled afterValid filled⟩
          simp only [Observation.read, PlainModel.answer, levels, ← live]
          exact congrArg Answer.have (any_nonempty_vout _)
      | modifyCoins txid reportsPruned edit =>
          obtain ⟨coins, top, after, modified, live, afterValid, filled, shown⟩ :=
            modifyCoins_spec reportsPruned txid edit cacheValid belowValid
          refine ⟨.reference coins, { base, caches := top :: after }, ?_, ?_, afterValid, rfl, ?_⟩
          · simp only [CacheStack.perform, modified]
          · simp only [Observation.read, PlainModel.answer, levels, live]
          · simp only [levels, PlainModel.perform, shown, filled.levels_eq]
      | getBestBlock =>
          obtain ⟨afterValid, filled⟩ := getBestBlock_spec valid
          exact ⟨_, _, rfl, rfl, represents.filled afterValid filled⟩
      | setBestBlock hashBlock =>
          exact ⟨_, _, rfl, rfl,
            represents.filled ⟨cacheValid, belowValid⟩ (Filled.hashBlock _ _ _ _)⟩
      | push =>
          refine ⟨_, _, rfl, rfl, ⟨cacheValid_empty _ _, valid⟩, rfl, ?_⟩
          simp only [levels, contents_push, PlainModel.perform]
      | flush policy =>
          cases below with
          | nil =>
              obtain ⟨written, flushed, shown⟩ :=
                CCoinsView.batchWrite_spec policy cacheValid cache.hashBlock
              refine ⟨.done, { base := written, caches := [] }, ?_, rfl, trivial, shown, rfl⟩
              simp only [CacheStack.perform, flush, flushed]
              rfl
          | cons parent below =>
              obtain ⟨merged, flushed, mergedValid, shown⟩ :=
                CCoinsViewCache.batchWrite_spec cacheValid belowValid.1 cache.hashBlock
              refine ⟨.done, { base, caches := merged :: below }, ?_, rfl,
                ⟨mergedValid, belowValid.2⟩, rfl, ?_⟩
              · simp only [CacheStack.perform, flush, flushed]
                rfl
              · simp only [levels, PlainModel.perform, shown]
      | discard => exact ⟨_, _, rfl, rfl, belowValid, rfl, rfl⟩

theorem Represents.run (represents : Represents stack model) (operations : List Operation) :
    ∃ observations after, stack.run operations = some (observations, after) ∧
      observations.map Observation.read = (model.run (operations.zip observations)).1 ∧
      Represents after (model.run (operations.zip observations)).2 := by
  induction operations generalizing stack model with
  | nil => exact ⟨[], stack, rfl, rfl, represents⟩
  | cons operation rest ih =>
      obtain ⟨observation, next, performed, read, nextRepresents⟩ := represents.perform operation
      obtain ⟨observations, after, ran, reads, afterRepresents⟩ := ih nextRepresents
      refine ⟨observation :: observations, after, ?_, ?_, afterRepresents⟩
      · simp only [CacheStack.run, performed, ran, Option.bind_eq_bind, Option.bind_some]
        rfl
      · simp only [List.map_cons, List.zip_cons_cons, PlainModel.run, read, reads]

end Run

/-- Caches on any base view, through any operations: the assertion on `FRESH`
never fails, every lookup answers as the plain maps do, and every level, the
base included, shows the map of the model. -/
theorem cacheStack_refines_plainModel (base : CCoinsView) (operations : List Operation) :
    ∃ observations stack,
      ({ base, caches := [] } : CacheStack).run operations = some (observations, stack) ∧
      observations.map Observation.read =
        ((PlainModel.ofBase base).run (operations.zip observations)).1 ∧
      FreshAbsentBelow stack ∧
      contents stack.base [] = ((PlainModel.ofBase base).run (operations.zip observations)).2.base ∧
      levels stack.base stack.caches =
        ((PlainModel.ofBase base).run (operations.zip observations)).2.levels := by
  have start : Represents { base, caches := [] } (PlainModel.ofBase base) := ⟨trivial, rfl, rfl⟩
  obtain ⟨observations, stack, ran, reads, represents⟩ := start.run operations
  exact ⟨observations, stack, ran, reads, freshAbsentBelow_of_stackValid represents.valid,
    represents.base_eq, represents.levels_eq⟩

end Lycancoin

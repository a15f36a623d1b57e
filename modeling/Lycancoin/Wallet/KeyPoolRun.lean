import Lycancoin.Data.Lease
import Lycancoin.Wallet.KeyPool

namespace Lycancoin

open Lycancoin.Data

namespace KeyPoolWallet

variable {PubKey KeyId : Type} {context : KeyPoolContext PubKey KeyId}
  {wallet after : KeyPoolWallet PubKey} {nIndex : Nat} {now : Int}

def recordedKey (wallet : KeyPoolWallet PubKey) (nIndex : Nat) : Option PubKey :=
  (wallet.pool nIndex).map CKeyPool.vchPubKey

def reservedIndex (wallet : KeyPoolWallet PubKey) (number : Nat) : Option Nat :=
  (wallet.reserveKeys number).nIndex

structure Sound (wallet : KeyPoolWallet PubKey) : Prop where
  leased : Leased wallet.recordedKey {nIndex | nIndex ∈ wallet.setKeyPool} wallet.reservedIndex
    {key | key ∈ wallet.spent}
  known : ∀ nIndex key, wallet.recordedKey nIndex = some key → key ∈ wallet.mapKeys
  spentKnown : ∀ key ∈ wallet.spent, key ∈ wallet.mapKeys
  reserved : ∀ number nIndex, wallet.reservedIndex number = some nIndex →
    (wallet.reserveKeys number).vchPubKey = wallet.recordedKey nIndex

def Unreserved (wallet : KeyPoolWallet PubKey) (nIndex : Nat) : Prop :=
  ∀ number, wallet.reservedIndex number ≠ some nIndex

/-- What stays the same while keys are written or taken. -/
structure SameHolders (wallet after : KeyPoolWallet PubKey) : Prop where
  fLocked : after.fLocked = wallet.fLocked
  reserveKeys : after.reserveKeys = wallet.reserveKeys
  spent : after.spent = wallet.spent

theorem SameHolders.refl (wallet : KeyPoolWallet PubKey) : SameHolders wallet wallet :=
  ⟨rfl, rfl, rfl⟩

theorem SameHolders.trans {middle : KeyPoolWallet PubKey} (first : SameHolders wallet middle)
    (second : SameHolders middle after) : SameHolders wallet after where
  fLocked := second.fLocked.trans first.fLocked
  reserveKeys := second.reserveKeys.trans first.reserveKeys
  spent := second.spent.trans first.spent

theorem SameHolders.unreserved (same : SameHolders wallet after)
    (unreserved : wallet.Unreserved nIndex) : after.Unreserved nIndex := by
  intro number
  rw [reservedIndex, same.reserveKeys]
  exact unreserved number

theorem SameHolders.writeNewKey (context : KeyPoolContext PubKey KeyId) (now : Int)
    (nIndex : Nat) (wallet : KeyPoolWallet PubKey) :
    SameHolders wallet (wallet.writeNewKey context now nIndex) := ⟨rfl, rfl, rfl⟩

theorem recordedKey_writeNewKey (context : KeyPoolContext PubKey KeyId) (now : Int)
    (nIndex : Nat) (wallet : KeyPoolWallet PubKey) :
    (wallet.writeNewKey context now nIndex).recordedKey =
      Function.update wallet.recordedKey nIndex (some (context.generate wallet.mapKeys)) := by
  funext i
  rcases eq_or_ne i nIndex with rfl | other
  · rw [Function.update_self, recordedKey, KeyPoolWallet.writeNewKey]
    simp only [Function.update_self]
    rfl
  · rw [Function.update_of_ne other, recordedKey, KeyPoolWallet.writeNewKey]
    simp only [Function.update_of_ne other]
    rfl

theorem Sound.writeNewKey (sound : Sound wallet) (context : KeyPoolContext PubKey KeyId) (now : Int)
    (unreserved : wallet.Unreserved nIndex) :
    Sound (wallet.writeNewKey context now nIndex) := by
  have fresh := context.fresh wallet.mapKeys
  refine ⟨?_, ?_, ?_, ?_⟩
  · rw [recordedKey_writeNewKey]
    have added := sound.leased.add unreserved
      (fun i known => fresh (sound.known i _ known)) (fun spent => fresh (sound.spentKnown _ spent))
    have listed : {i | i ∈ (wallet.writeNewKey context now nIndex).setKeyPool} =
        insert nIndex {i | i ∈ wallet.setKeyPool} := by
      ext i
      exact Finset.mem_insert
    rw [listed]
    exact added
  · intro i key known
    rw [recordedKey_writeNewKey, Function.update_apply] at known
    split_ifs at known
    · exact Option.some.inj known ▸ List.mem_cons_self
    · exact List.mem_cons_of_mem _ (sound.known i key known)
  · exact fun key spent => List.mem_cons_of_mem _ (sound.spentKnown key spent)
  · intro number i holds
    have other : i ≠ nIndex := by
      rintro rfl
      exact unreserved number holds
    rw [recordedKey_writeNewKey, Function.update_of_ne other]
    exact sound.reserved number i holds

theorem nEnd_notMem (wallet : KeyPoolWallet PubKey) : wallet.nEnd ∉ wallet.setKeyPool := by
  intro member
  have most : wallet.nEnd ≤ wallet.setKeyPool.sup id := Finset.le_sup (f := id) member
  rw [nEnd] at most
  omega

/-- Writing behind the last index. -/
theorem nEnd_writeNewKey (context : KeyPoolContext PubKey KeyId) (now : Int)
    (wallet : KeyPoolWallet PubKey) :
    (wallet.writeNewKey context now wallet.nEnd).nEnd = wallet.nEnd + 1 ∧
      (wallet.writeNewKey context now wallet.nEnd).setKeyPool.card =
        wallet.setKeyPool.card + 1 := by
  constructor
  · change (insert wallet.nEnd wallet.setKeyPool).sup id + 1 = _
    rw [Finset.sup_insert, id, nEnd, sup_eq_left.mpr (Nat.le_succ _)]
  · exact Finset.card_insert_of_notMem wallet.nEnd_notMem

theorem Sound.topUpLoop (sound : Sound wallet) {target : Nat} (rounds : Nat)
    (unreserved : ∀ i ∈ Finset.Ico wallet.nEnd (wallet.nEnd + (target - wallet.setKeyPool.card)),
      wallet.Unreserved i) :
    Sound (topUpLoop context now target rounds wallet) ∧
      SameHolders wallet (topUpLoop context now target rounds wallet) := by
  induction rounds generalizing wallet with
  | zero => exact ⟨sound, .refl wallet⟩
  | succ rounds ih =>
      rw [KeyPoolWallet.topUpLoop]
      split_ifs with few
      · have same := SameHolders.writeNewKey context now wallet.nEnd wallet
        obtain ⟨next, size⟩ := nEnd_writeNewKey context now wallet
        have written := sound.writeNewKey context now
          (unreserved wallet.nEnd (Finset.mem_Ico.mpr ⟨le_rfl, by omega⟩))
        obtain ⟨kept, sameRest⟩ := ih written (fun i inside => same.unreserved (unreserved i (by
          rw [next, size] at inside
          rw [Finset.mem_Ico] at inside ⊢
          omega)))
        exact ⟨kept, same.trans sameRest⟩
      · exact ⟨sound, .refl wallet⟩

theorem Sound.topUpKeyPool (sound : Sound wallet) (kpSize : UInt32)
    (unreserved : ∀ i ∈ wallet.topUpIndexes context kpSize, wallet.Unreserved i) :
    Sound (wallet.topUpKeyPool context now kpSize).1 ∧
      SameHolders wallet (wallet.topUpKeyPool context now kpSize).1 := by
  rw [topUpIndexes] at unreserved
  rw [KeyPoolWallet.topUpKeyPool]
  split_ifs at unreserved ⊢
  · exact ⟨sound, .refl wallet⟩
  · exact sound.topUpLoop _ unreserved

theorem Sound.newKeysLoop (sound : Sound wallet) (context : KeyPoolContext PubKey KeyId) (now : Int)
    (nKeys : Nat)
    (unreserved : ∀ i ∈ Finset.Icc 1 nKeys, wallet.Unreserved i) :
    Sound (newKeysLoop context now nKeys wallet) ∧
      SameHolders wallet (newKeysLoop context now nKeys wallet) := by
  induction nKeys with
  | zero => exact ⟨sound, .refl wallet⟩
  | succ nKeys ih =>
      obtain ⟨kept, same⟩ := ih fun i inside => unreserved i (by
        rw [Finset.mem_Icc] at inside ⊢
        omega)
      have last := same.unreserved (unreserved (nKeys + 1) (Finset.mem_Icc.mpr ⟨by omega, le_rfl⟩))
      exact ⟨kept.writeNewKey context now last, same.trans (.writeNewKey context now _ _)⟩

/-- The pool is emptied, and so are its records. -/
theorem Sound.eraseAll (sound : Sound wallet) :
    Sound { wallet with
      pool := fun nIndex => if nIndex ∈ wallet.setKeyPool then none else wallet.pool nIndex
      setKeyPool := ∅ } := by
  have recorded : recordedKey { wallet with
        pool := fun nIndex => if nIndex ∈ wallet.setKeyPool then none else wallet.pool nIndex
        setKeyPool := ∅ } =
      fun nIndex => if nIndex ∈ wallet.setKeyPool then none else wallet.recordedKey nIndex := by
    funext nIndex
    rw [recordedKey]
    simp only
    split_ifs <;> rfl
  have emptied := (sound.leased.withhold (Set.empty_subset _)).erase
    (fun number nIndex holds => sound.leased.notFree number nIndex holds) (fun _ => nofun)
  refine ⟨?_, ?_, sound.spentKnown, ?_⟩
  · rw [recorded]
    have none : {nIndex | nIndex ∈ (∅ : Finset Nat)} = (∅ : Set Nat) := by
      ext nIndex
      simp
    rw [none]
    exact emptied
  · intro nIndex key known
    rw [recorded] at known
    simp only at known
    split_ifs at known
    exact sound.known nIndex key known
  · intro number nIndex holds
    have unlisted : nIndex ∉ wallet.setKeyPool := sound.leased.notFree number nIndex holds
    rw [recorded]
    simp only
    rw [if_neg unlisted]
    exact sound.reserved number nIndex holds

theorem Sound.newKeyPool (sound : Sound wallet)
    (unreserved : ∀ i ∈ wallet.newIndexes context .newKeyPool, wallet.Unreserved i) :
    Sound (wallet.newKeyPool context now).1 ∧
      SameHolders wallet (wallet.newKeyPool context now).1 := by
  have erased := sound.eraseAll
  rw [newIndexes_newKeyPool] at unreserved
  rw [KeyPoolWallet.newKeyPool]
  simp only
  split_ifs at unreserved ⊢ with locked
  · exact ⟨erased, ⟨rfl, rfl, rfl⟩⟩
  · obtain ⟨kept, same⟩ := erased.newKeysLoop context now (nKeys context) unreserved
    exact ⟨kept, same.fLocked, same.reserveKeys, same.spent⟩

structure Reserved (wallet after : KeyPoolWallet PubKey)
    (reserved : Option (Nat × CKeyPool PubKey)) : Prop where
  sound : Sound after
  same : SameHolders wallet after
  key : ∀ nIndex keypool, reserved = some (nIndex, keypool) →
    after.pool nIndex = some keypool ∧ nIndex ∉ after.setKeyPool ∧ after.Unreserved nIndex

section Calls

variable [DecidableEq KeyId]

theorem Sound.haveKey (sound : Sound wallet) {keypool : CKeyPool PubKey}
    (record : wallet.pool nIndex = some keypool) :
    wallet.haveKey context (context.getId keypool.vchPubKey) = true := by
  have known := sound.known nIndex keypool.vchPubKey (by rw [recordedKey, record]; rfl)
  exact List.any_eq_true.mpr ⟨keypool.vchPubKey, known, decide_eq_true rfl⟩

theorem Sound.withhold (sound : Sound wallet) {setKeyPool : Finset Nat}
    (subset : setKeyPool ⊆ wallet.setKeyPool) : Sound { wallet with setKeyPool } :=
  ⟨sound.leased.withhold fun _ member => subset member, sound.known, sound.spentKnown,
    sound.reserved⟩

/-- A key can be reserved unless the wallet writes over one that is. -/
theorem Sound.reserveKeyFromKeyPool (sound : Sound wallet) (now : Int)
    (unreserved : ∀ i ∈ wallet.topUpIndexes context 0, wallet.Unreserved i) :
    ∃ after reserved, wallet.reserveKeyFromKeyPool context now = .ok (after, reserved) ∧
      Reserved wallet after reserved := by
  obtain ⟨filled, isFilled⟩ : ∃ filled, filled =
    if wallet.fLocked then wallet else (wallet.topUpKeyPool context now 0).1 := ⟨_, rfl⟩
  obtain ⟨kept, same⟩ : Sound filled ∧ SameHolders wallet filled := by
    rw [isFilled]
    split_ifs
    · exact ⟨sound, .refl wallet⟩
    · exact sound.topUpKeyPool 0 unreserved
  rw [KeyPoolWallet.reserveKeyFromKeyPool, ← isFilled]
  simp only
  split_ifs with listed
  · have member := filled.setKeyPool.min'_mem listed
    obtain ⟨key, known⟩ := kept.leased.listed _ member
    obtain ⟨keypool, record, _⟩ := Option.map_eq_some_iff.mp known
    rw [record]
    simp only
    rw [if_pos (kept.haveKey record)]
    refine ⟨_, _, rfl, kept.withhold (Finset.erase_subset _ _),
      ⟨same.fLocked, same.reserveKeys, same.spent⟩, ?_⟩
    rintro nIndex keypool ⟨⟩
    exact ⟨record, Finset.notMem_erase _ _,
      fun number holds => kept.leased.notFree number _ holds member⟩
  · exact ⟨filled, none, rfl, kept, same, nofun⟩

theorem Reserved.unused {keypool : CKeyPool PubKey}
    (reserved : Reserved wallet after (some (nIndex, keypool))) :
    keypool.vchPubKey ∉ wallet.spent ∧ ∀ number, ¬wallet.Reserves number keypool.vchPubKey := by
  obtain ⟨record, _, unreserved⟩ := reserved.key nIndex keypool rfl
  have isKey : after.recordedKey nIndex = some keypool.vchPubKey := by
    rw [recordedKey, record]
    rfl
  constructor
  · rw [← reserved.same.spent]
    exact reserved.sound.leased.notGone nIndex _ isKey
  · rintro number ⟨holds, sameKey⟩
    rw [← reserved.same.reserveKeys] at holds sameKey
    obtain ⟨other, isOther⟩ := Option.ne_none_iff_exists'.mp holds
    have atOther := reserved.sound.reserved number other isOther
    rw [sameKey] at atOther
    have same := reserved.sound.leased.distinct nIndex other _ isKey atOther.symm
    exact unreserved number (same ▸ isOther)

theorem reservedIndex_setReserveKey (number : Nat) (reserveKey : CReserveKey PubKey)
    (wallet : KeyPoolWallet PubKey) :
    (wallet.setReserveKey number reserveKey).reservedIndex =
      Function.update wallet.reservedIndex number reserveKey.nIndex := by
  funext other
  rw [reservedIndex, setReserveKey, Function.update_apply]
  simp only [Function.update_apply]
  split_ifs <;> rfl

/-- An object takes over an index that nobody else reserves. -/
theorem Sound.lend (sound : Sound wallet) (number : Nat) {keypool : CKeyPool PubKey}
    (record : wallet.pool nIndex = some keypool) (unlisted : nIndex ∉ wallet.setKeyPool)
    (unreserved : wallet.Unreserved nIndex) :
    Sound (wallet.setReserveKey number ⟨some nIndex, some keypool.vchPubKey⟩) := by
  have isKey : wallet.recordedKey nIndex = some keypool.vchPubKey := by
    rw [recordedKey, record]
    rfl
  refine ⟨?_, sound.known, sound.spentKnown, ?_⟩
  · rw [reservedIndex_setReserveKey]
    exact sound.leased.lend unreserved unlisted isKey number
  · intro other i holds
    rw [reservedIndex_setReserveKey, Function.update_apply] at holds
    rw [setReserveKey]
    simp only [Function.update_apply]
    split_ifs at holds ⊢
    · cases holds
      exact isKey.symm
    · exact sound.reserved other i holds

theorem Sound.setIdle (sound : Sound wallet) (number : Nat) :
    Sound (wallet.setReserveKey number .idle) := by
  refine ⟨?_, sound.known, sound.spentKnown, ?_⟩
  · rw [reservedIndex_setReserveKey]
    exact sound.leased.release number
  · intro other i holds
    rw [reservedIndex_setReserveKey, Function.update_apply] at holds
    rw [setReserveKey]
    simp only [Function.update_apply]
    split_ifs at holds ⊢
    · cases holds
    · exact sound.reserved other i holds

/-- After an object lets its index go, nobody reserves it. -/
theorem Sound.unreserved_setIdle (sound : Sound wallet) {number : Nat}
    (holds : wallet.reservedIndex number = some nIndex) :
    (wallet.setReserveKey number .idle).Unreserved nIndex := by
  intro other holdsToo
  rw [reservedIndex_setReserveKey, Function.update_apply] at holdsToo
  split_ifs at holdsToo with same
  · cases holdsToo
  · exact same (sound.leased.apart other number nIndex holdsToo holds)

theorem recordedKey_keepKey (nIndex : Nat) (wallet : KeyPoolWallet PubKey) :
    (wallet.keepKey nIndex).recordedKey = Function.update wallet.recordedKey nIndex none := by
  funext i
  rw [recordedKey, keepKey, Function.update_apply]
  simp only [Function.update_apply]
  split_ifs <;> rfl

/-- A key that is neither listed nor reserved is kept for good. -/
theorem Sound.keepKey (sound : Sound wallet) {key : PubKey}
    (record : wallet.recordedKey nIndex = some key) (unlisted : nIndex ∉ wallet.setKeyPool)
    (unreserved : wallet.Unreserved nIndex) :
    Sound { wallet.keepKey nIndex with spent := key :: wallet.spent } := by
  have recorded : recordedKey { wallet.keepKey nIndex with spent := key :: wallet.spent } =
      Function.update wallet.recordedKey nIndex none := recordedKey_keepKey nIndex wallet
  refine ⟨?_, ?_, ?_, ?_⟩
  · rw [recorded]
    have gone : {spent | spent ∈ key :: wallet.spent} = insert key {spent | spent ∈ wallet.spent} := by
      ext spent
      exact List.mem_cons
    change Leased _ _ _ {spent | spent ∈ key :: wallet.spent}
    rw [gone]
    exact sound.leased.spend unreserved unlisted record
  · intro i key known
    rw [recorded, Function.update_apply] at known
    split_ifs at known
    exact sound.known i key known
  · rintro spent (_ | ⟨_, before⟩)
    · exact sound.known nIndex key record
    · exact sound.spentKnown spent before
  · intro number i holds
    have other : i ≠ nIndex := by
      rintro rfl
      exact unreserved number holds
    rw [recorded, Function.update_of_ne other]
    exact sound.reserved number i holds

theorem Sound.returnKey (sound : Sound wallet) (known : ∃ key, wallet.recordedKey nIndex = some key)
    (unreserved : wallet.Unreserved nIndex) : Sound (wallet.returnKey nIndex) := by
  refine ⟨?_, sound.known, sound.spentKnown, sound.reserved⟩
  have listed : {i | i ∈ (wallet.returnKey nIndex).setKeyPool} =
      insert nIndex {i | i ∈ wallet.setKeyPool} := by
    ext i
    exact Finset.mem_insert
  rw [listed]
  exact sound.leased.list unreserved known

theorem Sound.keepReservedKey (sound : Sound wallet) (number : Nat) :
    Sound (wallet.keepReservedKey number) := by
  rw [KeyPoolWallet.keepReservedKey]
  cases holds : (wallet.reserveKeys number).nIndex with
  | none => exact sound.setIdle number
  | some nIndex =>
      obtain ⟨key, record⟩ := sound.leased.held number nIndex holds
      have isKey := sound.reserved number nIndex holds
      rw [record] at isKey
      simp only [isKey]
      exact (sound.setIdle number).keepKey record (sound.leased.notFree number nIndex holds)
        (sound.unreserved_setIdle holds)

theorem Sound.returnReservedKey (sound : Sound wallet) (number : Nat) :
    Sound (wallet.returnReservedKey number) := by
  rw [KeyPoolWallet.returnReservedKey]
  cases holds : (wallet.reserveKeys number).nIndex with
  | none => exact sound.setIdle number
  | some nIndex =>
      exact (sound.setIdle number).returnKey (sound.leased.held number nIndex holds)
        (sound.unreserved_setIdle holds)

/-- What a call comes to: it does not fail, and a key that it hands out is neither spent
nor reserved by another object. -/
def Safe (context : KeyPoolContext PubKey KeyId) (now : Int) (call : KeyPoolCall)
    (wallet : KeyPoolWallet PubKey) : Prop :=
  ∃ after handed, wallet.step context now call = .ok (after, handed) ∧ Sound after ∧
    ∀ key, handed = some key → key ∉ wallet.spent ∧
      ∀ number, call ≠ .getReservedKey number → ¬wallet.Reserves number key

theorem Sound.getReservedKey (sound : Sound wallet) (number : Nat)
    (unreserved : ∀ i ∈ wallet.newIndexes context (.getReservedKey number), wallet.Unreserved i) :
    Safe context now (.getReservedKey number) wallet := by
  rw [newIndexes_getReservedKey] at unreserved
  rw [Safe, step, KeyPoolWallet.getReservedKey]
  cases holds : (wallet.reserveKeys number).nIndex with
  | none =>
      rw [holds] at unreserved
      obtain ⟨after, reserved, ran, spec⟩ := sound.reserveKeyFromKeyPool now unreserved
      rw [ran]
      cases reserved with
      | none => exact ⟨after, none, rfl, spec.sound, nofun⟩
      | some reserved =>
          obtain ⟨nIndex, keypool⟩ := reserved
          obtain ⟨record, unlisted, free⟩ := spec.key nIndex keypool rfl
          obtain ⟨unspent, unheld⟩ := spec.unused
          refine ⟨_, _, rfl, spec.sound.lend number record unlisted free, ?_⟩
          rintro key ⟨⟩
          exact ⟨unspent, fun other _ => unheld other⟩
  | some nIndex =>
      obtain ⟨key, record⟩ := sound.leased.held number nIndex holds
      have isKey := sound.reserved number nIndex holds
      rw [record] at isKey
      simp only [isKey]
      refine ⟨wallet, some key, rfl, sound, ?_⟩
      rintro key ⟨⟩
      refine ⟨sound.leased.notGone nIndex key record, ?_⟩
      rintro other differs ⟨holdsToo, sameKey⟩
      obtain ⟨otherIndex, isOther⟩ := Option.ne_none_iff_exists'.mp holdsToo
      have atOther := sound.reserved other otherIndex isOther
      rw [sameKey] at atOther
      have same := sound.leased.distinct nIndex otherIndex key record atOther.symm
      have sameNumber := sound.leased.apart number other nIndex holds (same ▸ isOther)
      exact differs (congrArg KeyPoolCall.getReservedKey sameNumber)

omit [DecidableEq KeyId] in
theorem Sound.giveNewKey (sound : Sound wallet) (context : KeyPoolContext PubKey KeyId) :
    Sound { wallet with
      mapKeys := context.generate wallet.mapKeys :: wallet.mapKeys
      spent := context.generate wallet.mapKeys :: wallet.spent } := by
  have fresh := context.fresh wallet.mapKeys
  refine ⟨?_, fun i key known => List.mem_cons_of_mem _ (sound.known i key known), ?_,
    sound.reserved⟩
  · have lost := sound.leased.lose fun i known => fresh (sound.known i _ known)
    have gone : {spent | spent ∈ context.generate wallet.mapKeys :: wallet.spent} =
        insert (context.generate wallet.mapKeys) {spent | spent ∈ wallet.spent} := by
      ext spent
      exact List.mem_cons
    change Leased _ _ _ {spent | spent ∈ context.generate wallet.mapKeys :: wallet.spent}
    rw [gone]
    exact lost
  · rintro spent (_ | ⟨_, before⟩)
    · exact List.mem_cons_self
    · exact List.mem_cons_of_mem _ (sound.spentKnown spent before)

theorem Sound.reserves_known (sound : Sound wallet) {number : Nat} {key : PubKey}
    (reserves : wallet.Reserves number key) : key ∈ wallet.mapKeys := by
  obtain ⟨holds, isKey⟩ := reserves
  obtain ⟨nIndex, isIndex⟩ := Option.ne_none_iff_exists'.mp holds
  have record := sound.reserved number nIndex isIndex
  rw [isKey] at record
  exact sound.known nIndex key record.symm

theorem Sound.getKeyFromPool (sound : Sound wallet)
    (unreserved : ∀ i ∈ wallet.newIndexes context .getKeyFromPool, wallet.Unreserved i) :
    Safe context now .getKeyFromPool wallet := by
  obtain ⟨after, reserved, ran, spec⟩ := sound.reserveKeyFromKeyPool now unreserved
  rw [Safe, step, KeyPoolWallet.getKeyFromPool, ran]
  cases reserved with
  | none =>
      cases locked : after.fLocked with
      | true =>
          refine ⟨after, none, ?_, spec.sound, nofun⟩
          change (if after.fLocked then _ else _) = _
          rw [locked]
          rfl
      | false =>
          have fresh := context.fresh after.mapKeys
          refine ⟨_, some (context.generate after.mapKeys), ?_, spec.sound.giveNewKey context, ?_⟩
          · change (if after.fLocked then _ else _) = _
            rw [locked]
            rfl
          · rintro key ⟨⟩
            constructor
            · intro spent
              rw [← spec.same.spent] at spent
              exact fresh (spec.sound.spentKnown _ spent)
            · intro number _ reserves
              rw [Reserves, ← spec.same.reserveKeys] at reserves
              exact fresh (spec.sound.reserves_known reserves)
  | some reserved =>
      obtain ⟨nIndex, keypool⟩ := reserved
      obtain ⟨record, unlisted, free⟩ := spec.key nIndex keypool rfl
      obtain ⟨unspent, unheld⟩ := spec.unused
      have isKey : after.recordedKey nIndex = some keypool.vchPubKey := by
        rw [recordedKey, record]
        rfl
      refine ⟨_, _, rfl, spec.sound.keepKey isKey unlisted free, ?_⟩
      rintro key ⟨⟩
      exact ⟨unspent, fun other _ => unheld other⟩

theorem Sound.getOldestKeyPoolTime (sound : Sound wallet)
    (unreserved : ∀ i ∈ wallet.newIndexes context .getOldestKeyPoolTime, wallet.Unreserved i) :
    Safe context now .getOldestKeyPoolTime wallet := by
  obtain ⟨after, reserved, ran, spec⟩ := sound.reserveKeyFromKeyPool now unreserved
  rw [Safe, step, KeyPoolWallet.getOldestKeyPoolTime, ran]
  cases reserved with
  | none => exact ⟨after, none, rfl, spec.sound, nofun⟩
  | some reserved =>
      obtain ⟨nIndex, keypool⟩ := reserved
      obtain ⟨record, _, free⟩ := spec.key nIndex keypool rfl
      refine ⟨_, none, rfl, spec.sound.returnKey ⟨keypool.vchPubKey, ?_⟩ free, nofun⟩
      rw [recordedKey, record]
      rfl

theorem Sound.step (sound : Sound wallet) (now : Int) {call : KeyPoolCall}
    (spares : wallet.Spares context call) : Safe context now call wallet := by
  cases call with
  | topUpKeyPool kpSize => exact ⟨_, none, rfl, (sound.topUpKeyPool kpSize spares).1, nofun⟩
  | newKeyPool => exact ⟨_, none, rfl, (sound.newKeyPool spares).1, nofun⟩
  | getReservedKey number => exact sound.getReservedKey number spares
  | keepKey number => exact ⟨_, none, rfl, sound.keepReservedKey number, nofun⟩
  | returnKey number => exact ⟨_, none, rfl, sound.returnReservedKey number, nofun⟩
  | getKeyFromPool => exact sound.getKeyFromPool spares
  | getOldestKeyPoolTime => exact sound.getOldestKeyPoolTime spares
  | lock =>
      exact ⟨_, none, rfl, ⟨sound.leased, sound.known, sound.spentKnown, sound.reserved⟩, nofun⟩
  | unlock =>
      exact ⟨_, none, rfl, ⟨sound.leased, sound.known, sound.spentKnown, sound.reserved⟩, nofun⟩

/-- A wallet that was loaded: nothing is reserved or given away yet, and its records
are of keys that it has. -/
structure Loaded (wallet : KeyPoolWallet PubKey) : Prop where
  idle : ∀ number, wallet.reserveKeys number = .idle
  listed : ∀ nIndex ∈ wallet.setKeyPool, ∃ key, wallet.recordedKey nIndex = some key
  distinct : ∀ i j key, wallet.recordedKey i = some key → wallet.recordedKey j = some key → i = j
  known : ∀ nIndex key, wallet.recordedKey nIndex = some key → key ∈ wallet.mapKeys
  unspent : wallet.spent = []

theorem Loaded.sound (loaded : Loaded wallet) : Sound wallet := by
  have noIndex : wallet.reservedIndex = fun _ => none := by
    funext number
    rw [reservedIndex, loaded.idle number]
    rfl
  refine ⟨?_, loaded.known, ?_, ?_⟩
  · rw [noIndex, loaded.unspent]
    exact Leased.of_records loaded.distinct (fun _ _ _ => List.not_mem_nil) loaded.listed
  · rw [loaded.unspent]
    exact fun _ => nofun
  · rw [noIndex]
    exact fun _ _ => nofun

theorem Reaches.sound {first : KeyPoolWallet PubKey} (loaded : Loaded first)
    (reached : Reaches context first wallet) : Sound wallet := by
  induction reached with
  | first => exact loaded.sound
  | step _ spares ran ih =>
      obtain ⟨after, handed, isAfter, sound, _⟩ := ih.step _ spares
      rw [ran] at isAfter
      cases isAfter
      exact sound

omit [DecidableEq KeyId] in
/-- What `TopUpKeyPool` writes is listed. -/
theorem listed_topUpLoop (context : KeyPoolContext PubKey KeyId) (now : Int)
    (wallet : KeyPoolWallet PubKey) {target rounds : Nat}
    (enough : target - wallet.setKeyPool.card ≤ rounds) :
    (∀ i ∈ wallet.setKeyPool, i ∈ (topUpLoop context now target rounds wallet).setKeyPool) ∧
      (∀ i ∈ Finset.Ico wallet.nEnd (wallet.nEnd + (target - wallet.setKeyPool.card)),
        i ∈ (topUpLoop context now target rounds wallet).setKeyPool) ∧
      (topUpLoop context now target rounds wallet).reserveKeys = wallet.reserveKeys := by
  induction rounds generalizing wallet with
  | zero =>
      refine ⟨fun _ => id, fun i inside => ?_, rfl⟩
      rw [Finset.mem_Ico] at inside
      omega
  | succ rounds ih =>
      rw [topUpLoop]
      split_ifs with few
      · obtain ⟨next, size⟩ := nEnd_writeNewKey context now wallet
        obtain ⟨older, newer, same⟩ := ih (wallet.writeNewKey context now wallet.nEnd)
          (by omega)
        rw [next, size] at newer
        refine ⟨fun i member => older i (Finset.mem_insert_of_mem member), fun i inside => ?_, same⟩
        rw [Finset.mem_Ico] at inside
        rcases Nat.eq_or_lt_of_le inside.1 with rfl | behind
        · exact older _ (Finset.mem_insert_self _ _)
        · exact newer i (Finset.mem_Ico.mpr ⟨behind, by omega⟩)
      · refine ⟨fun _ => id, fun i inside => ?_, rfl⟩
        rw [Finset.mem_Ico] at inside
        omega

omit [DecidableEq KeyId] in
theorem listed_newKeysLoop (context : KeyPoolContext PubKey KeyId) (now : Int) (nKeys : Nat)
    (wallet : KeyPoolWallet PubKey) :
    (∀ i ∈ Finset.Icc 1 nKeys, i ∈ (newKeysLoop context now nKeys wallet).setKeyPool) ∧
      (newKeysLoop context now nKeys wallet).reserveKeys = wallet.reserveKeys := by
  induction nKeys with
  | zero =>
      refine ⟨fun i inside => ?_, rfl⟩
      rw [Finset.mem_Icc] at inside
      omega
  | succ nKeys ih =>
      refine ⟨fun i inside => ?_, ih.2⟩
      rw [Finset.mem_Icc] at inside
      rcases Nat.eq_or_lt_of_le inside.2 with rfl | before
      · exact Finset.mem_insert_self _ _
      · exact Finset.mem_insert_of_mem (ih.1 i (Finset.mem_Icc.mpr ⟨inside.1, by omega⟩))

/-- A call that writes new keys lists each index that it writes, also one that is reserved. -/
theorem listed_of_not_spares (now : Int) {call : KeyPoolCall}
    (writes : call = .newKeyPool ∨ ∃ kpSize, call = .topUpKeyPool kpSize)
    (collides : ¬wallet.Spares context call) :
    ∃ after, wallet.step context now call = .ok (after, none) ∧
      ∃ nIndex ∈ after.setKeyPool, ∃ number, (after.reserveKeys number).nIndex = some nIndex := by
  rw [Spares] at collides
  push Not at collides
  obtain ⟨nIndex, written, number, holds⟩ := collides
  rcases writes with rfl | ⟨kpSize, rfl⟩
  · refine ⟨_, rfl, nIndex, ?_⟩
    rw [newIndexes_newKeyPool] at written
    rw [newKeyPool]
    simp only
    split_ifs at written ⊢
    · exact absurd written (Finset.notMem_empty _)
    · obtain ⟨listed, same⟩ := listed_newKeysLoop context now (nKeys context) { wallet with
        pool := fun nIndex => if nIndex ∈ wallet.setKeyPool then none else wallet.pool nIndex
        setKeyPool := ∅ }
      refine ⟨listed nIndex written, number, ?_⟩
      rw [same]
      exact holds
  · refine ⟨_, rfl, nIndex, ?_⟩
    rw [newIndexes_topUpKeyPool, topUpIndexes] at written
    rw [topUpKeyPool]
    split_ifs at written ⊢
    · exact absurd written (Finset.notMem_empty _)
    · obtain ⟨_, listed, same⟩ := listed_topUpLoop context now wallet
        (Nat.sub_le (nTarget context kpSize) wallet.setKeyPool.card)
      refine ⟨listed nIndex written, number, ?_⟩
      rw [same]
      exact holds

/-- As long as no new key is written under an index that is reserved, every call goes
through, hands out no key that somebody else has, and leaves records for what is in
the pool.  A call that fills the pool over a reserved index lists that index. -/
theorem keyPool_run (context : KeyPoolContext PubKey KeyId) (first : KeyPoolWallet PubKey)
    (loaded : Loaded first) (wallet : KeyPoolWallet PubKey)
    (reached : Reaches context first wallet) :
    (∀ nIndex ∈ wallet.setKeyPool, (∃ keypool, wallet.pool nIndex = some keypool) ∧
      ∀ number, (wallet.reserveKeys number).nIndex ≠ some nIndex) ∧
    (∀ now call, wallet.Spares context call →
      ∃ after handed, wallet.step context now call = .ok (after, handed) ∧
        ∀ key, handed = some key → key ∉ wallet.spent ∧
          ∀ number, call ≠ .getReservedKey number → ¬wallet.Reserves number key) ∧
    ∀ now call, (call = .newKeyPool ∨ ∃ kpSize, call = .topUpKeyPool kpSize) →
      ¬wallet.Spares context call →
      ∃ after, wallet.step context now call = .ok (after, none) ∧
        ∃ nIndex ∈ after.setKeyPool, ∃ number, (after.reserveKeys number).nIndex = some nIndex := by
  have sound := reached.sound loaded
  refine ⟨?_, ?_, fun now call => listed_of_not_spares now⟩
  · intro nIndex listed
    obtain ⟨key, known⟩ := sound.leased.listed nIndex listed
    obtain ⟨keypool, record, _⟩ := Option.map_eq_some_iff.mp known
    exact ⟨⟨keypool, record⟩, fun number holds =>
      sound.leased.notFree number nIndex holds listed⟩
  · intro now call spares
    obtain ⟨after, handed, ran, _, unused⟩ := sound.step now spares
    exact ⟨after, handed, ran, unused⟩

end Calls

theorem le_foldr_max (keys : List Nat) : ∀ key ∈ keys, key ≤ keys.foldr max 0 := by
  induction keys with
  | nil => exact fun _ => nofun
  | cons first keys ih =>
      rintro key (_ | ⟨_, member⟩)
      · exact le_max_left _ _
      · exact (ih key member).trans (le_max_right _ _)

/-- Keys are numbers, and each new one is larger than those before. -/
def countedKeys (keypool : Int) : KeyPoolContext Nat Nat where
  keypool := keypool
  getId := id
  generate := fun keys => keys.foldr max 0 + 1
  fresh := fun keys member => absurd (le_foldr_max keys _ member) (Nat.not_succ_le_self _)

def empty : KeyPoolWallet Nat where
  fLocked := false
  mapKeys := []
  setKeyPool := ∅
  pool := fun _ => none
  reserveKeys := fun _ => .idle
  spent := []

theorem loaded_empty : Loaded empty where
  idle := fun _ => rfl
  listed := fun nIndex listed => absurd listed (Finset.notMem_empty nIndex)
  distinct := nofun
  known := nofun
  unspent := rfl

/-- Two objects reserve keys, and the first one returns its own; a third object can then reserve
that key, which no other holds. -/
theorem keyPool_run_twoReserved :
    ∃ first second third, empty.step (countedKeys 1) 0 (.getReservedKey 0) = .ok (first, some 1) ∧
      first.step (countedKeys 1) 0 (.getReservedKey 1) = .ok (second, some 2) ∧
      second.step (countedKeys 1) 0 (.returnKey 0) = .ok (third, none) ∧
      third.setKeyPool = {1, 3} ∧
      (∀ nIndex ∈ third.setKeyPool, (∃ keypool, third.pool nIndex = some keypool) ∧
        ∀ number, (third.reserveKeys number).nIndex ≠ some nIndex) ∧
      ∃ fourth handed, third.step (countedKeys 1) 0 (.getReservedKey 2) = .ok (fourth, handed) ∧
        ∀ key, handed = some key → ∀ number, number ≠ 2 → ¬third.Reserves number key := by
  obtain ⟨first, second, third, ranFirst, ranSecond, ranThird, listed, written, holds, full⟩ :
      ∃ first second third, empty.step (countedKeys 1) 0 (.getReservedKey 0) = .ok (first, some 1) ∧
        first.step (countedKeys 1) 0 (.getReservedKey 1) = .ok (second, some 2) ∧
        second.step (countedKeys 1) 0 (.returnKey 0) = .ok (third, none) ∧
        third.setKeyPool = {1, 3} ∧
        first.newIndexes (countedKeys 1) (.getReservedKey 1) = {3} ∧
        (∀ number, (first.reserveKeys number).nIndex = if number = 0 then some 1 else none) ∧
        third.newIndexes (countedKeys 1) (.getReservedKey 2) = ∅ :=
    ⟨_, _, _, rfl, rfl, rfl, rfl, rfl, fun number => by cases number <;> rfl, rfl⟩
  have spares : empty.Spares (countedKeys 1) (.getReservedKey 0) := fun _ _ _ => nofun
  have sparesFirst : first.Spares (countedKeys 1) (.getReservedKey 1) := by
    intro nIndex member number
    rw [written, Finset.mem_singleton] at member
    rw [holds, member]
    split <;> simp
  have sparesSecond : second.Spares (countedKeys 1) (.returnKey 0) :=
    fun nIndex member => absurd member (Finset.notMem_empty nIndex)
  have sparesThird : third.Spares (countedKeys 1) (.getReservedKey 2) := by
    intro nIndex member
    rw [full] at member
    exact absurd member (Finset.notMem_empty nIndex)
  have reached := ((Reaches.first.step spares ranFirst).step sparesFirst ranSecond).step
    sparesSecond ranThird
  obtain ⟨records, goes, _⟩ := keyPool_run (countedKeys 1) empty loaded_empty third reached
  obtain ⟨fourth, handed, ran, unused⟩ := goes 0 (.getReservedKey 2) sparesThird
  refine ⟨first, second, third, ranFirst, ranSecond, ranThird, listed, records, fourth, handed, ran,
    fun key isHanded number other => (unused key isHanded).2 number fun same => ?_⟩
  exact other (KeyPoolCall.getReservedKey.inj same).symm

/-- With `-keypool=0`, a second object gets the index of the first one and a new key;
when the first one returns the index, a third object gets that key again. -/
theorem getReservedKey_twice :
    ∃ first second third fourth key,
      empty.step (countedKeys 0) 0 (.getReservedKey 0) = .ok (first, some 1) ∧
        first.step (countedKeys 0) 0 (.getReservedKey 1) = .ok (second, some key) ∧
        second.step (countedKeys 0) 0 (.returnKey 0) = .ok (third, none) ∧
        third.step (countedKeys 0) 0 (.getReservedKey 2) = .ok (fourth, some key) ∧
        third.Reserves 1 key :=
  ⟨_, _, _, _, _, rfl, rfl, rfl, rfl, nofun, rfl⟩

end KeyPoolWallet

end Lycancoin

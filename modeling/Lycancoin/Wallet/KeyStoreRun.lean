import Lycancoin.Wallet.CryptoKeyStore

namespace Lycancoin

open Std Data

namespace KeyPrimitives

variable (primitives : KeyPrimitives)

structure Valid (key : CKey) : Prop where
  size : key.vch.length = 32
  checked : primitives.check key.vch = true
  verifies : primitives.verifyPubKey key (primitives.getPubKey key) = true

/-- Under the master key `K` every secret is encrypted and comes back, and under no other
one does what was encrypted become a key that goes with its public key. -/
structure MasterKey (K : CKeyingMaterial) : Prop where
  inverts : ∀ secret nIV, ∃ vchCiphertext,
    primitives.encryptSecret K secret nIV = some vchCiphertext ∧
      primitives.decryptSecret K vchCiphertext nIV = some secret
  others : ∀ K', K' ≠ K → ∀ secret (pubkey : CPubKey) vchCiphertext out key,
    primitives.encryptSecret K secret (primitives.hash pubkey) = some vchCiphertext →
    primitives.decryptSecret K' vchCiphertext (primitives.hash pubkey) = some out →
    primitives.setKey out (CPubKey.isCompressed pubkey) = some key →
    primitives.verifyPubKey key pubkey = false

/-- The secret of a key, encrypted under `K`. -/
def crypted (K : CKeyingMaterial) (key : CKey) : List UInt8 :=
  (primitives.encryptSecret K key.vch (primitives.hash (primitives.getPubKey key))).getD []

variable {primitives} {K K' : CKeyingMaterial} {key : CKey}

theorem MasterKey.encryptSecret_eq (master : primitives.MasterKey K) (key : CKey) :
    primitives.encryptSecret K key.vch (primitives.hash (primitives.getPubKey key)) =
      some (primitives.crypted K key) := by
  obtain ⟨vchCiphertext, encrypted, _⟩ :=
    master.inverts key.vch (primitives.hash (primitives.getPubKey key))
  rw [crypted, encrypted]
  rfl

theorem MasterKey.decryptSecret_eq (master : primitives.MasterKey K) (key : CKey) :
    primitives.decryptSecret K (primitives.crypted K key)
        (primitives.hash (primitives.getPubKey key)) = some key.vch := by
  obtain ⟨vchCiphertext, encrypted, decrypted⟩ :=
    master.inverts key.vch (primitives.hash (primitives.getPubKey key))
  rw [crypted, encrypted]
  exact decrypted

theorem MasterKey.length_eq (master : primitives.MasterKey K) :
    K.length = WALLET_CRYPTO_KEY_SIZE := by
  obtain ⟨_, encrypted, _⟩ := master.inverts [] []
  by_contra other
  rw [encryptSecret, if_pos other] at encrypted
  contradiction

theorem Valid.compressed (valid : primitives.Valid key) :
    (primitives.getPubKey key).isCompressed = key.fCompressed := by
  have verifies := valid.verifies
  rw [verifyPubKey, Bool.and_eq_true, beq_iff_eq] at verifies
  exact verifies.1

theorem MasterKey.decryptKey_eq (master : primitives.MasterKey K) (valid : primitives.Valid key) :
    primitives.decryptKey K (primitives.crypted K key) (primitives.getPubKey key) = some key := by
  have set : primitives.setKey key.vch (primitives.getPubKey key).isCompressed = some key := by
    rw [setKey, if_neg (not_not.mpr valid.size), if_pos valid.checked, valid.compressed]
  rw [decryptKey, master.decryptSecret_eq key]
  simp only [set, if_neg (not_not.mpr valid.size), if_pos valid.verifies]

/-- Another master key, of whatever length, gives no key. -/
theorem MasterKey.decryptKey_other (master : primitives.MasterKey K) (different : K' ≠ K)
    (key : CKey) :
    primitives.decryptKey K' (primitives.crypted K key) (primitives.getPubKey key) = none := by
  rw [decryptKey]
  cases decrypted : primitives.decryptSecret K' (primitives.crypted K key)
      (primitives.hash (primitives.getPubKey key)) with
  | none => rfl
  | some out =>
      dsimp only
      by_cases size : out.length ≠ 32
      · rw [if_pos size]
      · rw [if_neg size]
        cases set : primitives.setKey out (primitives.getPubKey key).isCompressed with
        | none => rfl
        | some other =>
            have fails := master.others K' different key.vch (primitives.getPubKey key) _ out other
              (master.encryptSecret_eq key) decrypted set
            simp only [fails]
            rfl

end KeyPrimitives

namespace CCryptoKeyStore

variable {primitives : KeyPrimitives} {K K' : CKeyingMaterial} {store after : CCryptoKeyStore}
  {added : CKeyID → Option CKey} {key : CKey}

def AddedValid (primitives : KeyPrimitives) (added : CKeyID → Option CKey) : Prop :=
  ∀ id key, added id = some key →
    primitives.Valid key ∧ primitives.getID (primitives.getPubKey key) = id

structure Plain (store : CCryptoKeyStore) (added : CKeyID → Option CKey) : Prop where
  fUseCrypto : store.fUseCrypto = false
  mapCryptedKeys : store.mapCryptedKeys = ∅
  vMasterKey : store.vMasterKey = []
  mapKeys : ∀ id : CKeyID, store.mapKeys[id]? = added id

/-- A store that is encrypted under `K`, locked or not. -/
structure Crypted (primitives : KeyPrimitives) (K : CKeyingMaterial) (store : CCryptoKeyStore)
    (added : CKeyID → Option CKey) : Prop where
  fUseCrypto : store.fUseCrypto = true
  mapKeys : store.mapKeys = ∅
  vMasterKey : store.vMasterKey = [] ∨ store.vMasterKey = K
  some_added : ∃ id key, added id = some key
  mapCryptedKeys : ∀ id : CKeyID, store.mapCryptedKeys[id]? =
    (added id).map fun key => (primitives.getPubKey key, primitives.crypted K key)

theorem AddedValid.update (valid : AddedValid primitives added) (fits : primitives.Valid key) :
    AddedValid primitives
      (Function.update added (primitives.getID (primitives.getPubKey key)) (some key)) := by
  intro id other found
  by_cases here : id = primitives.getID (primitives.getPubKey key)
  · subst here
    rw [Function.update_self] at found
    cases found
    exact ⟨fits, rfl⟩
  · rw [Function.update_of_ne here] at found
    exact valid id other found

theorem Plain.add (plain : Plain store added) (primitives : KeyPrimitives) (key : CKey) :
    (store.addKeyPubKey primitives key (primitives.getPubKey key)).1 = true ∧
      Plain (store.addKeyPubKey primitives key (primitives.getPubKey key)).2
        (Function.update added (primitives.getID (primitives.getPubKey key)) (some key)) := by
  have known : store.addKeyPubKey primitives key (primitives.getPubKey key) =
      (true, { store with
        mapKeys := store.mapKeys.insert (primitives.getID (primitives.getPubKey key)) key }) := by
    rw [addKeyPubKey, plain.fUseCrypto]
    rfl
  rw [known]
  refine ⟨rfl, plain.fUseCrypto, plain.mapCryptedKeys, plain.vMasterKey, fun id => ?_⟩
  rw [KeyedBatch.getElem?_insert_eq, plain.mapKeys, Function.update_apply]

theorem setCrypted_of_fUseCrypto (crypted : store.fUseCrypto = true) :
    store.setCrypted = (true, store) := by
  rw [setCrypted, if_pos crypted]

theorem addCryptedKey_of_fUseCrypto (crypted : store.fUseCrypto = true) (vchPubKey : CPubKey)
    (vchCryptedSecret : List UInt8) :
    store.addCryptedKey primitives vchPubKey vchCryptedSecret =
      (true, { store with
        mapCryptedKeys :=
          store.mapCryptedKeys.insert (primitives.getID vchPubKey) (vchPubKey, vchCryptedSecret) }) := by
  rw [addCryptedKey, setCrypted_of_fUseCrypto crypted]

theorem Crypted.locked_iff (crypted : Crypted primitives K store added)
    (master : primitives.MasterKey K) : store.isLocked = true ↔ store.vMasterKey ≠ K := by
  have size := master.length_eq
  rw [isLocked, crypted.fUseCrypto, Bool.true_and, List.isEmpty_iff]
  constructor
  · intro empty same
    rw [← same, empty] at size
    contradiction
  · exact crypted.vMasterKey.resolve_right

theorem addKeyPubKey_of_locked (locked : store.isLocked = true) (key : CKey) (pubkey : CPubKey) :
    store.addKeyPubKey primitives key pubkey = (false, store) := by
  have crypted : store.fUseCrypto = true := by
    rw [isLocked, Bool.and_eq_true] at locked
    exact locked.1
  rw [addKeyPubKey, crypted, if_neg (by decide), if_pos locked]

theorem Crypted.add (crypted : Crypted primitives K store added) (master : primitives.MasterKey K)
    (unlocked : store.isLocked = false) (key : CKey) :
    (store.addKeyPubKey primitives key (primitives.getPubKey key)).1 = true ∧
      Crypted primitives K (store.addKeyPubKey primitives key (primitives.getPubKey key)).2
        (Function.update added (primitives.getID (primitives.getPubKey key)) (some key)) := by
  have same : store.vMasterKey = K := by
    by_contra other
    rw [(crypted.locked_iff master).mpr other] at unlocked
    contradiction
  have encrypted : primitives.encryptSecret store.vMasterKey key.vch
      (primitives.hash (primitives.getPubKey key)) = some (primitives.crypted K key) := by
    rw [same]
    exact master.encryptSecret_eq key
  have known : store.addKeyPubKey primitives key (primitives.getPubKey key) =
      (true, { store with
        mapCryptedKeys := store.mapCryptedKeys.insert
          (primitives.getID (primitives.getPubKey key))
          (primitives.getPubKey key, primitives.crypted K key) }) := by
    rw [addKeyPubKey, if_neg (by rw [crypted.fUseCrypto]; decide),
      if_neg (by rw [unlocked]; decide), encrypted]
    exact addCryptedKey_of_fUseCrypto crypted.fUseCrypto _ _
  rw [known]
  refine ⟨rfl, crypted.fUseCrypto, crypted.mapKeys, crypted.vMasterKey,
    ⟨_, key, Function.update_self ..⟩, fun id => ?_⟩
  rw [KeyedBatch.getElem?_insert_eq, crypted.mapCryptedKeys, Function.update_apply,
    apply_ite (Option.map _)]
  rfl

theorem Crypted.lock (crypted : Crypted primitives K store added) :
    store.lock = (true, { store with vMasterKey := [] }) ∧
      Crypted primitives K store.lock.2 added := by
  have known : store.lock = (true, { store with vMasterKey := [] }) := by
    rw [CCryptoKeyStore.lock, setCrypted_of_fUseCrypto crypted.fUseCrypto]
  refine ⟨known, ?_⟩
  rw [known]
  exact ⟨crypted.fUseCrypto, crypted.mapKeys, .inl rfl, crypted.some_added, crypted.mapCryptedKeys⟩

/-! `Unlock`: the keys decrypt all together or not at all. -/

/-- An entry of `mapCryptedKeys`, encrypted under `K`. -/
def EntryOf (primitives : KeyPrimitives) (K : CKeyingMaterial) (entry : CPubKey × List UInt8) :
    Prop :=
  ∃ key, primitives.Valid key ∧ entry = (primitives.getPubKey key, primitives.crypted K key)

theorem tryKeys_master (master : primitives.MasterKey K) (checked : Bool) :
    ∀ (keyPass : Bool) (entries : List (CPubKey × List UInt8)),
      (∀ entry ∈ entries, EntryOf primitives K entry) → keyPass = true ∨ entries ≠ [] →
      tryKeys primitives K checked keyPass entries = (true, false)
  | keyPass, [], _, passed => by
      rw [tryKeys, passed.resolve_right (not_not.mpr rfl)]
  | keyPass, entry :: rest, all, _ => by
      obtain ⟨first, others⟩ := List.forall_mem_cons.mp all
      obtain ⟨key, valid, rfl⟩ := first
      rw [tryKeys, master.decryptKey_eq valid]
      cases checked with
      | true => rfl
      | false => exact tryKeys_master master false true rest others (.inl rfl)

theorem tryKeys_other (master : primitives.MasterKey K) (different : K' ≠ K) (checked : Bool)
    {entries : List (CPubKey × List UInt8)} (all : ∀ entry ∈ entries, EntryOf primitives K entry)
    (present : entries ≠ []) :
    tryKeys primitives K' checked false entries = (false, true) := by
  cases entries with
  | nil => contradiction
  | cons entry rest =>
      obtain ⟨key, _, rfl⟩ := all entry List.mem_cons_self
      rw [tryKeys, master.decryptKey_other different key]

theorem Crypted.entries (crypted : Crypted primitives K store added)
    (valid : AddedValid primitives added) :
    ∀ entry ∈ store.mapCryptedKeys.toList.map Prod.snd, EntryOf primitives K entry := by
  intro entry listed
  obtain ⟨⟨id, entry⟩, member, rfl⟩ := List.mem_map.mp listed
  rw [ExtTreeMap.mem_toList_iff_getElem?_eq_some, crypted.mapCryptedKeys,
    Option.map_eq_some_iff] at member
  obtain ⟨key, found, same⟩ := member
  exact ⟨key, (valid id key found).1, same.symm⟩

theorem Crypted.entries_ne_nil (crypted : Crypted primitives K store added) :
    store.mapCryptedKeys.toList.map Prod.snd ≠ [] := by
  obtain ⟨id, key, found⟩ := crypted.some_added
  have listed : (id, primitives.getPubKey key, primitives.crypted K key) ∈
      store.mapCryptedKeys.toList := by
    rw [ExtTreeMap.mem_toList_iff_getElem?_eq_some, crypted.mapCryptedKeys, found]
    rfl
  exact List.ne_nil_of_mem (List.mem_map_of_mem listed)

theorem Crypted.unlock_master (crypted : Crypted primitives K store added)
    (valid : AddedValid primitives added) (master : primitives.MasterKey K) :
    store.unlock primitives K =
      some (true, { store with vMasterKey := K, fDecryptionThoroughlyChecked := true }) := by
  rw [unlock, setCrypted_of_fUseCrypto crypted.fUseCrypto]
  simp only [tryKeys_master master _ false _ (crypted.entries valid) (.inr crypted.entries_ne_nil)]
  rfl

theorem Crypted.unlock_other (crypted : Crypted primitives K store added)
    (valid : AddedValid primitives added) (master : primitives.MasterKey K) (different : K' ≠ K) :
    store.unlock primitives K' = some (false, store) := by
  rw [unlock, setCrypted_of_fUseCrypto crypted.fUseCrypto]
  simp only [tryKeys_other master different _ (crypted.entries valid) crypted.entries_ne_nil]
  rfl

/-! `EncryptKeys`: every key changes to its encrypted form. -/

theorem encryptLoop_eq (master : primitives.MasterKey K) :
    ∀ (entries : List (CKeyID × CKey)) (store : CCryptoKeyStore), store.fUseCrypto = true →
      encryptLoop primitives K entries store =
        (true, { store with
          mapCryptedKeys := entries.foldl (fun map entry =>
            map.insert (primitives.getID (primitives.getPubKey entry.2))
              (primitives.getPubKey entry.2, primitives.crypted K entry.2)) store.mapCryptedKeys })
  | [], _, _ => rfl
  | (_, key) :: rest, store, crypted => by
      rw [encryptLoop]
      simp only [master.encryptSecret_eq key, addCryptedKey_of_fUseCrypto crypted]
      exact encryptLoop_eq master rest _ crypted

theorem Plain.encryptKeys_eq (plain : Plain store added) (master : primitives.MasterKey K) :
    store.encryptKeys primitives K =
      (true, { store with
        fUseCrypto := true
        mapKeys := ∅
        mapCryptedKeys := store.mapKeys.toList.foldl (fun map entry =>
          map.insert (primitives.getID (primitives.getPubKey entry.2))
            (primitives.getPubKey entry.2, primitives.crypted K entry.2)) ∅ }) := by
  rw [encryptKeys, plain.fUseCrypto, plain.mapCryptedKeys, encryptLoop_eq master _ _ rfl]
  rfl

theorem Plain.encryptKeys (plain : Plain store added) (valid : AddedValid primitives added)
    (master : primitives.MasterKey K)
    (present : store.mapKeys.isEmpty = false) :
    (store.encryptKeys primitives K).1 = true ∧
      Crypted primitives K (store.encryptKeys primitives K).2 added := by
  rw [plain.encryptKeys_eq master]
  refine ⟨rfl, rfl, rfl, .inl plain.vMasterKey, ?_, fun id => ?_⟩
  · obtain ⟨id, key, found⟩ : ∃ id key, store.mapKeys[id]? = some key := by
      by_contra none
      have empty : store.mapKeys = ∅ := ExtTreeMap.ext_getElem? fun id => by
        rw [ExtTreeMap.getElem?_empty, Option.eq_none_iff_forall_ne_some]
        exact fun key found => none ⟨id, key, found⟩
      rw [empty] at present
      contradiction
    exact ⟨id, key, by rw [← plain.mapKeys, found]⟩
  have listed : ∀ id key, (id, key) ∈ store.mapKeys.toList ↔ added id = some key := by
    intro id key
    rw [ExtTreeMap.mem_toList_iff_getElem?_eq_some, plain.mapKeys]
  rw [KeyedBatch.getElem?_foldl_insert_graph
    (fun entry : CKeyID × CKey => primitives.getID (primitives.getPubKey entry.2)) _ _ _
    (fun id => (added id).map fun key => (primitives.getPubKey key, primitives.crypted K key))]
  · split
    · rfl
    · next absent =>
        cases found : added id with
        | none => simp
        | some key =>
            have member := List.mem_map_of_mem (f := fun entry : CKeyID × CKey =>
              primitives.getID (primitives.getPubKey entry.2)) ((listed id key).mpr found)
            rw [(valid id key found).2] at member
            exact absurd member absent
  · rintro ⟨id, key⟩ member
    have found := (listed id key).mp member
    simp only [(valid id key found).2, found, Option.map_some]

/-! The runs of a store. -/

/-- The stores that calls lead to from the empty one, whether `EncryptKeys` was called, and the
keys that were added with success.  `GetKey` changes nothing. -/
inductive Reaches (primitives : KeyPrimitives) (K : CKeyingMaterial) :
    Bool → CCryptoKeyStore → (CKeyID → Option CKey) → Prop
  | empty : Reaches primitives K false empty fun _ => none
  | addKeyPubKey {encrypted : Bool} {store after : CCryptoKeyStore}
      {added : CKeyID → Option CKey} {key : CKey} :
      Reaches primitives K encrypted store added → primitives.Valid key →
      store.addKeyPubKey primitives key (primitives.getPubKey key) = (true, after) →
      Reaches primitives K encrypted after
        (Function.update added (primitives.getID (primitives.getPubKey key)) (some key))
  | addKeyPubKey_fails {encrypted : Bool} {store after : CCryptoKeyStore}
      {added : CKeyID → Option CKey} {key : CKey} :
      Reaches primitives K encrypted store added → primitives.Valid key →
      store.addKeyPubKey primitives key (primitives.getPubKey key) = (false, after) →
      Reaches primitives K encrypted after added
  | encryptKeys {store after : CCryptoKeyStore} {added : CKeyID → Option CKey} {result : Bool} :
      Reaches primitives K false store added → store.mapKeys.isEmpty = false →
      store.encryptKeys primitives K = (result, after) → Reaches primitives K true after added
  | lock {store after : CCryptoKeyStore} {added : CKeyID → Option CKey} {result : Bool} :
      Reaches primitives K true store added → store.lock = (result, after) →
      Reaches primitives K true after added
  | unlock {store after : CCryptoKeyStore} {added : CKeyID → Option CKey} {result : Bool}
      {K' : CKeyingMaterial} :
      Reaches primitives K true store added →
      store.unlock primitives K' = some (result, after) → Reaches primitives K true after added

/-- A store in the form it has before or after `EncryptKeys`. -/
structure Held (primitives : KeyPrimitives) (K : CKeyingMaterial) (encrypted : Bool)
    (store : CCryptoKeyStore) (added : CKeyID → Option CKey) : Prop where
  valid : AddedValid primitives added
  plain : encrypted = false → Plain store added
  crypted : encrypted = true → Crypted primitives K store added

variable {encrypted result : Bool}

theorem held_empty : Held primitives K false empty fun _ => none where
  valid := nofun
  plain := fun _ => ⟨rfl, rfl, rfl, fun _ => ExtTreeMap.getElem?_empty⟩
  crypted := nofun

theorem Held.addKeyPubKey (held : Held primitives K encrypted store added)
    (master : primitives.MasterKey K) (fits : primitives.Valid key)
    (added_key : store.addKeyPubKey primitives key (primitives.getPubKey key) = (true, after)) :
    Held primitives K encrypted after
      (Function.update added (primitives.getID (primitives.getPubKey key)) (some key)) where
  valid := held.valid.update fits
  plain := by
    intro before
    have kept := ((held.plain before).add primitives key).2
    rwa [added_key] at kept
  crypted := by
    intro since
    have crypted := held.crypted since
    cases locked : store.isLocked with
    | true =>
        rw [addKeyPubKey_of_locked locked] at added_key
        cases added_key
    | false =>
        have kept := (crypted.add master locked key).2
        rwa [added_key] at kept

theorem Held.addKeyPubKey_fails (held : Held primitives K encrypted store added)
    (master : primitives.MasterKey K)
    (failed : store.addKeyPubKey primitives key (primitives.getPubKey key) = (false, after)) :
    after = store := by
  cases locked : store.isLocked with
  | true =>
      rw [addKeyPubKey_of_locked locked] at failed
      exact (Prod.mk.inj failed).2.symm
  | false =>
      have succeeds : (store.addKeyPubKey primitives key (primitives.getPubKey key)).1 = true := by
        cases encrypted with
        | false => exact ((held.plain rfl).add primitives key).1
        | true => exact ((held.crypted rfl).add master locked key).1
      rw [failed] at succeeds
      contradiction

theorem Held.unlock (held : Held primitives K true store added) (master : primitives.MasterKey K)
    (unlocked : store.unlock primitives K' = some (result, after)) :
    Held primitives K true after added := by
  have crypted := held.crypted rfl
  by_cases same : K' = K
  · subst same
    rw [crypted.unlock_master held.valid master] at unlocked
    cases unlocked
    exact ⟨held.valid, nofun, fun _ =>
      ⟨crypted.fUseCrypto, crypted.mapKeys, .inr rfl, crypted.some_added, crypted.mapCryptedKeys⟩⟩
  · rw [crypted.unlock_other held.valid master same] at unlocked
    cases unlocked
    exact held

theorem held_run (master : primitives.MasterKey K)
    (reached : Reaches primitives K encrypted store added) :
    Held primitives K encrypted store added := by
  induction reached with
  | empty => exact held_empty
  | addKeyPubKey _ fits added_key ih => exact ih.addKeyPubKey master fits added_key
  | addKeyPubKey_fails _ _ failed ih =>
      rw [ih.addKeyPubKey_fails master failed]
      exact ih
  | encryptKeys _ present done ih =>
      have kept := ((ih.plain rfl).encryptKeys ih.valid master present).2
      rw [done] at kept
      exact ⟨ih.valid, nofun, fun _ => kept⟩
  | lock _ done ih =>
      have kept := (ih.crypted rfl).lock.2
      rw [done] at kept
      exact ⟨ih.valid, nofun, fun _ => kept⟩
  | unlock _ done ih => exact ih.unlock master done

/-! What a store answers. -/

theorem Held.disjoint (held : Held primitives K encrypted store added) :
    store.mapKeys = ∅ ∨ store.mapCryptedKeys = ∅ := by
  cases encrypted with
  | false => exact .inr (held.plain rfl).mapCryptedKeys
  | true => exact .inl (held.crypted rfl).mapKeys

theorem Held.haveKey_iff (held : Held primitives K encrypted store added) (id : CKeyID) :
    store.haveKey id = true ↔ ∃ key, added id = some key := by
  rw [← Option.isSome_iff_exists]
  cases encrypted with
  | false =>
      have plain := held.plain rfl
      rw [haveKey, plain.fUseCrypto, ← plain.mapKeys, ExtTreeMap.isSome_getElem?_eq_contains]
      rfl
  | true =>
      have crypted := held.crypted rfl
      rw [haveKey, crypted.fUseCrypto, ← Option.isSome_map, ← crypted.mapCryptedKeys,
        ExtTreeMap.isSome_getElem?_eq_contains]
      rfl

theorem Held.getKey_eq (held : Held primitives K encrypted store added)
    (master : primitives.MasterKey K) {id : CKeyID} (found : added id = some key) :
    store.getKey primitives id = if store.isLocked then none else some key := by
  cases encrypted with
  | false =>
      have plain := held.plain rfl
      rw [getKey, isLocked, plain.fUseCrypto]
      exact (plain.mapKeys id).trans found
  | true =>
      have crypted := held.crypted rfl
      rw [getKey, if_neg (by rw [crypted.fUseCrypto]; decide), crypted.mapCryptedKeys, found]
      dsimp only [Option.map_some]
      by_cases same : store.vMasterKey = K
      · rw [if_neg (by rwa [crypted.locked_iff master, not_not]), same]
        exact master.decryptKey_eq (held.valid id key found).1
      · rw [if_pos ((crypted.locked_iff master).mpr same)]
        exact master.decryptKey_other same key

theorem Held.getKey_iff (held : Held primitives K encrypted store added)
    (master : primitives.MasterKey K) {id : CKeyID} (found : added id = some key) :
    store.getKey primitives id = some key ↔ encrypted = false ∨ store.isLocked = false := by
  have plain_unlocked : encrypted = false → store.isLocked = false := by
    intro before
    rw [isLocked, (held.plain before).fUseCrypto]
    rfl
  rw [held.getKey_eq master found, or_iff_right_of_imp plain_unlocked]
  cases store.isLocked <;> simp

/-- In every run that encrypts the keys once under `K`, no key is lost and no key is had from
a locked store. -/
theorem keyStore_run (master : primitives.MasterKey K)
    (reached : Reaches primitives K encrypted store added) :
    (store.mapKeys = ∅ ∨ store.mapCryptedKeys = ∅) ∧
      (∀ id, store.haveKey id = true ↔ ∃ key, added id = some key) ∧
      (∀ id key, added id = some key →
        (store.getKey primitives id = some key ↔ encrypted = false ∨ store.isLocked = false)) ∧
      (encrypted = true → ∀ K', ∃ result after,
        store.unlock primitives K' = some (result, after) ∧ (result = true ↔ K' = K) ∧
          (result = true → after.isLocked = false) ∧ (result = false → after = store)) ∧
      (store.isLocked = true → ∀ key pubkey,
        store.addKeyPubKey primitives key pubkey = (false, store)) := by
  have held := held_run master reached
  refine ⟨held.disjoint, held.haveKey_iff, fun id key found => held.getKey_iff master found,
    fun since K' => ?_, addKeyPubKey_of_locked⟩
  subst since
  have crypted := held.crypted rfl
  by_cases same : K' = K
  · subst same
    have opened := crypted.unlock_master held.valid master
    have unlocked := (held.unlock master opened).crypted rfl
    refine ⟨_, _, opened, iff_of_true rfl rfl, fun _ => ?_, nofun⟩
    rw [← Bool.not_eq_true, unlocked.locked_iff master, not_not]
  · exact ⟨_, _, crypted.unlock_other held.valid master same, iff_of_false nofun same, nofun,
      fun _ => rfl⟩

end CCryptoKeyStore

/-- A cipher that puts the key before the text, and keys that sign for their own text. -/
def samplePrimitives : KeyPrimitives where
  encrypt := fun key _ text => some (key ++ text)
  decrypt := fun key _ text =>
    if text.take WALLET_CRYPTO_KEY_SIZE = key then some (text.drop WALLET_CRYPTO_KEY_SIZE)
    else none
  hash := id
  hash160 := id
  check := fun _ => true
  getPubKey := fun key => if key.fCompressed then 2 :: key.vch else 4 :: key.vch ++ key.vch
  signsFor := fun key pubkey =>
    pubkey == if key.fCompressed then 2 :: key.vch else 4 :: key.vch ++ key.vch

theorem samplePrimitives_masterKey (K : CKeyingMaterial) (size : K.length = WALLET_CRYPTO_KEY_SIZE) :
    samplePrimitives.MasterKey K where
  inverts := by
    intro secret nIV
    refine ⟨K ++ secret, if_neg (not_not.mpr size), ?_⟩
    rw [KeyPrimitives.decryptSecret, if_neg (not_not.mpr size)]
    simp [samplePrimitives, ← size]
  others := by
    intro K' different secret pubkey vchCiphertext out key encrypted decrypted
    rw [KeyPrimitives.encryptSecret, if_neg (not_not.mpr size)] at encrypted
    cases encrypted
    rw [KeyPrimitives.decryptSecret] at decrypted
    split at decrypted
    · contradiction
    · simp [samplePrimitives, ← size, different.symm] at decrypted

def sampleKey : CKey := { vch := List.replicate 32 7, fCompressed := true }

theorem samplePrimitives_valid : samplePrimitives.Valid sampleKey where
  size := rfl
  checked := rfl
  verifies := by decide

namespace CCryptoKeyStore

/-- A key that was added comes back after the store was encrypted and unlocked. -/
theorem keyStore_run_unlocked :
    ∃ store : CCryptoKeyStore, store.isLocked = false ∧
      store.getKey samplePrimitives (samplePrimitives.getPubKey sampleKey) = some sampleKey ∧
      ∃ result after, store.unlock samplePrimitives [] = some (result, after) ∧
        (result = true ↔ ([] : CKeyingMaterial) = List.replicate 32 1) := by
  have master := samplePrimitives_masterKey (List.replicate 32 1) rfl
  have added := Reaches.addKeyPubKey (K := List.replicate 32 1) .empty samplePrimitives_valid rfl
  have encrypted := added.encryptKeys (by decide) rfl
  have crypted := (held_run master encrypted).crypted rfl
  have opened := crypted.unlock_master (held_run master encrypted).valid master
  have unlocked : Reaches samplePrimitives (List.replicate 32 1) true _ _ :=
    encrypted.unlock opened
  obtain ⟨_, _, found, tries, _⟩ := keyStore_run master unlocked
  refine ⟨_, rfl, (found _ sampleKey (Function.update_self ..)).mpr (.inr rfl), ?_⟩
  obtain ⟨result, after, ran, iff, _⟩ := tries rfl []
  exact ⟨result, after, ran, iff⟩

end CCryptoKeyStore

end Lycancoin

import Lycancoin.Data.StepRuns
import Lycancoin.Wallet.KeyStoreRun
import Lycancoin.Wallet.WalletPassphrase

namespace Lycancoin

open Std Data

namespace PassphrasePrimitives

/-- The record of the master key `K` opens under what it was encrypted with, and under anything
else gives nothing or another key. -/
structure Ideal (primitives : PassphrasePrimitives) (K : CKeyingMaterial) : Prop where
  master : primitives.toKeyPrimitives.MasterKey K
  opens : ∀ salt data rounds, ∃ vchCiphertext,
    primitives.encrypt (primitives.bytesToKey salt data rounds).1
      (primitives.bytesToKey salt data rounds).2 K = some vchCiphertext ∧
    primitives.decrypt (primitives.bytesToKey salt data rounds).1
      (primitives.bytesToKey salt data rounds).2 vchCiphertext = some K
  others : ∀ salt data rounds salt' data' rounds' vchCiphertext K',
    (salt', data', rounds') ≠ (salt, data, rounds) →
    primitives.encrypt (primitives.bytesToKey salt data rounds).1
      (primitives.bytesToKey salt data rounds).2 K = some vchCiphertext →
    primitives.decrypt (primitives.bytesToKey salt' data' rounds').1
      (primitives.bytesToKey salt' data' rounds').2 vchCiphertext = some K' → K' ≠ K

end PassphrasePrimitives

namespace CMasterKey

variable (primitives : PassphrasePrimitives) (K : CKeyingMaterial)

/-- What the record gives under a passphrase, when nothing fails. -/
def openWith (strWalletPassphrase : SecureString) (kMasterKey : CMasterKey) :
    Option CKeyingMaterial :=
  match kMasterKey.setKey primitives true strWalletPassphrase .new with
  | (false, _) => none
  | (true, crypter) => crypter.decrypt primitives kMasterKey.vchCryptedKey

/-- The record can be used for a derivation. -/
structure Usable (kMasterKey : CMasterKey) : Prop where
  salt : kMasterKey.vchSalt.length = WALLET_CRYPTO_SALT_SIZE
  method : kMasterKey.nDerivationMethod = 0
  rounds : ¬ kMasterKey.nDeriveIterations < 1

/-- The record holds the master key encrypted under the passphrase. -/
structure Sealed (strWalletPassphrase : SecureString) (kMasterKey : CMasterKey) : Prop
    extends Usable kMasterKey where
  crypted : primitives.encrypt
    (primitives.bytesToKey kMasterKey.vchSalt strWalletPassphrase kMasterKey.nDeriveIterations).1
    (primitives.bytesToKey kMasterKey.vchSalt strWalletPassphrase kMasterKey.nDeriveIterations).2 K =
      some kMasterKey.vchCryptedKey

variable {primitives K} {kMasterKey : CMasterKey} {passphrase other : SecureString}
  {crypter : CCrypter}

def keyFrom (primitives : PassphrasePrimitives) (passphrase : SecureString)
    (kMasterKey : CMasterKey) : CCrypter where
  chKey :=
    (primitives.bytesToKey kMasterKey.vchSalt passphrase kMasterKey.nDeriveIterations).1
  chIV := (primitives.bytesToKey kMasterKey.vchSalt passphrase kMasterKey.nDeriveIterations).2
  fKeySet := true

theorem Usable.setKey_true (usable : kMasterKey.Usable) (primitives : PassphrasePrimitives)
    (passphrase : SecureString) (crypter : CCrypter) :
    kMasterKey.setKey primitives true passphrase crypter =
      (true, kMasterKey.keyFrom primitives passphrase) := by
  simp [setKey, CCrypter.setKeyFromPassphrase, usable.rounds, usable.salt, usable.method, keyFrom]

theorem Usable.setKey_false (usable : kMasterKey.Usable) (primitives : PassphrasePrimitives)
    (passphrase : SecureString) (crypter : CCrypter) :
    (kMasterKey.setKey primitives false passphrase crypter).1 = false := by
  simp [setKey, CCrypter.setKeyFromPassphrase, usable.rounds, usable.salt]

theorem Sealed.decrypt (sealed : kMasterKey.Sealed primitives K passphrase)
    (ideal : primitives.Ideal K) :
    (kMasterKey.keyFrom primitives passphrase).decrypt primitives kMasterKey.vchCryptedKey =
      some K := by
  obtain ⟨vchCiphertext, encrypted, decrypted⟩ :=
    ideal.opens kMasterKey.vchSalt passphrase kMasterKey.nDeriveIterations
  rw [sealed.crypted] at encrypted
  cases encrypted
  simpa [CCrypter.decrypt, keyFrom] using decrypted

theorem Sealed.decrypt_other (sealed : kMasterKey.Sealed primitives K passphrase)
    (ideal : primitives.Ideal K) (different : other ≠ passphrase) {K' : CKeyingMaterial}
    (decrypted : (kMasterKey.keyFrom primitives other).decrypt primitives
      kMasterKey.vchCryptedKey = some K') : K' ≠ K := by
  refine ideal.others kMasterKey.vchSalt passphrase kMasterKey.nDeriveIterations
    kMasterKey.vchSalt other kMasterKey.nDeriveIterations kMasterKey.vchCryptedKey K' ?_
    sealed.crypted ?_
  · simp [different]
  · simpa [CCrypter.decrypt, keyFrom] using decrypted

theorem Sealed.openWith (sealed : kMasterKey.Sealed primitives K passphrase)
    (ideal : primitives.Ideal K) : kMasterKey.openWith primitives passphrase = some K := by
  simp only [CMasterKey.openWith, sealed.toUsable.setKey_true, sealed.decrypt ideal]

theorem calibrate_rounds (nElapsed : Int) (n : UInt32) :
    ¬ calibrate primitives nElapsed n < 1 := by
  simp only [calibrate]
  split
  · decide
  · next enough =>
      intro less
      exact enough (lt_trans less (by decide))

end CMasterKey

namespace CCryptoKeyStore

variable {primitives : KeyPrimitives} {K : CKeyingMaterial} {store : CCryptoKeyStore}
  {added : CKeyID → Option CKey}

theorem Held.lock (held : Held primitives K true store added) :
    store.lock = (true, { store with vMasterKey := [] }) ∧
      Held primitives K true { store with vMasterKey := [] } added := by
  obtain ⟨locked, kept⟩ := (held.crypted rfl).lock
  rw [locked] at kept
  exact ⟨locked, held.valid, nofun, fun _ => kept⟩

theorem Held.opened (held : Held primitives K true store added)
    (master : primitives.MasterKey K) :
    store.unlock primitives K =
      some (true, { store with vMasterKey := K, fDecryptionThoroughlyChecked := true }) ∧
      Held primitives K true
        { store with vMasterKey := K, fDecryptionThoroughlyChecked := true } added := by
  have opens := (held.crypted rfl).unlock_master held.valid master
  exact ⟨opens, held.unlock master opens⟩

end CCryptoKeyStore

namespace PassphraseWallet

variable {primitives : PassphrasePrimitives} {K : CKeyingMaterial} {wallet next : PassphraseWallet}
  {passphrase other : SecureString} {id : UInt32} {kMasterKey : CMasterKey}

/-- The wallet as `EncryptWallet` and later calls leave it: the master key `K` under the
passphrase, in one record. -/
structure Intact (primitives : PassphrasePrimitives) (K : CKeyingMaterial)
    (passphrase : SecureString) (id : UInt32) (kMasterKey : CMasterKey)
    (wallet : PassphraseWallet) : Prop where
  held : ∃ added,
    CCryptoKeyStore.Held primitives.toKeyPrimitives K true wallet.store added
  mapMasterKeys : wallet.mapMasterKeys = (∅ : ExtTreeMap UInt32 CMasterKey).insert id kMasterKey
  records : wallet.records = (∅ : ExtTreeMap UInt32 CMasterKey).insert id kMasterKey
  sealed : kMasterKey.Sealed primitives K passphrase

def opened (K : CKeyingMaterial) (wallet : PassphraseWallet) : PassphraseWallet :=
  { wallet with
    store := { wallet.store with vMasterKey := K, fDecryptionThoroughlyChecked := true } }

def shut (wallet : PassphraseWallet) : PassphraseWallet :=
  { wallet with store := { wallet.store with vMasterKey := [] } }

theorem Intact.lock (intact : Intact primitives K passphrase id kMasterKey wallet) :
    wallet.lock = (true, wallet.shut) ∧
      Intact primitives K passphrase id kMasterKey wallet.shut := by
  obtain ⟨added, held⟩ := intact.held
  obtain ⟨locked, kept⟩ := held.lock
  refine ⟨?_, ⟨added, kept⟩, intact.mapMasterKeys, intact.records, intact.sealed⟩
  simp only [PassphraseWallet.lock, locked, shut]

theorem Intact.opened (intact : Intact primitives K passphrase id kMasterKey wallet)
    (ideal : primitives.Ideal K) :
    Intact primitives K passphrase id kMasterKey (wallet.opened K) := by
  obtain ⟨added, held⟩ := intact.held
  exact ⟨⟨added, (held.opened ideal.master).2⟩, intact.mapMasterKeys, intact.records,
    intact.sealed⟩

theorem Intact.toList (intact : Intact primitives K passphrase id kMasterKey wallet) :
    wallet.mapMasterKeys.toList = [(id, kMasterKey)] :=
  (KeyedBatch.toList_eq_singleton_iff _ _ _).2 intact.mapMasterKeys

/-- A passphrase opens the record just when it is the one that the record was encrypted under. -/
theorem Intact.unlock_eq (intact : Intact primitives K passphrase id kMasterKey wallet)
    (ideal : primitives.Ideal K) (fDerived : UInt32 → Bool) :
    wallet.unlock primitives other fDerived =
      some (if wallet.store.isLocked = true ∧ fDerived id = true ∧ other = passphrase then
        (true, wallet.opened K) else (false, wallet)) := by
  obtain ⟨added, held⟩ := intact.held
  simp only [unlock, intact.toList]
  cases locked : wallet.store.isLocked with
  | false => simp
  | true =>
      simp only [unlockLoop]
      cases derived : fDerived id with
      | false =>
          have failed := intact.sealed.toUsable.setKey_false primitives other .new
          generalize kMasterKey.setKey primitives false other .new = result at failed
          obtain ⟨_, crypter⟩ := result
          cases failed
          simp
      | true =>
          simp only [intact.sealed.toUsable.setKey_true]
          by_cases same : other = passphrase
          · subst same
            simp only [intact.sealed.decrypt ideal, (held.opened ideal.master).1]
            simp [PassphraseWallet.opened]
          · cases decrypted : (kMasterKey.keyFrom primitives other).decrypt primitives
                kMasterKey.vchCryptedKey with
            | none => simp [same]
            | some K' =>
                have different := intact.sealed.decrypt_other ideal same decrypted
                have refused := (held.crypted rfl).unlock_other held.valid ideal.master different
                simp [refused, same]

theorem Intact.change_eq (intact : Intact primitives K passphrase id kMasterKey wallet)
    (ideal : primitives.Ideal K) (new : SecureString) (run : ChangeRun) :
    wallet.changeWalletPassphrase primitives other new run =
      some (if run.fOld id = true ∧ other = passphrase then
        reencrypt primitives new run wallet.store.isLocked id kMasterKey K
          (kMasterKey.keyFrom primitives passphrase) (wallet.shut.opened K)
      else (false, wallet.shut)) := by
  obtain ⟨locked, intact⟩ := intact.lock
  obtain ⟨added, held⟩ := intact.held
  simp only [changeWalletPassphrase, locked]
  rw [show wallet.mapMasterKeys.toList = _ from intact.toList]
  simp only [changeLoop]
  cases derived : run.fOld id with
  | false =>
      have failed := intact.sealed.toUsable.setKey_false primitives other .new
      generalize kMasterKey.setKey primitives false other .new = result at failed
      obtain ⟨_, crypter⟩ := result
      cases failed
      simp
  | true =>
      simp only [intact.sealed.toUsable.setKey_true]
      by_cases same : other = passphrase
      · subst same
        simp only [intact.sealed.decrypt ideal, (held.opened ideal.master).1]
        simp [PassphraseWallet.opened]
      · cases decrypted : (kMasterKey.keyFrom primitives other).decrypt primitives
            kMasterKey.vchCryptedKey with
        | none => simp [same]
        | some K' =>
            have different := intact.sealed.decrypt_other ideal same decrypted
            have refused := (held.crypted rfl).unlock_other held.valid ideal.master different
            simp [refused, same]

def recalibrated (primitives : PassphrasePrimitives) (run : ChangeRun) (kMasterKey : CMasterKey) :
    CMasterKey :=
  { kMasterKey with
    nDeriveIterations :=
      CMasterKey.recalibrate primitives run.nElapsed run.nElapsed' kMasterKey.nDeriveIterations }

theorem recalibrated_usable (primitives : PassphrasePrimitives) (usable : kMasterKey.Usable)
    (run : ChangeRun) :
    (recalibrated primitives run kMasterKey).Usable :=
  ⟨usable.salt, usable.method, CMasterKey.calibrate_rounds _ _⟩

theorem reencrypt_fails (usable : kMasterKey.Usable) {run : ChangeRun} (failed : run.fNew = false)
    (new : SecureString) (fWasLocked : Bool) (crypter : CCrypter) :
    reencrypt primitives new run fWasLocked id kMasterKey K crypter wallet =
      (false, { wallet with
        mapMasterKeys := wallet.mapMasterKeys.insert id (recalibrated primitives run kMasterKey) }) := by
  have refused := (recalibrated_usable primitives usable run).setKey_false primitives new
  simp only [recalibrated] at refused
  simp only [reencrypt, failed]
  split
  · rfl
  · next derived =>
      have contradicted := congrArg Prod.fst derived
      rw [refused] at contradicted
      contradiction

theorem Intact.reencrypt (intact : Intact primitives K passphrase id kMasterKey wallet)
    (ideal : primitives.Ideal K) {run : ChangeRun} (derived : run.fNew = true) (new : SecureString)
    (fWasLocked : Bool) (crypter : CCrypter) :
    ∃ kMasterKey' next,
      PassphraseWallet.reencrypt primitives new run fWasLocked id kMasterKey K crypter wallet =
        (true, next) ∧
      Intact primitives K new id kMasterKey' next := by
  have usable := recalibrated_usable primitives intact.sealed.toUsable run
  have keyed := usable.setKey_true primitives new
  obtain ⟨vchCryptedKey, encrypted, -⟩ := ideal.opens kMasterKey.vchSalt new
    (recalibrated primitives run kMasterKey).nDeriveIterations
  have ciphertext : ((recalibrated primitives run kMasterKey).keyFrom primitives new).encrypt
      primitives K = some vchCryptedKey := by
    simpa [CCrypter.encrypt, CMasterKey.keyFrom, recalibrated] using encrypted
  have twice : ∀ (first second : CMasterKey),
      ((∅ : ExtTreeMap UInt32 CMasterKey).insert id first).insert id second =
        (∅ : ExtTreeMap UInt32 CMasterKey).insert id second := by
    intro first second
    apply ExtTreeMap.ext_getElem?
    intro place
    simp only [KeyedBatch.getElem?_insert_eq]
    split <;> rfl
  let kMasterKey' := { recalibrated primitives run kMasterKey with vchCryptedKey }
  let written : PassphraseWallet := { wallet with
    mapMasterKeys := (wallet.mapMasterKeys.insert id
      (recalibrated primitives run kMasterKey)).insert id kMasterKey'
    records := wallet.records.insert id kMasterKey' }
  have kept : Intact primitives K new id kMasterKey' written := by
    refine ⟨intact.held, ?_, ?_, ⟨usable.salt, usable.method, usable.rounds⟩, encrypted⟩
    · simp only [written, intact.mapMasterKeys, twice]
    · simp only [written, intact.records, twice]
  refine ⟨kMasterKey', if fWasLocked then written.lock.2 else written, ?_, ?_⟩
  · simp only [recalibrated] at keyed ciphertext
    simp only [PassphraseWallet.reencrypt, derived, keyed, ciphertext]
    rfl
  · cases fWasLocked with
    | false => exact kept
    | true =>
        obtain ⟨locked, shut⟩ := kept.lock
        simpa only [if_true, locked] using shut

/-! The calls of a user, with the passphrase that opens the wallet. -/

/-- A wallet and its current passphrase. -/
structure State where
  wallet : PassphraseWallet
  passphrase : SecureString

def Call.passphraseAfter : Call → Bool → SecureString → SecureString
  | .changeWalletPassphrase _ new _, true, _ => new
  | _, _, passphrase => passphrase

def step (primitives : PassphrasePrimitives) (state : State) (call : Call) : Option State :=
  (state.wallet.call primitives call).map fun result =>
    { wallet := result.2, passphrase := call.passphraseAfter result.1 state.passphrase }

/-- The record in the file gives the master key under the passphrase. -/
def Opens (primitives : PassphrasePrimitives) (K : CKeyingMaterial) (passphrase : SecureString)
    (wallet : PassphraseWallet) : Prop :=
  ∃ id kMasterKey, wallet.records.toList = [(id, kMasterKey)] ∧
    kMasterKey.openWith primitives passphrase = some K

structure Obeys (primitives : PassphrasePrimitives) (K : CKeyingMaterial) (state : State)
    (call : Call) (result : Bool × PassphraseWallet) : Prop where
  unlocks : ∀ passphrase fDerived, call = .unlock passphrase fDerived →
    ((result.1 = true ↔ state.wallet.store.isLocked = true ∧
      (∀ (id : UInt32) (kMasterKey : CMasterKey),
        state.wallet.mapMasterKeys[id]? = some kMasterKey → fDerived id = true) ∧
      passphrase = state.passphrase) ∧
    (result.1 = true → result.2.store.vMasterKey = K))
  master : result.2.store.vMasterKey = [] ∨ result.2.store.vMasterKey = K
  opens : result.2.Opens primitives K (call.passphraseAfter result.1 state.passphrase)
  unchanged : ∀ old new run, call = .changeWalletPassphrase old new run → result.1 = false →
    result.2.store.isLocked = state.wallet.store.isLocked ∧
      result.2.mapMasterKeys = state.wallet.mapMasterKeys ∧
      result.2.records = state.wallet.records

/-- The call comes to an end and does what it may. -/
def Lawful (primitives : PassphrasePrimitives) (K : CKeyingMaterial) (state : State)
    (call : Call) : Prop :=
  ∃ result, state.wallet.call primitives call = some result ∧ Obeys primitives K state call result

/-- A change of the passphrase succeeds, or is refused while the wallet is locked, or fails on an
unlocked wallet when the recalibration changes nothing. -/
def ChangesSafely (primitives : PassphrasePrimitives) (state : State) (call : Call) : Prop :=
  ∀ old new run, call = .changeWalletPassphrase old new run →
    ∀ (id : UInt32) (kMasterKey : CMasterKey),
      state.wallet.mapMasterKeys[id]? = some kMasterKey →
        (old = state.passphrase ∧ run.fOld id = true ∧ run.fNew = true) ∨
        (state.wallet.store.isLocked = true ∧
          (old ≠ state.passphrase ∨ run.fOld id = false)) ∨
        (state.wallet.store.isLocked = false ∧ old = state.passphrase ∧ run.fOld id = true ∧
          run.fNew = false ∧
          CMasterKey.recalibrate primitives run.nElapsed run.nElapsed'
            kMasterKey.nDeriveIterations = kMasterKey.nDeriveIterations)

theorem Intact.lookup (intact : Intact primitives K passphrase id kMasterKey wallet)
    {place : UInt32} {found : CMasterKey} :
    wallet.mapMasterKeys[place]? = some found ↔ place = id ∧ found = kMasterKey := by
  rw [intact.mapMasterKeys, KeyedBatch.getElem?_insert_eq]
  by_cases here : place = id
  · simp [here, eq_comm]
  · simp [here]

theorem Intact.opens (intact : Intact primitives K passphrase id kMasterKey wallet)
    (ideal : primitives.Ideal K) : wallet.Opens primitives K passphrase :=
  ⟨id, kMasterKey, (KeyedBatch.toList_eq_singleton_iff _ _ _).2 intact.records,
    intact.sealed.openWith ideal⟩

theorem Intact.vMasterKey (intact : Intact primitives K passphrase id kMasterKey wallet) :
    wallet.store.vMasterKey = [] ∨ wallet.store.vMasterKey = K := by
  obtain ⟨added, held⟩ := intact.held
  exact (held.crypted rfl).vMasterKey

theorem Intact.locked_iff (intact : Intact primitives K passphrase id kMasterKey wallet)
    (ideal : primitives.Ideal K) :
    wallet.store.isLocked = true ↔ wallet.store.vMasterKey ≠ K := by
  obtain ⟨added, held⟩ := intact.held
  exact (held.crypted rfl).locked_iff ideal.master

theorem Intact.shut_locked (intact : Intact primitives K passphrase id kMasterKey wallet)
    (ideal : primitives.Ideal K) : wallet.shut.store.isLocked = true := by
  rw [intact.lock.2.locked_iff ideal]
  intro same
  have size := ideal.master.length_eq
  rw [← same] at size
  contradiction

theorem Intact.opened_unlocked (intact : Intact primitives K passphrase id kMasterKey wallet)
    (ideal : primitives.Ideal K) : (wallet.opened K).store.isLocked = false := by
  rw [← Bool.not_eq_true, (intact.opened ideal).locked_iff ideal, not_not]
  rfl

theorem Intact.insert_same (intact : Intact primitives K passphrase id kMasterKey wallet) :
    wallet.mapMasterKeys.insert id kMasterKey = wallet.mapMasterKeys := by
  apply ExtTreeMap.ext_getElem?
  intro place
  rw [KeyedBatch.getElem?_insert_eq]
  split
  · next here => rw [intact.lookup.2 ⟨here, rfl⟩]
  · rfl

variable {state next : State} {call : Call}

/-- A call that changes nothing but what it may obeys, and the wallet stays intact. -/
theorem Intact.unlock_lawful
    (intact : Intact primitives K state.passphrase id kMasterKey state.wallet)
    (ideal : primitives.Ideal K) (other : SecureString) (fDerived : UInt32 → Bool) :
    ∃ result, state.wallet.call primitives (.unlock other fDerived) = some result ∧
      Obeys primitives K state (.unlock other fDerived) result ∧
      Intact primitives K state.passphrase id kMasterKey result.2 := by
  refine ⟨_, intact.unlock_eq ideal fDerived, ?_, ?_⟩
  · split
    case isTrue opening =>
      refine ⟨?_, .inr rfl, (intact.opened ideal).opens ideal, nofun⟩
      rintro _ _ ⟨⟩
      refine ⟨iff_of_true rfl ⟨opening.1, ?_, opening.2.2⟩, fun _ => rfl⟩
      intro place found lookup
      rw [(intact.lookup.1 lookup).1]
      exact opening.2.1
    case isFalse refused =>
      refine ⟨?_, intact.vMasterKey, intact.opens ideal, nofun⟩
      rintro _ _ ⟨⟩
      refine ⟨iff_of_false Bool.false_ne_true ?_, nofun⟩
      rintro ⟨locked, derived, same⟩
      exact refused ⟨locked, derived id kMasterKey (intact.lookup.2 ⟨rfl, rfl⟩), same⟩
  · split
    case isTrue => exact intact.opened ideal
    case isFalse => exact intact

theorem Intact.change_lawful
    (intact : Intact primitives K state.passphrase id kMasterKey state.wallet)
    (ideal : primitives.Ideal K) (old new : SecureString) (run : ChangeRun) :
    ∃ result, state.wallet.call primitives (.changeWalletPassphrase old new run) = some result ∧
      (Obeys primitives K state (.changeWalletPassphrase old new run) result ↔
        ChangesSafely primitives state (.changeWalletPassphrase old new run)) ∧
      (ChangesSafely primitives state (.changeWalletPassphrase old new run) →
        ∃ kMasterKey', Intact primitives K
          (Call.passphraseAfter (.changeWalletPassphrase old new run) result.1 state.passphrase) id
          kMasterKey' result.2) := by
  have safely : ChangesSafely primitives state (.changeWalletPassphrase old new run) ↔
      (old = state.passphrase ∧ run.fOld id = true ∧ run.fNew = true) ∨
        (state.wallet.store.isLocked = true ∧
          (old ≠ state.passphrase ∨ run.fOld id = false)) ∨
        (state.wallet.store.isLocked = false ∧ old = state.passphrase ∧ run.fOld id = true ∧
          run.fNew = false ∧
          CMasterKey.recalibrate primitives run.nElapsed run.nElapsed'
            kMasterKey.nDeriveIterations = kMasterKey.nDeriveIterations) := by
    constructor
    · intro safe
      exact safe old new run rfl id kMasterKey (intact.lookup.2 ⟨rfl, rfl⟩)
    · rintro one _ _ _ ⟨⟩ place found lookup
      obtain ⟨rfl, rfl⟩ := intact.lookup.1 lookup
      exact one
  refine ⟨_, intact.change_eq ideal new run, ?_⟩
  rw [safely]
  by_cases opening : run.fOld id = true ∧ old = state.passphrase
  · rw [if_pos opening]
    cases derived : run.fNew with
    | true =>
        obtain ⟨kMasterKey', next, ran, kept⟩ := (intact.lock.2.opened ideal).reencrypt ideal derived
          new state.wallet.store.isLocked (kMasterKey.keyFrom primitives state.passphrase)
        rw [ran]
        refine ⟨iff_of_true ⟨nofun, kept.vMasterKey, kept.opens ideal, ?_⟩ ?_, ?_⟩
        · rintro _ _ _ - ⟨⟩
        · exact .inl ⟨opening.2, opening.1, rfl⟩
        · exact fun _ => ⟨kMasterKey', kept⟩
    | false =>
        have failed := @reencrypt_fails primitives K (state.wallet.shut.opened K) id kMasterKey
          intact.sealed.toUsable run derived new state.wallet.store.isLocked
          (kMasterKey.keyFrom primitives state.passphrase)
        have unlocked := intact.lock.2.opened_unlocked ideal
        rw [failed]
        constructor
        · constructor
          · intro obeys
            obtain ⟨locked, kept, -⟩ := obeys.unchanged _ _ _ rfl rfl
            have same : recalibrated primitives run kMasterKey = kMasterKey := by
              have found := intact.lookup.2 ⟨rfl, rfl⟩
              rw [← kept] at found
              exact Option.some.inj (ExtTreeMap.getElem?_insert_self.symm.trans found)
            exact .inr (.inr ⟨locked.symm.trans unlocked, opening.2, opening.1, rfl,
              congrArg CMasterKey.nDeriveIterations same⟩)
          · rintro (⟨-, -, contradicted⟩ | ⟨-, wrong | wrong⟩ | ⟨open', -, -, -, same⟩)
            · contradiction
            · exact absurd opening.2 wrong
            · exact absurd opening.1 (by simp [wrong])
            · refine ⟨nofun, .inr rfl, (intact.lock.2.opened ideal).opens ideal, ?_⟩
              rintro _ _ _ ⟨⟩ -
              refine ⟨unlocked.trans open'.symm, ?_, rfl⟩
              rw [recalibrated, same]
              exact intact.insert_same
        · rintro (⟨-, -, contradicted⟩ | ⟨-, wrong | wrong⟩ | ⟨-, -, -, -, same⟩)
          · contradiction
          · exact absurd opening.2 wrong
          · exact absurd opening.1 (by simp [wrong])
          · refine ⟨kMasterKey, ?_⟩
            have kept := intact.lock.2.opened ideal
            refine ⟨kept.held, ?_, kept.records, kept.sealed⟩
            rw [recalibrated, same, show (state.wallet.shut.opened K).mapMasterKeys.insert id
              kMasterKey = _ from intact.insert_same]
            exact intact.mapMasterKeys
  · rw [if_neg opening]
    have shut := intact.lock.2
    refine ⟨?_, fun _ => ⟨kMasterKey, shut⟩⟩
    constructor
    · intro obeys
      obtain ⟨locked, -⟩ := obeys.unchanged _ _ _ rfl rfl
      refine .inr (.inl ⟨locked.symm.trans (intact.shut_locked ideal), ?_⟩)
      by_contra both
      rw [not_or, not_not, Bool.not_eq_false] at both
      exact opening ⟨both.2, both.1⟩
    · intro safe
      have locked : state.wallet.store.isLocked = true := by
        rcases safe with ⟨same, derived, -⟩ | ⟨locked, -⟩ | ⟨-, same, derived, -⟩
        · exact absurd ⟨derived, same⟩ opening
        · exact locked
        · exact absurd ⟨derived, same⟩ opening
      refine ⟨nofun, .inl rfl, shut.opens ideal, ?_⟩
      rintro _ _ _ - -
      exact ⟨(intact.shut_locked ideal).trans locked.symm, rfl, rfl⟩

def State.Intact (primitives : PassphrasePrimitives) (K : CKeyingMaterial) (state : State) : Prop :=
  ∃ id kMasterKey, PassphraseWallet.Intact primitives K state.passphrase id kMasterKey state.wallet

theorem State.Intact.lawful_iff (intact : state.Intact primitives K)
    (ideal : primitives.Ideal K) :
    Lawful primitives K state call ↔ ChangesSafely primitives state call := by
  obtain ⟨id, kMasterKey, intact⟩ := intact
  cases call with
  | lock =>
      obtain ⟨locked, shut⟩ := intact.lock
      exact iff_of_true ⟨_, congrArg some locked, nofun, .inl rfl, shut.opens ideal, nofun⟩ nofun
  | unlock passphrase fDerived =>
      obtain ⟨result, ran, obeys, -⟩ := intact.unlock_lawful ideal passphrase fDerived
      exact iff_of_true ⟨result, ran, obeys⟩ nofun
  | changeWalletPassphrase old new run =>
      obtain ⟨result, ran, exact, -⟩ := intact.change_lawful ideal old new run
      rw [← exact]
      constructor
      · rintro ⟨result', ran', obeys⟩
        obtain rfl := Option.some.inj (ran.symm.trans ran')
        exact obeys
      · intro obeys
        exact ⟨result, ran, obeys⟩

theorem State.Intact.step (intact : state.Intact primitives K) (ideal : primitives.Ideal K)
    (safe : ChangesSafely primitives state call)
    (taken : PassphraseWallet.step primitives state call = some next) :
    next.Intact primitives K := by
  obtain ⟨id, kMasterKey, intact⟩ := intact
  obtain ⟨result, ran, rfl⟩ := Option.map_eq_some_iff.1 taken
  cases call with
  | lock =>
      obtain ⟨locked, shut⟩ := intact.lock
      obtain rfl := Option.some.inj ran
      exact ⟨id, kMasterKey, by rw [locked]; exact shut⟩
  | unlock passphrase fDerived =>
      obtain ⟨result', ran', -, kept⟩ :=
        intact.unlock_lawful ideal passphrase fDerived
      obtain rfl := Option.some.inj (ran.symm.trans ran')
      exact ⟨id, kMasterKey, kept⟩
  | changeWalletPassphrase old new run =>
      obtain ⟨result', ran', -, keeps⟩ := intact.change_lawful ideal old new run
      obtain rfl := Option.some.inj (ran.symm.trans ran')
      obtain ⟨kMasterKey', kept⟩ := keeps safe
      exact ⟨id, kMasterKey', kept⟩

end PassphraseWallet

end Lycancoin

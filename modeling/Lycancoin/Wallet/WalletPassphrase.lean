import Lycancoin.Wallet.CryptoKeyStore

namespace Lycancoin

open Std

def WALLET_CRYPTO_SALT_SIZE : Nat := 8

abbrev SecureString := List UInt8

structure CMasterKey where
  vchCryptedKey : List UInt8
  vchSalt : List UInt8
  nDerivationMethod : UInt32
  nDeriveIterations : UInt32
deriving DecidableEq, Repr

def CMasterKey.new : CMasterKey where
  vchCryptedKey := []
  vchSalt := []
  nDerivationMethod := 0
  nDeriveIterations := 25000

structure PassphrasePrimitives extends KeyPrimitives where
  /-- `EVP_BytesToKey` with SHA-512: a key and an initialization vector from salt, data and rounds. -/
  bytesToKey : List UInt8 → SecureString → UInt32 → List UInt8 × List UInt8
  /-- A double as an `unsigned int`.  Outside of the range of one the result is left open. -/
  toUnsigned : Float → UInt32

structure CCrypter where
  chKey : List UInt8
  chIV : List UInt8
  fKeySet : Bool

namespace CCrypter

variable (primitives : PassphrasePrimitives)

/-- `CCrypter()`. -/
def new : CCrypter := { chKey := [], chIV := [], fKeySet := false }

/-- `SetKeyFromPassphrase`.  `fDerived` tells whether `EVP_BytesToKey` gives a key. -/
def setKeyFromPassphrase (fDerived : Bool) (strKeyData : SecureString) (chSalt : List UInt8)
    (nRounds nDerivationMethod : UInt32) (crypter : CCrypter) : Bool × CCrypter :=
  if nRounds < 1 ∨ chSalt.length ≠ WALLET_CRYPTO_SALT_SIZE then (false, crypter)
  else if nDerivationMethod = 0 ∧ fDerived then
    let (chKey, chIV) := primitives.bytesToKey chSalt strKeyData nRounds
    (true, { chKey, chIV, fKeySet := true })
  else
    (false, { crypter with
      chKey := List.replicate WALLET_CRYPTO_KEY_SIZE 0
      chIV := List.replicate WALLET_CRYPTO_KEY_SIZE 0 })

def encrypt (vchPlaintext : CKeyingMaterial) (crypter : CCrypter) : Option (List UInt8) :=
  if !crypter.fKeySet then none else primitives.encrypt crypter.chKey crypter.chIV vchPlaintext

def decrypt (vchCiphertext : List UInt8) (crypter : CCrypter) : Option CKeyingMaterial :=
  if !crypter.fKeySet then none else primitives.decrypt crypter.chKey crypter.chIV vchCiphertext

end CCrypter

namespace CMasterKey

variable (primitives : PassphrasePrimitives)

/-- `SetKeyFromPassphrase` with what the record says. -/
def setKey (fDerived : Bool) (strWalletPassphrase : SecureString) (kMasterKey : CMasterKey)
    (crypter : CCrypter) : Bool × CCrypter :=
  crypter.setKeyFromPassphrase primitives fDerived strWalletPassphrase kMasterKey.vchSalt
    kMasterKey.nDeriveIterations kMasterKey.nDerivationMethod

/-- The second calibration and the least number of iterations. -/
def calibrate (nElapsed : Int) (nDeriveIterations : UInt32) : UInt32 :=
  let n := primitives.toUnsigned
    ((nDeriveIterations.toFloat + (nDeriveIterations * 100).toFloat / Float.ofInt nElapsed) / 2)
  if n < 25000 then 25000 else n

/-- The iterations after both calibrations of `ChangeWalletPassphrase`. -/
def recalibrate (nElapsed nElapsed' : Int) (nDeriveIterations : UInt32) : UInt32 :=
  calibrate primitives nElapsed'
    (primitives.toUnsigned (nDeriveIterations.toFloat * (100 / Float.ofInt nElapsed)))

end CMasterKey

/-- The part of a wallet with a file that passphrases are about: the keys, the master keys and the
master keys in the file. -/
structure PassphraseWallet where
  store : CCryptoKeyStore
  mapMasterKeys : ExtTreeMap UInt32 CMasterKey
  nMasterKeyMaxID : UInt32
  records : ExtTreeMap UInt32 CMasterKey

/-- What `EncryptWallet` meets: the random master key and salt, the elapsed times, whether the
derivations, `TxnBegin` and `TxnCommit` succeed, and the keys that `NewKeyPool` makes. -/
structure EncryptionRun where
  vMasterKey : CKeyingMaterial
  vchSalt : List UInt8
  vchSalt_length : vchSalt.length = WALLET_CRYPTO_SALT_SIZE
  nElapsed : Int
  nElapsed' : Int
  fFirst : Bool
  fSecond : Bool
  fDerived : Bool
  fBegun : Bool
  fCommitted : Bool
  fUnlocked : UInt32 → Bool
  newKeys : List CKey

/-- What `ChangeWalletPassphrase` meets: whether the derivations from the old passphrase, for each
master key, and the three from the new one succeed, and the elapsed times. -/
structure ChangeRun where
  fOld : UInt32 → Bool
  fFirst : Bool
  fSecond : Bool
  fNew : Bool
  nElapsed : Int
  nElapsed' : Int

namespace PassphraseWallet

variable (primitives : PassphrasePrimitives)

/-- `CCryptoKeyStore::Lock`. -/
def lock (wallet : PassphraseWallet) : Bool × PassphraseWallet :=
  (wallet.store.lock.1, { wallet with store := wallet.store.lock.2 })

/-- The loop of `CWallet::Unlock`.  There is no result when an assertion fails. -/
def unlockLoop (strWalletPassphrase : SecureString) (fDerived : UInt32 → Bool) :
    List (UInt32 × CMasterKey) → CCrypter → PassphraseWallet → Option (Bool × PassphraseWallet)
  | [], _, wallet => some (false, wallet)
  | (id, kMasterKey) :: rest, crypter, wallet =>
      match kMasterKey.setKey primitives (fDerived id) strWalletPassphrase crypter with
      | (false, _) => some (false, wallet)
      | (true, crypter) =>
          match crypter.decrypt primitives kMasterKey.vchCryptedKey with
          | none => some (false, wallet)
          | some vMasterKey =>
              match wallet.store.unlock primitives.toKeyPrimitives vMasterKey with
              | none => none
              | some (true, store) => some (true, { wallet with store })
              | some (false, store) =>
                  unlockLoop strWalletPassphrase fDerived rest crypter { wallet with store }

def unlock (strWalletPassphrase : SecureString) (fDerived : UInt32 → Bool)
    (wallet : PassphraseWallet) : Option (Bool × PassphraseWallet) :=
  if !wallet.store.isLocked then some (false, wallet)
  else
    unlockLoop primitives strWalletPassphrase fDerived wallet.mapMasterKeys.toList .new wallet

/-- What `ChangeWalletPassphrase` does once the old passphrase has opened a master key. -/
def reencrypt (strNewWalletPassphrase : SecureString) (run : ChangeRun) (fWasLocked : Bool)
    (id : UInt32) (kMasterKey : CMasterKey) (vMasterKey : CKeyingMaterial) (crypter : CCrypter)
    (wallet : PassphraseWallet) : Bool × PassphraseWallet :=
  let (_, crypter) := kMasterKey.setKey primitives run.fFirst strNewWalletPassphrase crypter
  let (_, crypter) := { kMasterKey with
    nDeriveIterations := primitives.toUnsigned
      (kMasterKey.nDeriveIterations.toFloat * (100 / Float.ofInt run.nElapsed)) }.setKey
        primitives run.fSecond strNewWalletPassphrase crypter
  let kMasterKey := { kMasterKey with
    nDeriveIterations :=
      CMasterKey.recalibrate primitives run.nElapsed run.nElapsed' kMasterKey.nDeriveIterations }
  let wallet := { wallet with mapMasterKeys := wallet.mapMasterKeys.insert id kMasterKey }
  match kMasterKey.setKey primitives run.fNew strNewWalletPassphrase crypter with
  | (false, _) => (false, wallet)
  | (true, crypter) =>
      match crypter.encrypt primitives vMasterKey with
      | none =>
          -- The text that was there is gone: the buffer for the new one took its place.
          (false, { wallet with
            mapMasterKeys := wallet.mapMasterKeys.insert id { kMasterKey with
              vchCryptedKey := List.replicate (vMasterKey.length + 16) 0 } })
      | some vchCryptedKey =>
          let kMasterKey := { kMasterKey with vchCryptedKey }
          let wallet := { wallet with
            mapMasterKeys := wallet.mapMasterKeys.insert id kMasterKey
            records := wallet.records.insert id kMasterKey }
          (true, if fWasLocked then wallet.lock.2 else wallet)

/-- The loop of `ChangeWalletPassphrase`. -/
def changeLoop (strOldWalletPassphrase strNewWalletPassphrase : SecureString) (run : ChangeRun)
    (fWasLocked : Bool) :
    List (UInt32 × CMasterKey) → CCrypter → PassphraseWallet → Option (Bool × PassphraseWallet)
  | [], _, wallet => some (false, wallet)
  | (id, kMasterKey) :: rest, crypter, wallet =>
      match kMasterKey.setKey primitives (run.fOld id) strOldWalletPassphrase crypter with
      | (false, _) => some (false, wallet)
      | (true, crypter) =>
          match crypter.decrypt primitives kMasterKey.vchCryptedKey with
          | none => some (false, wallet)
          | some vMasterKey =>
              match wallet.store.unlock primitives.toKeyPrimitives vMasterKey with
              | none => none
              | some (true, store) =>
                  some (reencrypt primitives strNewWalletPassphrase run fWasLocked id kMasterKey
                    vMasterKey crypter { wallet with store })
              | some (false, store) =>
                  changeLoop strOldWalletPassphrase strNewWalletPassphrase run fWasLocked rest
                    crypter { wallet with store }

def changeWalletPassphrase (strOldWalletPassphrase strNewWalletPassphrase : SecureString)
    (run : ChangeRun) (wallet : PassphraseWallet) : Option (Bool × PassphraseWallet) :=
  changeLoop primitives strOldWalletPassphrase strNewWalletPassphrase run wallet.store.isLocked
    wallet.mapMasterKeys.toList .new wallet.lock.2

/-- The keys of `NewKeyPool`.  There is no result when a key cannot be added. -/
def newKeyPool (newKeys : List CKey) (store : CCryptoKeyStore) : Option CCryptoKeyStore :=
  if store.isLocked then some store
  else
    newKeys.foldlM (fun store key =>
      match store.addKeyPubKey primitives.toKeyPrimitives key (primitives.getPubKey key) with
      | (false, _) => none
      | (true, store) => some store) store

/-- The end of `EncryptWallet`, from the master key record on. -/
def encryptUnder (strWalletPassphrase : SecureString) (run : EncryptionRun)
    (kMasterKey : CMasterKey) (wallet : PassphraseWallet) : Option (Bool × PassphraseWallet) :=
  let id := wallet.nMasterKeyMaxID + 1
  let wallet := { wallet with
    mapMasterKeys := wallet.mapMasterKeys.insert id kMasterKey
    nMasterKeyMaxID := id }
  if !run.fBegun then some (false, wallet)
  else
    match wallet.store.encryptKeys primitives.toKeyPrimitives run.vMasterKey with
    | (false, _) => none
    | (true, store) =>
        if !run.fCommitted then none
        else
          let wallet :=
            { wallet with store, records := wallet.records.insert id kMasterKey }.lock.2
          match wallet.unlock primitives strWalletPassphrase run.fUnlocked with
          | none => none
          | some (_, wallet) =>
              (newKeyPool primitives run.newKeys wallet.store).map fun store =>
                (true, { wallet with store }.lock.2)

def encryptWallet (strWalletPassphrase : SecureString) (run : EncryptionRun)
    (wallet : PassphraseWallet) : Option (Bool × PassphraseWallet) :=
  if wallet.store.fUseCrypto then some (false, wallet)
  else
    let kMasterKey := { CMasterKey.new with vchSalt := run.vchSalt }
    let (_, crypter) := { kMasterKey with nDeriveIterations := 25000 }.setKey primitives run.fFirst
      strWalletPassphrase .new
    let nDeriveIterations := primitives.toUnsigned (2500000 / Float.ofInt run.nElapsed)
    let (_, crypter) := { kMasterKey with nDeriveIterations }.setKey primitives run.fSecond
      strWalletPassphrase crypter
    let kMasterKey := { kMasterKey with
      nDeriveIterations := CMasterKey.calibrate primitives run.nElapsed' nDeriveIterations }
    match kMasterKey.setKey primitives run.fDerived strWalletPassphrase crypter with
    | (false, _) => some (false, wallet)
    | (true, crypter) =>
        match crypter.encrypt primitives run.vMasterKey with
        | none => some (false, wallet)
        | some vchCryptedKey =>
            encryptUnder primitives strWalletPassphrase run { kMasterKey with vchCryptedKey } wallet

inductive Call where
  | lock
  | unlock (strWalletPassphrase : SecureString) (fDerived : UInt32 → Bool)
  | changeWalletPassphrase (strOldWalletPassphrase strNewWalletPassphrase : SecureString)
      (run : ChangeRun)

def call (primitives : PassphrasePrimitives) (wallet : PassphraseWallet) :
    Call → Option (Bool × PassphraseWallet)
  | .lock => some wallet.lock
  | .unlock strWalletPassphrase fDerived => wallet.unlock primitives strWalletPassphrase fDerived
  | .changeWalletPassphrase strOldWalletPassphrase strNewWalletPassphrase run =>
      wallet.changeWalletPassphrase primitives strOldWalletPassphrase strNewWalletPassphrase run

end PassphraseWallet

end Lycancoin

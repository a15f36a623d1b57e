import Lycancoin.Data.KeyedBatch

namespace Lycancoin

open Std

def WALLET_CRYPTO_KEY_SIZE : Nat := 32

abbrev CKeyingMaterial := List UInt8

abbrev CPubKey := List UInt8

abbrev CKeyID := List UInt8

def CPubKey.isCompressed (pubkey : CPubKey) : Bool := pubkey.length = 33

structure CKey where
  vch : List UInt8
  fCompressed : Bool
deriving DecidableEq, Repr

/-- The cipher, the digests and the curve that the key store rests on. -/
structure KeyPrimitives where
  /-- AES-256-CBC under a key and an initialization vector. -/
  encrypt : List UInt8 → List UInt8 → List UInt8 → Option (List UInt8)
  decrypt : List UInt8 → List UInt8 → List UInt8 → Option (List UInt8)
  /-- `Hash`, the double SHA-256. -/
  hash : List UInt8 → List UInt8
  hash160 : List UInt8 → List UInt8
  /-- `eccrypto::Check`. -/
  check : List UInt8 → Bool
  getPubKey : CKey → CPubKey
  /-- A signature by the key is one of the public key. -/
  signsFor : CKey → CPubKey → Bool

namespace KeyPrimitives

variable (primitives : KeyPrimitives)

def getID (pubkey : CPubKey) : CKeyID := primitives.hash160 pubkey

/-- `CKey::Set`, with `none` for a key that is not valid. -/
def setKey (secret : List UInt8) (fCompressed : Bool) : Option CKey :=
  if secret.length ≠ 32 then none
  else if primitives.check secret then some { vch := secret, fCompressed }
  else none

def verifyPubKey (key : CKey) (pubkey : CPubKey) : Bool :=
  pubkey.isCompressed == key.fCompressed && primitives.signsFor key pubkey

/-- `EncryptSecret`.  `CCrypter::SetKey` takes no other size of a master key. -/
def encryptSecret (vMasterKey : CKeyingMaterial) (vchPlaintext nIV : List UInt8) :
    Option (List UInt8) :=
  if vMasterKey.length ≠ WALLET_CRYPTO_KEY_SIZE then none
  else primitives.encrypt vMasterKey nIV vchPlaintext

def decryptSecret (vMasterKey : CKeyingMaterial) (vchCiphertext nIV : List UInt8) :
    Option (List UInt8) :=
  if vMasterKey.length ≠ WALLET_CRYPTO_KEY_SIZE then none
  else primitives.decrypt vMasterKey nIV vchCiphertext

def decryptKey (vMasterKey : CKeyingMaterial) (vchCryptedSecret : List UInt8)
    (vchPubKey : CPubKey) : Option CKey :=
  match primitives.decryptSecret vMasterKey vchCryptedSecret (primitives.hash vchPubKey) with
  | none => none
  | some vchSecret =>
      if vchSecret.length ≠ 32 then none
      else
        match primitives.setKey vchSecret vchPubKey.isCompressed with
        | none => none
        | some key => if primitives.verifyPubKey key vchPubKey then some key else none

end KeyPrimitives

structure CCryptoKeyStore where
  mapKeys : ExtTreeMap CKeyID CKey
  mapCryptedKeys : ExtTreeMap CKeyID (CPubKey × List UInt8)
  vMasterKey : CKeyingMaterial
  fUseCrypto : Bool
  fDecryptionThoroughlyChecked : Bool

namespace CCryptoKeyStore

/-- `CCryptoKeyStore()`. -/
def empty : CCryptoKeyStore :=
  { mapKeys := ∅
    mapCryptedKeys := ∅
    vMasterKey := []
    fUseCrypto := false
    fDecryptionThoroughlyChecked := false }

variable (primitives : KeyPrimitives)

def isLocked (store : CCryptoKeyStore) : Bool := store.fUseCrypto && store.vMasterKey.isEmpty

def setCrypted (store : CCryptoKeyStore) : Bool × CCryptoKeyStore :=
  if store.fUseCrypto then (true, store)
  else if !store.mapKeys.isEmpty then (false, store)
  else (true, { store with fUseCrypto := true })

def lock (store : CCryptoKeyStore) : Bool × CCryptoKeyStore :=
  match store.setCrypted with
  | (false, store) => (false, store)
  | (true, store) => (true, { store with vMasterKey := [] })

/-- The loop of `Unlock`: what becomes of `keyPass` and `keyFail`. -/
def tryKeys (vMasterKeyIn : CKeyingMaterial) (fDecryptionThoroughlyChecked : Bool) :
    Bool → List (CPubKey × List UInt8) → Bool × Bool
  | keyPass, [] => (keyPass, false)
  | keyPass, (vchPubKey, vchCryptedSecret) :: rest =>
      match primitives.decryptKey vMasterKeyIn vchCryptedSecret vchPubKey with
      | none => (keyPass, true)
      | some _ =>
          if fDecryptionThoroughlyChecked then (true, false)
          else tryKeys vMasterKeyIn fDecryptionThoroughlyChecked true rest

/-- `Unlock`.  There is no result when the assertion fails that some keys decrypt but
not all. -/
def unlock (vMasterKeyIn : CKeyingMaterial) (store : CCryptoKeyStore) :
    Option (Bool × CCryptoKeyStore) :=
  match store.setCrypted with
  | (false, store) => some (false, store)
  | (true, store) =>
      let (keyPass, keyFail) := tryKeys primitives vMasterKeyIn store.fDecryptionThoroughlyChecked
        false (store.mapCryptedKeys.toList.map Prod.snd)
      if keyPass && keyFail then none
      else if keyFail || !keyPass then some (false, store)
      else some (true,
        { store with vMasterKey := vMasterKeyIn, fDecryptionThoroughlyChecked := true })

def addCryptedKey (vchPubKey : CPubKey) (vchCryptedSecret : List UInt8)
    (store : CCryptoKeyStore) : Bool × CCryptoKeyStore :=
  match store.setCrypted with
  | (false, store) => (false, store)
  | (true, store) =>
      (true, { store with
        mapCryptedKeys :=
          store.mapCryptedKeys.insert (primitives.getID vchPubKey) (vchPubKey, vchCryptedSecret) })

def addKeyPubKey (key : CKey) (pubkey : CPubKey) (store : CCryptoKeyStore) :
    Bool × CCryptoKeyStore :=
  if !store.fUseCrypto then
    (true, { store with mapKeys := store.mapKeys.insert (primitives.getID pubkey) key })
  else if store.isLocked then (false, store)
  else
    match primitives.encryptSecret store.vMasterKey key.vch (primitives.hash pubkey) with
    | none => (false, store)
    | some vchCryptedSecret => store.addCryptedKey primitives pubkey vchCryptedSecret

/-- `HaveKey`, which `GetKeys` lists the keys of. -/
def haveKey (address : CKeyID) (store : CCryptoKeyStore) : Bool :=
  if !store.fUseCrypto then store.mapKeys.contains address
  else store.mapCryptedKeys.contains address

def getKey (address : CKeyID) (store : CCryptoKeyStore) : Option CKey :=
  if !store.fUseCrypto then store.mapKeys[address]?
  else
    match store.mapCryptedKeys[address]? with
    | none => none
    | some (vchPubKey, vchCryptedSecret) =>
        primitives.decryptKey store.vMasterKey vchCryptedSecret vchPubKey

/-- The loop of `EncryptKeys`. -/
def encryptLoop (vMasterKeyIn : CKeyingMaterial) :
    List (CKeyID × CKey) → CCryptoKeyStore → Bool × CCryptoKeyStore
  | [], store => (true, store)
  | (_, key) :: rest, store =>
      let vchPubKey := primitives.getPubKey key
      match primitives.encryptSecret vMasterKeyIn key.vch (primitives.hash vchPubKey) with
      | none => (false, store)
      | some vchCryptedSecret =>
          match store.addCryptedKey primitives vchPubKey vchCryptedSecret with
          | (false, store) => (false, store)
          | (true, store) => encryptLoop vMasterKeyIn rest store

def encryptKeys (vMasterKeyIn : CKeyingMaterial) (store : CCryptoKeyStore) :
    Bool × CCryptoKeyStore :=
  if !store.mapCryptedKeys.isEmpty || store.fUseCrypto then (false, store)
  else
    match encryptLoop primitives vMasterKeyIn store.mapKeys.toList
        { store with fUseCrypto := true } with
    | (false, store) => (false, store)
    | (true, store) => (true, { store with mapKeys := ∅ })

end CCryptoKeyStore

end Lycancoin

import Mathlib

namespace Lycancoin

/-- A record of the database under `"pool"`, with a key that is valid. -/
structure CKeyPool (PubKey : Type) where
  nTime : Int
  vchPubKey : PubKey

/-- `CReserveKey`, with `none` for the index `-1` and for a key that is not valid. -/
structure CReserveKey (PubKey : Type) where
  nIndex : Option Nat
  vchPubKey : Option PubKey

def CReserveKey.idle {PubKey : Type} : CReserveKey PubKey := ⟨none, none⟩

/-- What stays the same while the wallet is used: the argument `-keypool`, and how keys
are made.  A key that is generated is none of those the wallet has. -/
structure KeyPoolContext (PubKey KeyId : Type) where
  keypool : Int
  getId : PubKey → KeyId
  generate : List PubKey → PubKey
  fresh : ∀ keys, generate keys ∉ keys

/-- The part of `CWallet` and its database that keys are taken from, with the objects
of `CReserveKey` by number and the keys that were kept or given away for good. -/
structure KeyPoolWallet (PubKey : Type) where
  fLocked : Bool
  mapKeys : List PubKey
  setKeyPool : Finset Nat
  pool : Nat → Option (CKeyPool PubKey)
  reserveKeys : Nat → CReserveKey PubKey
  spent : List PubKey

inductive KeyPoolError
  | readFailed
  | unknownKey
  | assertion
deriving DecidableEq, Repr

def KeyPoolError.what : KeyPoolError → String
  | readFailed => "ReserveKeyFromKeyPool() : read failed"
  | unknownKey => "ReserveKeyFromKeyPool() : unknown key in key pool"
  | assertion => "vchPubKey.IsValid()"

namespace KeyPoolWallet

variable {PubKey KeyId : Type} [DecidableEq KeyId]

def haveKey (context : KeyPoolContext PubKey KeyId) (address : KeyId)
    (wallet : KeyPoolWallet PubKey) : Bool :=
  wallet.mapKeys.any fun key => context.getId key = address

def generateNewKey (context : KeyPoolContext PubKey KeyId) (wallet : KeyPoolWallet PubKey) :
    KeyPoolWallet PubKey × PubKey :=
  let key := context.generate wallet.mapKeys
  ({ wallet with mapKeys := key :: wallet.mapKeys }, key)

/-- `WritePool` of a generated key, and its index in `setKeyPool`. -/
def writeNewKey (context : KeyPoolContext PubKey KeyId) (now : Int) (nIndex : Nat)
    (wallet : KeyPoolWallet PubKey) : KeyPoolWallet PubKey :=
  let (wallet, key) := wallet.generateNewKey context
  { wallet with
    pool := Function.update wallet.pool nIndex (some ⟨now, key⟩)
    setKeyPool := insert nIndex wallet.setKeyPool }

/-- The index that `TopUpKeyPool` writes next: behind the last one, or `1`. -/
def nEnd (wallet : KeyPoolWallet PubKey) : Nat := wallet.setKeyPool.sup id + 1

/-- `GetArg("-keypool", 100)`, but not below zero. -/
def nKeys (context : KeyPoolContext PubKey KeyId) : Nat := (max context.keypool 0).toNat

/-- `nTargetSize + 1`, as an `unsigned int`. -/
def nTarget (context : KeyPoolContext PubKey KeyId) (kpSize : UInt32) : Nat :=
  ((if 0 < kpSize then kpSize else UInt32.ofNat (nKeys context)) + 1).toNat

/-- The loop of `TopUpKeyPool`, with a bound on its rounds. -/
def topUpLoop (context : KeyPoolContext PubKey KeyId) (now : Int) (target : Nat) :
    Nat → KeyPoolWallet PubKey → KeyPoolWallet PubKey
  | 0, wallet => wallet
  | rounds + 1, wallet =>
      if wallet.setKeyPool.card < target then
        topUpLoop context now target rounds (wallet.writeNewKey context now wallet.nEnd)
      else wallet

def topUpKeyPool (context : KeyPoolContext PubKey KeyId) (now : Int) (kpSize : UInt32)
    (wallet : KeyPoolWallet PubKey) : KeyPoolWallet PubKey × Bool :=
  if wallet.fLocked then (wallet, false)
  else
    let target := nTarget context kpSize
    (topUpLoop context now target target wallet, true)

/-- The loop of `NewKeyPool`. -/
def newKeysLoop (context : KeyPoolContext PubKey KeyId) (now : Int) :
    Nat → KeyPoolWallet PubKey → KeyPoolWallet PubKey
  | 0, wallet => wallet
  | i + 1, wallet => (newKeysLoop context now i wallet).writeNewKey context now (i + 1)

def newKeyPool (context : KeyPoolContext PubKey KeyId) (now : Int)
    (wallet : KeyPoolWallet PubKey) : KeyPoolWallet PubKey × Bool :=
  let wallet := { wallet with
    pool := fun nIndex => if nIndex ∈ wallet.setKeyPool then none else wallet.pool nIndex
    setKeyPool := ∅ }
  if wallet.fLocked then (wallet, false)
  else (newKeysLoop context now (nKeys context) wallet, true)

/-- `ReserveKeyFromKeyPool`, with `none` for the index `-1`. -/
def reserveKeyFromKeyPool (context : KeyPoolContext PubKey KeyId) (now : Int)
    (wallet : KeyPoolWallet PubKey) :
    Except KeyPoolError (KeyPoolWallet PubKey × Option (Nat × CKeyPool PubKey)) :=
  let wallet := if wallet.fLocked then wallet else (wallet.topUpKeyPool context now 0).1
  if listed : wallet.setKeyPool.Nonempty then
    let nIndex := wallet.setKeyPool.min' listed
    match wallet.pool nIndex with
    | none => .error .readFailed
    | some keypool =>
        if wallet.haveKey context (context.getId keypool.vchPubKey) then
          .ok ({ wallet with setKeyPool := wallet.setKeyPool.erase nIndex }, some (nIndex, keypool))
        else .error .unknownKey
  else .ok (wallet, none)

/-- `KeepKey` of the wallet, whose database is a file. -/
def keepKey (nIndex : Nat) (wallet : KeyPoolWallet PubKey) : KeyPoolWallet PubKey :=
  { wallet with pool := Function.update wallet.pool nIndex none }

def returnKey (nIndex : Nat) (wallet : KeyPoolWallet PubKey) : KeyPoolWallet PubKey :=
  { wallet with setKeyPool := insert nIndex wallet.setKeyPool }

def getKeyFromPool (context : KeyPoolContext PubKey KeyId) (now : Int)
    (wallet : KeyPoolWallet PubKey) :
    Except KeyPoolError (KeyPoolWallet PubKey × Option PubKey) := do
  let (wallet, reserved) ← wallet.reserveKeyFromKeyPool context now
  match reserved with
  | none =>
      if wallet.fLocked then pure (wallet, none)
      else
        let (wallet, result) := wallet.generateNewKey context
        pure ({ wallet with spent := result :: wallet.spent }, some result)
  | some (nIndex, keypool) =>
      let wallet := wallet.keepKey nIndex
      pure ({ wallet with spent := keypool.vchPubKey :: wallet.spent }, some keypool.vchPubKey)

def getOldestKeyPoolTime (context : KeyPoolContext PubKey KeyId) (now : Int)
    (wallet : KeyPoolWallet PubKey) : Except KeyPoolError (KeyPoolWallet PubKey × Int) := do
  let (wallet, reserved) ← wallet.reserveKeyFromKeyPool context now
  match reserved with
  | none => pure (wallet, now)
  | some (nIndex, keypool) => pure (wallet.returnKey nIndex, keypool.nTime)

def setReserveKey (number : Nat) (reserveKey : CReserveKey PubKey) (wallet : KeyPoolWallet PubKey) :
    KeyPoolWallet PubKey :=
  { wallet with reserveKeys := Function.update wallet.reserveKeys number reserveKey }

def getReservedKey (context : KeyPoolContext PubKey KeyId) (now : Int) (number : Nat)
    (wallet : KeyPoolWallet PubKey) :
    Except KeyPoolError (KeyPoolWallet PubKey × Option PubKey) := do
  match (wallet.reserveKeys number).nIndex with
  | none =>
      let (wallet, reserved) ← wallet.reserveKeyFromKeyPool context now
      match reserved with
      | none => pure (wallet, none)
      | some (nIndex, keypool) =>
          pure (wallet.setReserveKey number ⟨some nIndex, some keypool.vchPubKey⟩,
            some keypool.vchPubKey)
  | some _ =>
      match (wallet.reserveKeys number).vchPubKey with
      | none => throw .assertion
      | some pubkey => pure (wallet, some pubkey)

/-- `KeepKey` of a `CReserveKey`. -/
def keepReservedKey (number : Nat) (wallet : KeyPoolWallet PubKey) : KeyPoolWallet PubKey :=
  let reserveKey := wallet.reserveKeys number
  let wallet := match reserveKey.nIndex with
    | none => wallet
    | some nIndex =>
        let wallet := wallet.keepKey nIndex
        { wallet with spent := reserveKey.vchPubKey.toList ++ wallet.spent }
  wallet.setReserveKey number .idle

/-- `ReturnKey` of a `CReserveKey`. -/
def returnReservedKey (number : Nat) (wallet : KeyPoolWallet PubKey) : KeyPoolWallet PubKey :=
  let wallet := match (wallet.reserveKeys number).nIndex with
    | none => wallet
    | some nIndex => wallet.returnKey nIndex
  wallet.setReserveKey number .idle

end KeyPoolWallet

/-- The calls of the wallet and of its `CReserveKey` objects. -/
inductive KeyPoolCall
  | topUpKeyPool (kpSize : UInt32)
  | newKeyPool
  | getReservedKey (number : Nat)
  | keepKey (number : Nat)
  | returnKey (number : Nat)
  | getKeyFromPool
  | getOldestKeyPoolTime
  | lock
  | unlock
deriving DecidableEq, Repr

namespace KeyPoolWallet

variable {PubKey KeyId : Type}

variable [DecidableEq KeyId] in
/-- The wallet after a call, and the public key that the call hands out. -/
def step (context : KeyPoolContext PubKey KeyId) (now : Int) (call : KeyPoolCall)
    (wallet : KeyPoolWallet PubKey) :
    Except KeyPoolError (KeyPoolWallet PubKey × Option PubKey) :=
  match call with
  | .topUpKeyPool kpSize => .ok ((wallet.topUpKeyPool context now kpSize).1, none)
  | .newKeyPool => .ok ((wallet.newKeyPool context now).1, none)
  | .getReservedKey number => wallet.getReservedKey context now number
  | .keepKey number => .ok (wallet.keepReservedKey number, none)
  | .returnKey number => .ok (wallet.returnReservedKey number, none)
  | .getKeyFromPool => wallet.getKeyFromPool context now
  | .getOldestKeyPoolTime =>
      (wallet.getOldestKeyPoolTime context now).map fun (wallet, _) => (wallet, none)
  | .lock => .ok ({ wallet with fLocked := true }, none)
  | .unlock => .ok ({ wallet with fLocked := false }, none)

def Reserves (number : Nat) (key : PubKey) (wallet : KeyPoolWallet PubKey) : Prop :=
  (wallet.reserveKeys number).nIndex ≠ none ∧ (wallet.reserveKeys number).vchPubKey = some key

/-- The indexes under which `TopUpKeyPool` would write new keys. -/
def topUpIndexes (context : KeyPoolContext PubKey KeyId) (kpSize : UInt32)
    (wallet : KeyPoolWallet PubKey) : Finset Nat :=
  if wallet.fLocked then ∅
  else Finset.Ico wallet.nEnd (wallet.nEnd + (nTarget context kpSize - wallet.setKeyPool.card))

/-- The indexes under which a call would write new keys. -/
def newIndexes (context : KeyPoolContext PubKey KeyId) (call : KeyPoolCall)
    (wallet : KeyPoolWallet PubKey) : Finset Nat :=
  match call with
  | .topUpKeyPool kpSize => wallet.topUpIndexes context kpSize
  | .newKeyPool => if wallet.fLocked then ∅ else Finset.Icc 1 (nKeys context)
  | .getReservedKey number =>
      if (wallet.reserveKeys number).nIndex.isNone then wallet.topUpIndexes context 0 else ∅
  | .getKeyFromPool => wallet.topUpIndexes context 0
  | .getOldestKeyPoolTime => wallet.topUpIndexes context 0
  | _ => ∅

section NewIndexes

variable (context : KeyPoolContext PubKey KeyId) (wallet : KeyPoolWallet PubKey)

theorem newIndexes_newKeyPool : wallet.newIndexes context .newKeyPool =
    if wallet.fLocked then ∅ else Finset.Icc 1 (nKeys context) := rfl

theorem newIndexes_topUpKeyPool (kpSize : UInt32) :
    wallet.newIndexes context (.topUpKeyPool kpSize) = wallet.topUpIndexes context kpSize := rfl

theorem newIndexes_getReservedKey (number : Nat) :
    wallet.newIndexes context (.getReservedKey number) =
      if (wallet.reserveKeys number).nIndex.isNone then wallet.topUpIndexes context 0 else ∅ := rfl

end NewIndexes

/-- A call that writes no new key under an index that is reserved. -/
def Spares (context : KeyPoolContext PubKey KeyId) (call : KeyPoolCall)
    (wallet : KeyPoolWallet PubKey) : Prop :=
  ∀ nIndex ∈ wallet.newIndexes context call, ∀ number,
    (wallet.reserveKeys number).nIndex ≠ some nIndex

inductive Reaches [DecidableEq KeyId] (context : KeyPoolContext PubKey KeyId) (first : KeyPoolWallet PubKey) :
    KeyPoolWallet PubKey → Prop
  | first : Reaches context first first
  | step {wallet after : KeyPoolWallet PubKey} {now : Int} {call : KeyPoolCall}
      {handed : Option PubKey} :
      Reaches context first wallet → wallet.Spares context call →
      wallet.step context now call = .ok (after, handed) → Reaches context first after

end KeyPoolWallet

end Lycancoin

import Lycancoin.Data.Merging
import Lycancoin.Primitives.Amount

namespace Lycancoin

/-- A wallet output that may be spent (`COutput`).  `κ` stands for `const CWalletTx*`. -/
structure COutput (κ : Type) where
  tx : κ
  i : Nat
  nDepth : Int
  fSpendable : Bool
deriving DecidableEq, Repr

/-- What the coin selection reads of a wallet transaction: `vout[i].nValue` and
`IsFromMe(ISMINE_ALL)`. -/
structure CoinView (κ : Type) where
  nValue : κ → Nat → Int
  isFromMe : κ → Bool

abbrev ValuedCoin (κ : Type) : Type := Int × (κ × Nat)

/-- What `random_shuffle`, `sort` and `insecure_rand` may do.  A sort by value only leaves the order
of equal values open. -/
structure SelectionChoices (κ : Type) where
  randomShuffle : List (COutput κ) → List (COutput κ)
  shuffle_perm : ∀ vCoins, (randomShuffle vCoins).Perm vCoins
  sortDescending : List (ValuedCoin κ) → List (ValuedCoin κ)
  sort_perm : ∀ vValue, (sortDescending vValue).Perm vValue
  sort_ordered : ∀ vValue, (sortDescending vValue).Pairwise fun a b => b.1 ≤ a.1
  insecureRand : Nat → Nat → Nat → Bool

/-- The variables of `ApproximateBestSubset`. -/
structure SubsetSearch where
  vfIncluded : List Bool
  nTotal : Int
  fReachedTarget : Bool
  vfBest : List Bool
  nBest : Int

namespace SubsetSearch

variable (nTargetValue : Int)

/-- What is done with `vValue[i]` once it is taken. -/
def take (value : Int) (i : Nat) (search : SubsetSearch) : Option SubsetSearch := do
  let nTotal ← int64 (search.nTotal + value)
  let vfIncluded := search.vfIncluded.set i true
  if nTotal ≥ nTargetValue then
    let (nBest, vfBest) := if nTotal < search.nBest then (nTotal, vfIncluded)
      else (search.nBest, search.vfBest)
    let nTotal ← int64 (nTotal - value)
    pure ⟨vfIncluded.set i false, nTotal, true, vfBest, nBest⟩
  else
    pure { search with vfIncluded := vfIncluded, nTotal := nTotal }

/-- One pass over the values from `vValue[i]` on. -/
def pass (takes : List Bool → Nat → Bool) :
    List Int → Nat → SubsetSearch → Option SubsetSearch
  | [], _, search => some search
  | value :: values, i, search =>
      if takes search.vfIncluded i then do
        let search ← search.take nTargetValue value i
        pass takes values (i + 1) search
      else pass takes values (i + 1) search

/-- One repetition: the pass that goes by the random bits and, unless the target was reached, the
pass over what it left out. -/
def repetition (bits : Nat → Bool) (values : List Int) (search : SubsetSearch) :
    Option SubsetSearch := do
  let first ← pass nTargetValue (fun _ i => bits i) values 0
    { search with
      vfIncluded := List.replicate values.length false
      nTotal := 0
      fReachedTarget := false }
  if first.fReachedTarget then pure first
  else pass nTargetValue (fun vfIncluded i => vfIncluded[i]? == some false) values 0 first

/-- The repetitions from `nRep` on, of which `count` are left. -/
def repetitions (bits : Nat → Nat → Bool) (values : List Int) :
    Nat → Nat → SubsetSearch → Option SubsetSearch
  | 0, _, search => some search
  | count + 1, nRep, search =>
      if search.nBest ≠ nTargetValue then do
        let search ← search.repetition nTargetValue (bits nRep) values
        repetitions bits values count (nRep + 1) search
      else some search

end SubsetSearch

/-- `vfBest` and `nBest` of `ApproximateBestSubset`. -/
def approximateBestSubset {κ : Type} (bits : Nat → Nat → Bool) (vValue : List (ValuedCoin κ))
    (nTotalLower nTargetValue : Int) (iterations : Nat) : Option (List Bool × Int) := do
  let search ← SubsetSearch.repetitions nTargetValue bits (vValue.map Prod.fst) iterations 0
    ⟨[], 0, false, List.replicate vValue.length true, nTotalLower⟩
  pure (search.vfBest, search.nBest)

/-- The coins sorted out by their values: those worth less than the target and a cent, with their
total, and the lowest of the others. -/
structure CandidateCoins (κ : Type) where
  coinLowestLarger : Int × Option (κ × Nat)
  vValue : List (ValuedCoin κ)
  nTotalLower : Int

inductive Sorting (κ : Type) where
  | exact (coin : ValuedCoin κ)
  | candidates (found : CandidateCoins κ)

section

variable {κ : Type} (view : CoinView κ)

namespace COutput

def coin (output : COutput κ) : κ × Nat := (output.tx, output.i)

def value (output : COutput κ) : Int := view.nValue output.tx output.i

/-- The output may be spent and meets the confirmation policy. -/
def eligible (nConfMine nConfTheirs : Int) (output : COutput κ) : Bool :=
  output.fSpendable &&
    !decide (output.nDepth < if view.isFromMe output.tx then nConfMine else nConfTheirs)

end COutput

/-- The loop over the shuffled coins. -/
def sortOut (nTargetValue nConfMine nConfTheirs : Int) :
    List (COutput κ) → CandidateCoins κ → Option (Sorting κ)
  | [], found => some (.candidates found)
  | output :: rest, found =>
      if !output.eligible view nConfMine nConfTheirs then
        sortOut nTargetValue nConfMine nConfTheirs rest found
      else
        let n := output.value view
        if n = nTargetValue then some (.exact (n, output.coin))
        else do
          let nLimit ← int64 (nTargetValue + CENT)
          if n < nLimit then
            let nTotalLower ← int64 (found.nTotalLower + n)
            sortOut nTargetValue nConfMine nConfTheirs rest
              { found with vValue := found.vValue ++ [(n, output.coin)], nTotalLower := nTotalLower }
          else if n < found.coinLowestLarger.1 then
            sortOut nTargetValue nConfMine nConfTheirs rest
              { found with coinLowestLarger := (n, some output.coin) }
          else sortOut nTargetValue nConfMine nConfTheirs rest found

/-- Inserts coins into `setCoinsRet` and adds their values to `nValueRet`. -/
def returnCoins [DecidableEq κ] :
    List (ValuedCoin κ) → List (κ × Nat) → Int → Option (List (κ × Nat) × Int)
  | [], setCoinsRet, nValueRet => some (setCoinsRet, nValueRet)
  | coin :: coins, setCoinsRet, nValueRet => do
      let nValueRet ← int64 (nValueRet + coin.1)
      returnCoins coins (setCoinsRet.insert coin.2) nValueRet

/-- The end of `SelectCoinsMinConf`, where the lower coins are worth more than the target. -/
def chooseCoins (choices : SelectionChoices κ) (nTargetValue : Int) (found : CandidateCoins κ) :
    Option (List (ValuedCoin κ)) := do
  let vValue := choices.sortDescending found.vValue
  let nLimit ← int64 (nTargetValue + CENT)
  let (vfBest, nBest) ← approximateBestSubset (choices.insecureRand 0) vValue found.nTotalLower
    nTargetValue 1000
  let (vfBest, nBest) ←
    if nBest ≠ nTargetValue ∧ found.nTotalLower ≥ nLimit then
      approximateBestSubset (choices.insecureRand 1) vValue found.nTotalLower nLimit 1000
    else pure (vfBest, nBest)
  match found.coinLowestLarger.2 with
  | some larger =>
      if (nBest ≠ nTargetValue ∧ nBest < nLimit) ∨ found.coinLowestLarger.1 ≤ nBest then
        pure [(found.coinLowestLarger.1, larger)]
      else pure (Data.Marked.picked vValue vfBest)
  | none => pure (Data.Marked.picked vValue vfBest)

/-- `CWallet::SelectCoinsMinConf`: the result, `setCoinsRet` and `nValueRet`. -/
def selectCoinsMinConf [DecidableEq κ] (choices : SelectionChoices κ)
    (nTargetValue nConfMine nConfTheirs : Int) (vCoins : List (COutput κ)) :
    Option (Bool × List (κ × Nat) × Int) := do
  match ← sortOut view nTargetValue nConfMine nConfTheirs (choices.randomShuffle vCoins)
      { coinLowestLarger := (2 ^ 63 - 1, none), vValue := [], nTotalLower := 0 } with
  | .exact coin => do
      let (setCoinsRet, nValueRet) ← returnCoins [coin] [] 0
      pure (true, setCoinsRet, nValueRet)
  | .candidates found =>
      if found.nTotalLower = nTargetValue then do
        let (setCoinsRet, nValueRet) ← returnCoins found.vValue [] 0
        pure (true, setCoinsRet, nValueRet)
      else if found.nTotalLower < nTargetValue then
        match found.coinLowestLarger.2 with
        | none => pure (false, [], 0)
        | some larger => do
            let (setCoinsRet, nValueRet) ← returnCoins [(found.coinLowestLarger.1, larger)] [] 0
            pure (true, setCoinsRet, nValueRet)
      else do
        let coins ← chooseCoins choices nTargetValue found
        let (setCoinsRet, nValueRet) ← returnCoins coins [] 0
        pure (true, setCoinsRet, nValueRet)

end

end Lycancoin

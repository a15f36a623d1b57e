import Lycancoin.Coins.CoinsRecord

namespace Lycancoin

open Lycancoin.Data

namespace CTxOutCompressor

/-- The value of a `uint64_t` expression that does not wrap. -/
def uint64 (value : Nat) : Option Nat := if value < 2 ^ 64 then some value else none

/-- `CompressAmount` step by step, none where a step wraps or the assertion fails. -/
def checkedCompressAmount (n : Nat) : Option Nat :=
  if n = 0 then some 0
  else
    let stripped := stripZeros 9 n
    let n := stripped.1
    let e := stripped.2
    if e < 9 then
      let d := n % 10
      let n := n / 10
      if d < 1 then none
      else do
        let code ← uint64 (n * 9)
        let code ← uint64 (code + d)
        let code ← uint64 ((code - 1) * 10)
        let code ← uint64 (1 + code)
        uint64 (code + e)
    else if n < 1 then none
    else do
      let code ← uint64 ((n - 1) * 10)
      let code ← uint64 (1 + code)
      uint64 (code + 9)

/-- The loop of `DecompressAmount`. -/
def mulTens : Nat → Nat → Option Nat
  | 0, n => some n
  | e + 1, n => do
      let n ← uint64 (n * 10)
      mulTens e n

/-- `DecompressAmount` step by step, none where a step wraps. -/
def checkedDecompressAmount (x : Nat) : Option Nat :=
  if x = 0 then some 0
  else
    let x := x - 1
    let e := x % 10
    let x := x / 10
    if e < 9 then do
      let d := x % 9 + 1
      let n ← uint64 (x / 9 * 10)
      let n ← uint64 (n + d)
      mulTens e n
    else do
      let n ← uint64 (x + 1)
      mulTens e n

variable {n x e : Nat}

theorem uint64_of_lt (fits : n < 2 ^ 64) : uint64 n = some n := if_pos fits

theorem mulTens_eq (fits : n < 2 ^ 64) :
    mulTens e n = if n * 10 ^ e < 2 ^ 64 then some (n * 10 ^ e) else none := by
  induction e generalizing n with
  | zero => rw [mulTens, pow_zero, Nat.mul_one, if_pos fits]
  | succ e ih =>
      have power : n * 10 ^ (e + 1) = n * 10 * 10 ^ e := by
        rw [pow_succ']
        ring
      have least : n * 10 ≤ n * 10 * 10 ^ e := Nat.le_mul_of_pos_right _ (by positivity)
      rw [mulTens, power]
      by_cases small : n * 10 < 2 ^ 64
      · rw [uint64_of_lt small]
        exact ih small
      · rw [uint64, if_neg small, if_neg (by omega)]
        rfl

/-- The largest power of ten up to the ninth is stripped. -/
theorem stripZeros_mul_pow {m left : Nat} (bound : e ≤ left)
    (stops : e < left → m % 10 ≠ 0) : stripZeros left (m * 10 ^ e) = (m, e) := by
  induction left generalizing e with
  | zero =>
      obtain rfl := Nat.le_zero.1 bound
      simp [stripZeros]
  | succ left ih =>
      cases e with
      | zero =>
          have digit := stops (Nat.succ_pos _)
          simp [stripZeros, digit]
      | succ e =>
          have power : m * 10 ^ (e + 1) = m * 10 ^ e * 10 := by
            rw [pow_succ]
            ring
          rw [stripZeros, power, if_pos (Nat.mul_mod_left _ _), Nat.mul_div_cancel _ (by decide),
            ih (by omega) fun less => stops (by omega)]

theorem compressAmount_decompressAmount (fits : x < 2 ^ 64)
    (kept : checkedDecompressAmount x = some n) :
    decompressAmount x = n ∧ compressAmount n = x := by
  by_cases zero : x = 0
  · subst zero
    simp only [checkedDecompressAmount, if_true, Option.some.injEq] at kept
    subst kept
    exact ⟨rfl, rfl⟩
  simp only [checkedDecompressAmount, if_neg zero] at kept
  by_cases few : (x - 1) % 10 < 9
  · rw [if_pos few, uint64_of_lt (by omega), Option.bind_eq_bind, Option.bind_some,
      uint64_of_lt (by omega), Option.bind_some, mulTens_eq (by omega)] at kept
    split at kept
    · next small =>
      obtain rfl := Option.some.inj kept
      refine ⟨?_, ?_⟩
      · simp only [decompressAmount, if_neg zero, if_pos few]
        exact Nat.mod_eq_of_lt small
      · have positive : 0 < 10 ^ ((x - 1) % 10) := by positivity
        rw [compressAmount, if_neg (by
          apply Nat.ne_of_gt
          exact Nat.mul_pos (by omega) positive), stripZeros_mul_pow (by omega) (by omega)]
        have high : ((x - 1) / 10 / 9 * 10 + ((x - 1) / 10 % 9 + 1)) / 10 = (x - 1) / 10 / 9 := by
          omega
        have last : ((x - 1) / 10 / 9 * 10 + ((x - 1) / 10 % 9 + 1)) % 10 =
            (x - 1) / 10 % 9 + 1 := by omega
        simp only [if_pos few, high, last]
        omega
    · contradiction
  · rw [if_neg few, uint64_of_lt (by omega), Option.bind_eq_bind, Option.bind_some,
      mulTens_eq (by omega)] at kept
    have nine : (x - 1) % 10 = 9 := by omega
    split at kept
    · next small =>
      obtain rfl := Option.some.inj kept
      refine ⟨?_, ?_⟩
      · simp only [decompressAmount, if_neg zero, if_neg few]
        exact Nat.mod_eq_of_lt small
      · rw [nine] at small ⊢
        rw [compressAmount, if_neg (by omega), stripZeros_mul_pow (by omega) (by omega)]
        simp only [lt_self_iff_false, if_false]
        omega
    · contradiction

/-- No step of either direction wraps for an amount. -/
theorem checked_amount (small : n ≤ 2 ^ 60) :
    ∃ code, checkedCompressAmount n = some code ∧ compressAmount n = code ∧
      checkedDecompressAmount code = some n := by
  by_cases zero : n = 0
  · subst zero
    exact ⟨0, rfl, rfl, rfl⟩
  obtain ⟨value, bound, stops⟩ := stripZeros_spec 9 n
  generalize isStripped : stripZeros 9 n = stripped at value bound stops
  obtain ⟨m, e⟩ := stripped
  simp only at value bound stops
  have positive : 0 < 10 ^ e := Nat.pow_pos (by decide)
  have below : m ≤ n := by
    rw [← value]
    exact Nat.le_mul_of_pos_right m positive
  have some : m ≠ 0 := by
    rintro rfl
    simp at value
    exact zero value.symm
  by_cases few : e < 9
  · have digit := stops few
    refine ⟨1 + (m / 10 * 9 + m % 10 - 1) * 10 + e, ?_, ?_, ?_⟩
    · simp only [checkedCompressAmount, if_neg zero, isStripped, if_pos few]
      rw [if_neg (by omega), uint64_of_lt (by omega), Option.bind_eq_bind, Option.bind_some,
        uint64_of_lt (by omega), Option.bind_some, uint64_of_lt (by omega), Option.bind_some,
        uint64_of_lt (by omega), Option.bind_some, uint64_of_lt (by omega)]
    · simp only [compressAmount, if_neg zero, isStripped, if_pos few]
      exact Nat.mod_eq_of_lt (by omega)
    · have exponent : (1 + (m / 10 * 9 + m % 10 - 1) * 10 + e - 1) % 10 = e := by omega
      have quotient : (1 + (m / 10 * 9 + m % 10 - 1) * 10 + e - 1) / 10 =
          m / 10 * 9 + m % 10 - 1 := by omega
      have last : (m / 10 * 9 + m % 10 - 1) / 9 * 10 +
          ((m / 10 * 9 + m % 10 - 1) % 9 + 1) = m := by omega
      rw [checkedDecompressAmount, if_neg (by omega)]
      simp only [exponent, quotient, if_pos few]
      rw [uint64_of_lt (by omega), Option.bind_eq_bind, Option.bind_some, last,
        uint64_of_lt (by omega), Option.bind_some, mulTens_eq (by omega), value, if_pos (by omega)]
  · have nine : e = 9 := by omega
    rw [nine] at value
    refine ⟨1 + (m - 1) * 10 + 9, ?_, ?_, ?_⟩
    · simp only [checkedCompressAmount, if_neg zero, isStripped, if_neg few]
      rw [if_neg (by omega), uint64_of_lt (by omega), Option.bind_eq_bind, Option.bind_some,
        uint64_of_lt (by omega), Option.bind_some, uint64_of_lt (by omega)]
    · simp only [compressAmount, if_neg zero, isStripped, if_neg few]
      exact Nat.mod_eq_of_lt (by omega)
    · have exponent : (1 + (m - 1) * 10 + 9 - 1) % 10 = 9 := by omega
      have quotient : (1 + (m - 1) * 10 + 9 - 1) / 10 = m - 1 := by omega
      rw [checkedDecompressAmount, if_neg (by omega)]
      simp only [exponent, quotient, lt_self_iff_false, if_false]
      rw [Nat.sub_add_cancel (Nat.pos_of_ne_zero some), uint64_of_lt (by omega),
        Option.bind_eq_bind, Option.bind_some, mulTens_eq (by omega), value, if_pos (by omega)]

end CTxOutCompressor

section Exact

open CTxOutCompressor CScriptCompressor

/-- Amounts and their codes are in one-to-one correspondence without a step that wraps, and a
script whose length is not lost is read back from the bytes that were written for it. -/
theorem compressor_exact (keys : PubKeys) (recover : keys.Recover) :
    (∀ n : Nat, (n : Int) ≤ MAX_MONEY → ∃ code,
      checkedCompressAmount n = some code ∧ compressAmount n = code ∧
        checkedDecompressAmount code = some n ∧ decompressAmount code = n) ∧
    Set.InjOn compressAmount {n | (n : Int) ≤ MAX_MONEY} ∧
    (∀ x n : Nat, x < 2 ^ 64 → checkedDecompressAmount x = some n →
      decompressAmount x = n ∧ compressAmount n = x) ∧
    ∀ script old : CScript, script.length + nSpecialScripts < 2 ^ 32 →
      Reads (CScriptCompressor.unserialize keys old) (CScriptCompressor.serialize keys script)
        script := by
  have most : MAX_MONEY < 2 ^ 60 := by decide
  have amounts : ∀ n : Nat, (n : Int) ≤ MAX_MONEY → ∃ code,
      checkedCompressAmount n = some code ∧ compressAmount n = code ∧
        checkedDecompressAmount code = some n ∧ decompressAmount code = n := by
    intro n isMoney
    obtain ⟨code, compressed, same, decompressed⟩ := @checked_amount n (by omega)
    refine ⟨code, compressed, same, decompressed, ?_⟩
    rw [← same]
    exact decompressAmount_compressAmount (by omega)
  refine ⟨amounts, ?_, ?_, ?_⟩
  · intro first isMoney second isMoney' same
    obtain ⟨code, -, isCode, -, back⟩ := amounts first isMoney
    obtain ⟨code', -, isCode', -, back'⟩ := amounts second isMoney'
    rw [← back, ← back', ← isCode, ← isCode', same]
  · intro x n fits kept
    exact compressAmount_decompressAmount fits kept
  · intro script old fits
    exact reads_script recover fits old

theorem compressor_exact_generatorScript :
    decompressAmount (compressAmount 1000000) = 1000000 ∧
      (CScriptCompressor.serialize generatorKeys generatorScript).length = 33 ∧
      Reads (CScriptCompressor.unserialize generatorKeys [])
        (CScriptCompressor.serialize generatorKeys generatorScript) generatorScript := by
  obtain ⟨amounts, _, _, scripts⟩ := compressor_exact generatorKeys generatorKeys_recover
  obtain ⟨code, -, same, -, back⟩ := amounts 1000000 (by decide)
  refine ⟨by rwa [same], ?_, scripts generatorScript [] (by decide)⟩
  decide

/-- The coded length of a giant script is that of a key hash. -/
theorem giantScript_not_read :
    ¬∀ keys : PubKeys, keys.Recover → ∀ script old : CScript,
      Reads (CScriptCompressor.unserialize keys old) (CScriptCompressor.serialize keys script)
        script := by
  intro always
  obtain ⟨script, rest, split, length⟩ : ∃ script rest : CScript,
      script = List.replicate 20 0 ++ 0 :: rest ∧ script.length = 2 ^ 32 - 6 := by
    refine ⟨_, List.replicate (2 ^ 32 - 27) 0, rfl, ?_⟩
    rw [List.length_append, List.length_cons, List.length_replicate, List.length_replicate]
    norm_num
  have whole := always noKeys noKeys_recover script [] []
  rw [serialize_giantScript length, List.append_nil, split] at whole
  have special : Reads (CScriptCompressor.unserialize noKeys [])
      (UInt8.ofNat 0 :: List.replicate 20 0)
      (CScriptCompressor.decompress noKeys 0 (List.replicate 20 0) []) :=
    reads_special (by decide) rfl rfl
  have same := Except.ok.inj ((special (0 :: rest)).symm.trans whole)
  exact List.cons_ne_nil _ _ (congrArg Prod.snd same)

end Exact

end Lycancoin

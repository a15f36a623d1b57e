import Lycancoin.Primitives.DecimalText

namespace Lycancoin

/-! Amounts as texts, `FormatMoney` and `ParseMoney`. -/

/-- The `%08d` of `strprintf`, for a value that is not negative. -/
def paddedText (width : Nat) (n : Nat) : List Char :=
  List.replicate (width - (Nat.toDigits 10 n).length) '0' ++ Nat.toDigits 10 n

/-- How many zeros the loop goes over, from the last character to the first. -/
def nTrim : List Char → Nat
  | c :: d :: e :: rest => if c = '0' && e.isDigit then nTrim (d :: e :: rest) + 1 else 0
  | _ => 0

/-- `FormatMoney`.  There is no result where the amount has no opposite. -/
def formatMoney (n : Int) (fPlus : Bool) : Option (List Char) :=
  (int64 (if n > 0 then n else -n)).map fun nAbs =>
    let quotient := nAbs / COIN
    let remainder := nAbs % COIN
    let str := intText quotient ++ '.' :: paddedText 8 remainder.toNat
    let str := str.take (str.length - nTrim str.reverse)
    if n < 0 then '-' :: str
    else if fPlus && decide (n > 0) then '+' :: str
    else str

/-- The text as `c_str` gives it, up to the first zero. -/
def cString (str : List Char) : List Char := str.takeWhile fun c => c ≠ '\x00'

/-- The loop over the digits behind the point.  There is no result where a sum does not fit. -/
def readUnits (nMult nUnits : Int) : List Char → Option (Int × List Char)
  | [] => some (nUnits, [])
  | p :: rest =>
      if p.isDigit && decide (nMult > 0) then do
        let digit ← int64 (nMult * ((p.toNat : Int) - '0'.toNat))
        let sum ← int64 (nUnits + digit)
        readUnits (nMult / 10) sum rest
      else some (nUnits, p :: rest)

/-- The loop over the text before the space behind it, with the digits so far.  The inner option
is that of the function. -/
def readMoney (strWhole : List Char) : List Char → Option (Option (List Char × Int × List Char))
  | [] => some (some (strWhole, 0, []))
  | p :: rest =>
      if p = '.' then
        (readUnits (CENT * 10) 0 rest).map fun (nUnits, rest) => some (strWhole, nUnits, rest)
      else if isSpace p then some (some (strWhole, 0, p :: rest))
      else if !p.isDigit then some none
      else readMoney (strWhole ++ [p]) rest

/-- `ParseMoney`.  The inner option is the result, and there is none around it where a sum or a
product does not fit. -/
def parseMoney (str : List Char) : Option (Option Int) := do
  match ← readMoney [] ((cString str).dropWhile isSpace) with
  | none => some none
  | some (strWhole, nUnits, rest) =>
      if !rest.all isSpace then some none
      else if strWhole.length > 10 then some none
      else if nUnits < 0 ∨ nUnits > COIN then some none
      else do
        let nWhole := atoi64 strWhole
        let product ← int64 (nWhole * COIN)
        let nValue ← int64 (product + nUnits)
        some (some nValue)

/-- A decimal number as it is written, with space around it.  Where there are no digits it is
zero. -/
structure WrittenMoney where
  before : List Char
  whole : List Char
  fraction : Option (List Char)
  after : List Char
  before_space : ∀ c ∈ before, isSpace c = true
  whole_digits : ∀ c ∈ whole, c.isDigit = true
  fraction_digits : ∀ c ∈ fraction.getD [], c.isDigit = true
  after_space : ∀ c ∈ after, isSpace c = true
  whole_short : whole.length ≤ 10
  fraction_short : (fraction.getD []).length ≤ 8

namespace WrittenMoney

variable (written : WrittenMoney)

/-- The text behind the space in front. -/
def body : List Char :=
  written.whole ++ written.fraction.elim [] (fun digits => '.' :: digits) ++ written.after

def text : List Char := written.before ++ written.body

def value : ℚ :=
  Nat.ofDigitChars 10 written.whole 0 +
    Nat.ofDigitChars 10 (written.fraction.getD []) 0 / 10 ^ (written.fraction.getD []).length

def units : Int :=
  Nat.ofDigitChars 10 written.whole 0 * COIN +
    Nat.ofDigitChars 10 (written.fraction.getD []) 0 * 10 ^ (8 - (written.fraction.getD []).length)

theorem units_eq : (written.units : ℚ) = 10 ^ 8 * written.value := by
  have power : (10 : ℚ) ^ (8 - (written.fraction.getD []).length) *
      10 ^ (written.fraction.getD []).length = 10 ^ 8 := by
    rw [← pow_add, Nat.sub_add_cancel written.fraction_short]
  have nonzero : (10 : ℚ) ^ (written.fraction.getD []).length ≠ 0 := by positivity
  have share : (10 : ℚ) ^ 8 / 10 ^ (written.fraction.getD []).length =
      10 ^ (8 - (written.fraction.getD []).length) := by
    rw [div_eq_iff nonzero]
    exact power.symm
  rw [units, value]
  push_cast [COIN]
  rw [← share]
  ring

end WrittenMoney

theorem digit_value {c : Char} (digit : c.isDigit = true) :
    ∃ d : Nat, d ≤ 9 ∧ (c.toNat : Int) - '0'.toNat = d ∧ c.toNat - '0'.toNat = d := by
  simp only [Char.isDigit, Bool.and_eq_true, decide_eq_true_eq] at digit
  have low : '0'.toNat ≤ c.toNat := digit.1
  have high : c.toNat ≤ '9'.toNat := digit.2
  exact ⟨c.toNat - '0'.toNat, Nat.sub_le_sub_right high _, (Int.ofNat_sub low).symm, rfl⟩

theorem ofDigitChars_lt {digits : List Char} (all : ∀ c ∈ digits, c.isDigit = true) :
    Nat.ofDigitChars 10 digits 0 < 10 ^ digits.length := by
  induction digits with
  | nil => simp
  | cons c digits ih =>
      obtain ⟨d, small, -, isDigit⟩ := digit_value (all c List.mem_cons_self)
      have rest := ih fun d member => all d (List.mem_cons_of_mem c member)
      rw [Nat.ofDigitChars_cons, isDigit, Nat.ofDigitChars_eq_ofDigitChars_zero, List.length_cons,
        pow_succ]
      nlinarith

theorem atoi64_cons_of_isDigit {c : Char} {rest : List Char} (digit : c.isDigit = true) :
    atoi64 (c :: rest) =
      min (Nat.ofDigitChars 10 ((c :: rest).takeWhile Char.isDigit) 0 : Int) (2 ^ 63 - 1) := by
  have body : (c :: rest).dropWhile isSpace = c :: rest :=
    List.dropWhile_cons_of_neg (by simp [isSpace_of_isDigit digit])
  unfold atoi64
  simp only [body]
  split
  · rename_i minus
    cases (List.cons.inj minus).1
    cases digit
  · rename_i plus
    cases (List.cons.inj plus).1
    cases digit
  · simp only [Bool.false_eq_true, if_false]
    omega

theorem atoi64_digits {digits : List Char} (all : ∀ c ∈ digits, c.isDigit = true)
    (short : digits.length ≤ 10) : atoi64 digits = Nat.ofDigitChars 10 digits 0 := by
  have bound := ofDigitChars_lt all
  have power : 10 ^ digits.length ≤ 10 ^ 10 := Nat.pow_le_pow_right (by decide) short
  cases digits with
  | nil => rfl
  | cons c rest =>
      rw [atoi64_cons_of_isDigit (all c List.mem_cons_self), List.takeWhile_eq_self_iff.mpr all]
      omega

/-! ## What is read -/

theorem readMoney_append {digits : List Char} (all : ∀ c ∈ digits, c.isDigit = true)
    (strWhole rest : List Char) :
    readMoney strWhole (digits ++ rest) = readMoney (strWhole ++ digits) rest := by
  induction digits generalizing strWhole with
  | nil => simp
  | cons c digits ih =>
      have digit := all c List.mem_cons_self
      have notPoint : c ≠ '.' := by
        rintro rfl
        cases digit
      rw [List.cons_append, readMoney, if_neg notPoint, isSpace_of_isDigit digit, digit]
      simpa using ih (fun d member => all d (List.mem_cons_of_mem c member)) (strWhole ++ [c])

theorem readUnits_stop {nMult nUnits : Int} {rest : List Char}
    (stop : nMult = 0 ∨ ∀ c ∈ rest.head?, c.isDigit = false) :
    readUnits nMult nUnits rest = some (nUnits, rest) := by
  cases rest with
  | nil => rfl
  | cons c rest =>
      rw [readUnits]
      cases stop with
      | inl none => simp [none]
      | inr other => simp [other c rfl]

/-- Each digit counts for a tenth of the one before, and the sum stays below a coin. -/
theorem readUnits_append {digits : List Char} (all : ∀ c ∈ digits, c.isDigit = true) {k : Nat}
    (short : digits.length ≤ k) {nUnits : Int} (positive : 0 ≤ nUnits)
    (below : nUnits + 10 ^ k ≤ COIN) (rest : List Char) :
    readUnits (10 ^ k / 10) nUnits (digits ++ rest) =
      readUnits (10 ^ (k - digits.length) / 10)
        (nUnits + Nat.ofDigitChars 10 digits 0 * 10 ^ (k - digits.length)) rest := by
  induction digits generalizing k nUnits with
  | nil => simp
  | cons c digits ih =>
      have digit := all c List.mem_cons_self
      cases k with
      | zero => cases short
      | succ k =>
          obtain ⟨d, small, isValue, isDigit⟩ := digit_value digit
          have scale : (10 : Int) ^ (k + 1) / 10 = 10 ^ k := by
            rw [pow_succ, Int.mul_ediv_cancel _ (by decide)]
          have power : (0 : Int) < 10 ^ k := by positivity
          rw [List.length_cons] at short
          rw [pow_succ] at below
          have most : (10 : Int) ^ k * d ≤ 10 ^ k * 9 :=
            mul_le_mul_of_nonneg_left (by omega) power.le
          have least : 0 ≤ (10 : Int) ^ k * d := by positivity
          have coin : COIN = 100000000 := rfl
          have product : InInt64 ((10 : Int) ^ k * d) := by
            unfold InInt64
            omega
          have sum : InInt64 (nUnits + (10 : Int) ^ k * d) := by
            unfold InInt64
            omega
          have rest' := ih (fun d member => all d (List.mem_cons_of_mem c member))
            (show digits.length ≤ k by omega)
            (show 0 ≤ nUnits + (10 : Int) ^ k * d by omega) (by omega)
          rw [List.cons_append, readUnits, scale, isValue, digit, decide_eq_true power,
            int64_of_inInt64 product]
          simp only [Bool.and_self, if_true, Option.bind_eq_bind, Option.bind_some,
            int64_of_inInt64 sum, rest', List.length_cons]
          have split : (10 : Int) ^ k = 10 ^ digits.length * 10 ^ (k - digits.length) := by
            rw [← pow_add, Nat.add_sub_cancel' (by omega)]
          rw [Nat.ofDigitChars_cons, isDigit, @Nat.ofDigitChars_eq_ofDigitChars_zero digits (10 * 0 + d),
            Nat.add_sub_add_right, split]
          congr 1
          push_cast
          ring

theorem exists_digits (k : Nat) (text : List Char) :
    ∃ digits rest, text = digits ++ rest ∧ (∀ c ∈ digits, c.isDigit = true) ∧
      digits.length ≤ k ∧ (digits.length = k ∨ ∀ c ∈ rest.head?, c.isDigit = false) := by
  induction k generalizing text with
  | zero => exact ⟨[], text, rfl, by simp, Nat.le_refl 0, Or.inl rfl⟩
  | succ k ih =>
      cases text with
      | nil => exact ⟨[], [], rfl, by simp, Nat.zero_le _, Or.inr (by simp)⟩
      | cons c text =>
          by_cases digit : c.isDigit = true
          · obtain ⟨digits, rest, rfl, all, short, stop⟩ := ih text
            refine ⟨c :: digits, rest, rfl, ?_, Nat.succ_le_succ short, ?_⟩
            · simpa [digit] using all
            · simpa using stop
          · exact ⟨[], c :: text, rfl, by simp, Nat.zero_le _, Or.inr (by simpa using digit)⟩

theorem readMoney_fraction {whole fraction rest : List Char}
    (wholeDigits : ∀ c ∈ whole, c.isDigit = true) (digits : ∀ c ∈ fraction, c.isDigit = true)
    (short : fraction.length ≤ 8)
    (stop : fraction.length = 8 ∨ ∀ c ∈ rest.head?, c.isDigit = false) :
    readMoney [] (whole ++ '.' :: (fraction ++ rest)) =
      some (some (whole, (Nat.ofDigitChars 10 fraction 0 : Int) * 10 ^ (8 - fraction.length),
        rest)) := by
  have ended : (10 : Int) ^ (8 - fraction.length) / 10 = 0 ∨ ∀ c ∈ rest.head?, c.isDigit = false := by
    rcases stop with full | other
    · exact Or.inl (by rw [full]; rfl)
    · exact Or.inr other
  have units := readUnits_append digits short (Int.le_refl 0) (by decide) rest
  rw [readUnits_stop ended, zero_add] at units
  have first : CENT * 10 = (10 : Int) ^ 8 / 10 := by decide
  rw [readMoney_append wholeDigits, List.nil_append, readMoney, if_pos rfl, first, units]
  rfl

theorem readMoney_whole {whole rest : List Char} (digits : ∀ c ∈ whole, c.isDigit = true)
    (space : ∀ c ∈ rest.head?, isSpace c = true) :
    readMoney [] (whole ++ rest) = some (some (whole, 0, rest)) := by
  rw [readMoney_append digits, List.nil_append]
  cases rest with
  | nil => rfl
  | cons c rest =>
      have blank := space c rfl
      have notPoint : c ≠ '.' := by
        rintro rfl
        cases blank
      rw [readMoney, if_neg notPoint, if_pos blank]

theorem fraction_bounds {fraction : List Char} (digits : ∀ c ∈ fraction, c.isDigit = true)
    (short : fraction.length ≤ 8) :
    0 ≤ (Nat.ofDigitChars 10 fraction 0 : Int) * 10 ^ (8 - fraction.length) ∧
      (Nat.ofDigitChars 10 fraction 0 : Int) * 10 ^ (8 - fraction.length) ≤ COIN := by
  have power : 10 ^ fraction.length * 10 ^ (8 - fraction.length) = 10 ^ 8 := by
    rw [← pow_add, Nat.add_sub_cancel' short]
  have scaled := Nat.mul_le_mul_right (10 ^ (8 - fraction.length)) (ofDigitChars_lt digits).le
  rw [power] at scaled
  have coin : COIN = (10 ^ 8 : Nat) := rfl
  constructor
  · positivity
  · rw [coin]
    exact_mod_cast scaled

/-- No sum leaves the range, as there are at most ten digits in front of the point. -/
theorem parseMoney_of_read {str whole rest : List Char} {nUnits : Int}
    (read : readMoney [] ((cString str).dropWhile isSpace) = some (some (whole, nUnits, rest)))
    (digits : ∀ c ∈ whole, c.isDigit = true) (positive : 0 ≤ nUnits) (below : nUnits ≤ COIN) :
    parseMoney str =
      if rest.all isSpace = true ∧ whole.length ≤ 10 then
        some (some (Nat.ofDigitChars 10 whole 0 * COIN + nUnits))
      else some none := by
  unfold parseMoney
  rw [read]
  simp only [Option.bind_eq_bind, Option.bind_some]
  by_cases space : rest.all isSpace = true
  · by_cases short : whole.length ≤ 10
    · have bound := ofDigitChars_lt digits
      have power : 10 ^ whole.length ≤ 10 ^ 10 := Nat.pow_le_pow_right (by decide) short
      have coin : COIN = 100000000 := rfl
      have product : InInt64 (Nat.ofDigitChars 10 whole 0 * COIN) := by
        rw [InInt64, coin]
        omega
      have sum : InInt64 (Nat.ofDigitChars 10 whole 0 * COIN + nUnits) := by
        rw [InInt64, coin]
        omega
      rw [if_neg (by simp [space]), if_neg (by omega), if_neg (by omega), if_pos ⟨space, short⟩,
        atoi64_digits digits short, int64_of_inInt64 product, Option.bind_some,
        int64_of_inInt64 sum, Option.bind_some]
    · rw [if_neg (by simp [space]), if_pos (by omega), if_neg (by simp [short])]
  · rw [if_pos (by simpa using space), if_neg (by simp [space])]

namespace WrittenMoney

variable {written : WrittenMoney} {str : List Char}

theorem dropWhile_text :
    written.text.dropWhile isSpace = if written.whole = [] ∧ written.fraction = none then []
      else written.body := by
  rw [text, List.dropWhile_append_of_pos written.before_space]
  split_ifs with blank
  · rw [body, blank.1, blank.2]
    simpa using written.after_space
  · cases whole : written.whole with
    | cons c rest =>
        have digit := written.whole_digits c (by rw [whole]; exact List.mem_cons_self)
        rw [body, whole]
        exact List.dropWhile_cons_of_neg (by simp [isSpace_of_isDigit digit])
    | nil =>
        cases fraction : written.fraction with
        | none => exact absurd ⟨whole, fraction⟩ blank
        | some digits =>
            rw [body, whole, fraction]
            exact List.dropWhile_cons_of_neg (by decide)

theorem head_after : ∀ c ∈ written.after.head?, isSpace c = true :=
  fun c member => written.after_space c (List.mem_of_mem_head? member)

theorem parseMoney_text (isText : cString str = written.text) :
    parseMoney str = some (some written.units) := by
  obtain ⟨positive, below⟩ := fraction_bounds written.fraction_digits written.fraction_short
  have space : written.after.all isSpace = true := by simpa using written.after_space
  by_cases blank : written.whole = [] ∧ written.fraction = none
  · have read : readMoney [] ((cString str).dropWhile isSpace) = some (some ([], 0, [])) := by
      rw [isText, dropWhile_text, if_pos blank]
      rfl
    rw [parseMoney_of_read read (by simp) (Int.le_refl 0) (by decide), units, blank.1, blank.2]
    simp
  · have read : readMoney [] ((cString str).dropWhile isSpace) = some (some (written.whole,
        (Nat.ofDigitChars 10 (written.fraction.getD []) 0 : Int) *
          10 ^ (8 - (written.fraction.getD []).length), written.after)) := by
      rw [isText, dropWhile_text, if_neg blank, body]
      cases fraction : written.fraction with
      | none =>
          simpa using readMoney_whole written.whole_digits written.head_after
      | some digits =>
          have all := written.fraction_digits
          have short := written.fraction_short
          rw [fraction] at all short
          have stop : ∀ c ∈ written.after.head?, c.isDigit = false := by
            intro c member
            by_contra digit
            rw [Bool.not_eq_false] at digit
            exact absurd (written.head_after c member) (by simp [isSpace_of_isDigit digit])
          simpa using readMoney_fraction written.whole_digits all short (Or.inr stop)
    rw [parseMoney_of_read read written.whole_digits positive below,
      if_pos ⟨space, written.whole_short⟩, units]

end WrittenMoney

theorem exists_span (test : Char → Bool) (text : List Char) :
    ∃ taken rest, text = taken ++ rest ∧ (∀ c ∈ taken, test c = true) ∧
      (∀ c ∈ rest.head?, test c = false) ∧ text.dropWhile test = rest := by
  refine ⟨text.takeWhile test, text.dropWhile test, List.takeWhile_append_dropWhile.symm,
    fun c member => List.mem_takeWhile_imp member, ?_, rfl⟩
  intro c member
  have first := List.head?_dropWhile_not test text
  rw [member] at first
  exact first

theorem parseMoney_cases (str : List Char) :
    parseMoney str = some none ∨ ∃ written : WrittenMoney, cString str = written.text := by
  obtain ⟨before, body, isText, spaces, -, dropped⟩ := exists_span isSpace (cString str)
  obtain ⟨whole, rest, isBody, digits, other, -⟩ := exists_span Char.isDigit body
  have plain : (∀ c ∈ rest.head?, isSpace c = true) → parseMoney str = some none ∨
      ∃ written : WrittenMoney, cString str = written.text := by
    intro space
    have read := readMoney_whole digits space
    rw [← isBody, ← dropped] at read
    rw [parseMoney_of_read read digits (Int.le_refl 0) (by decide)]
    split_ifs with accepted
    · refine Or.inr ⟨⟨before, whole, none, rest, spaces, digits, by simp,
        by simpa using accepted.1, accepted.2, by simp⟩, ?_⟩
      rw [isText, isBody]
      simp [WrittenMoney.text, WrittenMoney.body]
    · exact Or.inl rfl
  cases rest with
  | nil => exact plain (by simp)
  | cons c more =>
      by_cases point : c = '.'
      · obtain ⟨fraction, after, rfl, all, short, stop⟩ := exists_digits 8 more
        obtain ⟨positive, below⟩ := fraction_bounds all short
        have read := readMoney_fraction digits all short stop
        rw [← point, ← isBody, ← dropped] at read
        rw [parseMoney_of_read read digits positive below]
        split_ifs with accepted
        · refine Or.inr ⟨⟨before, whole, some fraction, after, spaces, digits, all,
            by simpa using accepted.1, accepted.2, short⟩, ?_⟩
          rw [isText, isBody, point]
          simp [WrittenMoney.text, WrittenMoney.body]
        · exact Or.inl rfl
      · by_cases space : isSpace c = true
        · exact plain (by simpa using space)
        · left
          have read : readMoney [] ((cString str).dropWhile isSpace) = some none := by
            rw [dropped, isBody, readMoney_append digits, List.nil_append, readMoney,
              if_neg point, if_neg space, other c rfl]
            rfl
          rw [parseMoney, read]
          rfl

theorem parseMoney_eq_some_iff (str : List Char) (amount : Int) :
    parseMoney str = some (some amount) ↔
      ∃ written : WrittenMoney, cString str = written.text ∧
        (amount : ℚ) = 10 ^ 8 * written.value := by
  constructor
  · intro parsed
    obtain rejected | ⟨written, isText⟩ := parseMoney_cases str
    · rw [rejected] at parsed
      cases parsed
    · rw [WrittenMoney.parseMoney_text isText] at parsed
      cases parsed
      exact ⟨written, isText, written.units_eq⟩
  · rintro ⟨written, isText, isAmount⟩
    rw [← written.units_eq] at isAmount
    rw [WrittenMoney.parseMoney_text isText, Int.cast_injective isAmount]

/-! ## What is written -/

/-- The loop stops two places behind the point at the latest. -/
theorem nTrim_spec {fraction : List Char} (digits : ∀ c ∈ fraction, c.isDigit = true)
    (long : 2 ≤ fraction.length) (rest : List Char) :
    ∃ kept, fraction = List.replicate (nTrim (fraction ++ '.' :: rest)) '0' ++ kept ∧
      2 ≤ kept.length := by
  induction fraction with
  | nil => cases long
  | cons c fraction ih =>
      cases fraction with
      | nil => simp at long
      | cons d fraction =>
          cases fraction with
          | nil => exact ⟨[c, d], by simp [nTrim], by simp⟩
          | cons e fraction =>
              have digit : e.isDigit = true := digits e (by simp)
              by_cases zero : c = '0'
              · obtain ⟨kept, isKept, long⟩ := ih (fun f member => digits f (by simp_all))
                  (by simp)
                refine ⟨kept, ?_, long⟩
                rw [List.cons_append, List.cons_append, List.cons_append, nTrim]
                simp only [zero, digit, decide_true, Bool.and_self, if_true]
                rw [List.replicate_succ, List.cons_append]
                exact congrArg _ isKept
              · refine ⟨c :: d :: e :: fraction, ?_, by simp⟩
                rw [List.cons_append, List.cons_append, List.cons_append, nTrim]
                simp [zero]

theorem paddedText_spec {width n : Nat} (positive : 0 < width) (fits : n < 10 ^ width) :
    (paddedText width n).length = width ∧ (∀ c ∈ paddedText width n, c.isDigit = true) ∧
      Nat.ofDigitChars 10 (paddedText width n) 0 = n := by
  have short := (Nat.length_toDigits_le_iff (by decide) positive).mpr fits
  refine ⟨?_, ?_, ?_⟩
  · rw [paddedText, List.length_append, List.length_replicate]
    omega
  · intro c member
    rcases List.mem_append.mp member with zero | digit
    · rw [List.eq_of_mem_replicate zero]
      rfl
    · exact isDigit_of_mem_toDigits digit
  · rw [paddedText, Nat.ofDigitChars_append, Nat.ofDigitChars_replicate_zero, Nat.mul_zero,
      Nat.ofDigitChars_ten_toDigits]

/-- The text of an amount is a number of at most ten and at most eight digits, without space. -/
theorem formatMoney_spec {n : Int} (range : moneyRange n = true) :
    ∃ written : WrittenMoney, formatMoney n false = some written.text ∧ written.before = [] ∧
      written.after = [] ∧ written.units = n := by
  obtain ⟨positive, below⟩ := moneyRange_iff.mp range
  have coin : COIN = 100000000 := rfl
  rw [MAX_MONEY, coin] at below
  have fits : InInt64 n := by
    unfold InInt64
    omega
  have nAbs : (if n > 0 then n else -n) = n := by
    split_ifs <;> omega
  obtain ⟨quotient, isQuotient⟩ :=
    Int.eq_ofNat_of_zero_le (show 0 ≤ n / COIN by rw [coin]; omega)
  obtain ⟨remainder, isRemainder⟩ :=
    Int.eq_ofNat_of_zero_le (show 0 ≤ n % COIN by rw [coin]; omega)
  have small : (remainder : Int) < COIN := isRemainder ▸ Int.emod_lt_of_pos n (by decide)
  have parts := Int.mul_ediv_add_emod n COIN
  rw [isQuotient, isRemainder] at parts
  rw [coin] at parts small
  have wholeShort : (Nat.toDigits 10 quotient).length ≤ 10 :=
    (Nat.length_toDigits_le_iff (by decide) (by decide)).mpr (by omega)
  obtain ⟨length, digits, value⟩ :=
    paddedText_spec (show 0 < 8 by decide) (show remainder < 10 ^ 8 by omega)
  have reversed : ∀ c ∈ (paddedText 8 remainder).reverse, c.isDigit = true := by simpa using digits
  obtain ⟨kept, isKept, -⟩ := nTrim_spec reversed (by simp [length])
    (Nat.toDigits 10 quotient).reverse
  generalize trimmed : nTrim ((paddedText 8 remainder).reverse ++
    '.' :: (Nat.toDigits 10 quotient).reverse) = trim at isKept
  have isPadded : paddedText 8 remainder = kept.reverse ++ List.replicate trim '0' := by
    rw [← List.reverse_reverse (paddedText 8 remainder), isKept, List.reverse_append,
      List.reverse_replicate]
  have lengths : kept.length + trim = 8 := by
    rw [← length, isPadded, List.length_append, List.length_reverse, List.length_replicate]
  have fraction : ∀ c ∈ kept.reverse, c.isDigit = true := fun c member =>
    digits c (by rw [isPadded]; exact List.mem_append_left _ member)
  have written : formatMoney n false =
      some (Nat.toDigits 10 quotient ++ '.' :: kept.reverse) := by
    have whole : intText (quotient : Int) = Nat.toDigits 10 quotient := by
      rw [intText, if_neg (by omega), Int.natAbs_natCast]
    have reverse : (Nat.toDigits 10 quotient ++ '.' :: paddedText 8 remainder).reverse =
        (paddedText 8 remainder).reverse ++ '.' :: (Nat.toDigits 10 quotient).reverse := by
      simp
    have shown : Nat.toDigits 10 quotient ++ '.' :: paddedText 8 remainder =
        (Nat.toDigits 10 quotient ++ '.' :: kept.reverse) ++ List.replicate trim '0' := by
      rw [isPadded]
      simp
    have cut : (Nat.toDigits 10 quotient ++ '.' :: paddedText 8 remainder).take
        ((Nat.toDigits 10 quotient ++ '.' :: paddedText 8 remainder).length - trim) =
          Nat.toDigits 10 quotient ++ '.' :: kept.reverse := by
      rw [shown, List.length_append, List.length_replicate, Nat.add_sub_cancel]
      exact List.take_left
    rw [formatMoney, nAbs, int64_of_inInt64 fits, Option.map_some]
    simp only [isQuotient, isRemainder, whole, Int.toNat_natCast, reverse, trimmed, cut]
    rw [if_neg (by omega)]
    rfl
  refine ⟨⟨[], Nat.toDigits 10 quotient, some kept.reverse, [], by simp,
    fun c member => isDigit_of_mem_toDigits member, fraction, by simp, wholeShort,
    by simp only [Option.getD_some, List.length_reverse]; omega⟩, ?_, rfl, rfl, ?_⟩
  · rw [written]
    simp [WrittenMoney.text, WrittenMoney.body]
  · have scaled : Nat.ofDigitChars 10 kept.reverse 0 * 10 ^ trim = remainder := by
      rw [← value, isPadded, Nat.ofDigitChars_append, Nat.ofDigitChars_replicate_zero, Nat.mul_comm]
    have exponent : 8 - kept.length = trim := by omega
    simp only [WrittenMoney.units, Option.getD_some, List.length_reverse, exponent,
      Nat.ofDigitChars_ten_toDigits]
    rw [← parts, ← scaled, coin]
    push_cast
    ring

theorem cString_text {written : WrittenMoney} (before : written.before = [])
    (after : written.after = []) : cString written.text = written.text := by
  apply List.takeWhile_eq_self_iff.mpr
  intro c member
  have shown : c.isDigit = true ∨ c = '.' := by
    rw [WrittenMoney.text, WrittenMoney.body, before, after] at member
    simp only [List.nil_append, List.append_nil, List.mem_append] at member
    rcases member with whole | rest
    · exact Or.inl (written.whole_digits c whole)
    · cases fraction : written.fraction with
      | none =>
          rw [fraction] at rest
          cases rest
      | some digits =>
          rw [fraction] at rest
          rcases List.mem_cons.mp rest with point | digit
          · exact Or.inr point
          · exact Or.inl (written.fraction_digits c (by simpa [fraction] using digit))
  rcases shown with digit | rfl
  · rw [decide_eq_true_eq]
    rintro rfl
    cases digit
  · decide

/-- What `FormatMoney` writes is read back, and what is accepted is a decimal number of at most
eight digits behind the point, which is the amount. -/
theorem parseMoney_exact :
    (∀ n : Int, moneyRange n = true →
      (formatMoney n false).bind parseMoney = some (some n)) ∧
    (∀ str, parseMoney str ≠ none) ∧
    ∀ str amount, parseMoney str = some (some amount) ↔
      ∃ written : WrittenMoney, cString str = written.text ∧
        (amount : ℚ) = 10 ^ 8 * written.value := by
  refine ⟨fun n range => ?_, fun str => ?_, parseMoney_eq_some_iff⟩
  · obtain ⟨written, isText, before, after, units⟩ := formatMoney_spec range
    rw [isText, Option.bind_some, WrittenMoney.parseMoney_text (cString_text before after), units]
  · obtain rejected | ⟨written, isText⟩ := parseMoney_cases str
    · rw [rejected]
      exact nofun
    · rw [WrittenMoney.parseMoney_text isText]
      exact nofun

theorem parseMoney_exact_cent :
    (formatMoney 1000000 false).bind parseMoney = some (some 1000000) :=
  parseMoney_exact.1 1000000 (by decide)

end Lycancoin

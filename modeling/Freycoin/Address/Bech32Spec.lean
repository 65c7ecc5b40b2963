import Freycoin.Address.KeyIo
import Mathlib.Data.LawfulXor.Basic

/-! What the Bech32 checksum accepts, and what a v0 address accepts with it. -/

namespace Freycoin.Bech32

open AdditiveFold

/-- A character that `CheckCharacters` accepts in a string without capitals. -/
def LowerPrintable (c : Char) : Prop :=
  ¬('A'.toNat ≤ c.toNat ∧ c.toNat ≤ 'Z'.toNat) ∧ 33 ≤ c.toNat ∧ c.toNat ≤ 126

instance : DecidablePred LowerPrintable := fun c =>
  inferInstanceAs (Decidable (¬('A'.toNat ≤ c.toNat ∧ c.toNat ≤ 'Z'.toNat) ∧ 33 ≤ c.toNat ∧
    c.toNat ≤ 126))

section Symbols

theorem charsetChar_spec :
    ∀ v < 32, LowerPrintable (charsetChar v) ∧ charsetChar v ≠ '1' ∧
      charsetValue (charsetChar v) = some v := by
  intro v small
  have table : ∀ w : Fin 32, LowerPrintable (charsetChar w) ∧ charsetChar w ≠ '1' ∧
      charsetValue (charsetChar w) = some w := by decide
  exact table ⟨v, small⟩

theorem charsetChar_injective {v w : ℕ} (hv : v < 32) (hw : w < 32)
    (same : charsetChar v = charsetChar w) : v = w := by
  have back := (charsetChar_spec v hv).2.2
  rw [same, (charsetChar_spec w hw).2.2] at back
  exact (Option.some.inj back).symm

theorem mapM_charsetValue (values : List ℕ) (small : ∀ v ∈ values, v < 32) :
    (values.map charsetChar).mapM charsetValue = some values := by
  induction values with
  | nil => rfl
  | cons v values ih =>
      rw [List.map_cons, List.mapM_cons, (charsetChar_spec v (small v (List.mem_cons_self ..))).2.2,
        ih (fun w inside => small w (List.mem_cons_of_mem _ inside))]
      rfl

theorem lowerCase_of_lowerPrintable {c : Char} (good : LowerPrintable c) : lowerCase c = c := by
  rw [lowerCase, if_neg]
  exact good.1

end Symbols

section Characters

theorem checkCharactersStep_of_lowerPrintable (lower : Bool) {ch : Char} (i : ℕ)
    (good : LowerPrintable ch) :
    ∃ lower', checkCharactersStep (lower, false, []) (ch, i) = (lower', false, []) := by
  obtain ⟨notUpper, printable⟩ := good
  simp only [checkCharactersStep, Bool.false_eq_true, ↓reduceIte]
  by_cases small : 'a'.toNat ≤ ch.toNat ∧ ch.toNat ≤ 'z'.toNat
  · rw [if_pos small]
    exact ⟨true, rfl⟩
  · rw [if_neg small, if_neg notUpper, if_neg (by omega)]
    exact ⟨lower, rfl⟩

theorem foldl_checkCharactersStep (str : List Char) (good : ∀ c ∈ str, LowerPrintable c) :
    ∀ (lower : Bool) (n : ℕ), ∃ lower',
      (str.zipIdx n).foldl checkCharactersStep (lower, false, []) = (lower', false, []) := by
  induction str with
  | nil => intro lower n; exact ⟨lower, rfl⟩
  | cons ch str ih =>
      intro lower n
      obtain ⟨lower', step⟩ :=
        checkCharactersStep_of_lowerPrintable lower n (good ch (List.mem_cons_self ..))
      rw [List.zipIdx_cons, List.foldl_cons, step]
      exact ih (fun c inside => good c (List.mem_cons_of_mem _ inside)) lower' (n + 1)

theorem checkCharacters_of_lowerPrintable {str : List Char} (good : ∀ c ∈ str, LowerPrintable c) :
    checkCharacters str = true := by
  obtain ⟨_, folded⟩ := foldl_checkCharactersStep str good false 0
  rw [checkCharacters, folded]
  rfl

theorem rfind_separator (hrp rest : List Char) (noSeparator : '1' ∉ rest) :
    rfind '1' (hrp ++ '1' :: rest) = some hrp.length := by
  have missing : rest.reverse.findIdx? (· = '1') = none := by
    rw [List.findIdx?_eq_none_iff]
    intro c inside
    have : c ≠ '1' := fun same => noSeparator (same ▸ List.mem_reverse.mp inside)
    simpa using this
  rw [rfind, List.reverse_append, List.reverse_cons, List.append_assoc, List.singleton_append,
    List.findIdx?_append, missing, Option.none_or, List.findIdx?_cons]
  simp only [decide_true, ↓reduceIte, Option.map_some, List.length_reverse, List.length_append,
    List.length_cons]
  congr 1
  omega

end Characters

section Residues

theorem feedback_lt (c0 : ℕ) : feedback c0 < 2 ^ 30 := by
  unfold feedback
  repeat' apply Nat.xor_lt_two_pow
  all_goals split_ifs <;> decide

theorem polyModStep_lt (c : ℕ) {v : ℕ} (hv : v < 32) : polyModStep c v < 2 ^ 30 := by
  rw [polyModStep_eq]
  apply Nat.xor_lt_two_pow _ (feedback_lt _)
  apply Nat.xor_lt_two_pow _ (by omega)
  have low : c &&& 0x1ffffff < 2 ^ 25 := Nat.and_lt_two_pow c (by decide)
  rw [Nat.shiftLeft_eq]
  omega

theorem foldl_polyModStep_lt (values : List ℕ) (small : ∀ v ∈ values, v < 32) :
    ∀ c < 2 ^ 30, values.foldl polyModStep c < 2 ^ 30 := by
  induction values with
  | nil => intro c hc; exact hc
  | cons v values ih =>
      intro c hc
      exact ih (fun w inside => small w (List.mem_cons_of_mem _ inside)) _
        (polyModStep_lt c (small v (List.mem_cons_self ..)))

theorem mul_two_pow_xor (c v k : ℕ) (small : v < 2 ^ k) : (c * 2 ^ k) ^^^ v = c * 2 ^ k + v := by
  apply Nat.eq_of_testBit_eq
  intro i
  rw [Nat.testBit_xor, Nat.testBit_mul_two_pow, Nat.mul_comm c, Nat.testBit_two_pow_mul_add c small]
  by_cases below : i < k
  · simp [below, show ¬k ≤ i by omega]
  · have clear : v.testBit i = false :=
      Nat.testBit_lt_two_pow (Nat.lt_of_lt_of_le small (Nat.pow_le_pow_right (by decide) (by omega)))
    simp [below, show k ≤ i by omega, clear]

theorem polyModStep_of_lt {c v : ℕ} (hc : c < 2 ^ 25) (hv : v < 32) :
    polyModStep c v = c * 32 + v := by
  have top : c >>> 25 = 0 := by
    rw [Nat.shiftRight_eq_div_pow]
    exact Nat.div_eq_of_lt hc
  have low : c &&& 0x1ffffff = c := Nat.and_two_pow_sub_one_of_lt_two_pow hc
  rw [polyModStep_eq, top, low, Nat.shiftLeft_eq, show feedback 0 = 0 by decide, Nat.xor_zero]
  exact mul_two_pow_xor c v 5 hv

theorem polyModStep_digit (m s t : ℕ) (next : t = s + 5) (small : m / 2 ^ t < 2 ^ 25) :
    polyModStep (m / 2 ^ t) (m / 2 ^ s % 32) = m / 2 ^ s := by
  rw [polyModStep_of_lt small (Nat.mod_lt _ (by decide)), next, Nat.pow_add,
    ← Nat.div_div_eq_div_mul]
  exact Nat.div_add_mod' (m / 2 ^ s) 32

theorem foldl_polyModStep_checksum {m : ℕ} (small : m < 2 ^ 30) :
    ((List.range checksumSize).map fun i => (m >>> (5 * (5 - i))) &&& 31).foldl polyModStep 0 =
      m := by
  have digit : ∀ s, (m >>> s) &&& 31 = m / 2 ^ s % 32 := fun s => by
    rw [Nat.shiftRight_eq_div_pow, show (31 : ℕ) = 2 ^ 5 - 1 by rfl, Nat.and_two_pow_sub_one_eq_mod]
  have first : polyModStep 0 (m / 2 ^ 25 % 32) = m / 2 ^ 25 := by
    rw [show (0 : ℕ) = m / 2 ^ 30 from (Nat.div_eq_of_lt small).symm]
    exact polyModStep_digit m 25 30 rfl (by omega)
  simp only [checksumSize, List.range_succ, List.range_zero, List.nil_append, List.map_cons,
    List.map_nil, List.cons_append, List.foldl_cons, List.foldl_nil, digit, Nat.reduceSub,
    Nat.reduceMul]
  -- the residue after `k` digits is the top `5 k` bits of `m`
  rw [first, polyModStep_digit m 20 25 rfl (by omega),
    polyModStep_digit m 15 20 rfl (by omega), polyModStep_digit m 10 15 rfl (by omega),
    polyModStep_digit m 5 10 rfl (by omega), polyModStep_digit m 0 5 rfl (by omega), Nat.pow_zero,
    Nat.div_one]

end Residues

section Checksums

theorem preparePolynomialCoefficients_append (hrp : List Char) (values extra : List ℕ) :
    preparePolynomialCoefficients hrp (values ++ extra) =
      preparePolynomialCoefficients hrp values ++ extra := by
  simp [preparePolynomialCoefficients]

theorem preparePolynomialCoefficients_lt {hrp : List Char} (printable : ∀ c ∈ hrp, LowerPrintable c)
    {values : List ℕ} (small : ∀ v ∈ values, v < 32) :
    ∀ v ∈ preparePolynomialCoefficients hrp values, v < 32 := by
  intro v inside
  simp only [preparePolynomialCoefficients, List.mem_append, List.mem_map, List.mem_singleton]
    at inside
  rcases inside with ((⟨c, member, rfl⟩ | rfl) | ⟨c, member, rfl⟩) | member
  · have := (printable c member).2.2
    rw [Nat.shiftRight_eq_div_pow]
    omega
  · decide
  · exact Nat.lt_of_le_of_lt Nat.and_le_right (by decide)
  · exact small v member

theorem zipWith_xor_replicate_zero (values : List ℕ) :
    List.zipWith (· ^^^ ·) (List.replicate values.length 0) values = values := by
  induction values with
  | nil => rfl
  | cons v values ih => rw [List.length_cons, List.replicate_succ, List.zipWith_cons_cons, ih,
      Nat.zero_xor]

theorem createChecksum_bech32m (hrp : List Char) (values : List ℕ) :
    ∃ checksum, createChecksum .bech32m hrp values = some checksum ∧
      checksum.length = checksumSize ∧ ∀ v ∈ checksum, v < 32 := by
  refine ⟨_, rfl, by simp, ?_⟩
  intro v inside
  obtain ⟨i, -, rfl⟩ := List.mem_map.mp inside
  exact Nat.lt_of_le_of_lt Nat.and_le_right (by decide)

theorem zipWith_xor_lt : ∀ {xs ys : List ℕ}, (∀ v ∈ xs, v < 32) → (∀ v ∈ ys, v < 32) →
    ∀ v ∈ List.zipWith (· ^^^ ·) xs ys, v < 32
  | [], _, _, _ => by simp
  | _ :: _, [], _, _ => by simp
  | x :: xs, y :: ys, left, right => by
      intro v inside
      rw [List.zipWith_cons_cons] at inside
      rcases List.mem_cons.mp inside with rfl | later
      · exact Nat.xor_lt_two_pow (n := 5) (left x (List.mem_cons_self ..))
          (right y (List.mem_cons_self ..))
      · exact zipWith_xor_lt (fun w member => left w (List.mem_cons_of_mem _ member))
          (fun w member => right w (List.mem_cons_of_mem _ member)) v later

theorem polyMod_createChecksum {hrp : List Char} {values checksum : List ℕ}
    (small : ∀ v ∈ preparePolynomialCoefficients hrp values, v < 32)
    (created : createChecksum .bech32m hrp values = some checksum) :
    polyMod (preparePolynomialCoefficients hrp (values ++ checksum)) = 0x2bc830a3 := by
  -- the residue with six zeros appended, and the 30-bit `mod` cut into the checksum
  obtain ⟨padded, paddedDef⟩ :
      ∃ r, polyMod (preparePolynomialCoefficients hrp values ++ List.replicate checksumSize 0) = r :=
    ⟨_, rfl⟩
  have paddedSmall : padded < 2 ^ 30 := by
    rw [← paddedDef, polyMod]
    apply foldl_polyModStep_lt
    · intro v inside
      rcases List.mem_append.mp inside with early | zero
      · exact small v early
      · rw [List.eq_of_mem_replicate zero]
        decide
    · decide
  have modSmall : padded ^^^ 0x2bc830a3 < 2 ^ 30 := Nat.xor_lt_two_pow paddedSmall (by decide)
  simp only [createChecksum, encodingConstant, Option.map_some, Option.some.injEq, paddedDef]
    at created
  have length : checksum.length = checksumSize := by rw [← created]; simp
  have residue : checksum.foldl polyModStep 0 = padded ^^^ 0x2bc830a3 := by
    rw [← created]
    exact foldl_polyModStep_checksum modSmall
  rw [preparePolynomialCoefficients_append, polyMod, List.foldl_append]
  rw [polyMod, List.foldl_append] at paddedDef
  rw [← zipWith_xor_replicate_zero checksum, length,
    foldl_add_error polyModStep_xor 0 Nat.xor_zero (by simp [length]) paddedDef residue,
    ← Nat.xor_assoc, Nat.xor_self, Nat.zero_xor]

/-- The four symbol errors, the last ten values of `errorWord`. -/
def errorTail : List ℕ := [26, 0, 0, 0, 17, 0, 0, 0, 13, 4]

/-- The error word for `n` values: zero but for four of the last ten. -/
def errorWord (n : ℕ) : List ℕ := List.replicate (n - 10) 0 ++ errorTail

theorem length_errorWord {n : ℕ} (long : 10 ≤ n) : (errorWord n).length = n := by
  simp [errorWord, errorTail]
  omega

theorem errorWord_succ {n : ℕ} (long : 10 ≤ n) : errorWord (n + 1) = 0 :: errorWord n := by
  rw [errorWord, errorWord, show n + 1 - 10 = n - 10 + 1 by omega, List.replicate_succ,
    List.cons_append]

theorem errorWord_lt (n : ℕ) : ∀ v ∈ errorWord n, v < 32 := by
  intro v inside
  rcases List.mem_append.mp inside with zero | tail
  · rw [List.eq_of_mem_replicate zero]
    decide
  · have table : ∀ v ∈ errorTail, v < 32 := by decide
    exact table v tail

theorem foldl_polyModStep_replicate_zero (k : ℕ) : (List.replicate k 0).foldl polyModStep 0 = 0 := by
  induction k with
  | zero => rfl
  | succ k ih => rw [List.replicate_succ, List.foldl_cons, show polyModStep 0 0 = 0 by decide, ih]

theorem foldl_polyModStep_errorWord (n : ℕ) :
    (errorWord n).foldl polyModStep 0 = 1 ^^^ 0x2bc830a3 := by
  rw [errorWord, List.foldl_append, foldl_polyModStep_replicate_zero]
  decide

theorem weight_errorWord (n : ℕ) : weight 0 (errorWord n) = 4 := by
  have zeros : weight 0 (List.replicate (n - 10) 0) = 0 := by
    simp [weight]
  simp only [errorWord, weight, List.countP_append] at zeros ⊢
  rw [zeros]
  decide

theorem differences_errorWord {values : List ℕ} (long : 10 ≤ values.length) :
    differences (List.zipWith (· ^^^ ·) values (errorWord values.length)) values = 4 := by
  rw [differences_zipWith 0 (fun _ _ => xor_left_eq_self_iff) values _
    (length_errorWord long).symm, weight_errorWord]

theorem verifyChecksum_errorWord (hrp : List Char) {values : List ℕ} (long : 10 ≤ values.length)
    (accepted : polyMod (preparePolynomialCoefficients hrp values) = 0x2bc830a3) :
    verifyChecksum hrp (List.zipWith (· ^^^ ·) values (errorWord values.length)) = .bech32 := by
  rw [← List.nil_append values, preparePolynomialCoefficients_append, polyMod,
    List.foldl_append] at accepted
  have moved : polyMod (preparePolynomialCoefficients hrp
      (List.zipWith (· ^^^ ·) values (errorWord values.length))) = 1 := by
    rw [← List.nil_append (List.zipWith _ _ _), preparePolynomialCoefficients_append, polyMod,
      List.foldl_append,
      foldl_add_error polyModStep_xor 0 Nat.xor_zero (length_errorWord long).symm accepted
        (foldl_polyModStep_errorWord _)]
    decide
  rw [verifyChecksum, moved]
  decide

end Checksums

section Strings

theorem encode_eq {hrp : List Char} (printable : ∀ c ∈ hrp, LowerPrintable c) {encoding : Encoding}
    {values checksum : List ℕ} (created : createChecksum encoding hrp values = some checksum) :
    encode encoding hrp values = some (hrp ++ '1' :: (values ++ checksum).map charsetChar) := by
  have noCapital : hrp.any (fun c => decide ('A' ≤ c ∧ c ≤ 'Z')) = false := by
    rw [List.any_eq_false]
    intro c inside
    rw [decide_eq_true_iff]
    exact (printable c inside).1
  rw [encode, noCapital, created]
  rfl

theorem decode_of_symbols {hrp : List Char} (nonempty : hrp ≠ [])
    (printable : ∀ c ∈ hrp, LowerPrintable c) {symbols : List ℕ} (small : ∀ v ∈ symbols, v < 32)
    (long : checksumSize < symbols.length)
    (fits : hrp.length + 1 + symbols.length ≤ charLimitBech32)
    (valid : verifyChecksum hrp symbols ≠ .invalid) :
    decode (hrp ++ '1' :: symbols.map charsetChar) charLimitBech32 =
      ⟨verifyChecksum hrp symbols, hrp, symbols.take (symbols.length - checksumSize)⟩ := by
  have good : ∀ c ∈ hrp ++ '1' :: symbols.map charsetChar, LowerPrintable c := by
    intro c inside
    rcases List.mem_append.mp inside with early | rest
    · exact printable c early
    · rcases List.mem_cons.mp rest with rfl | symbol
      · decide
      · obtain ⟨v, member, rfl⟩ := List.mem_map.mp symbol
        exact (charsetChar_spec v (small v member)).1
  have noSeparator : '1' ∉ symbols.map charsetChar := by
    intro member
    obtain ⟨v, inside, same⟩ := List.mem_map.mp member
    exact (charsetChar_spec v (small v inside)).2.1 same
  have positive : hrp.length ≠ 0 := fun zero => nonempty (List.eq_nil_of_length_eq_zero zero)
  have hrpSame : (hrp.map lowerCase) = hrp := by
    rw [List.map_congr_left (fun c inside => lowerCase_of_lowerPrintable (printable c inside)),
      List.map_id']
  rw [decode, checkCharacters_of_lowerPrintable good, rfind_separator hrp _ noSeparator]
  simp only [Bool.not_true, Bool.false_eq_true, ↓reduceIte, List.length_append, List.length_cons,
    List.length_map]
  have inLimit : ¬charLimitBech32 < hrp.length + (symbols.length + 1) := by omega
  have room : ¬(hrp.length = 0 ∨ hrp.length + (symbols.length + 1) ≤ hrp.length + checksumSize) := by
    omega
  have dropped : List.drop (hrp.length + 1) (hrp ++ '1' :: symbols.map charsetChar) =
      symbols.map charsetChar := by
    rw [List.drop_append, List.drop_eq_nil_of_le (by omega), Nat.add_sub_cancel_left,
      List.nil_append]
    rfl
  rw [if_neg inLimit, if_neg room, dropped, mapM_charsetValue symbols small, List.take_left,
    hrpSame]
  exact if_neg valid

theorem differences_symbols (hrp : List Char) {xs ys : List ℕ} (hx : ∀ v ∈ xs, v < 32)
    (hy : ∀ v ∈ ys, v < 32) :
    differences (hrp ++ '1' :: xs.map charsetChar) (hrp ++ '1' :: ys.map charsetChar) =
      differences xs ys := by
  rw [differences_append rfl, differences_self, differences_cons, if_pos rfl,
    differences_map charsetChar xs ys
      (fun x inX y inY same => charsetChar_injective (hx x inX) (hy y inY) same)]
  omega

end Strings

end Freycoin.Bech32

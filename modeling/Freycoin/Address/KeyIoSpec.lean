import Freycoin.Address.Bech32Spec

/-! What `DecodeDestination` accepts around a v0 address. -/

namespace Freycoin.KeyIo

open Bech32 AdditiveFold

section ConvertBits

theorem emitGroups_spec (tobits acc : ℕ) :
    ∀ (n bits : ℕ) (out : List ℕ),
      (emitGroups tobits acc n bits out).1 = bits - n * tobits ∧
      (emitGroups tobits acc n bits out).2.length = out.length + n ∧
      ∀ x ∈ (emitGroups tobits acc n bits out).2, x ∈ out ∨ x < 2 ^ tobits := by
  intro n
  induction n with
  | zero =>
      intro bits out
      refine ⟨by simp [emitGroups], rfl, fun x inside => Or.inl inside⟩
  | succ n ih =>
      intro bits out
      obtain ⟨bitsEq, lengthEq, member⟩ :=
        ih (bits - tobits) (out ++ [(acc >>> (bits - tobits)) &&& (2 ^ tobits - 1)])
      refine ⟨?_, ?_, ?_⟩
      · rw [emitGroups, bitsEq, Nat.sub_sub, Nat.succ_mul, Nat.add_comm tobits]
      · rw [emitGroups, lengthEq, List.length_append, List.length_singleton]
        omega
      · intro x inside
        rw [emitGroups] at inside
        rcases member x inside with early | small
        · rcases List.mem_append.mp early with old | new
          · exact Or.inl old
          · rw [List.mem_singleton.mp new]
            exact Or.inr (Nat.and_lt_two_pow _ (Nat.sub_lt (Nat.two_pow_pos _) Nat.one_pos))
        · exact Or.inr small

theorem convertBitsStep_eq (frombits tobits acc bits : ℕ) (out : List ℕ) (v : ℕ) :
    convertBitsStep frombits tobits (acc, bits, out) v =
      let acc := ((acc <<< frombits) ||| v) &&& (2 ^ (frombits + tobits - 1) - 1)
      (acc, (emitGroups tobits acc ((bits + frombits) / tobits) (bits + frombits) out).1,
        (emitGroups tobits acc ((bits + frombits) / tobits) (bits + frombits) out).2) := rfl

theorem foldl_convertBitsStep (frombits tobits : ℕ) (positive : 0 < tobits) :
    ∀ (input : List ℕ) (acc bits : ℕ) (out : List ℕ), bits < tobits →
      (∀ x ∈ out, x < 2 ^ tobits) →
      (input.foldl (convertBitsStep frombits tobits) (acc, bits, out)).2.1 =
          (bits + frombits * input.length) % tobits ∧
        (input.foldl (convertBitsStep frombits tobits) (acc, bits, out)).2.2.length =
          out.length + (bits + frombits * input.length) / tobits ∧
        ∀ x ∈ (input.foldl (convertBitsStep frombits tobits) (acc, bits, out)).2.2,
          x < 2 ^ tobits := by
  intro input
  induction input with
  | nil =>
      intro acc bits out below small
      simp only [List.foldl_nil, List.length_nil, Nat.mul_zero, Nat.add_zero]
      exact ⟨(Nat.mod_eq_of_lt below).symm, by rw [Nat.div_eq_of_lt below, Nat.add_zero], small⟩
  | cons v input ih =>
      intro acc bits out below small
      rw [List.foldl_cons, convertBitsStep_eq]
      dsimp only
      obtain ⟨bitsEq, lengthEq, member⟩ :=
        emitGroups_spec tobits (((acc <<< frombits) ||| v) &&& (2 ^ (frombits + tobits - 1) - 1))
          ((bits + frombits) / tobits) (bits + frombits) out
      generalize emitGroups tobits (((acc <<< frombits) ||| v) &&& (2 ^ (frombits + tobits - 1) - 1))
        ((bits + frombits) / tobits) (bits + frombits) out = emitted at bitsEq lengthEq member ⊢
      obtain ⟨bits', out'⟩ := emitted
      dsimp only at bitsEq lengthEq member ⊢
      -- after one input `bits` is the remainder of the bits read, below `tobits`
      have left : bits' = (bits + frombits) % tobits := by
        rw [bitsEq, Nat.mod_eq_sub_mul_div, Nat.mul_comm]
      obtain ⟨bitsEq', lengthEq', member'⟩ := ih _ bits' out'
        (by rw [left]; exact Nat.mod_lt _ positive)
        (fun x inside => (member x inside).elim (small x) id)
      have split := Nat.div_add_mod (bits + frombits) tobits
      refine ⟨?_, ?_, member'⟩
      · rw [bitsEq', left, List.length_cons, Nat.mul_succ, Nat.mod_add_mod]
        congr 1
        omega
      · rw [lengthEq', lengthEq, left, List.length_cons, Nat.mul_succ, Nat.add_assoc]
        have whole : bits + (frombits * input.length + frombits) =
            tobits * ((bits + frombits) / tobits) +
              ((bits + frombits) % tobits + frombits * input.length) := by omega
        rw [whole, Nat.mul_add_div positive]

theorem convertBits_eight_five (input : List ℕ) (whole : 8 * input.length % 5 = 0) :
    ∃ out, convertBits 8 5 true input = some out ∧ out.length = 8 * input.length / 5 ∧
      ∀ x ∈ out, x < 32 := by
  have facts := foldl_convertBitsStep 8 5 (by decide) input 0 0 [] (by decide)
    (fun _ inside => absurd inside List.not_mem_nil)
  unfold convertBits
  generalize input.foldl (convertBitsStep 8 5) (0, 0, []) = r at facts ⊢
  obtain ⟨acc, bits, out⟩ := r
  simp only [Nat.zero_add, List.length_nil] at facts
  obtain ⟨bitsEq, lengthEq, small⟩ := facts
  rw [whole] at bitsEq
  simp only [bitsEq, ne_eq, not_true_eq_false, ↓reduceIte]
  exact ⟨out, rfl, lengthEq, small⟩

theorem convertBits_five_eight (input : List ℕ) (whole : 5 * input.length % 8 = 0) :
    ∃ out, convertBits 5 8 false input = some out ∧ out.length = 5 * input.length / 8 := by
  have facts := foldl_convertBitsStep 5 8 (by decide) input 0 0 [] (by decide)
    (fun _ inside => absurd inside List.not_mem_nil)
  unfold convertBits
  generalize input.foldl (convertBitsStep 5 8) (0, 0, []) = r at facts ⊢
  obtain ⟨acc, bits, out⟩ := r
  simp only [Nat.zero_add, List.length_nil] at facts
  obtain ⟨bitsEq, lengthEq, _⟩ := facts
  rw [whole] at bitsEq
  have padding : (acc <<< (8 - 0)) &&& (2 ^ 8 - 1) = 0 := by
    rw [Nat.and_two_pow_sub_one_eq_mod, Nat.shiftLeft_eq, Nat.mul_mod_left]
  simp only [bitsEq, padding, Bool.false_eq_true, ↓reduceIte]
  exact ⟨out, by simp, lengthEq⟩

end ConvertBits

section Destinations

theorem encodeDestination_keyHash {hrp : List Char} (printable : ∀ c ∈ hrp, LowerPrintable c)
    {keyid : List ℕ} (size : keyid.length = 20) :
    ∃ program checksum, encodeDestination hrp (.witnessV0KeyHash keyid) =
        some (hrp ++ '1' :: (0 :: program ++ checksum).map charsetChar) ∧
      program.length = 32 ∧ checksum.length = checksumSize ∧
      (∀ v ∈ 0 :: program ++ checksum, v < 32) ∧
      polyMod (preparePolynomialCoefficients hrp (0 :: program ++ checksum)) = 0x2bc830a3 := by
  obtain ⟨program, converted, length, small⟩ := convertBits_eight_five keyid (by rw [size])
  obtain ⟨checksum, created, checksumLength, checksumSmall⟩ :=
    createChecksum_bech32m hrp (0 :: program)
  have values : ∀ v ∈ 0 :: program, v < 32 := by
    intro v inside
    rcases List.mem_cons.mp inside with rfl | later
    · decide
    · exact small v later
  refine ⟨program, checksum, ?_, by rw [length, size], checksumLength, ?_,
    polyMod_createChecksum (preparePolynomialCoefficients_lt printable values) created⟩
  · rw [encodeDestination, encodeWitness, converted, Option.getD_some, encode_eq printable created]
  · intro v inside
    rcases List.mem_append.mp inside with early | late
    · exact values v early
    · exact checksumSmall v late

theorem decodeDestination_of_decode (locateErrors : List Char → String) {hrp : List Char}
    (printable : ∀ c ∈ hrp, LowerPrintable c) {rest : List Char} {encoding : Encoding}
    {version : ℕ} {symbols : List ℕ} (valid : encoding = .bech32 ∨ encoding = .bech32m)
    (decoded : decode (hrp ++ rest) charLimitBech32 = ⟨encoding, hrp, version :: symbols⟩) :
    decodeDestination locateErrors hrp (hrp ++ rest) = decodeWitness encoding version symbols := by
  have hrpSame : (List.take hrp.length (hrp ++ rest)).map lowerCase = hrp := by
    rw [List.take_left,
      List.map_congr_left (fun c inside => lowerCase_of_lowerPrintable (printable c inside)),
      List.map_id']
  rw [decodeDestination, if_neg (fun differ => differ hrpSame)]
  dsimp only
  rw [decoded, if_pos valid]
  simp only [ne_eq, not_true_eq_false, ↓reduceIte]

theorem decodeWitness_keyHash {encoding : Encoding} (valid : encoding = .bech32 ∨ encoding = .bech32m)
    {symbols : List ℕ} (size : symbols.length = 32) :
    ∃ keyid, decodeWitness encoding 0 symbols = (.witnessV0KeyHash keyid, "") := by
  obtain ⟨data, converted, length⟩ := convertBits_five_eight symbols (by rw [size])
  rw [size] at length
  have checksum : ¬(0 = 0 ∧ encoding ≠ .bech32 ∧ encoding ≠ .bech32m) := by
    rintro ⟨-, notBech32, notBech32m⟩
    rcases valid with same | same
    · exact notBech32 same
    · exact notBech32m same
  rw [decodeWitness, if_neg checksum, if_neg (fun h => h.1 rfl), converted]
  exact ⟨data, by simp [length]⟩

theorem decodeDestination_keyHash (locateErrors : List Char → String) {hrp : List Char}
    (nonempty : hrp ≠ []) (printable : ∀ c ∈ hrp, LowerPrintable c) (short : hrp.length ≤ 50)
    {rest : List ℕ} (small : ∀ v ∈ 0 :: rest, v < 32) (size : rest.length = 38)
    (valid : verifyChecksum hrp (0 :: rest) ≠ .invalid) :
    ∃ keyid, decodeDestination locateErrors hrp (hrp ++ '1' :: (0 :: rest).map charsetChar) =
      (.witnessV0KeyHash keyid, "") := by
  have decoded := decode_of_symbols nonempty printable small
    (by simp [size, checksumSize]) (by simp only [List.length_cons, size, charLimitBech32]; omega)
    valid
  rw [List.length_cons, size, show 38 + 1 - checksumSize = 32 + 1 from rfl, List.take_succ_cons]
    at decoded
  have encoding : verifyChecksum hrp (0 :: rest) = .bech32 ∨
      verifyChecksum hrp (0 :: rest) = .bech32m := by
    cases accepted : verifyChecksum hrp (0 :: rest) with
    | invalid => exact absurd accepted valid
    | bech32 => exact Or.inl rfl
    | bech32m => exact Or.inr rfl
  rw [decodeDestination_of_decode locateErrors printable encoding decoded]
  exact decodeWitness_keyHash encoding (by simp [size])

end Destinations

section Twins

/-- Every v0 key-hash address under a HRP of at most 50 printable lowercase characters has a twin
of the same length, four symbols away after the separator, that `DecodeDestination` reads as a
v0 key hash: the error word takes the residue `0x2bc830a3` that `EncodeDestination` writes to
the residue `1` that `VerifyChecksum` takes for Bech32. -/
theorem decodeDestination_accepts_four_symbol_twin (locateErrors : List Char → String)
    (hrp : List Char) (nonempty : hrp ≠ []) (printable : ∀ c ∈ hrp, LowerPrintable c)
    (short : hrp.length ≤ 50) (keyid : List ℕ) (size : keyid.length = 20) :
    ∃ symbols twin, encodeDestination hrp (.witnessV0KeyHash keyid) =
        some (hrp ++ '1' :: symbols.map charsetChar) ∧
      twin = hrp ++ '1' ::
        (List.zipWith (· ^^^ ·) symbols (errorWord symbols.length)).map charsetChar ∧
      twin ≠ hrp ++ '1' :: symbols.map charsetChar ∧
      twin.length = (hrp ++ '1' :: symbols.map charsetChar).length ∧
      differences twin (hrp ++ '1' :: symbols.map charsetChar) = 4 ∧
      ∃ keyid', decodeDestination locateErrors hrp twin = (.witnessV0KeyHash keyid', "") := by
  obtain ⟨program, checksum, encoded, programLength, checksumLength, small, accepted⟩ :=
    encodeDestination_keyHash printable size
  have restLength : (program ++ checksum).length = 38 := by
    simp [programLength, checksumLength, checksumSize]
  have long : 10 ≤ (0 :: program ++ checksum).length := by
    rw [List.cons_append, List.length_cons, restLength]
    decide
  have errorsSmall := zipWith_xor_lt small (errorWord_lt (0 :: program ++ checksum).length)
  have strings := differences_symbols hrp errorsSmall small
  rw [differences_errorWord long] at strings
  refine ⟨0 :: program ++ checksum, _, encoded, rfl, ?_, ?_, strings, ?_⟩
  · intro same
    rw [same, differences_self] at strings
    exact absurd strings (by decide)
  · generalize 0 :: program ++ checksum = symbols at long ⊢
    simp only [List.length_append, List.length_cons, List.length_map, List.length_zipWith,
      length_errorWord long, Nat.min_self]
  · -- the error word is zero at the version symbol, so the twin is still of version `0`
    have versionZero : List.zipWith (· ^^^ ·) (0 :: program ++ checksum)
        (errorWord (0 :: program ++ checksum).length) =
        0 :: List.zipWith (· ^^^ ·) (program ++ checksum) (errorWord (program ++ checksum).length) := by
      rw [List.cons_append, List.length_cons, errorWord_succ (by omega), List.zipWith_cons_cons,
        Nat.xor_self]
    have valid := verifyChecksum_errorWord hrp long accepted
    rw [versionZero] at errorsSmall valid ⊢
    apply decodeDestination_keyHash locateErrors nonempty printable short errorsSmall
    · rw [List.length_zipWith, length_errorWord (by omega), Nat.min_self, restLength]
    · rw [valid]
      decide

/-- The mainnet HRP and the key hash of twenty zero bytes. -/
theorem frey_zero_keyHash_has_accepted_twin :
    ∃ symbols twin, encodeDestination ['f', 'r', 'e', 'y'] (.witnessV0KeyHash (List.replicate 20 0)) =
        some (['f', 'r', 'e', 'y'] ++ '1' :: symbols.map charsetChar) ∧
      twin = ['f', 'r', 'e', 'y'] ++ '1' ::
        (List.zipWith (· ^^^ ·) symbols (errorWord symbols.length)).map charsetChar ∧
      twin ≠ ['f', 'r', 'e', 'y'] ++ '1' :: symbols.map charsetChar ∧
      twin.length = (['f', 'r', 'e', 'y'] ++ '1' :: symbols.map charsetChar).length ∧
      differences twin (['f', 'r', 'e', 'y'] ++ '1' :: symbols.map charsetChar) = 4 ∧
      ∃ keyid', decodeDestination (fun _ => "") ['f', 'r', 'e', 'y'] twin =
        (.witnessV0KeyHash keyid', "") :=
  decodeDestination_accepts_four_symbol_twin (fun _ => "") ['f', 'r', 'e', 'y'] (by simp)
    (by simp [LowerPrintable]) (by decide) (List.replicate 20 0) (by simp)

end Twins

end Freycoin.KeyIo

import Freycoin.Serialize.CompactSize
import Mathlib.Data.Nat.Bitwise

/-! VarInt, the variable-length integers of `serialize.h`.

The guards of `ReadVarInt` keep every intermediate value within the integer type, so the model
computes on `Nat`. -/

namespace Freycoin.Serialize

/-- An integer type the VarInt templates are instantiated with: `sizeof(I)` bytes, and
whether it is signed, as `NONNEGATIVE_SIGNED` mode requires. -/
structure IntegerType where
  size : Nat
  signed : Bool
  size_pos : 0 < size

/-- `std::numeric_limits<I>::max()`. -/
def IntegerType.max (I : IntegerType) : Nat :=
  if I.signed then 2 ^ (8 * I.size - 1) - 1 else 2 ^ (8 * I.size) - 1

def getSizeOfVarInt (n : Nat) : Nat :=
  if n ≤ 0x7F then 1 else getSizeOfVarInt ((n >>> 7) - 1) + 1
termination_by n
decreasing_by
  rw [Nat.shiftRight_eq_div_pow]
  omega

/-- The bytes `WriteVarInt` stores in `tmp` from index `len` on. -/
def writeVarIntTmp (n len : Nat) : List UInt8 :=
  let byte := UInt8.ofNat ((n &&& 0x7F) ||| if len ≠ 0 then 0x80 else 0x00)
  if n ≤ 0x7F then [byte] else byte :: writeVarIntTmp ((n >>> 7) - 1) (len + 1)
termination_by n
decreasing_by
  rw [Nat.shiftRight_eq_div_pow]
  omega

/-- `tmp` written from its last stored byte down to `tmp[0]`. -/
def writeVarInt (n : Nat) : List UInt8 := (writeVarIntTmp n 0).reverse

def varIntTooLarge : String := "ReadVarInt(): size too large"

/-- The loop of `ReadVarInt`, from the value `n` read so far. -/
def readVarIntLoop (I : IntegerType) (n : Nat) : List UInt8 → Except String (Nat × List UInt8)
  | [] => .error endOfData
  | chData :: stream =>
    if n > I.max >>> 7 then .error varIntTooLarge
    else
      let n := (n <<< 7) ||| (chData &&& 0x7F).toNat
      if chData &&& 0x80 ≠ 0 then
        if n = I.max then .error varIntTooLarge
        else readVarIntLoop I (n + 1) stream
      else .ok (n, stream)

def readVarInt (I : IntegerType) (stream : List UInt8) : Except String (Nat × List UInt8) :=
  readVarIntLoop I 0 stream

/-- One byte of the reader's accumulation, as the comment above `VarIntMode` counts it: a
byte that is not the last adds its seven bits plus one. -/
def varIntStep (value : Nat) (byte : UInt8) : Nat := value * 128 + (byte &&& 0x7F).toNat + 1

/-- The number a terminated byte string encodes, by the formula of the comment above
`VarIntMode`: `(a[len-1] & 0x7F) + sum(i=1..len-1, 128^i*((a[len-i-1] & 0x7F)+1))`,
evaluated most significant byte first. -/
def varIntValue (continuation : List UInt8) (last : UInt8) : Nat :=
  continuation.foldl varIntStep 0 * 128 + (last &&& 0x7F).toNat

section Bytes

theorem low7 (byte : UInt8) : (byte &&& 0x7F).toNat = byte.toNat % 128 := by
  rw [UInt8.toNat_and]
  exact Nat.and_two_pow_sub_one_eq_mod _ 7

theorem continues_iff (byte : UInt8) : byte &&& 0x80 ≠ 0 ↔ 128 ≤ byte.toNat := by
  have bits : (byte &&& 0x80).toNat = byte.toNat &&& 2 ^ 7 := UInt8.toNat_and _ _
  rw [Nat.and_two_pow, Nat.testBit_eq_decide_div_mod_eq] at bits
  have small := byte.toNat_lt
  rw [ne_eq, ← UInt8.toNat_inj, bits]
  by_cases high : 128 ≤ byte.toNat
  · have set : byte.toNat / 128 % 2 = 1 := by omega
    simp [set, high]
  · have clear : byte.toNat / 128 % 2 = 0 := by omega
    simp [clear, high]

theorem shiftLeft_or_low7 (n : Nat) (byte : UInt8) :
    (n <<< 7) ||| (byte &&& 0x7F).toNat = n * 128 + byte.toNat % 128 := by
  have below : byte.toNat % 128 < 2 ^ 7 := Nat.mod_lt _ (by norm_num)
  rw [low7, Nat.shiftLeft_eq, Nat.mul_comm, ← Nat.two_pow_add_eq_or_of_lt below]

theorem shiftRight_seven (n : Nat) : n >>> 7 = n / 128 := Nat.shiftRight_eq_div_pow n 7

theorem tmpByte_toNat (n len : Nat) :
    (UInt8.ofNat ((n &&& 0x7F) ||| if len ≠ 0 then 0x80 else 0x00)).toNat =
      n % 128 + if len ≠ 0 then 128 else 0 := by
  have low : n &&& 0x7F = n % 128 := Nat.and_two_pow_sub_one_eq_mod n 7
  have below : n % 128 < 2 ^ 7 := Nat.mod_lt _ (by norm_num)
  rw [UInt8.toNat_ofNat', low]
  split
  · have join : 128 + n % 128 = 128 ||| n % 128 := by
      simpa using Nat.two_pow_add_eq_or_of_lt below 1
    rw [Nat.or_comm, ← join]
    omega
  · simp only [Nat.or_zero, Nat.add_zero]
    omega

end Bytes

section Writer

theorem getSizeOfVarInt_eq (n : Nat) :
    getSizeOfVarInt n = if n ≤ 0x7F then 1 else getSizeOfVarInt (n / 128 - 1) + 1 := by
  rw [getSizeOfVarInt, shiftRight_seven]

theorem writeVarIntTmp_eq (n len : Nat) :
    writeVarIntTmp n len = UInt8.ofNat (n % 128 + if len ≠ 0 then 128 else 0) ::
      if n ≤ 0x7F then [] else writeVarIntTmp (n / 128 - 1) (len + 1) := by
  have byte : UInt8.ofNat ((n &&& 0x7F) ||| if len ≠ 0 then 0x80 else 0x00) =
      UInt8.ofNat (n % 128 + if len ≠ 0 then 128 else 0) := by
    apply UInt8.toNat_inj.mp
    rw [tmpByte_toNat, UInt8.toNat_ofNat']
    split <;> omega
  rw [writeVarIntTmp, shiftRight_seven, byte]
  split <;> rfl

theorem length_writeVarIntTmp (n len : Nat) :
    (writeVarIntTmp n len).length = getSizeOfVarInt n := by
  induction n using Nat.strongRecOn generalizing len with
  | ind n ih =>
    rw [writeVarIntTmp_eq, getSizeOfVarInt_eq]
    by_cases small : n ≤ 0x7F
    · simp [small]
    · simp only [small, if_false, List.length_cons, ih (n / 128 - 1) (by omega)]

theorem continues_of_mem_writeVarIntTmp {n len : Nat} {byte : UInt8}
    (mem : byte ∈ writeVarIntTmp n (len + 1)) : 128 ≤ byte.toNat := by
  induction n using Nat.strongRecOn generalizing len with
  | ind n ih =>
    rw [writeVarIntTmp_eq] at mem
    rcases List.mem_cons.mp mem with first | later
    · rw [first, UInt8.toNat_ofNat']
      simp only [ne_eq, Nat.add_one_ne_zero, not_false_eq_true, if_true]
      omega
    · split at later
      · cases later
      · exact ih _ (by omega) later

theorem foldl_varIntStep_append_singleton (value : Nat) (front : List UInt8) (byte : UInt8) :
    (front ++ [byte]).foldl varIntStep value =
      front.foldl varIntStep value * 128 + byte.toNat % 128 + 1 := by
  rw [List.foldl_append, List.foldl_cons, List.foldl_nil, varIntStep, low7]

theorem foldl_reverse_writeVarIntTmp (m len : Nat) :
    (writeVarIntTmp m (len + 1)).reverse.foldl varIntStep 0 = m + 1 := by
  induction m using Nat.strongRecOn generalizing len with
  | ind m ih =>
    rw [writeVarIntTmp_eq]
    simp only [ne_eq, Nat.add_one_ne_zero, not_false_eq_true, if_true]
    split
    · simp only [List.reverse_singleton, List.foldl_cons, List.foldl_nil, varIntStep, low7,
        UInt8.toNat_ofNat']
      omega
    · rw [List.reverse_cons, foldl_varIntStep_append_singleton, ih _ (by omega),
        UInt8.toNat_ofNat']
      omega

theorem writeVarInt_eq (n : Nat) :
    writeVarInt n = (if n ≤ 0x7F then [] else (writeVarIntTmp (n / 128 - 1) 1).reverse) ++
      [UInt8.ofNat (n % 128)] := by
  rw [writeVarInt, writeVarIntTmp_eq]
  by_cases small : n ≤ 0x7F <;> simp [small]

theorem le_foldl_varIntStep (value : Nat) (bytes : List UInt8) :
    value ≤ bytes.foldl varIntStep value := by
  induction bytes generalizing value with
  | nil => exact Nat.le_refl _
  | cons byte bytes ih =>
    have step : value ≤ varIntStep value byte := by
      unfold varIntStep
      nlinarith
    exact step.trans (ih _)

theorem foldl_varIntStep_pos {bytes : List UInt8} (nonempty : bytes ≠ []) :
    0 < bytes.foldl varIntStep 0 := by
  obtain ⟨byte, rest, rfl⟩ := List.exists_cons_of_ne_nil nonempty
  have first : 0 < varIntStep 0 byte := by
    unfold varIntStep
    omega
  exact first.trans_le (le_foldl_varIntStep _ rest)

theorem writeVarInt_terminated (n : Nat) :
    ∃ continuation last, writeVarInt n = continuation ++ [last] ∧
      (∀ byte ∈ continuation, 128 ≤ byte.toNat) ∧ last.toNat < 128 ∧
      varIntValue continuation last = n := by
  rw [writeVarInt_eq]
  refine ⟨_, _, rfl, ?_, ?_, ?_⟩
  · intro byte mem
    split at mem
    · cases mem
    · exact continues_of_mem_writeVarIntTmp (List.mem_reverse.mp mem)
  · rw [UInt8.toNat_ofNat']
    omega
  · rw [varIntValue, low7, UInt8.toNat_ofNat']
    split
    · simp only [List.foldl_nil]
      omega
    · rw [foldl_reverse_writeVarIntTmp]
      omega

theorem reverse_writeVarIntTmp_foldl {continuation : List UInt8}
    (continues : ∀ byte ∈ continuation, 128 ≤ byte.toNat) (nonempty : continuation ≠ [])
    (len : Nat) :
    (writeVarIntTmp (continuation.foldl varIntStep 0 - 1) (len + 1)).reverse = continuation := by
  induction continuation using List.reverseRecOn generalizing len with
  | nil => exact absurd rfl nonempty
  | append_singleton front byte ih =>
    have high := continues byte (by simp)
    have stored : UInt8.ofNat ((front.foldl varIntStep 0 * 128 + byte.toNat % 128 + 1 - 1) % 128 +
        128) = byte := by
      apply UInt8.toNat_inj.mp
      rw [UInt8.toNat_ofNat']
      have := byte.toNat_lt
      omega
    rw [foldl_varIntStep_append_singleton, writeVarIntTmp_eq]
    simp only [ne_eq, Nat.add_one_ne_zero, not_false_eq_true, if_true, stored]
    by_cases empty : front = []
    · subst empty
      have small : byte.toNat % 128 ≤ 0x7F := by omega
      simp only [List.foldl_nil, Nat.zero_mul, Nat.zero_add, Nat.add_sub_cancel, if_pos small]
      rfl
    · have positive := foldl_varIntStep_pos empty
      have down : (front.foldl varIntStep 0 * 128 + byte.toNat % 128 + 1 - 1) / 128 - 1 =
          front.foldl varIntStep 0 - 1 := by omega
      rw [if_neg (by omega), List.reverse_cons, down,
        ih (fun other mem => continues other (List.mem_append_left _ mem)) empty]

theorem writeVarInt_varIntValue {continuation : List UInt8} {last : UInt8}
    (continues : ∀ byte ∈ continuation, 128 ≤ byte.toNat) (final : last.toNat < 128) :
    writeVarInt (varIntValue continuation last) = continuation ++ [last] := by
  have digit : (varIntValue continuation last) % 128 = last.toNat := by
    rw [varIntValue, low7]
    omega
  have lastByte : UInt8.ofNat (varIntValue continuation last % 128) = last := by
    rw [digit, UInt8.ofNat_toNat]
  rw [writeVarInt_eq, lastByte]
  by_cases empty : continuation = []
  · subst empty
    have small : varIntValue [] last ≤ 0x7F := by
      rw [varIntValue, low7]
      simp only [List.foldl_nil]
      omega
    rw [if_pos small]
  · have positive := foldl_varIntStep_pos empty
    have high : varIntValue continuation last / 128 - 1 = continuation.foldl varIntStep 0 - 1 := by
      rw [varIntValue, low7]
      omega
    rw [if_neg (by rw [varIntValue]; omega), high,
      reverse_writeVarIntTmp_foldl continues empty 0]

theorem IntegerType.max_mod (I : IntegerType) : I.max % 128 = 127 := by
  have wide : 7 ≤ 8 * I.size - 1 := by
    have := I.size_pos
    omega
  have split : ∀ bits, 7 ≤ bits → (2 ^ bits - 1) % 128 = 127 := by
    intro bits large
    have power : 2 ^ bits = 128 * 2 ^ (bits - 7) := by
      rw [show (128 : Nat) = 2 ^ 7 from rfl, ← pow_add]
      congr 1
      omega
    have positive : 0 < 2 ^ (bits - 7) := Nat.two_pow_pos _
    rw [power]
    omega
  unfold IntegerType.max
  split
  · exact split _ wide
  · exact split _ (by omega)

end Writer

section Reader

theorem readVarIntLoop_terminated (I : IntegerType) (n : Nat) {continuation : List UInt8}
    {last : UInt8} (rest : List UInt8) (continues : ∀ byte ∈ continuation, 128 ≤ byte.toNat)
    (final : last.toNat < 128) :
    readVarIntLoop I n (continuation ++ last :: rest) =
      if continuation.foldl varIntStep n * 128 + last.toNat % 128 ≤ I.max then
        .ok (continuation.foldl varIntStep n * 128 + last.toNat % 128, rest)
      else .error varIntTooLarge := by
  have ends := I.max_mod
  induction continuation generalizing n with
  | nil =>
    have stops : ¬(last &&& 0x80 ≠ 0) := by
      rw [continues_iff]
      omega
    simp only [List.nil_append, readVarIntLoop, shiftRight_seven, shiftLeft_or_low7, stops,
      List.foldl_nil, if_false]
    by_cases overflow : n > I.max / 128
    · have tooLarge : ¬(n * 128 + last.toNat % 128 ≤ I.max) := by omega
      simp [overflow, tooLarge]
    · have within : n * 128 + last.toNat % 128 ≤ I.max := by omega
      simp [overflow, within]
  | cons byte bytes ih =>
    have goesOn : byte &&& 0x80 ≠ 0 := (continues_iff byte).mpr (continues byte (by simp))
    have later := ih (n * 128 + byte.toNat % 128 + 1)
      (fun other mem => continues other (List.mem_cons_of_mem _ mem))
    have grows := le_foldl_varIntStep (varIntStep n byte) bytes
    simp only [List.cons_append, readVarIntLoop, shiftRight_seven, shiftLeft_or_low7, goesOn,
      List.foldl_cons, if_true, ne_eq, not_false_eq_true]
    simp only [varIntStep, low7] at grows ⊢
    by_cases overflow : n > I.max / 128
    · have tooLarge : ¬(bytes.foldl varIntStep (n * 128 + byte.toNat % 128 + 1) * 128 +
          last.toNat % 128 ≤ I.max) := by omega
      simp [overflow, tooLarge]
    · by_cases full : n * 128 + byte.toNat % 128 = I.max
      · have bigger := le_foldl_varIntStep (I.max + 1) bytes
        simp [overflow, full]
        omega
      · simp only [overflow, full, if_false, later]

theorem readVarInt_terminated (I : IntegerType) {continuation : List UInt8} {last : UInt8}
    (rest : List UInt8) (continues : ∀ byte ∈ continuation, 128 ≤ byte.toNat)
    (final : last.toNat < 128) :
    readVarInt I (continuation ++ last :: rest) =
      if varIntValue continuation last ≤ I.max then .ok (varIntValue continuation last, rest)
      else .error varIntTooLarge := by
  rw [readVarInt, readVarIntLoop_terminated I 0 rest continues final, varIntValue, low7]

theorem readVarIntLoop_eq_ok {I : IntegerType} {n : Nat} {stream rest : List UInt8}
    {value : Nat} (read : readVarIntLoop I n stream = .ok (value, rest)) :
    ∃ continuation last, stream = continuation ++ last :: rest ∧
      (∀ byte ∈ continuation, 128 ≤ byte.toNat) ∧ last.toNat < 128 := by
  induction stream generalizing n with
  | nil => simp [readVarIntLoop] at read
  | cons chData stream ih =>
    unfold readVarIntLoop at read
    dsimp only at read
    split_ifs at read with overflow goesOn full
    · obtain ⟨continuation, last, split, continues, final⟩ := ih read
      refine ⟨chData :: continuation, last, by rw [split]; rfl, ?_, final⟩
      intro byte mem
      rcases List.mem_cons.mp mem with rfl | later
      · exact (continues_iff byte).mp goesOn
      · exact continues byte later
    · simp only [Except.ok.injEq, Prod.mk.injEq] at read
      obtain ⟨-, rfl⟩ := read
      refine ⟨[], chData, rfl, by simp, ?_⟩
      rw [continues_iff] at goesOn
      omega

theorem readVarInt_eq_ok_iff {I : IntegerType} {stream rest : List UInt8} {value : Nat} :
    readVarInt I stream = .ok (value, rest) ↔ stream = writeVarInt value ++ rest ∧ value ≤ I.max := by
  constructor
  · intro read
    obtain ⟨continuation, last, rfl, continues, final⟩ := readVarIntLoop_eq_ok read
    rw [readVarInt_terminated I rest continues final] at read
    split at read
    · rename_i fits
      simp only [Except.ok.injEq, Prod.mk.injEq] at read
      obtain ⟨rfl, -⟩ := read
      exact ⟨by rw [writeVarInt_varIntValue continues final, List.append_assoc]; rfl, fits⟩
    · cases read
  · rintro ⟨rfl, fits⟩
    obtain ⟨continuation, last, written, continues, final, encoded⟩ := writeVarInt_terminated value
    rw [written, List.append_assoc, List.singleton_append,
      readVarInt_terminated I rest continues final, encoded, if_pos fits]

theorem readVarInt_writeVarInt {I : IntegerType} {n : Nat} (fits : n ≤ I.max) (rest : List UInt8) :
    readVarInt I (writeVarInt n ++ rest) = .ok (n, rest) :=
  readVarInt_eq_ok_iff.mpr ⟨rfl, fits⟩

theorem writeVarInt_injective : Function.Injective writeVarInt := by
  intro first second same
  obtain ⟨front, last, written, _, _, value⟩ := writeVarInt_terminated first
  obtain ⟨front', last', written', _, _, value'⟩ := writeVarInt_terminated second
  rw [written, written'] at same
  obtain ⟨rfl, lasts⟩ := List.append_inj' same rfl
  rw [List.singleton_inj] at lasts
  rw [← value, ← value', lasts]

end Reader

section Buffer

end Buffer

/-- CompactSize and VarInt are canonical encodings: each reader returns what its writer
wrote and consumes exactly that, accepts nothing else, and refuses exactly the values out
of range. -/
theorem compactSize_and_varInt_are_canonical :
    (∀ (nSize : UInt64) (rest : List UInt8),
      readCompactSize false (writeCompactSize nSize ++ rest) = .ok (nSize, rest) ∧
        (writeCompactSize nSize).length = getSizeOfCompactSize nSize) ∧
    (∀ (rangeCheck : Bool) (stream rest : List UInt8) (value : UInt64),
      readCompactSize rangeCheck stream = .ok (value, rest) →
        stream = writeCompactSize value ++ rest ∧ (rangeCheck = true → value.toNat ≤ maxSize)) ∧
    (∀ (nSize : UInt64) (rest : List UInt8), maxSize < nSize.toNat →
      readCompactSize true (writeCompactSize nSize ++ rest) =
        .error "ReadCompactSize(): size too large") ∧
    Function.Injective writeCompactSize ∧
    (∀ (I : IntegerType) (n : Nat) (rest : List UInt8), n ≤ I.max →
      readVarInt I (writeVarInt n ++ rest) = .ok (n, rest) ∧
        (writeVarInt n).length = getSizeOfVarInt n) ∧
    (∀ (I : IntegerType) (continuation : List UInt8) (last : UInt8) (rest : List UInt8),
      (∀ byte ∈ continuation, 0x80 ≤ byte.toNat) → last.toNat < 0x80 →
        readVarInt I (continuation ++ last :: rest) =
          if varIntValue continuation last ≤ I.max then .ok (varIntValue continuation last, rest)
          else .error varIntTooLarge) ∧
    (∀ (I : IntegerType) (stream rest : List UInt8) (value : Nat),
      readVarInt I stream = .ok (value, rest) → stream = writeVarInt value ++ rest) ∧
    Function.Injective writeVarInt ∧
    (∀ (continuation : List UInt8) (last : UInt8), (∀ byte ∈ continuation, 0x80 ≤ byte.toNat) →
      last.toNat < 0x80 → writeVarInt (varIntValue continuation last) = continuation ++ [last]) := by
  refine ⟨fun nSize rest => ⟨?_, length_writeCompactSize nSize⟩, fun _ _ _ _ read =>
    readCompactSize_eq_ok_iff.mp read, fun nSize rest large => ?_,
    compactSizeCode.encode_injective, fun I n rest fits => ⟨readVarInt_writeVarInt fits rest, ?_⟩,
    fun I _ _ rest continues final => readVarInt_terminated I rest continues final,
    fun _ _ _ _ read => (readVarInt_eq_ok_iff.mp read).1, writeVarInt_injective,
    fun _ _ continues final => writeVarInt_varIntValue continues final⟩
  · rw [readCompactSize_writeCompactSize]
    simp
  · rw [readCompactSize_writeCompactSize, if_pos ⟨rfl, large⟩]
  · rw [writeVarInt, List.length_reverse, length_writeVarIntTmp]

/-- The theorem at a CompactSize read with its range check, one past `MAX_SIZE`, and the
16-bit VarInt `256 = [0x81 0x00]` of the comment's table. -/
theorem compactSize_and_varInt_samples :
    (readCompactSize true [5, 9] = .ok (5, [9]) ∧ [5, 9] = writeCompactSize 5 ++ [9]) ∧
    (maxSize < (0x02000001 : UInt64).toNat ∧
      readCompactSize true (writeCompactSize 0x02000001 ++ []) =
        .error "ReadCompactSize(): size too large") ∧
    (256 ≤ (⟨2, false, by decide⟩ : IntegerType).max ∧
      readVarInt ⟨2, false, by decide⟩ (writeVarInt 256 ++ [5]) = .ok (256, [5])) ∧
    ((∀ byte ∈ [(0x81 : UInt8)], 0x80 ≤ byte.toNat) ∧ (0x00 : UInt8).toNat < 0x80 ∧
      readVarInt ⟨2, false, by decide⟩ ([0x81] ++ 0x00 :: [5]) =
        if varIntValue [0x81] 0x00 ≤ (⟨2, false, by decide⟩ : IntegerType).max then
          .ok (varIntValue [0x81] 0x00, [5])
        else .error varIntTooLarge) ∧
    (readVarInt ⟨2, false, by decide⟩ [0x81, 0x00, 5] = .ok (256, [5]) ∧
      [0x81, 0x00, 5] = writeVarInt 256 ++ [5]) ∧
    writeVarInt (varIntValue [0x81] 0x00) = [0x81] ++ [0x00] := by
  have canonical := compactSize_and_varInt_are_canonical
  have compactRead : readCompactSize true [5, 9] = .ok (5, [9]) := by decide
  have varIntRead : readVarInt ⟨2, false, by decide⟩ [0x81, 0x00, 5] = .ok (256, [5]) := by decide
  have continues : ∀ byte ∈ [(0x81 : UInt8)], 0x80 ≤ byte.toNat := by simp
  have final : (0x00 : UInt8).toNat < 0x80 := by decide
  exact ⟨⟨compactRead, (canonical.2.1 true [5, 9] [9] 5 compactRead).1⟩,
    ⟨by decide, canonical.2.2.1 0x02000001 [] (by decide)⟩,
    ⟨by decide, (canonical.2.2.2.2.1 ⟨2, false, by decide⟩ 256 [5] (by decide)).1⟩,
    ⟨continues, final, canonical.2.2.2.2.2.1 ⟨2, false, by decide⟩ [0x81] 0x00 [5] continues final⟩,
    ⟨varIntRead, canonical.2.2.2.2.2.2.1 ⟨2, false, by decide⟩ _ _ _ varIntRead⟩,
    canonical.2.2.2.2.2.2.2.2 [0x81] 0x00 continues final⟩

end Freycoin.Serialize

import Freycoin.BlockFilter.GCSFilter
import Freycoin.Util.GolombRiceSpec

/-! What a filter built from elements holds, and what decoding and matching do with it. -/

namespace Freycoin.BlockFilter

open Freycoin.Serialize Freycoin.Util BitString PrefixCode

/-- What the range check of `ReadCompactSize` throws. -/
def sizeTooLarge : String := "ReadCompactSize(): size too large"

theorem readCompactSizeSpan_writeCompactSize {N : UInt64} (rest : List UInt8) (bounded : N.toNat ≤ maxSize) :
    readCompactSizeSpan (writeCompactSize N ++ rest) = .ok (N, rest) := by
  rw [readCompactSizeSpan, readCompactSize_writeCompactSize, if_neg (by simp; omega)]

theorem readCompactSizeSpan_oversized {N : UInt64} (rest : List UInt8) (large : maxSize < N.toNat) :
    readCompactSizeSpan (writeCompactSize N ++ rest) = .error sizeTooLarge := by
  rw [readCompactSizeSpan, readCompactSize_writeCompactSize, if_pos ⟨rfl, large⟩]
  simp [endOfData, sizeTooLarge]

namespace GCSFilter

/-- The Golomb-Rice codes of the differences of consecutive values, the first from `lastValue`. -/
def deltaCode (P : ℕ) : UInt64 → List UInt64 → List Bool
  | _, [] => []
  | lastValue, value :: values => riceCode P (value - lastValue).toNat ++ deltaCode P value values

section Coding

variable {P : UInt8}

theorem encodeDeltas_spec (small : P.toNat < 64) :
    ∀ (values : List UInt64) (lastValue : UInt64) (w : BitStreamWriter), w.Valid →
      ∃ w', encodeDeltas P w lastValue values = .ok w' ∧ w'.Valid ∧
        w'.bits = w.bits ++ deltaCode P.toNat lastValue values ∧ w.out <+: w'.out := by
  intro values
  induction values with
  | nil => intro lastValue w valid; exact ⟨w, rfl, valid, by simp [deltaCode], List.prefix_refl _⟩
  | cons value values ih =>
    intro lastValue w valid
    obtain ⟨w₁, encoded, valid₁, bits₁, prefix₁⟩ := golombRiceEncode_spec small (value - lastValue) valid
    obtain ⟨w', rest, valid', bits', prefix'⟩ := ih value w₁ valid₁
    refine ⟨w', ?_, valid', ?_, prefix₁.trans prefix'⟩
    · rw [encodeDeltas, encoded, ok_bind, rest]
    · rw [bits', bits₁, deltaCode, List.append_assoc]

theorem decodeAll_spec (small : P.toNat < 64) :
    ∀ (values : List UInt64) (lastValue : UInt64) (r : BitStreamReader) (rest : List Bool),
      r.offset ≤ 8 → r.bits = deltaCode P.toNat lastValue values ++ rest →
      ∃ r', decodeAll P values.length r = .ok r' ∧ r'.offset ≤ 8 ∧ r'.bits = rest := by
  intro values
  induction values with
  | nil => intro lastValue r rest valid bits; exact ⟨r, rfl, valid, by simpa [deltaCode] using bits⟩
  | cons value values ih =>
    intro lastValue r rest valid bits
    rw [deltaCode, List.append_assoc] at bits
    obtain ⟨r₁, decoded, valid₁, bits₁⟩ := golombRiceDecode_spec small (value - lastValue) valid bits
    obtain ⟨r', loop, valid', bits'⟩ := ih value r₁ rest valid₁ bits₁
    refine ⟨r', ?_, valid', bits'⟩
    rw [List.length_cons, decodeAll, decoded, ok_bind]
    exact loop

end Coding

section Skip

/-! The inner loop of `MatchInternal` on sorted queries ends in one of three ways: on a query
equal to the value, on running out of queries, all below the value, or on a query above the
value, where the queries from it on are kept. -/

variable {value : UInt64}

theorem skipBelow_inl : ∀ {hashes : List UInt64} {found : Bool}, hashes.Pairwise (· ≤ ·) →
    skipBelow value hashes = .inl found →
    found = decide (value ∈ hashes) ∧ (found = false → ∀ hash ∈ hashes, hash < value)
  | [], found, _, ended => by
    simp only [skipBelow, Sum.inl.injEq] at ended
    simp [← ended]
  | hash :: hashes, found, sorted, ended => by
    rw [skipBelow] at ended
    split_ifs at ended with same above
    · -- the query equals the value
      simp only [Sum.inl.injEq] at ended
      simp [← ended, same]
    · -- below the value: the answer is that of the rest
      have below : hash < value := UInt64.lt_of_le_of_ne (UInt64.not_lt.mp above) same
      obtain ⟨answer, allBelow⟩ := skipBelow_inl (List.pairwise_cons.mp sorted).2 ended
      refine ⟨by simp [answer, Ne.symm same], fun none h member => ?_⟩
      rcases List.mem_cons.mp member with rfl | later
      · exact below
      · exact allBelow none h later

theorem skipBelow_inr : ∀ {hashes rest : List UInt64}, hashes.Pairwise (· ≤ ·) →
    skipBelow value hashes = .inr rest →
    value ∉ hashes ∧ rest.Pairwise (· ≤ ·) ∧ (∀ hash ∈ hashes, hash ∈ rest ∨ hash < value) ∧
      ∀ hash ∈ rest, hash ∈ hashes ∧ value < hash
  | [], rest, _, ended => by simp [skipBelow] at ended
  | hash :: hashes, rest, sorted, ended => by
    rw [skipBelow] at ended
    split_ifs at ended with same above
    · -- the first query above the value: it and those after it are kept
      simp only [Sum.inr.injEq] at ended
      subst ended
      have later : ∀ h ∈ hashes, value < h := fun h member =>
        UInt64.lt_of_lt_of_le above ((List.pairwise_cons.mp sorted).1 h member)
      refine ⟨?_, sorted, fun h member => .inl member, fun h member => ⟨member, ?_⟩⟩
      · rintro (_ | ⟨_, member⟩)
        · exact same rfl
        · exact UInt64.lt_irrefl _ (later value member)
      · rcases List.mem_cons.mp member with rfl | member
        · exact above
        · exact later h member
    · have below : hash < value := UInt64.lt_of_le_of_ne (UInt64.not_lt.mp above) same
      obtain ⟨absent, sortedRest, kept, inRest⟩ := skipBelow_inr (List.pairwise_cons.mp sorted).2 ended
      refine ⟨?_, sortedRest, fun h member => ?_, fun h member => ?_⟩
      · rintro (_ | ⟨_, member⟩)
        · exact same rfl
        · exact absent member
      · rcases List.mem_cons.mp member with rfl | member
        · exact .inr below
        · exact kept h member
      · exact ⟨List.mem_cons_of_mem _ (inRest h member).1, (inRest h member).2⟩

end Skip

theorem matchLoop_spec {P : UInt8} (small : P.toNat < 64) :
    ∀ (values : List UInt64) (lastValue : UInt64) (r : BitStreamReader) (rest : List Bool)
      (hashes : List UInt64), r.offset ≤ 8 → r.bits = deltaCode P.toNat lastValue values ++ rest →
      values.Pairwise (· ≤ ·) → hashes.Pairwise (· ≤ ·) →
      matchLoop P values.length r lastValue hashes = .ok (decide (∃ hash ∈ hashes, hash ∈ values)) := by
  intro values
  induction values with
  | nil => intro lastValue r rest hashes _ _ _ _; simp [matchLoop]
  | cons value values ih =>
    intro lastValue r rest hashes valid bits sortedValues sortedHashes
    rw [deltaCode, List.append_assoc] at bits
    obtain ⟨r₁, decoded, valid₁, bits₁⟩ := golombRiceDecode_spec small (value - lastValue) valid bits
    -- the difference added back gives the value, wrapping or not
    have restored : lastValue + (value - lastValue) = value := by
      rw [UInt64.add_comm, UInt64.sub_add_cancel]
    have atLeast : ∀ v ∈ value :: values, value ≤ v := by
      intro v member
      rcases List.mem_cons.mp member with rfl | later
      · exact UInt64.le_refl _
      · exact (List.pairwise_cons.mp sortedValues).1 v later
    rw [List.length_cons, matchLoop, decoded, ok_bind]
    dsimp only
    rw [restored]
    cases ended : skipBelow value hashes with
    | inl found =>
      -- the answer is whether the value is a query: the queries all below it meet no value
      obtain ⟨answer, allBelow⟩ := skipBelow_inl sortedHashes ended
      dsimp only
      congr 1
      rw [answer, decide_eq_decide]
      constructor
      · exact fun member => ⟨value, member, List.mem_cons_self⟩
      · rintro ⟨hash, member, inValues⟩
        by_contra absent
        exact absurd (atLeast hash inValues) (UInt64.not_le.mpr (allBelow (by simp [answer, absent]) hash member))
    | inr kept =>
      -- the value is no query, and the queries left are the ones that can meet the later values
      obtain ⟨absent, sortedKept, keptOrBelow, aboveValue⟩ := skipBelow_inr sortedHashes ended
      dsimp only
      rw [ih value r₁ rest kept valid₁ bits₁ (List.pairwise_cons.mp sortedValues).2 sortedKept]
      congr 1
      rw [decide_eq_decide]
      constructor
      · rintro ⟨hash, member, inValues⟩
        exact ⟨hash, (aboveValue hash member).1, List.mem_cons_of_mem _ inValues⟩
      · rintro ⟨hash, member, inValues⟩
        rcases keptOrBelow hash member with inKept | below
        · refine ⟨hash, inKept, ?_⟩
          rcases List.mem_cons.mp inValues with rfl | later
          · exact absurd member absent
          · exact later
        · exact absurd (atLeast hash inValues) (UInt64.not_le.mpr below)

section HashedSet

variable (params : Params) (F : UInt64) (elements : List (List UInt8))

theorem length_buildHashedSet : (buildHashedSet params F elements).length = elements.length := by
  rw [buildHashedSet, List.length_mergeSort, List.length_map]

theorem sorted_buildHashedSet : (buildHashedSet params F elements).Pairwise (· ≤ ·) := by
  have sorted := @List.pairwise_mergeSort _ (fun a b : UInt64 => decide (a ≤ b))
    (fun a b c ab bc => by simp only [decide_eq_true_eq] at ab bc ⊢; exact UInt64.le_trans ab bc)
    (fun a b => by simpa using UInt64.le_total a b) (elements.map (hashToRange params F))
  exact sorted.imp fun ordered => of_decide_eq_true ordered

theorem mem_buildHashedSet {hash : UInt64} :
    hash ∈ buildHashedSet params F elements ↔ ∃ element ∈ elements, hashToRange params F element = hash := by
  rw [buildHashedSet, List.mem_mergeSort, List.mem_map]

end HashedSet

/-- What the constructor from elements leaves in a filter: its params, `N` the number of
elements, `F = N * M`, and an encoding that is the CompactSize of `N` followed by the codes of
the differences of the sorted hashes, padded to whole bytes. -/
structure BuiltFrom (params : Params) (elements : List (List UInt8)) (filter : GCSFilter) : Prop where
  params_eq : filter.params = params
  N_eq : filter.N.toNat = elements.length
  F_eq : filter.F = filter.N.toUInt64 * params.M.toUInt64
  encoded : ∃ tail pad, filter.encoded = writeCompactSize filter.N.toUInt64 ++ tail ∧ pad < 8 ∧
    bytesBits tail = deltaCode params.P.toNat 0 (buildHashedSet params filter.F elements) ++ List.replicate pad false

theorem toNat_length_toUInt32 {elements : List (List UInt8)} (fits : elements.length < 2 ^ 32) :
    elements.length.toUInt32.toNat = elements.length := by
  simp only [Nat.toUInt32, UInt32.toNat_ofNat', Nat.mod_eq_of_lt fits]

theorem ofElements_spec {params : Params} (small : params.P.toNat < 64) {elements : List (List UInt8)}
    (fits : elements.length < 2 ^ 32) :
    ∃ filter, ofElements params elements = .ok filter ∧ BuiltFrom params elements filter := by
  have count := toNat_length_toUInt32 fits
  set N := elements.length.toUInt32
  set F := N.toUInt64 * params.M.toUInt64
  by_cases empty : elements = []
  · -- no elements: the encoding is the CompactSize of zero alone
    refine ⟨⟨params, N, F, writeCompactSize N.toUInt64⟩, ?_, ⟨rfl, count, rfl, [], 0, by simp, by decide, ?_⟩⟩
    · rw [ofElements, if_neg (by rw [count]; exact not_not.mpr rfl), if_pos empty]
    · simp [empty, buildHashedSet, deltaCode]
  · obtain ⟨w, encoded, valid, bits, prefixW⟩ := encodeDeltas_spec small (buildHashedSet params F elements) 0
      (BitStreamWriter.init (writeCompactSize N.toUInt64)) (BitStreamWriter.valid_init _)
    obtain ⟨flushed, -, -⟩ := BitStreamWriter.bytesBits_flush valid
    obtain ⟨tail, split⟩ := prefixW.trans (BitStreamWriter.out_prefix_flush w)
    refine ⟨⟨params, N, F, w.flush.out⟩, ?_, ⟨rfl, count, rfl, tail, (8 - w.offset) % 8, split.symm,
      Nat.mod_lt _ (by decide), ?_⟩⟩
    · rw [ofElements, if_neg (by rw [count]; exact not_not.mpr rfl), if_neg empty, encoded, ok_bind]
      rfl
    · -- the bits of the tail are those after the CompactSize
      rw [← split, bytesBits_append, bits, BitStreamWriter.bits_init, List.append_assoc] at flushed
      exact List.append_cancel_left flushed

namespace BuiltFrom

variable {params : Params} {elements : List (List UInt8)} {filter : GCSFilter}

theorem readCompactSizeSpan_encoded (built : BuiltFrom params elements filter)
    (bounded : elements.length ≤ maxSize) :
    ∃ tail pad, readCompactSizeSpan filter.encoded = .ok (filter.N.toUInt64, tail) ∧ pad < 8 ∧
      (BitStreamReader.init tail).bits =
        deltaCode params.P.toNat 0 (buildHashedSet params filter.F elements) ++ List.replicate pad false := by
  obtain ⟨tail, pad, encoded, short, bits⟩ := built.encoded
  have count : filter.N.toUInt64.toNat ≤ maxSize := by rw [UInt32.toNat_toUInt64, built.N_eq]; exact bounded
  exact ⟨tail, pad, by rw [encoded, readCompactSizeSpan_writeCompactSize tail count], short,
    by rw [BitStreamReader.bits_init, bits]⟩

theorem readCompactSizeSpan_oversized (built : BuiltFrom params elements filter)
    (large : maxSize < elements.length) : readCompactSizeSpan filter.encoded = .error sizeTooLarge := by
  obtain ⟨tail, -, encoded, -, -⟩ := built.encoded
  rw [encoded, Freycoin.BlockFilter.readCompactSizeSpan_oversized tail
    (by rw [UInt32.toNat_toUInt64, built.N_eq]; exact large)]

theorem ofEncoded_encoded (built : BuiltFrom params elements filter) (small : params.P.toNat < 64)
    (bounded : elements.length ≤ maxSize) : ofEncoded params filter.encoded false = .ok filter := by
  obtain ⟨tail, pad, read, short, bits⟩ := built.readCompactSizeSpan_encoded bounded
  obtain ⟨r, decoded, -, rest⟩ := decodeAll_spec small _ 0 (BitStreamReader.init tail) _ (le_refl _) bits
  have drained : r.input = [] := BitStreamReader.input_eq_nil (by rw [rest, List.length_replicate]; exact short)
  rw [length_buildHashedSet, ← built.N_eq] at decoded
  obtain ⟨params', N, F, encoded⟩ := filter
  obtain ⟨rfl, -, F_eq, -⟩ := built
  dsimp only at read decoded F_eq ⊢
  rw [ofEncoded, read, ok_bind]
  simp only [UInt32.toUInt32_toUInt64, ne_eq, not_true_eq_false, if_false, Bool.false_eq_true, decoded,
    ok_bind, drained, F_eq]
  rfl

theorem matchInternal_eq (built : BuiltFrom params elements filter) (small : params.P.toNat < 64)
    (bounded : elements.length ≤ maxSize) {hashes : List UInt64} (sorted : hashes.Pairwise (· ≤ ·)) :
    filter.matchInternal hashes = .ok (decide (∃ hash ∈ hashes, hash ∈ buildHashedSet params filter.F elements)) := by
  obtain ⟨tail, pad, read, -, bits⟩ := built.readCompactSizeSpan_encoded bounded
  have loop := matchLoop_spec small _ 0 (BitStreamReader.init tail) _ hashes (le_refl _) bits
    (sorted_buildHashedSet params filter.F elements) sorted
  rw [length_buildHashedSet, ← built.N_eq] at loop
  rw [matchInternal, read, ok_bind, built.params_eq]
  exact loop

theorem matchElement_eq (built : BuiltFrom params elements filter) (small : params.P.toNat < 64)
    (bounded : elements.length ≤ maxSize) (element : List UInt8) :
    filter.matchElement element =
      .ok (decide (∃ e ∈ elements, hashToRange params filter.F e = hashToRange params filter.F element)) := by
  rw [matchElement, built.params_eq, built.matchInternal_eq small bounded (List.pairwise_singleton _ _)]
  congr 1
  rw [decide_eq_decide]
  simp only [List.mem_singleton, exists_eq_left, mem_buildHashedSet]

theorem matchAny_eq (built : BuiltFrom params elements filter) (small : params.P.toNat < 64)
    (bounded : elements.length ≤ maxSize) (queries : List (List UInt8)) :
    filter.matchAny queries = .ok (decide (∃ query ∈ queries, ∃ e ∈ elements,
      hashToRange params filter.F e = hashToRange params filter.F query)) := by
  rw [matchAny, built.params_eq,
    built.matchInternal_eq small bounded (sorted_buildHashedSet params filter.F queries)]
  congr 1
  rw [decide_eq_decide]
  simp only [mem_buildHashedSet]
  constructor
  · rintro ⟨hash, ⟨query, asked, rfl⟩, element, member, same⟩
    exact ⟨query, asked, element, member, same⟩
  · rintro ⟨query, asked, element, member, same⟩
    exact ⟨_, ⟨query, asked, rfl⟩, element, member, same⟩

theorem ofEncoded_oversized (built : BuiltFrom params elements filter) (large : maxSize < elements.length)
    (skipDecodeCheck : Bool) : ofEncoded params filter.encoded skipDecodeCheck = .error sizeTooLarge := by
  rw [ofEncoded, built.readCompactSizeSpan_oversized large]
  rfl

theorem matchElement_oversized (built : BuiltFrom params elements filter) (large : maxSize < elements.length)
    (element : List UInt8) : filter.matchElement element = .error sizeTooLarge := by
  rw [matchElement, matchInternal, built.readCompactSizeSpan_oversized large]
  rfl

end BuiltFrom

section Constructed

variable {params : Params} {elements : List (List UInt8)}

theorem length_lt_of_bounded (bounded : elements.length ≤ maxSize) : elements.length < 2 ^ 32 :=
  lt_of_le_of_lt bounded (by decide)

/-- A filter built from at most `MAX_SIZE` elements passes the decode check of the constructor
from an encoding, which gives the same filter back. -/
theorem ofEncoded_ofElements (small : params.P.toNat < 64) (bounded : elements.length ≤ maxSize) :
    ∃ filter, ofElements params elements = .ok filter ∧ ofEncoded params filter.encoded false = .ok filter := by
  obtain ⟨filter, built, spec⟩ := ofElements_spec small (length_lt_of_bounded bounded)
  exact ⟨filter, built, spec.ofEncoded_encoded small bounded⟩

theorem ofEncoded_ofElements_basic :
    ∃ filter, ofElements { P := basicFilterP, M := basicFilterM } ([[1, 2, 3], [4]] : List (List UInt8)) = .ok filter ∧
      ofEncoded { P := basicFilterP, M := basicFilterM } filter.encoded false = .ok filter :=
  ofEncoded_ofElements (by decide) (by decide)

/-- `Match` on a filter built from at most `MAX_SIZE` elements answers whether the element hashes
to the hash of one of them: no element of the set is missed, and any other is matched only on a
collision of hashes. -/
theorem matchElement_ofElements (small : params.P.toNat < 64) (bounded : elements.length ≤ maxSize) :
    ∃ filter, ofElements params elements = .ok filter ∧ ∀ element, filter.matchElement element =
      .ok (decide (∃ e ∈ elements, hashToRange params filter.F e = hashToRange params filter.F element)) := by
  obtain ⟨filter, built, spec⟩ := ofElements_spec small (length_lt_of_bounded bounded)
  exact ⟨filter, built, spec.matchElement_eq small bounded⟩

theorem matchElement_ofElements_basic :
    ∃ filter, ofElements { P := basicFilterP, M := basicFilterM } ([[1, 2, 3], [4]] : List (List UInt8)) = .ok filter ∧
      ∀ element, filter.matchElement element = .ok (decide (∃ e ∈ ([[1, 2, 3], [4]] : List (List UInt8)),
        hashToRange { P := basicFilterP, M := basicFilterM } filter.F e =
          hashToRange { P := basicFilterP, M := basicFilterM } filter.F element)) :=
  matchElement_ofElements (by decide) (by decide)

/-- `MatchAny` on a filter built from at most `MAX_SIZE` elements answers whether one of the
queries hashes to the hash of one of the elements. -/
theorem matchAny_ofElements (small : params.P.toNat < 64) (bounded : elements.length ≤ maxSize) :
    ∃ filter, ofElements params elements = .ok filter ∧ ∀ queries, filter.matchAny queries =
      .ok (decide (∃ query ∈ queries, ∃ e ∈ elements,
        hashToRange params filter.F e = hashToRange params filter.F query)) := by
  obtain ⟨filter, built, spec⟩ := ofElements_spec small (length_lt_of_bounded bounded)
  exact ⟨filter, built, spec.matchAny_eq small bounded⟩

theorem matchAny_ofElements_basic :
    ∃ filter, ofElements { P := basicFilterP, M := basicFilterM } ([[1, 2, 3], [4]] : List (List UInt8)) = .ok filter ∧
      ∀ queries, filter.matchAny queries = .ok (decide (∃ query ∈ queries, ∃ e ∈ ([[1, 2, 3], [4]] : List (List UInt8)),
        hashToRange { P := basicFilterP, M := basicFilterM } filter.F e =
          hashToRange { P := basicFilterP, M := basicFilterM } filter.F query)) :=
  matchAny_ofElements (by decide) (by decide)

/-- Above `MAX_SIZE` elements a filter is still built, but its encoding is refused by the
constructor from an encoding, with or without the decode check, and every `Match` throws: the
CompactSize of `N` fails the range check of `ReadCompactSize`. -/
theorem ofElements_oversized (small : params.P.toNat < 64) (large : maxSize < elements.length)
    (fits : elements.length < 2 ^ 32) :
    ∃ filter, ofElements params elements = .ok filter ∧
      (∀ skipDecodeCheck, ofEncoded params filter.encoded skipDecodeCheck = .error sizeTooLarge) ∧
      ∀ element, filter.matchElement element = .error sizeTooLarge := by
  obtain ⟨filter, built, spec⟩ := ofElements_spec small fits
  exact ⟨filter, built, spec.ofEncoded_oversized large, spec.matchElement_oversized large⟩

/-- `MAX_SIZE + 1` distinct elements: the byte strings of zeros of each length up to `MAX_SIZE`. -/
def zeroRuns : List (List UInt8) := (List.range (maxSize + 1)).map fun n => List.replicate n 0

theorem length_zeroRuns : zeroRuns.length = maxSize + 1 := by
  rw [zeroRuns, List.length_map, List.length_range]

theorem ofElements_oversized_basic :
    ∃ filter, ofElements { P := basicFilterP, M := basicFilterM } zeroRuns = .ok filter ∧
      (∀ skipDecodeCheck, ofEncoded { P := basicFilterP, M := basicFilterM } filter.encoded skipDecodeCheck =
        .error sizeTooLarge) ∧
      ∀ element, filter.matchElement element = .error sizeTooLarge :=
  ofElements_oversized (by decide) (by rw [length_zeroRuns]; exact Nat.lt_succ_self _)
    (by rw [length_zeroRuns]; decide)

/-- A filter built from at most `MAX_SIZE` elements decodes to itself, `MatchAny` answers
whether a query hashes to the hash of an element, and `Match` finds every element. -/
theorem gcsFilter_decodes_and_matches (small : params.P.toNat < 64) (bounded : elements.length ≤ maxSize) :
    ∃ filter, ofElements params elements = .ok filter ∧ ofEncoded params filter.encoded false = .ok filter ∧
      (∀ queries, filter.matchAny queries = .ok (decide (∃ query ∈ queries, ∃ e ∈ elements,
        hashToRange params filter.F e = hashToRange params filter.F query))) ∧
      ∀ e ∈ elements, filter.matchElement e = .ok true := by
  obtain ⟨filter, built, spec⟩ := ofElements_spec small (length_lt_of_bounded bounded)
  refine ⟨filter, built, spec.ofEncoded_encoded small bounded, spec.matchAny_eq small bounded, ?_⟩
  intro e member
  rw [spec.matchElement_eq small bounded, decide_eq_true ⟨e, member, rfl⟩]

theorem gcsFilter_decodes_and_matches_basic :
    ∃ filter, ofElements { P := basicFilterP, M := basicFilterM } ([[1, 2, 3], [4]] : List (List UInt8)) = .ok filter ∧
      ofEncoded { P := basicFilterP, M := basicFilterM } filter.encoded false = .ok filter ∧
      (∀ queries, filter.matchAny queries = .ok (decide (∃ query ∈ queries, ∃ e ∈ ([[1, 2, 3], [4]] : List (List UInt8)),
        hashToRange { P := basicFilterP, M := basicFilterM } filter.F e =
          hashToRange { P := basicFilterP, M := basicFilterM } filter.F query))) ∧
      ∀ e ∈ ([[1, 2, 3], [4]] : List (List UInt8)), filter.matchElement e = .ok true :=
  gcsFilter_decodes_and_matches (by decide) (by decide)

/-- `MAX_SIZE + 1` distinct elements, fewer than `2 ^ 32`, with `P = 19` and `M = 784931`: the
filter is built, but the constructor from its encoding throws. -/
theorem gcsFilter_refuses_oversized_encoding :
    zeroRuns.length < 2 ^ 32 ∧ zeroRuns.Nodup ∧
      ∃ filter, ofElements { P := basicFilterP, M := basicFilterM } zeroRuns = .ok filter ∧
        ofEncoded { P := basicFilterP, M := basicFilterM } filter.encoded false = .error sizeTooLarge := by
  have fits : zeroRuns.length < 2 ^ 32 := by rw [length_zeroRuns]; decide
  have distinct : zeroRuns.Nodup :=
    List.Nodup.map (fun m n same => by simpa using congrArg List.length same) List.nodup_range
  have small : ({ P := basicFilterP, M := basicFilterM } : Params).P.toNat < 64 := by decide
  obtain ⟨filter, built, spec⟩ := ofElements_spec small fits
  exact ⟨fits, distinct, filter, built,
    spec.ofEncoded_oversized (by rw [length_zeroRuns]; exact Nat.lt_succ_self _) false⟩

end Constructed

end GCSFilter

end Freycoin.BlockFilter

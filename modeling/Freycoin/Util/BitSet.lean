import Freycoin.Library.StdBit

/-! `util/bitset.h`: sets of small integers kept in the bits of unsigned integers.

A limb of `W` bits is a `BitVec W`. A method returns the set it leaves. An `Assume` is a
hypothesis of the theorems, except where the code would go past its array. -/

namespace Freycoin.Util

open StdBit

section PopCount

variable {W : ℕ}

/-- `bitset_detail::PopCount`, the parallel bit count: every pair of bits becomes its count,
then every nibble and every byte, and the bytes are added up by shifts (up to 32 bits) or by
one multiplication in 64 bits (above). -/
def popCount (v : BitVec W) : ℕ :=
  if W ≤ 32 then
    let v := v - ((v >>> 1) &&& BitVec.ofNat W 0x55555555)
    let v := (v &&& BitVec.ofNat W 0x33333333) + ((v >>> 2) &&& BitVec.ofNat W 0x33333333)
    let v := (v + (v >>> 4)) &&& BitVec.ofNat W 0x0f0f0f0f
    let v := if W > 8 then v + (v >>> 8) else v
    let v := if W > 16 then v + (v >>> 16) else v
    (v &&& BitVec.ofNat W 0x3f).toNat
  else
    let v := v - ((v >>> 1) &&& BitVec.ofNat W 0x5555555555555555)
    let v := (v &&& BitVec.ofNat W 0x3333333333333333) +
      ((v >>> 2) &&& BitVec.ofNat W 0x3333333333333333)
    let v := (v + (v >>> 4)) &&& BitVec.ofNat W 0x0f0f0f0f0f0f0f0f
    ((v.setWidth 64 * BitVec.ofNat 64 0x0101010101010101) >>> 56).toNat

end PopCount

/-- `IntBitSet<I>`: the set is `m_val`, one limb. -/
structure IntBitSet (W : ℕ) where
  val : BitVec W
deriving DecidableEq

namespace IntBitSet

variable {W : ℕ}

/-- `Size()`, that is `MAX_SIZE`. -/
def size (W : ℕ) : ℕ := W

def empty : IntBitSet W := ⟨0⟩

def singleton (i : ℕ) : IntBitSet W := ⟨(1 : BitVec W) <<< i⟩

/-- `Fill(count)`: the `count` low bits, from all ones shifted down. -/
def fill (count : ℕ) : IntBitSet W :=
  if count ≠ 0 then ⟨BitVec.allOnes W >>> (W - count)⟩ else empty

def set (s : IntBitSet W) (pos : ℕ) : IntBitSet W := ⟨s.val ||| (1 : BitVec W) <<< pos⟩

/-- `Set(pos, val)`. -/
def setTo (s : IntBitSet W) (pos : ℕ) (b : Bool) : IntBitSet W :=
  ⟨(s.val &&& ~~~((1 : BitVec W) <<< pos)) ||| BitVec.ofNat W b.toNat <<< pos⟩

def reset (s : IntBitSet W) (pos : ℕ) : IntBitSet W := ⟨s.val &&& ~~~((1 : BitVec W) <<< pos)⟩

/-- `operator[]`. -/
def get (s : IntBitSet W) (pos : ℕ) : Bool := (s.val >>> pos &&& 1) != 0

def count (s : IntBitSet W) : ℕ := popCount s.val

def none (s : IntBitSet W) : Bool := s.val == 0

def any (s : IntBitSet W) : Bool := !s.none

def first (s : IntBitSet W) : ℕ := countrZero s.val

def last (s : IntBitSet W) : ℕ := bitWidth s.val - 1

def or (a b : IntBitSet W) : IntBitSet W := ⟨a.val ||| b.val⟩

def and (a b : IntBitSet W) : IntBitSet W := ⟨a.val &&& b.val⟩

def sub (a b : IntBitSet W) : IntBitSet W := ⟨a.val &&& ~~~b.val⟩

def xor (a b : IntBitSet W) : IntBitSet W := ⟨a.val ^^^ b.val⟩

def orAssign (s a : IntBitSet W) : IntBitSet W := ⟨s.val ||| a.val⟩

def andAssign (s a : IntBitSet W) : IntBitSet W := ⟨s.val &&& a.val⟩

def subAssign (s a : IntBitSet W) : IntBitSet W := ⟨s.val &&& ~~~a.val⟩

def xorAssign (s a : IntBitSet W) : IntBitSet W := ⟨s.val ^^^ a.val⟩

def overlaps (s a : IntBitSet W) : Bool := (s.val &&& a.val) != 0

def isSupersetOf (s a : IntBitSet W) : Bool := (a.val &&& ~~~s.val) == 0

def isSubsetOf (s a : IntBitSet W) : Bool := (s.val &&& ~~~a.val) == 0

/-- The constructor from an initializer list, and the assignment from one. -/
def ofList (ilist : List ℕ) : IntBitSet W := ilist.foldl set empty

/-- `IntBitSet::Iterator`: the bits not visited yet, and the position it reports. -/
structure Iterator (W : ℕ) where
  val : BitVec W
  pos : ℕ

def Iterator.init (val : BitVec W) : Iterator W := ⟨val, if val ≠ 0 then countrZero val else 0⟩

/-- `operator++`: clear the lowest bit and report the next one. -/
def Iterator.next (it : Iterator W) : Iterator W :=
  let val := it.val &&& (it.val - 1)
  ⟨val, if val ≠ 0 then countrZero val else it.pos⟩

/-- `it == end()`. -/
def Iterator.atEnd (it : Iterator W) : Bool := it.val == 0

def begin (s : IntBitSet W) : Iterator W := Iterator.init s.val

/-- The positions a loop from `it` to `end()` reports. -/
def Iterator.walk (it : Iterator W) : List ℕ :=
  if it.atEnd then [] else it.pos :: it.next.walk
termination_by it.val.toNat
decreasing_by
  rename_i going
  exact toNat_and_sub_one_lt (by simpa [Iterator.atEnd] using going)

end IntBitSet

/-- `MultiIntBitSet<I, N>`: the set is the array `m_val` of `N` limbs. -/
structure MultiIntBitSet (W N : ℕ) where
  val : Vector (BitVec W) N
deriving DecidableEq

namespace MultiIntBitSet

variable {W N : ℕ}

/-- `Size()`, that is `MAX_SIZE = LIMB_BITS * N`. -/
def size (W N : ℕ) : ℕ := W * N

/-- `m_val[i]`, for a limb of the array. -/
def limb (s : MultiIntBitSet W N) (i : ℕ) : BitVec W := s.val[i]?.getD 0

/-- `m_val[i] = f(m_val[i])`. -/
def updateLimb (s : MultiIntBitSet W N) (i : ℕ) (f : BitVec W → BitVec W) : MultiIntBitSet W N :=
  ⟨s.val.mapIdx fun j x => if j = i then f x else x⟩

def empty : MultiIntBitSet W N := ⟨Vector.replicate N 0⟩

def set (s : MultiIntBitSet W N) (pos : ℕ) : MultiIntBitSet W N :=
  s.updateLimb (pos / W) (· ||| (1 : BitVec W) <<< (pos % W))

/-- `Set(pos, val)`. -/
def setTo (s : MultiIntBitSet W N) (pos : ℕ) (b : Bool) : MultiIntBitSet W N :=
  s.updateLimb (pos / W) fun x =>
    (x &&& ~~~((1 : BitVec W) <<< (pos % W))) ||| BitVec.ofNat W b.toNat <<< (pos % W)

def reset (s : MultiIntBitSet W N) (pos : ℕ) : MultiIntBitSet W N :=
  s.updateLimb (pos / W) (· &&& ~~~((1 : BitVec W) <<< (pos % W)))

/-- `operator[]`. -/
def get (s : MultiIntBitSet W N) (pos : ℕ) : Bool := (s.limb (pos / W) >>> (pos % W) &&& 1) != 0

def singleton (pos : ℕ) : MultiIntBitSet W N :=
  empty.updateLimb (pos / W) fun _ => (1 : BitVec W) <<< (pos % W)

/-- The loop of `Fill`: whole limbs of ones while more than a limb is left, then the last. -/
def fillLoop [NeZero W] (ret : MultiIntBitSet W N) (i count : ℕ) : MultiIntBitSet W N :=
  if count > W then fillLoop (ret.updateLimb i fun _ => BitVec.allOnes W) (i + 1) (count - W)
  else ret.updateLimb i fun _ => BitVec.allOnes W >>> (W - count)
termination_by count
decreasing_by
  have := Nat.pos_of_ne_zero (NeZero.ne W)
  omega

def fill [NeZero W] (count : ℕ) : MultiIntBitSet W N := if count ≠ 0 then fillLoop empty 0 count else empty

def count (s : MultiIntBitSet W N) : ℕ := s.val.foldl (fun ret v => ret + popCount v) 0

def none (s : MultiIntBitSet W N) : Bool := s.val.all (· == 0)

def any (s : MultiIntBitSet W N) : Bool := !s.none

/-- The loop of `First` from limb `p`, up the array. -/
def firstLoop (s : MultiIntBitSet W N) (p : ℕ) : Option ℕ :=
  if p < N then
    if s.limb p = 0 then s.firstLoop (p + 1) else some (countrZero (s.limb p) + p * W)
  else Option.none
termination_by N - p

def first (s : MultiIntBitSet W N) : Option ℕ := s.firstLoop 0

/-- The loop of `Last` from limb `p`, down the array. -/
def lastLoop (s : MultiIntBitSet W N) : ℕ → Option ℕ
  | 0 => if s.limb 0 = 0 then Option.none else some (bitWidth (s.limb 0) - 1)
  | p + 1 =>
    if s.limb (p + 1) = 0 then s.lastLoop p else some (bitWidth (s.limb (p + 1)) - 1 + (p + 1) * W)

def last (s : MultiIntBitSet W N) : Option ℕ := s.lastLoop (N - 1)

/-- The loops `for (unsigned i = 0; i < N; ++i)` that combine two sets limb by limb. -/
def limbwise (op : BitVec W → BitVec W → BitVec W) (a b : MultiIntBitSet W N) : MultiIntBitSet W N :=
  ⟨Vector.zipWith op a.val b.val⟩

def or (a b : MultiIntBitSet W N) : MultiIntBitSet W N := limbwise (· ||| ·) a b

def and (a b : MultiIntBitSet W N) : MultiIntBitSet W N := limbwise (· &&& ·) a b

def sub (a b : MultiIntBitSet W N) : MultiIntBitSet W N := limbwise (fun x y => x &&& ~~~y) a b

def xor (a b : MultiIntBitSet W N) : MultiIntBitSet W N := limbwise (· ^^^ ·) a b

def orAssign (s a : MultiIntBitSet W N) : MultiIntBitSet W N := limbwise (· ||| ·) s a

def andAssign (s a : MultiIntBitSet W N) : MultiIntBitSet W N := limbwise (· &&& ·) s a

def subAssign (s a : MultiIntBitSet W N) : MultiIntBitSet W N := limbwise (fun x y => x &&& ~~~y) s a

def xorAssign (s a : MultiIntBitSet W N) : MultiIntBitSet W N := limbwise (· ^^^ ·) s a

def overlaps (s a : MultiIntBitSet W N) : Bool := (Vector.zipWith (· &&& ·) s.val a.val).any (· != 0)

def isSupersetOf (s a : MultiIntBitSet W N) : Bool :=
  (Vector.zipWith (fun x y => y &&& ~~~x) s.val a.val).all (· == 0)

def isSubsetOf (s a : MultiIntBitSet W N) : Bool :=
  (Vector.zipWith (fun x y => x &&& ~~~y) s.val a.val).all (· == 0)

/-- The constructor from an initializer list, and the assignment from one. -/
def ofList (ilist : List ℕ) : MultiIntBitSet W N := ilist.foldl set empty

/-- `MultiIntBitSet::Iterator`: the bits not visited yet of limb `idx`, and the position it
reports. -/
structure Iterator (W : ℕ) where
  val : BitVec W
  pos : ℕ
  idx : ℕ

/-- The search for the next limb with a one bit, from limb `idx` on; past the end it keeps
the last limb it read and the position it had. -/
def seek (ref : Vector (BitVec W) N) (idx pos : ℕ) (val : BitVec W) : Iterator W :=
  if h : idx < N then
    if ref[idx] ≠ 0 then ⟨ref[idx], countrZero ref[idx] + idx * W, idx⟩
    else seek ref (idx + 1) pos ref[idx]
  else ⟨val, pos, idx⟩
termination_by N - idx

/-- The constructor's `do … while (m_idx < N)`, from limb 0. -/
def Iterator.init (ref : Vector (BitVec W) N) : Iterator W := seek ref 0 0 0

/-- `operator++`: clear the lowest bit, then report the next one of this limb or go on to the
next limb with a one bit. -/
def Iterator.next (ref : Vector (BitVec W) N) (it : Iterator W) : Iterator W :=
  let val := it.val &&& (it.val - 1)
  if val = 0 then seek ref (it.idx + 1) it.pos val else ⟨val, countrZero val + it.idx * W, it.idx⟩

def begin (s : MultiIntBitSet W N) : Iterator W := Iterator.init s.val

theorem le_seek_idx (ref : Vector (BitVec W) N) (idx pos : ℕ) (val : BitVec W) :
    idx ≤ (seek ref idx pos val).idx := by
  induction idx, val using seek.induct ref with
  | case1 idx val lt nonzero => rw [seek, dif_pos lt, if_pos nonzero]
  | case2 idx val lt zero ih =>
      rw [seek, dif_pos lt, if_neg zero]
      omega
  | case3 idx val ge => rw [seek, dif_neg ge]

theorem Iterator.next_lt (ref : Vector (BitVec W) N) (it : Iterator W) (inside : it.idx < N) :
    Prod.Lex (· < ·) (· < ·) (N - (it.next ref).idx, (it.next ref).val.toNat) (N - it.idx, it.val.toNat) := by
  rw [Iterator.next]
  split
  · apply Prod.Lex.left
    have := le_seek_idx ref (it.idx + 1) it.pos (it.val &&& (it.val - 1))
    omega
  · rename_i cleared
    have nonzero : it.val ≠ 0 := fun zero => cleared (by rw [zero]; simp)
    apply Prod.Lex.right
    exact toNat_and_sub_one_lt nonzero

/-- The positions a loop from `it` to `end()` reports; `it == end()` is `m_idx == N`. -/
def Iterator.walk (ref : Vector (BitVec W) N) (it : Iterator W) : List ℕ :=
  if it.idx < N then it.pos :: (it.next ref).walk ref else []
termination_by (N - it.idx, it.val.toNat)
decreasing_by
  rename_i inside
  exact it.next_lt ref inside

end MultiIntBitSet

end Freycoin.Util

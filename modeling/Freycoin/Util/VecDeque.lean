import Mathlib.Logic.Function.Basic
import Mathlib.Order.Basic

/-! `util/vecdeque.h`: a double-ended queue in one ring buffer.

`m_buffer` is a map from slots to `Option α`, `none` where memory is raw; `size_t` is `ℕ`. The
branches of each `if constexpr` are picked by the fields of `Traits`. -/

namespace Freycoin.Util

/-- `std::is_trivially_copyable_v<T>` and `std::is_trivially_destructible_v<T>`. -/
structure Traits where
  triviallyCopyable : Bool
  triviallyDestructible : Bool

/-- `VecDeque<T>`: `m_buffer`, `m_offset`, `m_size` and `m_capacity`. -/
structure VecDeque (α : Type) where
  buffer : ℕ → Option α
  offset : ℕ
  size : ℕ
  capacity : ℕ

namespace VecDeque

variable {α : Type} (traits : Traits)

/-- `VecDeque() noexcept = default`: no buffer, nothing in it. -/
instance : Inhabited (VecDeque α) := ⟨⟨fun _ => none, 0, 0, 0⟩⟩

/-- `FirstPart()`: the objects from `m_offset` to the end of the buffer. -/
def firstPart (d : VecDeque α) : ℕ := min (d.capacity - d.offset) d.size

/-- `BufferIndex(pos)`, written so that `pos + m_offset` is never formed past the capacity. -/
def bufferIndex (d : VecDeque α) (pos : ℕ) : ℕ :=
  if pos ≥ d.capacity - d.offset then d.offset + pos - d.capacity else d.offset + pos

/-- The two `memcpy` of `Reallocate` and of the copy assignment: the first part, then the part
that wrapped around to the start of the buffer; the rest of the new buffer is raw. -/
def copyParts (d : VecDeque α) (newPos : ℕ) : Option α :=
  if newPos < d.firstPart then d.buffer (d.offset + newPos)
  else if newPos < d.size then d.buffer (newPos - d.firstPart)
  else none

/-- The loop of `Reallocate` for other types: each object moved to the next slot of the new
buffer, `old_pos` wrapping at the old capacity. The old buffer is freed after it, so the
`destroy_at` on it leaves nothing to model. -/
def moveParts (old : ℕ → Option α) (capacity : ℕ) : ℕ → ℕ → ℕ → (ℕ → Option α) → ℕ → Option α
  | 0, _, _, new => new
  | left + 1, newPos, oldPos, new =>
    let new := Function.update new newPos (old oldPos)
    let oldPos := oldPos + 1
    moveParts old capacity left (newPos + 1) (if oldPos = capacity then 0 else oldPos) new

/-- `Reallocate(capacity)`: a new buffer of `capacity` slots (none for `0`) holding the objects
from slot `0` on. -/
def reallocate (d : VecDeque α) (capacity : ℕ) : VecDeque α :=
  let buffer : ℕ → Option α :=
    if capacity = 0 then fun _ => none
    else if traits.triviallyCopyable then d.copyParts
    else moveParts d.buffer d.capacity d.size 0 d.offset fun _ => none
  ⟨buffer, 0, d.size, capacity⟩

/-- The destructor loop of `ResizeDown`: the last object destroyed, `count` times. -/
def destroyBack : ℕ → VecDeque α → VecDeque α
  | 0, d => d
  | count + 1, d =>
    destroyBack count
      { d with buffer := Function.update d.buffer (d.bufferIndex (d.size - 1)) none, size := d.size - 1 }

/-- `ResizeDown(size)`; a trivially destructible `T` needs no destructor calls. -/
def resizeDown (d : VecDeque α) (size : ℕ) : VecDeque α :=
  if traits.triviallyDestructible then { d with size := size } else destroyBack (d.size - size) d

/-- The loops that construct objects after the last one, `count` times, the object for
position `pos` made from `value pos`: default objects in `resize`, copies in the copy
assignment. -/
def constructBack (value : ℕ → Option α) : ℕ → VecDeque α → VecDeque α
  | 0, d => d
  | count + 1, d =>
    constructBack value count
      { d with buffer := Function.update d.buffer (d.bufferIndex d.size) (value d.size), size := d.size + 1 }

/-- `resize(size)`. -/
def resize [Inhabited α] (d : VecDeque α) (size : ℕ) : VecDeque α :=
  if size < d.size then resizeDown traits d size
  else if size > d.size then
    let d := if size > d.capacity then reallocate traits d size else d
    constructBack (fun _ => some default) (size - d.size) d
  else d

/-- `clear()`: the capacity stays. -/
def clear (d : VecDeque α) : VecDeque α := resizeDown traits d 0

/-- `operator=(const VecDeque& other)` for `other` another object: cleared, reallocated to the
other's size, and its objects copied in order. -/
def copyAssign (d other : VecDeque α) : VecDeque α :=
  let d := reallocate traits (clear traits d) other.size
  if traits.triviallyCopyable then
    { d with buffer := fun newPos => if newPos < other.size then other.copyParts newPos else d.buffer newPos,
             size := other.size }
  else constructBack (fun pos => other.buffer (other.bufferIndex pos)) (other.size - d.size) d

/-- `operator==`: the sizes, then the objects in order, by `T`'s `!=`. -/
def beqFrom [BEq α] (a b : VecDeque α) (pos : ℕ) : ℕ → Bool
  | 0 => true
  | left + 1 => if a.buffer (a.bufferIndex pos) != b.buffer (b.bufferIndex pos) then false else beqFrom a b (pos + 1) left

def beq [BEq α] (a b : VecDeque α) : Bool :=
  if a.size != b.size then false else beqFrom a b 0 a.size

/-- `operator<=>`: the first objects that compare unequal under `T`'s `<=>`, else the sizes. -/
def compareFrom [Ord α] (a b : VecDeque α) (pos : ℕ) : ℕ → Ordering
  | 0 => compare a.size b.size
  | left + 1 =>
    let cmp := compare (a.buffer (a.bufferIndex pos)) (b.buffer (b.bufferIndex pos))
    if cmp ≠ .eq then cmp else compareFrom a b (pos + 1) left

def threeWayCompare [Ord α] (a b : VecDeque α) : Ordering := compareFrom a b 0 (min a.size b.size)

/-- `reserve(capacity)`: the capacity never shrinks. -/
def reserve (d : VecDeque α) (capacity : ℕ) : VecDeque α :=
  if capacity > d.capacity then reallocate traits d capacity else d

/-- `shrink_to_fit()`. -/
def shrinkToFit (d : VecDeque α) : VecDeque α :=
  if d.capacity > d.size then reallocate traits d d.size else d

/-- `emplace_back(args...)`, and so `push_back(elem)`: the buffer doubles past its size when
full. -/
def emplaceBack (d : VecDeque α) (value : α) : VecDeque α :=
  let d := if d.size = d.capacity then reallocate traits d ((d.size + 1) * 2) else d
  { d with buffer := Function.update d.buffer (d.bufferIndex d.size) (some value), size := d.size + 1 }

/-- `emplace_front(args...)`, and so `push_front(elem)`: the object goes in the slot before
`m_offset`, wrapping to the last slot. -/
def emplaceFront (d : VecDeque α) (value : α) : VecDeque α :=
  let d := if d.size = d.capacity then reallocate traits d ((d.size + 1) * 2) else d
  let buffer := Function.update d.buffer (d.bufferIndex (d.capacity - 1)) (some value)
  let offset := if d.offset = 0 then d.capacity else d.offset
  { d with buffer := buffer, offset := offset - 1, size := d.size + 1 }

/-- `pop_front()`. -/
def popFront (d : VecDeque α) : VecDeque α :=
  let offset := d.offset + 1
  { d with buffer := Function.update d.buffer d.offset none, size := d.size - 1,
           offset := if offset = d.capacity then 0 else offset }

/-- `pop_back()`. -/
def popBack (d : VecDeque α) : VecDeque α :=
  { d with buffer := Function.update d.buffer (d.bufferIndex (d.size - 1)) none, size := d.size - 1 }

/-- `front()`: the slot at `m_offset`. -/
def front (d : VecDeque α) : Option α := d.buffer d.offset

/-- `back()`. -/
def back (d : VecDeque α) : Option α := d.buffer (d.bufferIndex (d.size - 1))

/-- `operator[](idx)`. -/
def get (d : VecDeque α) (idx : ℕ) : Option α := d.buffer (d.bufferIndex idx)

/-- `empty()`. -/
def empty (d : VecDeque α) : Bool := d.size == 0

/-- An assignment to `operator[](idx)`. -/
def set (d : VecDeque α) (idx : ℕ) (value : α) : VecDeque α :=
  { d with buffer := Function.update d.buffer (d.bufferIndex idx) (some value) }

end VecDeque

/-- What a program does to its deques, named by numbers: `push_back` and `push_front` are the
`emplace` of the object they are given. -/
inductive VecDequeOp (α : Type) where
  | emplaceBack (d : ℕ) (value : α)
  | emplaceFront (d : ℕ) (value : α)
  | popFront (d : ℕ)
  | popBack (d : ℕ)
  | resize (d size : ℕ)
  | clear (d : ℕ)
  | reserve (d capacity : ℕ)
  | shrinkToFit (d : ℕ)
  | copyAssign (d other : ℕ)
  | moveAssign (d other : ℕ)
  | copyConstruct (d other : ℕ)
  | moveConstruct (d other : ℕ)
  | swap (d other : ℕ)

namespace VecDequeOp

variable {α : Type} (traits : Traits)

/-- `a.swap(b)` exchanges all four members. -/
def swapIn {β : Type} (store : ℕ → β) (a b : ℕ) : ℕ → β :=
  Function.update (Function.update store a (store b)) b (store a)

/-- One operation on the deques. The copy assignment returns at once on itself; the move
assignment is `swap`; the copy constructor assigns into a new deque, and the move constructor
swaps a new deque with the other. -/
def run [Inhabited α] (store : ℕ → VecDeque α) : VecDequeOp α → ℕ → VecDeque α
  | emplaceBack d value => Function.update store d ((store d).emplaceBack traits value)
  | emplaceFront d value => Function.update store d ((store d).emplaceFront traits value)
  | popFront d => Function.update store d (store d).popFront
  | popBack d => Function.update store d (store d).popBack
  | resize d size => Function.update store d ((store d).resize traits size)
  | clear d => Function.update store d ((store d).clear traits)
  | reserve d capacity => Function.update store d ((store d).reserve traits capacity)
  | shrinkToFit d => Function.update store d ((store d).shrinkToFit traits)
  | copyAssign d other =>
    if d = other then store else Function.update store d ((store d).copyAssign traits (store other))
  | moveAssign d other => swapIn store d other
  | copyConstruct d other => Function.update store d ((default : VecDeque α).copyAssign traits (store other))
  | moveConstruct d other => Function.update (Function.update store other default) d (store other)
  | swap d other => swapIn store d other

end VecDequeOp

end Freycoin.Util

import Freycoin.Net.TxRequestTable
import Freycoin.Library.FunctionUpdates
import Mathlib.Data.List.Count

/-! The index's shape and its primitives. -/

namespace Freycoin.TxRequest

open SortedNeighbors

variable {H P : Type} [LinearOrder H] [DecidableEq P]

/-! ### The ByTxHash key -/

section Key

variable (computer : H → P → Bool → UInt64)

omit [DecidableEq P] in
theorem byTxHashView_le_iff (a b : Announcement H P) :
    byTxHashView computer a ≤ byTxHashView computer b ↔
      a.txhash < b.txhash ∨ a.txhash = b.txhash ∧
        (a.state.rank < b.state.rank ∨ a.state.rank = b.state.rank ∧
          (if a.state = State.candidateReady then (priority computer a).toNat else 0) ≤
            (if b.state = State.candidateReady then (priority computer b).toNat else 0)) := by
  simp only [byTxHashView, Prod.Lex.toLex_le_toLex]

variable {computer} {a b q : Announcement H P}

omit [DecidableEq P] in
theorem txhash_le_of_le (order : byTxHashView computer a ≤ byTxHashView computer b) :
    a.txhash ≤ b.txhash := by
  rcases (byTxHashView_le_iff computer a b).mp order with lower | ⟨same, _⟩
  · exact lower.le
  · exact same.le

omit [DecidableEq P] in
theorem txhash_eq_of_between (low : byTxHashView computer a ≤ byTxHashView computer q)
    (high : byTxHashView computer q ≤ byTxHashView computer b) (same : a.txhash = b.txhash) :
    q.txhash = a.txhash :=
  le_antisymm (same ▸ txhash_le_of_le high) (txhash_le_of_le low)

omit [DecidableEq P] in
theorem rank_le_of_le (order : byTxHashView computer a ≤ byTxHashView computer b)
    (same : a.txhash = b.txhash) : a.state.rank ≤ b.state.rank := by
  rcases (byTxHashView_le_iff computer a b).mp order with lower | ⟨_, ranks | ⟨ranks, _⟩⟩
  · exact absurd same lower.ne
  · exact ranks.le
  · exact ranks.le

omit [DecidableEq P] in
theorem priority_le_of_le (order : byTxHashView computer a ≤ byTxHashView computer b)
    (same : a.txhash = b.txhash) (readyA : a.state = State.candidateReady)
    (readyB : b.state = State.candidateReady) : priority computer a ≤ priority computer b := by
  rcases (byTxHashView_le_iff computer a b).mp order with lower | ⟨_, ranks | ⟨_, prio⟩⟩
  · exact absurd same lower.ne
  · rw [readyA, readyB] at ranks
    exact absurd ranks (lt_irrefl _)
  · rw [if_pos readyA, if_pos readyB] at prio
    exact UInt64.le_iff_toNat_le.mpr prio

end Key

/-! ### Shape -/

structure Shape (impl : Impl H P) : Prop where
  sorted : impl.index.Pairwise fun a b => byTxHashView impl.computer a ≤ byTxHashView impl.computer b
  nodup : impl.index.Nodup
  unique : ∀ a ∈ impl.index, ∀ b ∈ impl.index, a.txhash = b.txhash → a.peer = b.peer → a = b
  peerinfo : impl.peerinfo = recomputePeerInfo impl.index

namespace Impl

@[simp] theorem modify_computer (impl : Impl H P) (ann new : Announcement H P) :
    (impl.modify ann new).computer = impl.computer := rfl

@[simp] theorem modify_index (impl : Impl H P) (ann new : Announcement H P) :
    (impl.modify ann new).index = (impl.index.erase ann).orderedInsert impl.byTxHash new := rfl

@[simp] theorem modify_currentSequence (impl : Impl H P) (ann new : Announcement H P) :
    (impl.modify ann new).currentSequence = impl.currentSequence := rfl

@[simp] theorem erase_computer (impl : Impl H P) (ann : Announcement H P) :
    (impl.erase ann).computer = impl.computer := rfl

@[simp] theorem erase_index (impl : Impl H P) (ann : Announcement H P) :
    (impl.erase ann).index = impl.index.erase ann := rfl

@[simp] theorem erase_currentSequence (impl : Impl H P) (ann : Announcement H P) :
    (impl.erase ann).currentSequence = impl.currentSequence := rfl

end Impl

section Statistics

variable (index : List (Announcement H P)) (ann new : Announcement H P) (peer : P)

omit [LinearOrder H] in
theorem recomputePeerInfo_eq :
    recomputePeerInfo index peer =
      ⟨index.countP (·.peer == peer),
        index.countP (fun ann => ann.peer == peer && ann.state == State.completed),
        index.countP (fun ann => ann.peer == peer && ann.state == State.requested)⟩ := by
  simp only [recomputePeerInfo, List.countP_eq_length_filter]

omit [LinearOrder H] in
theorem countP_le_total (test : Announcement H P → Bool) :
    index.countP (fun ann => ann.peer == peer && test ann) ≤ index.countP (·.peer == peer) :=
  List.countP_mono_left fun _ _ both => (Bool.and_eq_true _ _ ▸ both).1

end Statistics

variable {impl : Impl H P} {ann new x : Announcement H P}

theorem mem_modify (shape : Shape impl) :
    x ∈ (impl.modify ann new).index ↔ x = new ∨ x ∈ impl.index ∧ x ≠ ann := by
  rw [Impl.modify_index, List.mem_orderedInsert, shape.nodup.mem_erase_iff, and_comm]

theorem mem_erase (shape : Shape impl) : x ∈ (impl.erase ann).index ↔ x ∈ impl.index ∧ x ≠ ann := by
  rw [Impl.erase_index, shape.nodup.mem_erase_iff, and_comm]

omit [LinearOrder H] [DecidableEq P] in
theorem txhash_of_origin (origin : new = { ann with state := new.state, time := new.time }) :
    new.txhash = ann.txhash := by
  rw [origin]
  rfl

omit [LinearOrder H] [DecidableEq P] in
theorem peer_of_origin (origin : new = { ann with state := new.state, time := new.time }) :
    new.peer = ann.peer := by
  rw [origin]

theorem countP_modify (mem : ann ∈ impl.index) (test : Announcement H P → Bool) :
    (impl.modify ann new).index.countP test =
      (impl.index.countP test - if test ann then 1 else 0) + if test new then 1 else 0 := by
  rw [Impl.modify_index, (List.perm_orderedInsert _ _ _).countP_eq, List.countP_cons,
    List.countP_erase]
  simp [mem]

theorem countP_erase (mem : ann ∈ impl.index) (test : Announcement H P → Bool) :
    (impl.erase ann).index.countP test = impl.index.countP test - if test ann then 1 else 0 := by
  rw [Impl.erase_index, List.countP_erase]
  simp [mem]

theorem mem_modify_of_ne (shape : Shape impl) (txhash : x.txhash ≠ ann.txhash)
    (origin : new = { ann with state := new.state, time := new.time }) :
    x ∈ (impl.modify ann new).index ↔ x ∈ impl.index := by
  rw [mem_modify shape]
  constructor
  · rintro (rfl | ⟨inside, _⟩)
    · exact absurd (txhash_of_origin origin) txhash
    · exact inside
  · intro inside
    exact .inr ⟨inside, fun same => txhash (same ▸ rfl)⟩

theorem Shape.modify (shape : Shape impl) (mem : ann ∈ impl.index)
    (origin : new = { ann with state := new.state, time := new.time }) :
    Shape (impl.modify ann new) where
  sorted := pairwise_orderedInsert _ new (shape.sorted.sublist List.erase_sublist)
  nodup := by
    rw [Impl.modify_index, (List.perm_orderedInsert _ _ _).nodup_iff, List.nodup_cons]
    refine ⟨fun inside => ?_, shape.nodup.sublist List.erase_sublist⟩
    have other := (shape.nodup.mem_erase_iff.mp inside)
    exact other.1 (shape.unique _ other.2 _ mem (txhash_of_origin origin) (peer_of_origin origin))
  unique := by
    intro a memA b memB sameHash samePeer
    rcases (mem_modify shape).mp memA with rfl | ⟨inA, otherA⟩
    · rcases (mem_modify shape).mp memB with rfl | ⟨inB, otherB⟩
      · rfl
      · exact absurd (shape.unique _ inB _ mem (sameHash.symm.trans (txhash_of_origin origin))
          (samePeer.symm.trans (peer_of_origin origin))) otherB
    · rcases (mem_modify shape).mp memB with rfl | ⟨inB, _⟩
      · exact absurd (shape.unique _ inA _ mem (sameHash.trans (txhash_of_origin origin))
          (samePeer.trans (peer_of_origin origin))) otherA
      · exact shape.unique _ inA _ inB sameHash samePeer
  peerinfo := by
    funext other
    have counts : ∀ test : Announcement H P → Bool, (impl.modify ann new).index.countP test =
        (impl.index.countP test - if test ann then 1 else 0) + if test new then 1 else 0 :=
      countP_modify mem
    have present : 0 < impl.index.countP (·.peer == ann.peer) :=
      List.countP_pos_iff.mpr ⟨ann, mem, beq_self_eq_true ann.peer⟩
    rw [recomputePeerInfo_eq, counts, counts, counts]
    simp only [Impl.modify, recomputePeerInfo_eq, shape.peerinfo]
    by_cases same : other = ann.peer
    · subst same
      rw [Function.update_self]
      simp only [peer_of_origin origin, beq_self_eq_true, Bool.true_and, Bool.toNat, Bool.cond_eq_ite, ite_true]
      congr 1
      omega
    · rw [Function.update_of_ne same]
      have differs : (ann.peer == other) = false := beq_false_of_ne (Ne.symm same)
      simp [peer_of_origin origin, differs, recomputePeerInfo_eq]

theorem Shape.erase (shape : Shape impl) (mem : ann ∈ impl.index) : Shape (impl.erase ann) where
  sorted := shape.sorted.sublist List.erase_sublist
  nodup := shape.nodup.sublist List.erase_sublist
  unique := fun a inA b inB =>
    shape.unique a ((mem_erase shape).mp inA).1 b ((mem_erase shape).mp inB).1
  peerinfo := by
    funext other
    have counts := countP_erase mem
    have total := countP_le_total (impl.erase ann).index other fun ann => ann.state == State.completed
    have inFlight := countP_le_total (impl.erase ann).index other fun ann => ann.state == State.requested
    rw [recomputePeerInfo_eq, counts, counts, counts]
    rw [counts, counts] at total inFlight
    simp only [Impl.erase, recomputePeerInfo_eq, shape.peerinfo]
    by_cases same : other = ann.peer
    · subst same
      rw [Function.update_self]
      simp only [beq_self_eq_true, Bool.true_and, Bool.toNat, Bool.cond_eq_ite, ite_true] at total inFlight ⊢
      by_cases empty : impl.index.countP (·.peer == ann.peer) - 1 = 0
      · -- the last announcement of the peer goes, and with it its entry
        rw [if_pos empty]
        show (⟨0, 0, 0⟩ : PeerInfo) = _
        simp only [PeerInfo.mk.injEq]
        omega
      · rw [if_neg empty]
    · rw [Function.update_of_ne same]
      have differs : (ann.peer == other) = false := beq_false_of_ne (Ne.symm same)
      simp [differs, recomputePeerInfo_eq]

theorem Shape.insert (shape : Shape impl) (sequence : UInt64)
    (fresh : ∀ a ∈ impl.index, ¬(a.txhash = new.txhash ∧ a.peer = new.peer))
    (delayed : new.state = State.candidateDelayed) :
    Shape { impl with
      index := impl.index.orderedInsert impl.byTxHash new
      peerinfo := Function.update impl.peerinfo new.peer
        { impl.peerinfo new.peer with total := (impl.peerinfo new.peer).total + 1 }
      currentSequence := sequence } where
  sorted := pairwise_orderedInsert _ new shape.sorted
  nodup := by
    rw [(List.perm_orderedInsert _ _ _).nodup_iff, List.nodup_cons]
    exact ⟨fun inside => fresh new inside ⟨rfl, rfl⟩, shape.nodup⟩
  unique := by
    intro a memA b memB sameHash samePeer
    rcases (List.mem_orderedInsert _).mp memA with rfl | inA <;>
      rcases (List.mem_orderedInsert _).mp memB with rfl | inB
    · rfl
    · exact absurd ⟨sameHash.symm, samePeer.symm⟩ (fresh b inB)
    · exact absurd ⟨sameHash, samePeer⟩ (fresh a inA)
    · exact shape.unique a inA b inB sameHash samePeer
  peerinfo := by
    funext other
    have counts : ∀ test : Announcement H P → Bool,
        (impl.index.orderedInsert impl.byTxHash new).countP test =
          impl.index.countP test + if test new then 1 else 0 := by
      intro test
      rw [(List.perm_orderedInsert _ _ _).countP_eq, List.countP_cons]
    simp only [recomputePeerInfo_eq, counts, shape.peerinfo, delayed]
    by_cases same : other = new.peer
    · subst same
      rw [Function.update_self]
      simp
    · rw [Function.update_of_ne same]
      have differs : (new.peer == other) = false := beq_false_of_ne (Ne.symm same)
      simp [differs, recomputePeerInfo_eq]

/-! ### The naive states -/

/-- The naive state of a tracker state: the three candidate states are one. -/
def collapse : State → Tester.State
  | .candidateDelayed => .candidate
  | .candidateReady => .candidate
  | .candidateBest => .candidate
  | .requested => .requested
  | .completed => .completed

/-! ### The invariants of `SanityCheck` -/

/-- What `SanityCheck` asserts of the announcements of one txhash. -/
structure TxHashInv (index : List (Announcement H P)) (computer : H → P → Bool → UInt64)
    (txhash : H) : Prop where
  notOnlyCompleted : ∀ a ∈ index, a.txhash = txhash →
    ∃ b ∈ index, b.txhash = txhash ∧ b.state ≠ State.completed
  oneSelected : ∀ a ∈ index, ∀ b ∈ index, a.txhash = txhash → b.txhash = txhash →
    a.isSelected = true → b.isSelected = true → a = b
  readySelected : ∀ a ∈ index, a.txhash = txhash → a.state = State.candidateReady →
    ∃ b ∈ index, b.txhash = txhash ∧ b.isSelected = true
  bestFirst : ∀ a ∈ index, ∀ b ∈ index, a.txhash = txhash → b.txhash = txhash →
    a.state = State.candidateBest → b.state = State.candidateReady →
    priority computer b ≤ priority computer a

/-- The state the tracker keeps between calls. -/
structure Consistent (impl : Impl H P) : Prop extends Shape impl where
  txhashInv : ∀ txhash, TxHashInv impl.index impl.computer txhash

section TxHashInv

variable {index index' : List (Announcement H P)} {computer : H → P → Bool → UInt64}

omit [LinearOrder H] [DecidableEq P] in
theorem TxHashInv.congr (inv : TxHashInv index computer txhash)
    (same : ∀ a, a.txhash = txhash → (a ∈ index' ↔ a ∈ index)) :
    TxHashInv index' computer txhash where
  notOnlyCompleted a inside hash := by
    obtain ⟨b, mem, sameHash, live⟩ := inv.notOnlyCompleted a ((same a hash).mp inside) hash
    exact ⟨b, (same b sameHash).mpr mem, sameHash, live⟩
  oneSelected a inA b inB hashA hashB :=
    inv.oneSelected a ((same a hashA).mp inA) b ((same b hashB).mp inB) hashA hashB
  readySelected a inside hash ready := by
    obtain ⟨b, mem, sameHash, selected⟩ := inv.readySelected a ((same a hash).mp inside) hash ready
    exact ⟨b, (same b sameHash).mpr mem, sameHash, selected⟩
  bestFirst a inA b inB hashA hashB :=
    inv.bestFirst a ((same a hashA).mp inA) b ((same b hashB).mp inB) hashA hashB

theorem TxHashInv.of_selected (chosen : Announcement H P) (mem : chosen ∈ index)
    (hash : chosen.txhash = txhash) (selected : chosen.isSelected = true)
    (others : ∀ a ∈ index, a.txhash = txhash → a ≠ chosen → a.isSelected = false)
    (dominates : chosen.state = State.candidateBest → ∀ a ∈ index, a.txhash = txhash →
      a.state = State.candidateReady → priority computer a ≤ priority computer chosen) :
    TxHashInv index computer txhash where
  notOnlyCompleted _ _ _ := by
    refine ⟨chosen, mem, hash, fun completed => ?_⟩
    rw [Announcement.isSelected_iff, completed] at selected
    simp at selected
  oneSelected a inA b inB hashA hashB selectedA selectedB := by
    by_cases isA : a = chosen
    · by_cases isB : b = chosen
      · rw [isA, isB]
      · exact absurd (others b inB hashB isB) (by rw [selectedB]; decide)
    · exact absurd (others a inA hashA isA) (by rw [selectedA]; decide)
  readySelected _ _ _ _ := ⟨chosen, mem, hash, selected⟩
  bestFirst a inA b inB hashA hashB best ready := by
    by_cases isA : a = chosen
    · subst isA
      exact dominates best b inB hashB ready
    · have unselected := others a inA hashA isA
      rw [Announcement.isSelected, best] at unselected
      simp at unselected

omit [LinearOrder H] [DecidableEq P] in
theorem TxHashInv.of_unselected
    (unselected : ∀ a ∈ index, a.txhash = txhash →
      a.isSelected = false ∧ a.state ≠ State.candidateReady)
    (live : ∀ a ∈ index, a.txhash = txhash →
      ∃ b ∈ index, b.txhash = txhash ∧ b.state ≠ State.completed) :
    TxHashInv index computer txhash where
  notOnlyCompleted := live
  oneSelected a inA _ _ hashA _ selectedA _ :=
    absurd (unselected a inA hashA).1 (by rw [selectedA]; decide)
  readySelected a inA hashA ready := absurd ready (unselected a inA hashA).2
  bestFirst a inA _ _ hashA _ best _ := by
    have unselectedA := (unselected a inA hashA).1
    rw [Announcement.isSelected, best] at unselectedA
    simp at unselectedA

end TxHashInv

theorem Consistent.of_txhash {other : Impl H P} (consistent : Consistent impl)
    (shape : Shape other) (computer : other.computer = impl.computer)
    (others : ∀ a, a.txhash ≠ txhash → (a ∈ other.index ↔ a ∈ impl.index))
    (inv : TxHashInv other.index other.computer txhash) : Consistent other where
  toShape := shape
  txhashInv txhash' := by
    by_cases here : txhash' = txhash
    · exact here ▸ inv
    · rw [computer]
      exact (consistent.txhashInv txhash').congr fun a hash => others a (hash ▸ here)

theorem Consistent.of_chosen {other : Impl H P} (consistent : Consistent impl)
    (shape : Shape other) (computer : other.computer = impl.computer)
    (others : ∀ a, a.txhash ≠ txhash → (a ∈ other.index ↔ a ∈ impl.index))
    (chosen : Announcement H P) (mem : chosen ∈ other.index) (hash : chosen.txhash = txhash)
    (selected : chosen.isSelected = true)
    (rest : ∀ a ∈ other.index, a.txhash = txhash → a ≠ chosen → a.isSelected = false ∧
      (chosen.state = State.candidateBest → a.state = State.candidateReady →
        priority impl.computer a ≤ priority impl.computer chosen)) : Consistent other :=
  consistent.of_txhash shape computer others
    (TxHashInv.of_selected chosen mem hash selected (fun a inside hash other => (rest a inside hash other).1)
      (fun best a inside hash ready => by
        by_cases same : a = chosen
        · subst same
          rw [best] at ready
          cases ready
        · rw [computer]
          exact (rest a inside hash same).2 best ready))

end Freycoin.TxRequest

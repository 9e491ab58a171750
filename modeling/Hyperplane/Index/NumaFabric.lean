import Mathlib.Data.List.Perm.Basic
import Hyperplane.Lib.Transition
import Hyperplane.Lib.Checked

/-! Buffers and index bytes kept for each memory node. Which node a call goes to depends
on the policy, and for one policy on a counter that all allocators share. -/
namespace Hyperplane
open Transition Bytes

inductive NumaPolicy where
  | preferred
  | currentCore
  | interleaved
  | bound
  deriving DecidableEq

structure NumaAllocator where
  preferredNode : UInt32
  fallbackNode : UInt32
  policy : NumaPolicy

namespace NumaAllocator

def new (preferredNode : UInt32) (policy : NumaPolicy) : NumaAllocator := ⟨preferredNode, 0, policy⟩

/-- Eight cores to the first node, all others to the second. -/
def coreToNode (core : UInt32) : UInt32 := if core < 8 then 0 else 1

def interleavedNode (counter : UInt64) : UInt32 × UInt64 := ((counter % 2).toUInt32, counter + 1)

def optimalNode (self : NumaAllocator) (currentCore : UInt32) (counter : UInt64) : UInt32 × UInt64 :=
  match self.policy with
  | .preferred => (self.preferredNode, counter)
  | .currentCore => (coreToNode currentCore, counter)
  | .interleaved => interleavedNode counter
  | .bound => (self.preferredNode, counter)

end NumaAllocator

structure NumaBufferPool where
  pools : List (List (List UInt8))
  bufferSize : Nat
  allocator : NumaAllocator

namespace NumaBufferPool

def new (numNodes bufferSize : Nat) (allocator : NumaAllocator) : NumaBufferPool :=
  ⟨List.replicate numNodes [], bufferSize, allocator⟩

/-- A buffer of the pool comes back as it was released, whatever its length. -/
def acquireBuffer (self : NumaBufferPool) (node : Nat) : Outcome Empty (List UInt8 × NumaBufferPool) :=
  match self.pools[node]? with
  | some pool => match pool.getLast? with
    | some buffer => .ok (buffer, { self with pools := self.pools.set node pool.dropLast })
    | none => .ok (List.replicate self.bufferSize 0, self)
  | none => .fault

def releaseBuffer (self : NumaBufferPool) (buffer : List UInt8) (node : Nat) : Outcome Empty NumaBufferPool :=
  match self.pools[node]? with
  | some pool =>
    .ok (if pool.length < 1024 then { self with pools := self.pools.set node (pool ++ [buffer]) } else self)
  | none => .fault

end NumaBufferPool

structure NumaIndexStorage where
  storagePerNode : List (List UInt8)
  allocator : NumaAllocator

namespace NumaIndexStorage

def new (numNodes initialCapacity : Nat) (allocator : NumaAllocator) : NumaIndexStorage :=
  ⟨List.replicate numNodes (List.replicate initialCapacity 0), allocator⟩

/-- A vector is never longer than 2^63 - 1 bytes. -/
def resize (storage : List UInt8) (stop : UInt64) : Outcome Empty (List UInt8) :=
  if storage.length < stop.toNat then
    if stop.toNat < 2 ^ 63 then .ok (storage ++ List.replicate (stop.toNat - storage.length) 0) else .fault
  else .ok storage

/-- What a write leaves at its node. Sums wrap, and a range that ends before it starts panics. -/
def overwrite (storage : List UInt8) (offset : UInt64) (data : Slice) : Outcome Empty (List UInt8) := do
  let stop := offset + UInt64.ofNat data.bytes.length
  let storage ← resize storage stop
  if offset ≤ stop then
    return storage.take offset.toNat ++ data.bytes ++ storage.drop stop.toNat
  else .fault

def write (self : NumaIndexStorage) (node : Nat) (offset : UInt64) (data : Slice) :
    Outcome Empty NumaIndexStorage :=
  match self.storagePerNode[node]? with
  | some storage => do
    let written ← overwrite storage offset data
    return { self with storagePerNode := self.storagePerNode.set node written }
  | none => .fault

def read (self : NumaIndexStorage) (node : Nat) (offset len : UInt64) : Outcome Empty (Option (List UInt8)) :=
  match self.storagePerNode[node]? with
  | some storage =>
    let stop := offset + len
    if storage.length < stop.toNat then .ok none
    else do
      let bytes ← Outcome.slice storage offset.toNat stop.toNat
      return some bytes
  | none => .fault

/-- The bytes of a vector, with zeros behind them. -/
def area (storage : List UInt8) : Area := fun i => (storage[i]?).getD 0

theorem load_area {storage : List UInt8} {p n : Nat} (inside : p + n ≤ storage.length) :
    load (area storage) p n = (storage.drop p).take n := by
  apply List.ext_getElem?
  intro i
  rw [getElem?_load, List.getElem?_take, List.getElem?_drop]
  split
  · rename_i below
    rw [area, List.getElem?_eq_getElem (by omega), Option.getD_some]
  · rfl

theorem resize_ok {storage t : List UInt8} {stop : UInt64} (resized : resize storage stop = .ok t) :
    t.length = max storage.length stop.toNat ∧ area t = area storage := by
  unfold resize at resized
  split at resized
  · rename_i longer
    split at resized
    · cases resized
      refine ⟨by simp; omega, ?_⟩
      funext i
      rw [area, area, List.getElem?_append]
      split
      · rfl
      · rename_i behind
        rw [List.getElem?_eq_none (Nat.le_of_not_lt behind), List.getElem?_replicate]
        split <;> rfl
    · cases resized
  · cases resized
    exact ⟨by omega, rfl⟩

theorem overwrite_ok {storage t : List UInt8} {offset : UInt64} {data : Slice}
    (written : overwrite storage offset data = .ok t) :
    t.length = max storage.length (offset.toNat + data.bytes.length) ∧
      area t = store (area storage) offset.toNat data.bytes := by
  have short := data.short
  unfold overwrite at written
  dsimp only at written
  cases resized : resize storage (offset + UInt64.ofNat data.bytes.length) with
  | error e => exact e.elim
  | fault =>
    rw [resized] at written
    cases written
  | ok grown =>
    rw [resized, Outcome.ok_bind] at written
    split at written
    · rename_i ordered
      cases written
      obtain ⟨len, same⟩ := resize_ok resized
      have stop : (offset + UInt64.ofNat data.bytes.length).toNat = offset.toNat + data.bytes.length := by
        have low := offset.toNat_lt
        rw [UInt64.le_iff_toNat_le, UInt64.toNat_add, UInt64.toNat_ofNat'] at ordered
        rw [UInt64.toNat_add, UInt64.toNat_ofNat']
        omega
      rw [stop] at len ⊢
      have front : (grown.take offset.toNat).length = offset.toNat := by
        rw [List.length_take]
        omega
      refine ⟨by simp only [List.length_append, List.length_drop, front]; omega, ?_⟩
      funext i
      rw [← same, store, area, List.append_assoc, List.getElem?_append, front]
      split
      · rename_i before
        rw [if_neg (Nat.not_le.mpr before), List.getElem?_take, if_pos before]
        rfl
      · rename_i behind
        rw [if_pos (Nat.le_of_not_lt behind), List.getElem?_append]
        split
        · rename_i inside
          rw [List.getElem?_eq_getElem inside]
          rfl
        · rename_i after
          rw [List.getElem?_eq_none (Nat.le_of_not_lt after), List.getElem?_drop, Option.getD_none, area]
          congr 2
          omega
    · cases written

theorem read_area {self : NumaIndexStorage} {node : Nat} {storage : List UInt8}
    (there : self.storagePerNode[node]? = some storage) {offset len : UInt64}
    (fits : offset.toNat + len.toNat < 2 ^ 64) :
    self.read node offset len = .ok (if offset.toNat + len.toNat ≤ storage.length then
      some (load (area storage) offset.toNat len.toNat) else none) := by
  have stop : (offset + len).toNat = offset.toNat + len.toNat := by
    rw [UInt64.toNat_add, Nat.mod_eq_of_lt fits]
  unfold read
  rw [there]
  dsimp only
  rw [stop]
  by_cases inside : offset.toNat + len.toNat ≤ storage.length
  · rw [if_neg (Nat.not_lt.mpr inside), if_pos inside, Outcome.slice_ok (Nat.le_add_right _ _) inside,
      Outcome.ok_bind, Nat.add_sub_cancel_left, load_area inside]
    rfl
  · rw [if_pos (Nat.lt_of_not_le inside), if_neg inside]

end NumaIndexStorage

/-- A pool's buffers are exchanged for those of the pool that replaces it. -/
theorem count_flatten_set {T : Type} [BEq T] {pools : List (List T)} {node : Nat} {before : List T}
    (there : pools[node]? = some before) (after : List T) (x : T) :
    (pools.set node after).flatten.count x + before.count x = pools.flatten.count x + after.count x := by
  induction pools generalizing node with
  | nil => cases there
  | cons pool rest ih =>
    cases node with
    | zero =>
      cases there
      simp only [List.set_cons_zero, List.flatten_cons, List.count_append]
      omega
    | succ node =>
      have behind : (rest.set node after).flatten.count x + before.count x =
          rest.flatten.count x + after.count x := ih there
      simp only [List.set_cons_succ, List.flatten_cons, List.count_append]
      omega

/-- Storage and buffers of one process, with what was written to each node, the buffers
that the pools took, those that were acquired, and how many of these met an empty pool. -/
structure NumaFabric where
  storage : NumaIndexStorage
  pool : NumaBufferPool
  counter : UInt64
  written : Nat → List (Nat × List UInt8)
  kept : List (List UInt8)
  given : List (List UInt8)
  fresh : Nat

inductive NumaCall where
  | write (core : UInt32) (offset : UInt64) (data : Slice)
  | acquireBuffer (core : UInt32)
  | releaseBuffer (buffer : List UInt8) (core : UInt32)
  | otherAllocator

namespace NumaFabric

def start (numNodes initialCapacity bufferSize : Nat) (storage pool : NumaAllocator) (counter : UInt64) :
    NumaFabric :=
  ⟨.new numNodes initialCapacity storage, .new numNodes bufferSize pool, counter, fun _ => [], [], [], 0⟩

/-- The calls that do not panic. -/
def call (s : NumaFabric) : NumaCall → Option NumaFabric
  | .write core offset data =>
    let (node, counter) := s.storage.allocator.optimalNode core s.counter
    match s.storage.write node.toNat offset data with
    | .ok storage => some { s with
        storage, counter
        written := Function.update s.written node.toNat
          (s.written node.toNat ++ [(offset.toNat, data.bytes)]) }
    | _ => none
  | .acquireBuffer core =>
    let (node, counter) := s.pool.allocator.optimalNode core s.counter
    match s.pool.acquireBuffer node.toNat with
    | .ok (buffer, pool) => some { s with
        pool, counter
        given := s.given ++ [buffer]
        fresh := s.fresh + if s.pool.pools[node.toNat]? = some [] then 1 else 0 }
    | _ => none
  | .releaseBuffer buffer core =>
    let (node, counter) := s.pool.allocator.optimalNode core s.counter
    match s.pool.releaseBuffer buffer node.toNat with
    | .ok pool => some { s with
        pool, counter
        kept := if ((s.pool.pools[node.toNat]?).getD []).length < 1024 then s.kept ++ [buffer] else s.kept }
    | _ => none
  | .otherAllocator => some { s with counter := s.counter + 1 }

/-- The memory that the writes of a node make of zeros, and how far it reaches. -/
def memory (s : NumaFabric) (node : Nat) : Area :=
  (s.written node).foldl (fun area write => store area write.1 write.2) fun _ => 0

def extent (initialCapacity : Nat) (s : NumaFabric) (node : Nat) : Nat :=
  (s.written node).foldl (fun extent write => max extent (write.1 + write.2.length)) initialCapacity

/-- Every node holds its memory. -/
def Remembers (initialCapacity : Nat) (s : NumaFabric) : Prop :=
  ∀ node storage, s.storage.storagePerNode[node]? = some storage →
    storage.length = s.extent initialCapacity node ∧ NumaIndexStorage.area storage = s.memory node

theorem remembers_start (numNodes initialCapacity bufferSize : Nat) (storage pool : NumaAllocator)
    (counter : UInt64) :
    Remembers initialCapacity (start numNodes initialCapacity bufferSize storage pool counter) := by
  intro node bytes there
  obtain rfl := List.eq_of_mem_replicate (List.mem_of_getElem? there)
  refine ⟨List.length_replicate, ?_⟩
  funext i
  rw [NumaIndexStorage.area, List.getElem?_replicate]
  split <;> rfl

theorem remembers_write {initialCapacity : Nat} {s : NumaFabric} (h : Remembers initialCapacity s)
    {node : Nat} {offset : UInt64} {data : Slice} {storage : NumaIndexStorage}
    (wrote : s.storage.write node offset data = .ok storage) (counter : UInt64) :
    Remembers initialCapacity { s with
      storage, counter
      written := Function.update s.written node (s.written node ++ [(offset.toNat, data.bytes)]) } := by
  unfold NumaIndexStorage.write at wrote
  split at wrote
  · rename_i before there
    obtain ⟨len, area⟩ := h node before there
    cases written : NumaIndexStorage.overwrite before offset data with
    | error e => exact e.elim
    | fault =>
      rw [written] at wrote
      cases wrote
    | ok after =>
      rw [written] at wrote
      cases wrote
      obtain ⟨grown, put⟩ := NumaIndexStorage.overwrite_ok written
      intro other bytes found
      by_cases same : other = node
      · subst same
        rw [List.getElem?_set_self (List.getElem?_eq_some_iff.mp there).1] at found
        cases found
        simp only [extent, memory, Function.update_self, List.foldl_append, List.foldl_cons, List.foldl_nil]
        exact ⟨grown.trans (congrArg (max · _) len), put.trans (congrArg (store · _ _) area)⟩
      · rw [List.getElem?_set_ne (Ne.symm same)] at found
        simp only [extent, memory, Function.update_of_ne same]
        exact h other bytes found
  · cases wrote

theorem write_nodes {storage after : NumaIndexStorage} {node : Nat} {offset : UInt64} {data : Slice}
    (wrote : storage.write node offset data = .ok after) :
    after.storagePerNode.length = storage.storagePerNode.length := by
  unfold NumaIndexStorage.write at wrote
  split at wrote
  · rename_i before there
    cases written : NumaIndexStorage.overwrite before offset data with
    | error e => exact e.elim
    | fault =>
      rw [written] at wrote
      cases wrote
    | ok bytes =>
      rw [written] at wrote
      cases wrote
      exact List.length_set
  · cases wrote

theorem remembers_call {initialCapacity : Nat} {s t : NumaFabric} {c : NumaCall}
    (h : Remembers initialCapacity s) (called : s.call c = some t) : Remembers initialCapacity t ∧
      t.storage.storagePerNode.length = s.storage.storagePerNode.length := by
  cases c with
  | write core offset data =>
    simp only [call] at called
    split at called
    · rename_i wrote
      cases called
      exact ⟨remembers_write h wrote _, write_nodes wrote⟩
    · cases called
  | acquireBuffer core =>
    simp only [call] at called
    split at called <;> cases called
    exact ⟨h, rfl⟩
  | releaseBuffer buffer core =>
    simp only [call] at called
    split at called <;> cases called
    exact ⟨h, rfl⟩
  | otherAllocator =>
    cases called
    exact ⟨h, rfl⟩

/-- Whatever the policy, and whoever shares the counter: a node reads what was written
to it last, and zeros where nothing was, as far as the writes and the initial capacity
reach and no further. -/
theorem storage_reads_memory {numNodes initialCapacity bufferSize : Nat} {storage pool : NumaAllocator}
    {counter : UInt64} {calls : List NumaCall} {s : NumaFabric}
    (ran : Run (ofPartial call) (start numNodes initialCapacity bufferSize storage pool counter) calls s)
    {node : Nat} (held : node < numNodes) {offset len : UInt64} (fits : offset.toNat + len.toNat < 2 ^ 64) :
    s.storage.read node offset len =
      .ok (if offset.toNat + len.toNat ≤ s.extent initialCapacity node then
        some (load (s.memory node) offset.toNat len.toNat) else none) := by
  obtain ⟨remembers, nodes⟩ := run_invariant
    (fun s => Remembers initialCapacity s ∧ s.storage.storagePerNode.length = numNodes)
    (fun _ _ _ h called => (remembers_call h.1 called).imp_right fun same => same.trans h.2)
    ⟨remembers_start numNodes initialCapacity bufferSize storage pool counter, List.length_replicate⟩ ran
  have there := List.getElem?_eq_getElem (nodes ▸ held : node < s.storage.storagePerNode.length)
  obtain ⟨extent, memory⟩ := remembers node _ there
  rw [NumaIndexStorage.read_area there fits, extent, memory]

theorem write_read_back :
    let onCore := NumaAllocator.new 0 .currentCore
    let alternating := NumaAllocator.new 0 .interleaved
    ∃ s, Run (ofPartial call) (start 2 4 8 alternating onCore 7)
        [.write 0 2 ⟨[1, 2], by decide⟩, .acquireBuffer 9, .otherAllocator, .write 0 3 ⟨[3, 4, 5], by decide⟩] s ∧
      s.storage.read 1 1 5 = .ok (some [0, 1, 3, 4, 5]) ∧ s.storage.read 1 4 3 = .ok none := by
  intro onCore alternating
  have seen : ([.write 0 2 ⟨[1, 2], by decide⟩, .acquireBuffer 9, .otherAllocator,
      .write 0 3 ⟨[3, 4, 5], by decide⟩].foldlM call (start 2 4 8 alternating onCore 7)).map
      (fun s => (s.extent 4 1, load (s.memory 1) 1 5)) = some (6, [0, 1, 3, 4, 5]) := by
    decide
  obtain ⟨s, result, seen⟩ := Option.map_eq_some_iff.mp seen
  obtain ⟨reach, bytes⟩ := Prod.mk.inj seen
  have ran := (run_ofPartial call _ _ _).mpr result
  refine ⟨s, ran, ?_, ?_⟩
  · rw [storage_reads_memory ran (by decide) (by decide), reach]
    exact congrArg (fun bytes => Outcome.ok (some bytes)) bytes
  · rw [storage_reads_memory ran (by decide) (by decide), reach]
    rfl

/-- Buffers in the pools and buffers acquired are the buffers that the pools took and
the new ones. -/
def Conserves (s : NumaFabric) : Prop :=
  (s.pool.pools.flatten ++ s.given).Perm
      (s.kept ++ List.replicate s.fresh (List.replicate s.pool.bufferSize 0)) ∧
    ∀ pool ∈ s.pool.pools, pool.length ≤ 1024

theorem conserves_call {s t : NumaFabric} {c : NumaCall} (h : Conserves s) (called : s.call c = some t) :
    Conserves t := by
  obtain ⟨same, small⟩ := h
  cases c with
  | write core offset data =>
    simp only [call] at called
    split at called <;> cases called
    exact ⟨same, small⟩
  | acquireBuffer core =>
    simp only [call] at called
    split at called <;> cases called
    rename_i acquired
    unfold NumaBufferPool.acquireBuffer at acquired
    split at acquired
    · rename_i pool there
      split at acquired <;> cases acquired
      · rename_i last
        have whole : pool.dropLast ++ [_] = pool := List.dropLast_append_getLast? _ last
        have filled : pool ≠ [] := by
          rintro rfl
          cases last
        constructor
        · simp only [there, Option.some.injEq, if_neg filled, Nat.add_zero]
          rw [List.perm_iff_count] at same ⊢
          intro x
          have moved := count_flatten_set there pool.dropLast x
          have taken := congrArg (List.count x) whole
          have before := same x
          simp only [List.count_append] at taken before ⊢
          omega
        · intro q inside
          obtain old | rfl := List.mem_or_eq_of_mem_set inside
          · exact small q old
          · rw [List.length_dropLast]
            exact (Nat.sub_le _ _).trans (small pool (List.mem_of_getElem? there))
      · rename_i none
        cases List.getLast?_eq_none_iff.mp none
        simp only [there, if_true, List.replicate_succ', Conserves]
        rw [← List.append_assoc, ← List.append_assoc]
        exact ⟨same.append_right _, small⟩
    · cases acquired
  | releaseBuffer buffer core =>
    simp only [call] at called
    split at called <;> cases called
    rename_i released
    unfold NumaBufferPool.releaseBuffer at released
    split at released <;> cases released
    rename_i pool there
    simp only [there, Option.getD_some]
    split
    · rename_i room
      constructor
      · dsimp only
        rw [List.perm_iff_count] at same ⊢
        intro x
        have moved := count_flatten_set there (pool ++ [buffer]) x
        have before := same x
        simp only [List.count_append] at moved before ⊢
        omega
      · intro q inside
        obtain old | rfl := List.mem_or_eq_of_mem_set inside
        · exact small q old
        · rw [List.length_append]
          exact room
    · exact ⟨same, small⟩
  | otherAllocator =>
    cases called
    exact ⟨same, small⟩

theorem call_shape {s t : NumaFabric} {c : NumaCall} (called : s.call c = some t) :
    t.pool.pools.length = s.pool.pools.length ∧ t.pool.bufferSize = s.pool.bufferSize := by
  cases c with
  | write core offset data =>
    simp only [call] at called
    split at called <;> cases called
    exact ⟨rfl, rfl⟩
  | acquireBuffer core =>
    simp only [call] at called
    split at called <;> cases called
    rename_i acquired
    unfold NumaBufferPool.acquireBuffer at acquired
    split at acquired
    · split at acquired <;> cases acquired
      · exact ⟨List.length_set, rfl⟩
      · exact ⟨rfl, rfl⟩
    · cases acquired
  | releaseBuffer buffer core =>
    simp only [call] at called
    split at called <;> cases called
    rename_i released
    unfold NumaBufferPool.releaseBuffer at released
    split at released <;> cases released
    split
    · exact ⟨List.length_set, rfl⟩
    · exact ⟨rfl, rfl⟩
  | otherAllocator =>
    cases called
    exact ⟨rfl, rfl⟩

/-- No buffer is given out twice, none is lost once a pool has taken it, and no pool
grows beyond 1024, whichever pools the policies send the calls to. A pool without
buffers gives zeros of the pool's size; the others come out as they were released. -/
theorem buffers_conserved {numNodes initialCapacity bufferSize : Nat} {storage pool : NumaAllocator}
    {counter : UInt64} {calls : List NumaCall} {s : NumaFabric}
    (ran : Run (ofPartial call) (start numNodes initialCapacity bufferSize storage pool counter) calls s) :
    (s.pool.pools.flatten ++ s.given).Perm
        (s.kept ++ List.replicate s.fresh (List.replicate bufferSize 0)) ∧
      (∀ pool ∈ s.pool.pools, pool.length ≤ 1024) ∧
      ∀ node < numNodes, ∃ pool buffer after, s.pool.pools[node]? = some pool ∧
        s.pool.acquireBuffer node = .ok (buffer, after) ∧
        ((pool = [] ∧ buffer = List.replicate bufferSize 0 ∧ after = s.pool) ∨
          (pool.getLast? = some buffer ∧ after.pools = s.pool.pools.set node pool.dropLast)) := by
  obtain ⟨⟨same, small⟩, nodes, size⟩ := run_invariant
    (fun s => Conserves s ∧ s.pool.pools.length = numNodes ∧ s.pool.bufferSize = bufferSize)
    (fun _ _ _ h called => ⟨conserves_call h.1 called, (call_shape called).1.trans h.2.1,
      (call_shape called).2.trans h.2.2⟩)
    ⟨⟨by simp [start, NumaBufferPool.new], by simp [start, NumaBufferPool.new]⟩, List.length_replicate, rfl⟩ ran
  rw [size] at same
  refine ⟨same, small, fun node held => ?_⟩
  have there := List.getElem?_eq_getElem (nodes ▸ held : node < s.pool.pools.length)
  unfold NumaBufferPool.acquireBuffer
  rw [there]
  dsimp only
  split
  · rename_i buffer last
    exact ⟨_, buffer, _, rfl, rfl, .inr ⟨last, rfl⟩⟩
  · rename_i none
    exact ⟨_, _, _, rfl, rfl, .inl ⟨List.getLast?_eq_none_iff.mp none, by rw [size], rfl⟩⟩

theorem buffer_kept_and_given :
    let onCore := NumaAllocator.new 0 .currentCore
    ∃ s, Run (ofPartial call) (start 2 4 1 onCore onCore 0)
        [.releaseBuffer [7] 9, .releaseBuffer [8, 8] 1, .acquireBuffer 9, .acquireBuffer 9] s ∧
      s.given = [[7], [0]] ∧ s.pool.pools = [[[8, 8]], []] ∧
      (s.pool.pools.flatten ++ s.given).Perm (s.kept ++ List.replicate s.fresh (List.replicate 1 0)) := by
  intro onCore
  have ran := (run_ofPartial call [.releaseBuffer [7] 9, .releaseBuffer [8, 8] 1, .acquireBuffer 9,
    .acquireBuffer 9] (start 2 4 1 onCore onCore 0) _).mpr rfl
  exact ⟨_, ran, rfl, rfl, (buffers_conserved ran).1⟩

end NumaFabric

end Hyperplane

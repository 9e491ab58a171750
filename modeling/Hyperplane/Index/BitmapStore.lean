import Hyperplane.Lib.Maps
import Hyperplane.Lib.Transition
import Hyperplane.Types.Bitmap

/-! The store of bitmaps under the name of an index and a key, and its statistics. Their
size in bytes is kept by adding and subtracting, where a replaced bitmap is not subtracted. -/
namespace Hyperplane
open Maps Transition

def saturatingAdd (a b : UInt64) : UInt64 := UInt64.ofNat (min (a.toNat + b.toNat) (2 ^ 64 - 1))

def saturatingSub (a b : UInt64) : UInt64 := UInt64.ofNat (a.toNat - b.toNat)

theorem toNat_saturatingAdd (a b : UInt64) :
    (saturatingAdd a b).toNat = min (a.toNat + b.toNat) (2 ^ 64 - 1) :=
  UInt64.toNat_ofNat_of_lt' (Nat.lt_of_le_of_lt (Nat.min_le_right ..) (by decide))

theorem toNat_saturatingSub (a b : UInt64) : (saturatingSub a b).toNat = a.toNat - b.toNat :=
  UInt64.toNat_ofNat_of_lt' (Nat.lt_of_le_of_lt (Nat.sub_le ..) a.toNat_lt)

instance mapKeyOrd : Ord (String × String) := lexOrd

/-- The state behind the lock of the store. -/
structure BitmapStore (S : Type) where
  bitmaps : Std.TreeMap (String × String) (PubkeyBitmap S) := ∅
  totalBitmaps : UInt64 := 0
  compressedSizeBytes : UInt64 := 0

structure BitmapStoreStats where
  totalBitmaps : UInt64
  compressedSizeBytes : UInt64

inductive BitmapCall (S : Type) where
  | store (indexName key : String) (bitmap : PubkeyBitmap S) (slot : UInt64)
  | remove (indexName key : String)

namespace BitmapStore

variable {S : Type} (serializedLen : S → UInt64)

def storeBitmap (state : BitmapStore S) (indexName key : String) (bitmap : PubkeyBitmap S)
    (_slot : UInt64) : BitmapStore S :=
  let bitmaps := state.bitmaps.insert (indexName, key) bitmap
  { bitmaps
    totalBitmaps := UInt64.ofNat bitmaps.size
    compressedSizeBytes :=
      saturatingAdd state.compressedSizeBytes (bitmap.compressedSize serializedLen) }

def getBitmap (state : BitmapStore S) (indexName key : String) : Option (PubkeyBitmap S) :=
  state.bitmaps[(indexName, key)]?

def removeBitmap (state : BitmapStore S) (indexName key : String) : BitmapStore S :=
  match state.getBitmap indexName key with
  | some bitmap =>
    let bitmaps := state.bitmaps.erase (indexName, key)
    { bitmaps
      totalBitmaps := UInt64.ofNat bitmaps.size
      compressedSizeBytes :=
        saturatingSub state.compressedSizeBytes (bitmap.compressedSize serializedLen) }
  | none => state

def stats (state : BitmapStore S) : BitmapStoreStats := ⟨state.totalBitmaps, state.compressedSizeBytes⟩

def apply (state : BitmapStore S) : BitmapCall S → BitmapStore S
  | .store indexName key bitmap slot => state.storeBitmap serializedLen indexName key bitmap slot
  | .remove indexName key => state.removeBitmap serializedLen indexName key

/-- The sizes of the bitmaps in the store. -/
def storedBytes (state : BitmapStore S) : Nat :=
  sumOver (fun bitmap => (bitmap.compressedSize serializedLen).toNat) state.bitmaps

structure StatsTrue (state : BitmapStore S) : Prop where
  count : state.stats.totalBitmaps.toNat = state.bitmaps.size
  bytes : state.stats.compressedSizeBytes.toNat = state.storedBytes serializedLen

/-- What is stored is counted by 64 bits. -/
structure Fits (state : BitmapStore S) : Prop where
  count : state.bitmaps.size < 2 ^ 64
  bytes : state.storedBytes serializedLen < 2 ^ 64

/-- The size of what is stored under a key, zero without one. -/
def bytesUnder (state : BitmapStore S) (indexName key : String) : Nat :=
  ((state.getBitmap indexName key).map fun old => (old.compressedSize serializedLen).toNat).getD 0

/-- A store replaces nothing that counts, or it fills the 64 bits, where the saturated counter
is right all the same. -/
def ReplacesNothing (state : BitmapStore S) (call : BitmapCall S) (_ : BitmapStore S) : Prop :=
  match call with
  | .store indexName key bitmap _ => state.bytesUnder serializedLen indexName key = 0 ∨
    state.storedBytes serializedLen + (bitmap.compressedSize serializedLen).toNat =
      2 ^ 64 - 1 + state.bytesUnder serializedLen indexName key
  | .remove _ _ => True

theorem storedBytes_storeBitmap (state : BitmapStore S) (indexName key : String)
    (bitmap : PubkeyBitmap S) (slot : UInt64) :
    (state.storeBitmap serializedLen indexName key bitmap slot).storedBytes serializedLen +
      state.bytesUnder serializedLen indexName key =
        state.storedBytes serializedLen + (bitmap.compressedSize serializedLen).toNat :=
  sumOver_insert _ state.bitmaps (indexName, key) bitmap

theorem storedBytes_removeBitmap (state : BitmapStore S) (indexName key : String) :
    (state.removeBitmap serializedLen indexName key).storedBytes serializedLen +
      state.bytesUnder serializedLen indexName key = state.storedBytes serializedLen := by
  have count := sumOver_erase (fun bitmap => (bitmap.compressedSize serializedLen).toNat) state.bitmaps
    (indexName, key)
  unfold removeBitmap
  split
  · exact count
  · rename_i absent
    rw [bytesUnder, absent]
    rfl

/-- The size of the bitmap a call stores. -/
def callBytes : BitmapCall S → Nat
  | .store _ _ bitmap _ => (bitmap.compressedSize serializedLen).toNat
  | .remove _ _ => 0

theorem storedBytes_apply_le (state : BitmapStore S) (call : BitmapCall S) :
    (state.apply serializedLen call).storedBytes serializedLen ≤
      state.storedBytes serializedLen + callBytes serializedLen call := by
  cases call with
  | store indexName key bitmap slot =>
    exact Nat.le.intro (storedBytes_storeBitmap serializedLen state indexName key bitmap slot)
  | remove indexName key =>
    exact Nat.le.intro (storedBytes_removeBitmap serializedLen state indexName key)

theorem size_apply_le (state : BitmapStore S) (call : BitmapCall S) :
    (state.apply serializedLen call).bitmaps.size ≤ state.bitmaps.size + 1 := by
  cases call with
  | store indexName key bitmap slot => exact Std.TreeMap.size_insert_le
  | remove indexName key =>
    change (state.removeBitmap serializedLen indexName key).bitmaps.size ≤ _
    unfold removeBitmap
    split
    · exact Nat.le_succ_of_le Std.TreeMap.size_erase_le
    · exact Nat.le_succ _

/-- What is stored fits as long as the sizes of the calls do. -/
theorem fits_of_sizes {state : BitmapStore S} {calls : List (BitmapCall S)}
    (count : state.bitmaps.size + calls.length < 2 ^ 64)
    (bytes : state.storedBytes serializedLen + (calls.map (callBytes serializedLen)).sum < 2 ^ 64) :
    Along (ofFun (apply serializedLen)) (fun _ _ after => after.Fits serializedLen) state calls := by
  induction calls generalizing state with
  | nil => trivial
  | cons call rest ih =>
    rintro _ rfl
    have size := size_apply_le serializedLen state call
    have stored := storedBytes_apply_le serializedLen state call
    rw [List.length_cons] at count
    rw [List.map_cons, List.sum_cons] at bytes
    exact ⟨⟨by omega, by omega⟩, ih (by omega) (by omega)⟩

section steps

variable {serializedLen} {state : BitmapStore S} (h : state.StatsTrue serializedLen)

include h

theorem statsTrue_storeBitmap_iff (indexName key : String) (bitmap : PubkeyBitmap S) (slot : UInt64)
    (fits : (state.storeBitmap serializedLen indexName key bitmap slot).Fits serializedLen) :
    (state.storeBitmap serializedLen indexName key bitmap slot).StatsTrue serializedLen ↔
      state.bytesUnder serializedLen indexName key = 0 ∨
        state.storedBytes serializedLen + (bitmap.compressedSize serializedLen).toNat =
          2 ^ 64 - 1 + state.bytesUnder serializedLen indexName key := by
  have stored := storedBytes_storeBitmap serializedLen state indexName key bitmap slot
  have counter :
      (state.storeBitmap serializedLen indexName key bitmap slot).stats.compressedSizeBytes.toNat =
        min (state.storedBytes serializedLen + (bitmap.compressedSize serializedLen).toNat)
          (2 ^ 64 - 1) := by
    rw [← h.bytes]
    exact toNat_saturatingAdd _ _
  have room := fits.bytes
  constructor
  · intro after
    have bytes := after.bytes
    omega
  · intro replaces
    exact ⟨UInt64.toNat_ofNat_of_lt' fits.count, by omega⟩

theorem statsTrue_removeBitmap (indexName key : String)
    (fits : (state.removeBitmap serializedLen indexName key).Fits serializedLen) :
    (state.removeBitmap serializedLen indexName key).StatsTrue serializedLen := by
  have stored := storedBytes_removeBitmap serializedLen state indexName key
  have before : state.compressedSizeBytes.toNat = state.storedBytes serializedLen := h.bytes
  cases found : state.getBitmap indexName key with
  | none =>
    have kept : state.removeBitmap serializedLen indexName key = state := by
      rw [removeBitmap, found]
    rw [kept]
    exact h
  | some bitmap =>
    have under : state.bytesUnder serializedLen indexName key =
        (bitmap.compressedSize serializedLen).toNat := by
      rw [bytesUnder, found]
      rfl
    have count : (state.removeBitmap serializedLen indexName key).totalBitmaps =
        UInt64.ofNat (state.removeBitmap serializedLen indexName key).bitmaps.size := by
      rw [removeBitmap, found]
    have counter : (state.removeBitmap serializedLen indexName key).compressedSizeBytes =
        saturatingSub state.compressedSizeBytes (bitmap.compressedSize serializedLen) := by
      rw [removeBitmap, found]
    refine ⟨?_, ?_⟩
    · rw [stats, count]
      exact UInt64.toNat_ofNat_of_lt' fits.count
    · rw [stats, counter, toNat_saturatingSub]
      omega

end steps

theorem statsTrue_iff {state : BitmapStore S} (h : state.StatsTrue serializedLen) (call : BitmapCall S)
    (fits : (state.apply serializedLen call).Fits serializedLen) :
    (state.apply serializedLen call).StatsTrue serializedLen ↔
      state.ReplacesNothing serializedLen call (state.apply serializedLen call) := by
  cases call with
  | store indexName key bitmap slot =>
    exact statsTrue_storeBitmap_iff h indexName key bitmap slot fits
  | remove indexName key =>
    exact iff_of_true (statsTrue_removeBitmap h indexName key fits) trivial

/-- While what is stored fits, the statistics are true throughout exactly if no store replaces a
bitmap that takes up bytes, except where what is stored fills the 64 bits. -/
theorem stats_true_iff (calls : List (BitmapCall S))
    (fits : Along (ofFun (apply serializedLen)) (fun _ _ after => after.Fits serializedLen) {} calls) :
    Along (ofFun (apply serializedLen)) (fun _ _ after => after.StatsTrue serializedLen) {} calls ↔
      Along (ofFun (apply serializedLen)) (ReplacesNothing serializedLen) {} calls := by
  refine along_within_iff (fun state => state.StatsTrue serializedLen) ?_ ?_ ⟨rfl, rfl⟩ fits
  · rintro state call _ h rfl room
    exact statsTrue_iff serializedLen h call room
  · rintro state call _ h rfl room replaces
    exact (statsTrue_iff serializedLen h call room).mpr replaces

/-- The length of a serialized treemap whose ids are below 2^16 and at most 4096. -/
def oneContainerLen (s : SortedIds) : UInt64 :=
  if s.ids = [] then 8 else 28 + 2 * UInt64.ofNat s.ids.length

def threeIds : PubkeyBitmap SortedIds := ⟨⟨[1, 2, 3], by decide⟩, 3⟩

theorem stats_true_iff_removed :
    let calls := [.store "program_index" "program1" threeIds 100, .remove "program_index" "program1"]
    Along (ofFun (apply oneContainerLen)) (fun _ _ after => after.Fits oneContainerLen) {} calls ∧
      (Along (ofFun (apply oneContainerLen)) (fun _ _ after => after.StatsTrue oneContainerLen) {}
          calls ↔
        Along (ofFun (apply oneContainerLen)) (ReplacesNothing oneContainerLen) {} calls) :=
  ⟨fits_of_sizes oneContainerLen (by decide) (by decide),
    stats_true_iff oneContainerLen _ (fits_of_sizes oneContainerLen (by decide) (by decide))⟩

/-- A bitmap that is stored again under its key is counted twice. -/
theorem stored_again_counted_twice :
    let calls := [.store "program_index" "program1" threeIds 100,
      .store "program_index" "program1" threeIds 101]
    Along (ofFun (apply oneContainerLen)) (fun _ _ after => after.Fits oneContainerLen) {} calls ∧
      ¬ Along (ofFun (apply oneContainerLen)) (fun _ _ after => after.StatsTrue oneContainerLen) {}
        calls := by
  intro calls
  have fits : Along (ofFun (apply oneContainerLen)) (fun _ _ after => after.Fits oneContainerLen) {}
      calls := fits_of_sizes oneContainerLen (by decide) (by decide)
  refine ⟨fits, fun counted => ?_⟩
  let first : BitmapStore SortedIds :=
    storeBitmap oneContainerLen {} "program_index" "program1" threeIds 100
  have once : first.StatsTrue oneContainerLen := (counted first rfl).1
  have twice := ((counted first rfl).2 _ rfl).1
  have replaces := (statsTrue_storeBitmap_iff once _ _ _ 101 ((fits first rfl).2 _ rfl).1).mp twice
  have known : first.getBitmap "program_index" "program1" = some threeIds :=
    Std.TreeMap.getElem?_insert_self
  have under : first.bytesUnder oneContainerLen "program_index" "program1" = 34 := by
    rw [bytesUnder, known]
    rfl
  have stored : first.storedBytes oneContainerLen = 34 := once.bytes.symm
  rw [under, stored] at replaces
  revert replaces
  decide

end BitmapStore

end Hyperplane

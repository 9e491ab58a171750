import Hyperplane.Lib.Transition
import Hyperplane.Ring.Layout

/-! The space check against the mapped file. The check compares a position in
the entry area with the length of the whole file, which also holds the header. -/
namespace Hyperplane
open Transition

namespace RingBufferWriter

def written (capacity : Nat) (vs : List RingEntryView) : Ring :=
  vs.foldl (fun ring v => (write ⟨capacity⟩ v ring).2) (created capacity)

/-- The call passes its checks on this ring only if its entry lies in the file. -/
def AcceptsInside (w : RingBufferWriter) (ring : Ring) (v : RingEntryView) : Prop :=
  ∀ pos, (w.check v ring).1 = .ok pos → ringHeaderSize + pos + v.bytes.length ≤ ring.mapped

/-- The header and every accepted write stay inside the file made by create. -/
def StaysInside (capacity : Nat) (vs : List RingEntryView) : Prop :=
  create capacity = .ok (⟨capacity⟩, created capacity) ∧
    ∀ pre v post, vs = pre ++ v :: post → AcceptsInside ⟨capacity⟩ (written capacity pre) v

/-- Greedy filling: an entry is counted if the total stays within the capacity. -/
def fillStep (capacity used : Nat) (v : RingEntryView) : Nat :=
  if used + (entrySize v.data).toNat ≤ capacity then used + (entrySize v.data).toNat else used

def filled (capacity : Nat) (vs : List RingEntryView) : Nat :=
  vs.foldl (fillStep capacity) 0

structure Filled (capacity used : Nat) (ring : Ring) : Prop where
  active : ring.header.state = RingBufferState.active.code
  writePos : ring.header.writePos = used
  mapped : ring.mapped = capacity

theorem acceptsInside_iff {capacity used : Nat} {ring : Ring} (h : Filled capacity used ring)
    (v : RingEntryView) : AcceptsInside ⟨capacity⟩ ring v ↔
      (used + (entrySize v.data).toNat ≤ capacity → ringHeaderSize + used + v.bytes.length ≤ capacity) := by
  unfold AcceptsInside
  simp only [check_passes, h.writePos, h.mapped]
  constructor
  · intro inside room
    exact inside used ⟨h.active, room, rfl⟩
  · rintro inside _ ⟨_, room, rfl⟩
    exact inside room

theorem filled_step {capacity used : Nat} {ring : Ring} (h : Filled capacity used ring)
    (v : RingEntryView)
    (fits : used + (entrySize v.data).toNat ≤ capacity →
      ringHeaderSize + used + v.bytes.length ≤ capacity) :
    Filled capacity (fillStep capacity used v) (write ⟨capacity⟩ v ring).2 := by
  unfold fillStep
  split
  · rename_i room
    have covers : ring.Covers used v.bytes.length := by
      unfold Ring.Covers
      rw [h.mapped]
      exact fits room
    rw [write_ok.mpr ⟨h.active, h.writePos ▸ room, h.writePos, covers, rfl⟩]
    exact ⟨h.active, rfl, h.mapped⟩
  · rename_i full
    have refused : check ⟨capacity⟩ v ring = (.error .bufferFull, ring) := by
      simp [check, h.active, h.writePos, Nat.lt_of_not_ge full]
    have kept : (write ⟨capacity⟩ v ring).2 = ring := by
      simp only [write, bind, Method.bind, refused]
    rw [kept]
    exact h

def fillBoth (capacity : Nat) (s : Ring × Nat) (v : RingEntryView) : Ring × Nat :=
  ((write ⟨capacity⟩ v s.1).2, fillStep capacity s.2 v)

theorem foldl_fillBoth (capacity : Nat) (vs : List RingEntryView) :
    vs.foldl (fillBoth capacity) (created capacity, 0) = (written capacity vs, filled capacity vs) :=
  List.foldl_hom₂ vs Prod.mk _ _ _ _ _ fun _ _ _ => rfl

theorem created_filled (capacity : Nat) : Filled capacity 0 (created capacity) := ⟨rfl, rfl, rfl⟩

/-- Acceptance stays inside the file exactly when no entry that fits the
capacity beside the earlier ones reaches into its last bytes, the header's. -/
theorem stays_inside_iff (capacity : Nat) (vs : List RingEntryView) :
    StaysInside capacity vs ↔ ringHeaderSize ≤ capacity ∧
      ∀ pre v post, vs = pre ++ v :: post →
        filled capacity pre + (entrySize v.data).toNat ≤ capacity →
          filled capacity pre + v.bytes.length ≤ capacity - ringHeaderSize := by
  have header : create capacity = .ok (⟨capacity⟩, created capacity) ↔ ringHeaderSize ≤ capacity := by
    unfold create
    split <;> simp_all
  unfold StaysInside
  rw [header]
  apply and_congr_right
  intro room
  have runs := @along_iff _ _ (ofFun (fillBoth capacity))
    (fun s => Filled capacity s.2 s.1) (fun _ => True)
    (fun s v _ => AcceptsInside ⟨capacity⟩ s.1 v)
    (fun s v _ => s.2 + (entrySize v.data).toNat ≤ capacity →
      ringHeaderSize + s.2 + v.bytes.length ≤ capacity)
    (fun s v t h _ _ => acceptsInside_iff h v)
    (fun s v t h _ taken fits => taken ▸ filled_step h v fits)
    (created capacity, 0) (created_filled capacity) vs (fun _ _ => trivial)
  simp only [along_ofFun, foldl_fillBoth] at runs
  rw [runs]
  have shift (n m : Nat) :
      ringHeaderSize + n + m ≤ capacity ↔ n + m ≤ capacity - ringHeaderSize := by
    omega
  simp only [shift]

/-- Two entries of 128 bytes: the second ends at the capacity and is accepted
behind the header's 128 bytes, so it leaves the file. -/
theorem second_write_leaves_file :
    let v : RingEntryView := ⟨7, 1, Vector.replicate 32 9, List.replicate 64 5⟩
    ¬ StaysInside 256 [v, v] := by
  intro v inside
  have accepted : (check ⟨256⟩ v (written 256 [v])).1 = .ok 128 := by decide
  have bound := inside.2 [v] v [] rfl 128 accepted
  exact absurd bound (by decide)

end RingBufferWriter

end Hyperplane

import Hyperplane.Ring.Interleaving

/-! The Geyser plugin. Its calls write to the ring under a lock they share. -/
namespace Hyperplane
open Transition RingBufferReader

/-- What update_account reads of each of the three account infos. -/
structure ReplicaAccountInfo where
  pubkey : List UInt8
  writeVersion : UInt64
  data : List UInt8

inductive ReplicaAccountInfoVersions where
  | v0_0_1 (info : ReplicaAccountInfo)
  | v0_0_2 (info : ReplicaAccountInfo)
  | v0_0_3 (info : ReplicaAccountInfo)

def ReplicaAccountInfoVersions.info : ReplicaAccountInfoVersions → ReplicaAccountInfo
  | .v0_0_1 info | .v0_0_2 info | .v0_0_3 info => info

inductive GeyserPluginError where
  | custom (message : String)
  deriving DecidableEq, Repr

/-- The entry an update asks the ring to store; its pubkey must be 32 bytes. -/
def ReplicaAccountInfo.request (info : ReplicaAccountInfo) (slot : UInt64) : Option RingEntryView :=
  (Pubkey.tryFrom info.pubkey).map fun pubkey => ⟨slot, info.writeVersion, pubkey, info.data⟩

structure GeyserBridgePlugin where
  ringBuffer : Option (RingBufferWriter × Ring)

namespace GeyserBridgePlugin

/-- The body of each of the three branches of update_account. The result of
the write is dropped. -/
def forward (info : ReplicaAccountInfo) (slot : UInt64) :
    Method GeyserBridgePlugin GeyserPluginError Unit := fun plugin =>
  match info.request slot with
  | none => (.error (.custom "Invalid pubkey length"), plugin)
  | some v => match plugin.ringBuffer with
    | none => (.ok (), plugin)
    | some (writer, ring) => match writer.write v ring with
      | (.fault, after) => (.fault, ⟨some (writer, after)⟩)
      | (_, after) => (.ok (), ⟨some (writer, after)⟩)

def updateAccount (account : ReplicaAccountInfoVersions) (slot : UInt64) :
    Method GeyserBridgePlugin GeyserPluginError Unit :=
  match account with
  | .v0_0_1 info => forward info slot
  | .v0_0_2 info => forward info slot
  | .v0_0_3 info => forward info slot

theorem updateAccount_eq_forward (account : ReplicaAccountInfoVersions) (slot : UInt64) :
    updateAccount account slot = forward account.info slot := by
  cases account <;> rfl

/-- The entry is published whole behind the earlier ones, which are untouched. -/
structure Appended (ring after : Ring) (v : RingEntryView) : Prop where
  reads : readNext after ⟨ring.header.writePos⟩ = (.ok (some v), ⟨after.header.writePos⟩)
  ends : after.header.writePos = ring.header.writePos + v.bytes.length
  kept : ∀ p < ring.header.writePos, after.area p = ring.area p

/-- The call returns, and returns Ok only with the update appended. -/
def ReportsUnstored (plugin : GeyserBridgePlugin) (account : ReplicaAccountInfoVersions)
    (slot : UInt64) : Prop :=
  match updateAccount account slot plugin with
  | (.ok _, after) => ∃ v writer ring stored, account.info.request slot = some v ∧
      plugin.ringBuffer = some (writer, ring) ∧ after.ringBuffer = some (writer, stored) ∧
        Appended ring stored v
  | (.error _, _) => True
  | (.fault, _) => False

/-- An active ring with room for the entry, also in the file and in its size field. -/
structure CanStore (writer : RingBufferWriter) (ring : Ring) (data : List UInt8) : Prop where
  active : ring.header.state = RingBufferState.active.code
  room : ring.header.writePos + (RingEntry.headerSize + data.length) ≤ writer.capacity
  covers : ring.Covers ring.header.writePos (RingEntry.headerSize + data.length)
  small : RingEntry.headerSize + data.length < 2 ^ 32

theorem write_of_canStore {writer : RingBufferWriter} {ring : Ring} {v : RingEntryView}
    (can : CanStore writer ring v.data) :
    ∃ after, writer.write v ring = (.ok ring.header.writePos, after) := by
  have size := RingEntryView.Small.entrySize_eq (v := v) can.small
  rw [v.length_bytes] at size
  have covers := can.covers
  rw [← v.length_bytes] at covers
  exact ⟨_, RingBufferWriter.write_ok.mpr ⟨can.active, by rw [size]; exact can.room, rfl, covers, rfl⟩⟩

theorem appended_iff {writer : RingBufferWriter} {ring after : Ring} {v : RingEntryView} {pos : Nat}
    (wrote : writer.write v ring = (.ok pos, after)) :
    Appended ring after v ↔ CanStore writer ring v.data := by
  obtain ⟨active, room, rfl, covers, rfl⟩ := RingBufferWriter.write_ok.mp wrote
  have long := v.length_bytes
  constructor
  · intro appended
    have size : (entrySize v.data).toNat = v.bytes.length := Nat.add_left_cancel appended.ends
    have small : v.bytes.length < 2 ^ 32 := size ▸ (entrySize v.data).toNat_lt
    rw [size, long] at room
    rw [long] at covers small
    exact ⟨active, room, covers, small⟩
  · intro can
    have small : v.Small := can.small
    have size := small.entrySize_eq
    refine ⟨?_, by simp only [size], ?_⟩
    · rw [readNext_laid small (RingBufferWriter.laid_copied _ _ _) (by simp only [size]; omega) covers]
      simp only [size]
    · intro p below
      simp only [Bytes.store]
      rw [if_neg, if_neg]
      all_goals omega

/-- The plugin reports what it could not store exactly for a pubkey of the
wrong length or when nothing stands in the way of storing. -/
theorem reports_unstored_iff (plugin : GeyserBridgePlugin) (account : ReplicaAccountInfoVersions)
    (slot : UInt64) :
    ReportsUnstored plugin account slot ↔ account.info.pubkey.length ≠ 32 ∨
      ∃ writer ring, plugin.ringBuffer = some (writer, ring) ∧
        CanStore writer ring account.info.data := by
  have named : (account.info.request slot).isNone ↔ account.info.pubkey.length ≠ 32 := by
    simp [ReplicaAccountInfo.request, Pubkey.tryFrom]
  unfold ReportsUnstored
  rw [updateAccount_eq_forward]
  cases asked : account.info.request slot with
  | none =>
    rw [asked] at named
    simp [forward, asked, named.mp rfl]
  | some v =>
    have valid : ¬ account.info.pubkey.length ≠ 32 := by rw [← named, asked]; simp
    have data : account.info.data = v.data := by
      obtain ⟨pubkey, _, rfl⟩ := Option.map_eq_some_iff.mp asked
      rfl
    rw [or_iff_right valid, data]
    cases buffer : plugin.ringBuffer with
    | none => simp [forward, asked, buffer]
    | some pair =>
      obtain ⟨writer, ring⟩ := pair
      have can_iff : (∃ w r, some (writer, ring) = some (w, r) ∧ CanStore w r v.data) ↔
          CanStore writer ring v.data := by
        constructor
        · rintro ⟨_, _, ⟨⟩, can⟩
          exact can
        · exact fun can => ⟨writer, ring, rfl, can⟩
      rw [can_iff]
      cases wrote : writer.write v ring with
      | mk result after =>
        have returns (can : CanStore writer ring v.data) : result = .ok ring.header.writePos := by
          obtain ⟨_, stored⟩ := write_of_canStore can
          rw [wrote] at stored
          exact congrArg Prod.fst stored
        cases result with
        | ok pos =>
          rw [← appended_iff wrote]
          simp [forward, asked, buffer, wrote]
        | error e =>
          cases RingBufferWriter.write_error wrote
          have never : ¬ Appended ring ring v := by
            intro appended
            have ends := appended.ends
            have long := v.length_bytes
            have headerLong : RingEntry.headerSize = 64 := rfl
            omega
          have cannot : ¬ CanStore writer ring v.data := fun can => nomatch returns can
          simp [forward, asked, buffer, wrote, never, cannot]
        | fault =>
          have cannot : ¬ CanStore writer ring v.data := fun can => nomatch returns can
          simp [forward, asked, buffer, wrote, cannot]

theorem full_ring_update_returns_ok :
    ¬ ReportsUnstored ⟨some (⟨128⟩, RingBufferWriter.created 128)⟩
      (.v0_0_3 ⟨List.replicate 32 9, 1, List.replicate 65 5⟩) 7 := by
  intro reports
  have full : (entrySize (List.replicate 65 5)).toNat = 129 := rfl
  have returned : updateAccount (.v0_0_3 ⟨List.replicate 32 9, 1, List.replicate 65 5⟩) 7
      ⟨some (⟨128⟩, RingBufferWriter.created 128)⟩ =
        (.ok (), ⟨some (⟨128⟩, RingBufferWriter.created 128)⟩) := rfl
  rw [ReportsUnstored, returned] at reports
  obtain ⟨v, writer, ring, stored, _, before, after, appended⟩ := reports
  cases before
  cases after
  have ends := appended.ends
  have long := v.length_bytes
  have headerLong : RingEntry.headerSize = 64 := rfl
  omega

/-- A thread calls update_account, or takes the next step of its write. -/
inductive PluginEvent where
  | updateAccount (i : Nat) (account : ReplicaAccountInfoVersions) (slot : UInt64)
  | advance (i : Nat)

/-- A call with an invalid pubkey returns before it reaches the ring. -/
def PluginEvent.action : PluginEvent → Option RingAction
  | .updateAccount i account slot => (account.info.request slot).map (.enter i)
  | .advance i => some (.advance i)

def step (s : RingSystem) (e : PluginEvent) : Option RingSystem :=
  match e.action with
  | some a => s.step a
  | none => some s

/-- No write loads the write position before another one has stored its own. -/
def Serialised (s : RingSystem) (e : PluginEvent) (t : RingSystem) : Prop :=
  ∀ a ∈ e.action, RingSystem.Exclusive s a t

instance (s t : RingSystem) (e : PluginEvent) : Decidable (Serialised s e t) :=
  inferInstanceAs (Decidable (∀ a ∈ e.action, RingSystem.Exclusive s a t))

/-- The write that returns in this event, with its result. -/
def returning (s : RingSystem) (e : PluginEvent) (t : RingSystem) :
    List (RingEntryView × Outcome RingBufferError Nat) :=
  match e.action with
  | some a => RingSystem.returning s a t
  | none => []

/-- One intact entry for each accepted write, which are those that returned Ok,
and a count that agrees. -/
def Delivered (s : RingSystem) (oks : List (RingEntryView × Nat)) : Prop :=
  (∀ p ∈ s.threads, p.Resting) → ∃ decoded, Reads s.ring fresh decoded ∧
    decoded.Perm s.accepted ∧ decoded.Perm (oks.map Prod.fst) ∧
      RingBufferWriter.entryCount s.ring = decoded.length

theorem delivered_of_serialised (capacity threads : Nat) (events : List PluginEvent) (s : RingSystem)
    (serialised : Along (ofPartial step) Serialised (RingSystem.start capacity threads) events)
    (ran : Run (ofPartial step) (RingSystem.start capacity threads) events s) :
    Delivered s (RingSystem.okReturns
      (observed step returning (RingSystem.start capacity threads) events)) := by
  have keep (s : RingSystem) (e : PluginEvent) (t : RingSystem)
      (calls : List (RingEntryView × Outcome RingBufferError Nat))
      (h : (∃ done, RingSystem.Coherent s done) ∧ s.Accounted calls) (taken : step s e = some t)
      (meets : Serialised s e t) :
      (∃ done, RingSystem.Coherent t done) ∧ t.Accounted (calls ++ returning s e t) := by
    unfold step at taken
    unfold returning
    split at taken
    · rename_i a action
      exact ⟨RingSystem.coherent_step h.1 taken (meets a action), RingSystem.accounted_step h.2 taken⟩
    · cases taken
      rw [List.append_nil]
      exact h
  obtain ⟨⟨done, h⟩, accounted⟩ := run_observed_along _ _ keep
    ⟨⟨[], RingSystem.start_coherent capacity threads⟩, RingSystem.start_accounted capacity threads⟩
    serialised ran
  intro resting
  obtain ⟨held, counted⟩ := h.settled resting
  exact ⟨s.accepted, reads_all held, .refl _, accounted.settled resting, counted⟩

theorem two_calls_delivered :
    let account (b : UInt8) : ReplicaAccountInfoVersions := .v0_0_2 ⟨List.replicate 32 b, 1, [b]⟩
    let view (b : UInt8) : RingEntryView := ⟨7, 1, Vector.replicate 32 b, [b]⟩
    ∃ s, Run (ofPartial step) (RingSystem.start 1024 2)
        [.updateAccount 0 (account 1) 7, .updateAccount 1 (account 2) 7, .advance 0, .advance 0,
          .advance 0, .advance 1, .advance 0, .advance 1, .advance 1, .advance 1] s ∧
      Delivered s [(view 1, 0), (view 2, 65)] := by
  intro account view
  have ends : ([.updateAccount 0 (account 1) 7, .updateAccount 1 (account 2) 7, .advance 0, .advance 0,
      .advance 0, .advance 1, .advance 0, .advance 1, .advance 1, .advance 1].foldlM step
        (RingSystem.start 1024 2)).isSome := by decide
  obtain ⟨s, ran⟩ := Option.isSome_iff_exists.mp ends
  have ran := (run_ofPartial _ _ _ _).mpr ran
  have oks : RingSystem.okReturns (observed step returning (RingSystem.start 1024 2)
      [.updateAccount 0 (account 1) 7, .updateAccount 1 (account 2) 7, .advance 0, .advance 0, .advance 0,
        .advance 1, .advance 0, .advance 1, .advance 1, .advance 1]) = [(view 1, 0), (view 2, 65)] := by decide
  exact ⟨s, ran, oks ▸ delivered_of_serialised _ _ _ s (by decide) ran⟩

/-- Two writes load the same write position; the later copy and store win. -/
theorem overlapping_calls_lose_one :
    let account (b : UInt8) : ReplicaAccountInfoVersions := .v0_0_2 ⟨List.replicate 32 b, 1, [b]⟩
    ∃ s, Run (ofPartial step) (RingSystem.start 1024 2)
        [.updateAccount 0 (account 1) 7, .updateAccount 1 (account 2) 7, .advance 0, .advance 1,
          .advance 0, .advance 1, .advance 0, .advance 1, .advance 0, .advance 1] s ∧
      ∀ oks, ¬ Delivered s oks := by
  intro account
  have ends : ∃ s, [.updateAccount 0 (account 1) 7, .updateAccount 1 (account 2) 7, .advance 0,
      .advance 1, .advance 0, .advance 1, .advance 0, .advance 1, .advance 0, .advance 1].foldlM step
        (RingSystem.start 1024 2) = some s ∧ (∀ p ∈ s.threads, p.Resting) ∧ s.accepted.length = 2 ∧
          (readAll s.ring 3 fresh).map List.length = some 1 := ⟨_, rfl, by decide, rfl, by decide⟩
  obtain ⟨s, ran, resting, both, one⟩ := ends
  refine ⟨s, (run_ofPartial _ _ _ _).mpr ran, ?_⟩
  intro oks delivered
  obtain ⟨decoded, reads, same, _⟩ := delivered resting
  obtain ⟨found, all, single⟩ := Option.map_eq_some_iff.mp one
  have equal := reads_unique reads (readAll_reads all)
  have lengths := same.length_eq
  rw [equal, both, single] at lengths
  cases lengths

end GeyserBridgePlugin

end Hyperplane

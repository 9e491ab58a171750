import Mathlib.Data.Finset.Card
import Mathlib.Data.List.Pairwise
import Hyperplane.Delta.Reducer
import Hyperplane.Lib.Maps
import Hyperplane.Lib.Newest
import Hyperplane.Lib.Transition
import Hyperplane.Types.HashOrder

/-! Runs of the update reducer. It compares write versions, while locations are compared
by their slots first. -/
namespace Hyperplane
open Maps Newer Transition

namespace UpdateReducer

/-- The pending updates in the order of the hash map. -/
def getPendingUpdates (reducer : UpdateReducer) (order : HashOrder Pubkey) : List (Pubkey × PendingUpdate) :=
  (order.list reducer.pendingUpdates.keys.toFinset).filterMap fun pubkey =>
    reducer.pendingUpdates[pubkey]?.map fun update => (pubkey, update)

def flush (reducer : UpdateReducer) (order : HashOrder Pubkey) : List (Pubkey × PendingUpdate) × UpdateReducer :=
  (reducer.getPendingUpdates order, { reducer with
    pendingUpdates := ∅
    flushedCount := reducer.flushedCount + UInt64.ofNat reducer.pendingUpdates.size })

theorem pending_addUpdate (reducer : UpdateReducer) (pubkey other : Pubkey) (slot writeVersion : UInt64)
    (location : AccountLocation) :
    (reducer.addUpdate pubkey slot writeVersion location).2.pendingUpdates[other]? =
      if other = pubkey then keep (fun a b => b.writeVersion < a.writeVersion)
        reducer.pendingUpdates[pubkey]? ⟨slot, writeVersion, location⟩
      else reducer.pendingUpdates[other]? := by
  unfold addUpdate
  cases held : reducer.pendingUpdates[pubkey]? with
  | none =>
    simp only [if_true]
    rw [getElem?_insert_ite]
    rfl
  | some existing =>
    by_cases newer : existing.writeVersion < writeVersion
    · simp only [decide_eq_true newer, if_true, keep, if_pos newer]
      exact getElem?_insert_ite ..
    · simp only [decide_eq_false newer, Bool.false_eq_true, if_false, keep, if_neg newer]
      split
      · rename_i same
        exact same ▸ held
      · rfl

end UpdateReducer

/-- A reducer and, for every pubkey, the locations added since the last flush. -/
structure ReducerRun where
  reducer : UpdateReducer
  added : Pubkey → List AccountLocation := fun _ => []

/-- An addition passes on the slot and write version of its location. -/
inductive ReducerCall where
  | addUpdate (pubkey : Pubkey) (location : AccountLocation)
  | flush (order : HashOrder Pubkey)

namespace ReducerRun

def call (run : ReducerRun) : ReducerCall → ReducerRun
  | .addUpdate pubkey location =>
    ⟨(run.reducer.addUpdate pubkey location.slot location.writeVersion location).2,
      Function.update run.added pubkey (run.added pubkey ++ [location])⟩
  | .flush order => ⟨(run.reducer.flush order).2, fun _ => []⟩

/-- A pubkey is pending as soon as something was added for it, and then at a newest
of the locations added. -/
def NewestFor (run : ReducerRun) (pubkey : Pubkey) : Prop :=
  match run.reducer.pendingUpdates[pubkey]? with
  | none => run.added pubkey = []
  | some update => Newest AccountLocation.Newer (run.added pubkey) update.location

def NewestPending (run : ReducerRun) : Prop := ∀ pubkey, run.NewestFor pubkey

/-- The write versions put the location and the pending one in the order of the locations. -/
def OrderedByVersion (run : ReducerRun) : ReducerCall → Prop
  | .addUpdate pubkey location => ∀ update, run.reducer.pendingUpdates[pubkey]? = some update →
      (location.Newer update.location ↔ update.writeVersion < location.writeVersion)
  | .flush _ => True

/-- A pending update carries the slot and write version of its location. -/
def Matching (run : ReducerRun) : Prop := ∀ (pubkey : Pubkey) (update : PendingUpdate),
  run.reducer.pendingUpdates[pubkey]? = some update →
    update.slot = update.location.slot ∧ update.writeVersion = update.location.writeVersion

theorem call_matching {run : ReducerRun} (h : run.Matching) (action : ReducerCall) :
    (run.call action).Matching := by
  intro pubkey update found
  cases action with
  | flush order => simp [call, UpdateReducer.flush] at found
  | addUpdate key location =>
    have lookup := UpdateReducer.pending_addUpdate run.reducer key pubkey
      location.slot location.writeVersion location
    have found := lookup.symm.trans found
    split at found
    · unfold keep at found
      split at found
      · cases found
        exact ⟨rfl, rfl⟩
      · rename_i old held
        split at found
        · cases found
          exact ⟨rfl, rfl⟩
        · cases found
          exact h key update held
    · exact h pubkey update found

theorem newestPending_addUpdate {run : ReducerRun} (h : run.NewestPending) (pubkey : Pubkey)
    (location : AccountLocation) : (run.call (.addUpdate pubkey location)).NewestPending ↔
      (run.call (.addUpdate pubkey location)).NewestFor pubkey := by
  refine ⟨fun all => all pubkey, fun here other => ?_⟩
  by_cases same : other = pubkey
  · exact same ▸ here
  · have kept := UpdateReducer.pending_addUpdate run.reducer pubkey other
      location.slot location.writeVersion location
    rw [if_neg same] at kept
    have before := h other
    simp only [NewestFor, call, kept, Function.update_of_ne same]
    exact before

/-- What an addition leaves is newest exactly if the write versions are ordered as the
locations are. -/
theorem call_newestPending {run : ReducerRun} (matching : run.Matching) (h : run.NewestPending)
    (action : ReducerCall) : (run.call action).NewestPending ↔ run.OrderedByVersion action := by
  cases action with
  | flush order => simp [call, UpdateReducer.flush, NewestPending, NewestFor, OrderedByVersion]
  | addUpdate pubkey location =>
    have own := UpdateReducer.pending_addUpdate run.reducer pubkey pubkey
      location.slot location.writeVersion location
    have before := h pubkey
    rw [newestPending_addUpdate h]
    unfold NewestFor at before ⊢
    simp only [call, own, if_true, Function.update_self, OrderedByVersion]
    cases held : run.reducer.pendingUpdates[pubkey]? with
    | none =>
      simp only [held] at before
      simp only [keep, before, List.nil_append, reduceCtorEq, false_implies, implies_true, iff_true]
      exact newest_single AccountLocation.newer_weakOrder location
    | some update =>
      simp only [held] at before
      have order := AccountLocation.newer_iff location update.location
      have reverse := AccountLocation.newer_iff update.location location
      have versions : update.writeVersion < location.writeVersion ↔
          update.location.writeVersion.toNat < location.writeVersion.toNat := by
        rw [(matching pubkey update held).2, UInt64.lt_iff_toNat_lt]
      simp only [Option.some.injEq, forall_eq', keep]
      by_cases later : update.writeVersion < location.writeVersion
      · rw [if_pos later]
        dsimp only
        rw [before.replace_iff AccountLocation.newer_weakOrder, reverse, order]
        rw [versions] at later ⊢
        omega
      · rw [if_neg later]
        dsimp only
        rw [before.keep_iff, iff_false_right later]

/-- The pending updates are newest after every call exactly if the write versions were
ordered as the locations are at every addition. -/
theorem newestPending_iff (flushThreshold : Nat) (calls : List ReducerCall) :
    Along (ofFun call) (fun _ _ after => after.NewestPending)
        { reducer := { flushThreshold } } calls ↔
      Along (ofFun call) (fun before action _ => before.OrderedByVersion action)
        { reducer := { flushThreshold } } calls := by
  refine along_ofFun_iff (fun run => run.Matching ∧ run.NewestPending) ?_ ?_ ?_ calls
  · rintro before action ⟨matching, newest⟩
    exact call_newestPending matching newest action
  · rintro before action ⟨matching, newest⟩ ordered
    exact ⟨call_matching matching action, (call_newestPending matching newest action).mpr ordered⟩
  · constructor
    · intro pubkey update found
      simp at found
    · intro pubkey
      simp [NewestFor]

/-- A later slot with a lower write version is dropped. -/
theorem pending_of_earlier_slot : ¬ ∀ calls : List ReducerCall,
    (calls.foldl call { reducer := {} }).NewestPending := by
  intro all
  let earlier : AccountLocation := ⟨0, 0, 0, 0, 0, 100, 9, .delta⟩
  let later : AccountLocation := ⟨0, 0, 0, 0, 0, 101, 1, .delta⟩
  let pubkey : Pubkey := .replicate 32 1
  have pending := all [.addUpdate pubkey earlier, .addUpdate pubkey later] pubkey
  have held : ([.addUpdate pubkey earlier, .addUpdate pubkey later].foldl call
      { reducer := {} }).reducer.pendingUpdates[pubkey]? = some ⟨100, 9, earlier⟩ := by decide +kernel
  unfold NewestFor at pending
  rw [held] at pending
  exact pending.none later (by simp [call]) (by decide)

end ReducerRun

/-- The arguments of an addition. -/
structure ReducerUpdate where
  pubkey : Pubkey
  slot : UInt64
  writeVersion : UInt64
  location : AccountLocation

def ReducerUpdate.pending (update : ReducerUpdate) : PendingUpdate :=
  ⟨update.slot, update.writeVersion, update.location⟩

namespace PendingUpdate

def HigherVersion (a b : PendingUpdate) : Prop := b.writeVersion < a.writeVersion

instance : DecidableRel HigherVersion := fun a b => inferInstanceAs (Decidable (b.writeVersion < a.writeVersion))

theorem higherVersion_weakOrder : WeakOrder HigherVersion where
  asymm {a b} first second := by
    simp only [HigherVersion, UInt64.lt_iff_toNat_lt] at first second
    omega
  negTrans {a b c} first second both := by
    simp only [HigherVersion, UInt64.lt_iff_toNat_lt] at first second both
    omega

end PendingUpdate

namespace UpdateReducer

/-- Whether each update was pending already, and the reducer after them all. -/
def addUpdates (reducer : UpdateReducer) : List ReducerUpdate → List Bool × UpdateReducer
  | [] => ([], reducer)
  | update :: rest =>
    let (isDedup, added) := reducer.addUpdate update.pubkey update.slot update.writeVersion update.location
    let (others, last) := added.addUpdates rest
    (isDedup :: others, last)

/-- A pubkey's pending update is kept from the updates of that pubkey alone. -/
theorem pending_addUpdates (updates : List ReducerUpdate) (reducer : UpdateReducer) (pubkey : Pubkey) :
    (reducer.addUpdates updates).2.pendingUpdates[pubkey]? =
      ((updates.filter (pubkey = ·.pubkey)).map ReducerUpdate.pending).foldl
        (keep PendingUpdate.HigherVersion) reducer.pendingUpdates[pubkey]? := by
  induction updates generalizing reducer with
  | nil => rfl
  | cons update rest ih =>
    have first := pending_addUpdate reducer update.pubkey pubkey update.slot update.writeVersion update.location
    simp only [addUpdates]
    rw [ih, first]
    by_cases same : pubkey = update.pubkey
    · subst same
      simp only [if_true, List.filter_cons, decide_true, List.map_cons, List.foldl_cons]
      rfl
    · simp only [if_neg same, List.filter_cons, decide_eq_false same, Bool.false_eq_true, if_false]

theorem size_addUpdate (reducer : UpdateReducer) (update : ReducerUpdate) :
    (reducer.addUpdate update.pubkey update.slot update.writeVersion update.location).2.pendingUpdates.size =
      reducer.pendingUpdates.size + if (reducer.addUpdate update.pubkey update.slot update.writeVersion
        update.location).1 then 0 else 1 := by
  unfold addUpdate
  cases held : reducer.pendingUpdates[update.pubkey]? with
  | none =>
    have absent : reducer.pendingUpdates.contains update.pubkey = false := by
      rw [Std.TreeMap.contains_eq_isSome_getElem?, held]
      rfl
    simp [absent, Std.TreeMap.size_insert]
  | some existing =>
    have present : reducer.pendingUpdates.contains update.pubkey = true := by
      rw [Std.TreeMap.contains_eq_isSome_getElem?, held]
      rfl
    dsimp only
    split <;> simp [present, Std.TreeMap.size_insert]

/-- The additions that found nothing pending are the pubkeys that became pending. -/
theorem count_addUpdates (updates : List ReducerUpdate) (reducer : UpdateReducer) :
    (reducer.addUpdates updates).1.count true + (reducer.addUpdates updates).2.pendingUpdates.size =
      updates.length + reducer.pendingUpdates.size := by
  induction updates generalizing reducer with
  | nil => simp [addUpdates]
  | cons update rest ih =>
    have first := size_addUpdate reducer update
    have later := ih (reducer.addUpdate update.pubkey update.slot update.writeVersion update.location).2
    simp only [addUpdates, List.count_cons, List.length_cons]
    cases dedup : (reducer.addUpdate update.pubkey update.slot update.writeVersion update.location).1 with
    | true =>
      rw [dedup] at first
      simp only [if_true] at first ⊢
      simp only [beq_self_eq_true, if_true]
      omega
    | false =>
      rw [dedup] at first
      simp only [Bool.false_eq_true, if_false, beq_iff_eq] at first ⊢
      omega

theorem getPendingUpdates_perm {reducer other : UpdateReducer}
    (same : ∀ pubkey : Pubkey, reducer.pendingUpdates[pubkey]? = other.pendingUpdates[pubkey]?)
    (order otherOrder : HashOrder Pubkey) :
    (reducer.getPendingUpdates order).Perm (other.getPendingUpdates otherOrder) := by
  have keys := (Std.TreeMap.Equiv.of_forall_constGet?_eq same).keys_eq
  unfold getPendingUpdates
  simp only [keys, same]
  exact (order.list_perm otherOrder _).filterMap _

/-- The updates of the list whose pubkeys agree have different write versions. -/
def DifferentVersions (updates : List ReducerUpdate) : Prop :=
  updates.Pairwise fun a b => a.pubkey = b.pubkey → a.writeVersion ≠ b.writeVersion

/-- Two updates of one pubkey are one update, or one has the higher write version. -/
theorem DifferentVersions.apart {updates : List ReducerUpdate} (different : DifferentVersions updates)
    (pubkey : Pubkey) :
    ∀ a ∈ (updates.filter (pubkey = ·.pubkey)).map ReducerUpdate.pending,
      ∀ b ∈ (updates.filter (pubkey = ·.pubkey)).map ReducerUpdate.pending,
        a = b ∨ a.HigherVersion b ∨ b.HigherVersion a := by
  intro a memberA b memberB
  obtain ⟨first, inFirst, rfl⟩ := List.mem_map.mp memberA
  obtain ⟨second, inSecond, rfl⟩ := List.mem_map.mp memberB
  obtain ⟨amongFirst, keyFirst⟩ := List.mem_filter.mp inFirst
  obtain ⟨amongSecond, keySecond⟩ := List.mem_filter.mp inSecond
  by_cases one : first = second
  · exact .inl (congrArg ReducerUpdate.pending one)
  · have : Std.Symm fun a b : ReducerUpdate => a.pubkey = b.pubkey → a.writeVersion ≠ b.writeVersion :=
      ⟨fun _ _ apart same => (apart same.symm).symm⟩
    have pubkeys : first.pubkey = second.pubkey :=
      (of_decide_eq_true keyFirst).symm.trans (of_decide_eq_true keySecond)
    have versions := different.forall amongFirst amongSecond one pubkeys
    have numbers : first.writeVersion.toNat ≠ second.writeVersion.toNat :=
      fun same => versions (UInt64.toNat_inj.mp same)
    simp only [PendingUpdate.HigherVersion, ReducerUpdate.pending, UInt64.lt_iff_toNat_lt]
    omega

/-- The order in which updates arrive shows neither in what is pending, nor in the
number of updates found pending, nor in what a flush hands out. -/
theorem addUpdates_perm {updates other : List ReducerUpdate} (perm : updates.Perm other)
    (different : DifferentVersions updates) (flushThreshold : Nat) :
    let first := ({ flushThreshold } : UpdateReducer).addUpdates updates
    let second := ({ flushThreshold } : UpdateReducer).addUpdates other
    (∀ pubkey : Pubkey, first.2.pendingUpdates[pubkey]? = second.2.pendingUpdates[pubkey]?) ∧
    first.1.count true = second.1.count true ∧
    ∀ order otherOrder, (first.2.flush order).1.Perm (second.2.flush otherOrder).1 := by
  intro first second
  have lookups : ∀ pubkey : Pubkey, first.2.pendingUpdates[pubkey]? = second.2.pendingUpdates[pubkey]? := by
    intro pubkey
    rw [pending_addUpdates, pending_addUpdates]
    exact foldl_keep_perm PendingUpdate.higherVersion_weakOrder ((perm.filter _).map _)
      (different.apart pubkey) _
  refine ⟨lookups, ?_, fun order otherOrder => getPendingUpdates_perm lookups order otherOrder⟩
  have sizes := (Std.TreeMap.Equiv.of_forall_constGet?_eq lookups).size_eq
  have counted : first.1.count true + first.2.pendingUpdates.size = _ := count_addUpdates updates _
  have recounted : second.1.count true + second.2.pendingUpdates.size = _ := count_addUpdates other _
  have lengths := perm.length_eq
  omega

theorem addUpdates_perm_two :
    let first : List ReducerUpdate := [⟨.replicate 32 1, 5, 1, ⟨0, 0, 0, 0, 0, 5, 1, .delta⟩⟩,
      ⟨.replicate 32 1, 4, 2, ⟨0, 0, 0, 0, 0, 4, 2, .delta⟩⟩]
    (({} : UpdateReducer).addUpdates first).1.count true =
      (({} : UpdateReducer).addUpdates first.reverse).1.count true :=
  (addUpdates_perm (List.reverse_perm _).symm
    (List.pairwise_pair.mpr fun _ => by decide) 10000).2.1

end UpdateReducer

end Hyperplane

import Hyperplane.Index.LsmCompactions

/-! What readers see while one compaction at a time is between its copy of the
base and its write. -/
namespace Hyperplane
open Transition Threads

namespace LsmShared

variable {S : Type}

/-- At most one compaction is between its copy of the base and its write. -/
def Lone (t : Pool (LsmShared S) (LsmPhase S)) : Prop :=
  ∀ (i j : Nat) (p q : LsmPhase S), t.phases[i]? = some p → t.phases[j]? = some q →
    p.copy ≠ none → q.copy ≠ none → i = j

theorem Lone.only {t : Pool (LsmShared S) (LsmPhase S)} (lone : Lone t) {i : Nat} {p r : LsmPhase S}
    (here : t.phases[i]? = some p) (member : r ∈ t.phases) (first : p.copy ≠ none)
    (second : r.copy ≠ none) : r = p := by
  obtain ⟨j, there⟩ := List.mem_iff_getElem?.mp member
  cases lone i j p r here there first second
  exact Option.some.inj (there.symm.trans here)

instance (t : Pool (LsmShared S) (LsmPhase S)) : Decidable (Lone t) :=
  decidable_of_iff (∀ i < t.phases.length, ∀ j < t.phases.length, ∀ p ∈ t.phases[i]?, ∀ q ∈ t.phases[j]?,
      p.copy.isSome → q.copy.isSome → i = j) (by
    constructor
    · intro h i j p q here there first second
      exact h i (List.getElem?_eq_some_iff.mp here).1 j (List.getElem?_eq_some_iff.mp there).1 p here q there
        (Option.isSome_iff_ne_none.mpr first) (Option.isSome_iff_ne_none.mpr second)
    · intro h i _ j _ p here q there first second
      exact h i j p q here there (Option.isSome_iff_ne_none.mp first) (Option.isSome_iff_ne_none.mp second))

variable [IdUnion S]

/-- The steps of runs in which no two compactions overlap. -/
def OneCompaction (t : Pool (LsmShared S) (LsmPhase S)) (a : Move LsmOperation)
    (u : Pool (LsmShared S) (LsmPhase S)) : Prop :=
  program.step t a = some u ∧ Lone u

/-- A read that returned reports what it expected. -/
def Right : LsmPhase S → Prop
  | .probed _ expected answer => expected = true → answer = true
  | .queried expected answer => ∀ id ∈ expected, IdSet.contains answer id.toNat = true
  | _ => True

def ReadsRight (t : Pool (LsmShared S) (LsmPhase S)) : Prop := ∀ p ∈ t.phases, Right p

/-- A compaction has drained the deltas and is going to write the id back. -/
def Carried (t : Pool (LsmShared S) (LsmPhase S)) (id : UInt32) : Prop :=
  ∃ p ∈ t.phases, ∃ background newBase, p = .compacting (.writing background newBase) ∧
    IdSet.contains newBase id.toNat = true

/-- On its way from the deltas to the base. -/
def InTransit (t : Pool (LsmShared S) (LsmPhase S)) (id : UInt32) : Prop :=
  t.shared.bitmap.inBase id = false ∧ Carried t id

/-- The condition on a step: the second section of a read finds no id in transit
that it expects and that is in no delta. -/
def FindsAll (t : Pool (LsmShared S) (LsmPhase S)) (a : Move LsmOperation)
    (_ : Pool (LsmShared S) (LsmPhase S)) : Prop :=
  match a with
  | .call _ _ => True
  | .advance i => match t.phases[i]? with
    | some (.missed id expected) => expected = true → ¬ InTransit t id
    | some (.holding expected) =>
      ∀ id ∈ expected, InTransit t id → t.shared.bitmap.inDeltas id = true
    | _ => True

/-- In the base or on its way there. -/
def Below (t : Pool (LsmShared S) (LsmPhase S)) (id : UInt32) : Prop :=
  t.shared.bitmap.inBase id = true ∨ Carried t id

/-- What a thread relies on from one section to the next. -/
def Expects (t : Pool (LsmShared S) (LsmPhase S)) : LsmPhase S → Prop
  | .added id | .weighed id _ | .triggering id => id ∈ t.shared.inserted
  | .probing id expected => expected = true → id ∈ t.shared.inserted
  | .missed id expected => expected = true → Below t id
  | .querying expected | .holding expected => ∀ id ∈ expected, id ∈ t.shared.inserted
  | _ => True

/-- With one compaction at a time its copy keeps up with the base, and an
inserted id is never nowhere. -/
structure Tracked (t : Pool (LsmShared S) (LsmPhase S)) : Prop where
  lone : Lone t
  draining : ∀ background newBase, .compacting (.draining background newBase) ∈ t.phases →
    ∀ id : UInt32, IdSet.contains newBase id.toNat = t.shared.bitmap.inBase id
  writing : ∀ background newBase, .compacting (.writing background newBase) ∈ t.phases →
    ∀ id : UInt32, t.shared.bitmap.inBase id = true → IdSet.contains newBase id.toNat = true
  placed : ∀ id ∈ t.shared.inserted, t.shared.bitmap.inDeltas id = true ∨ Below t id
  returned : ∀ id ∈ t.shared.returned, id ∈ t.shared.inserted
  expects : ∀ p ∈ t.phases, Expects t p

theorem start_tracked (maxDeltas maxDeltaSize threads : Nat) :
    Tracked (start maxDeltas maxDeltaSize threads : Pool (LsmShared S) (LsmPhase S)) where
  lone i j p q here there copied := by
    rw [List.eq_of_mem_replicate (List.mem_of_getElem? here)] at copied
    exact absurd rfl copied
  draining background newBase member := by
    cases List.eq_of_mem_replicate member
  writing background newBase member := by
    cases List.eq_of_mem_replicate member
  placed := by simp [start]
  returned := by simp [start]
  expects p member := by
    rw [List.eq_of_mem_replicate member]
    trivial

/-- What one step does to the places of an id, in a run of one compaction. -/
theorem Below.step {t u : Pool (LsmShared S) (LsmPhase S)} (h : Tracked t) {a : Move LsmOperation}
    (taken : program.step t a = some u) {id : UInt32} (below : Below t id) : Below u id := by
  cases a with
  | call i op =>
    obtain ⟨p, here, rests, rfl⟩ := Program.step_call.mp taken
    refine below.imp_right fun carried => ?_
    rcases @exists_moved _ _ [] _ _ (program.enter op t.shared) _ here carried with mine | theirs
    · obtain ⟨_, _, rfl, _⟩ := mine
      cases rests
    · rwa [List.append_nil] at theirs
  | advance i =>
    obtain ⟨p, q, s, started, here, moved, rfl⟩ := Program.step_advance.mp taken
    have member := List.mem_of_getElem? here
    have others (carried : Carried t id) (mine : ∀ background newBase,
        p = .compacting (.writing background newBase) → False) :
        Carried (⟨s, t.phases.set i q ++ started⟩ : Pool (LsmShared S) (LsmPhase S)) id := by
      refine (exists_moved here carried).resolve_left ?_
      rintro ⟨background, newBase, same, _⟩
      exact mine background newBase same
    rcases advance_cases moved with quiet | ⟨rfl, ⟨new, rfl, rfl, rfl⟩ | ⟨_, rfl, rfl, rfl⟩ |
      ⟨_, _, rfl, rfl, rfl⟩ | ⟨background, newBase, rfl, rfl, rfl⟩⟩
    · rcases below with base | carried
      · exact .inl ((quiet.base id).trans base)
      · refine .inr (others carried ?_)
        rintro background newBase rfl
        cases quiet.before
    · exact below.imp_right fun carried => others carried (by simp)
    · exact below.imp_right fun carried => others carried (by simp)
    · exact below.imp_right fun carried => others carried (by simp)
    · rcases below with base | carried
      · exact .inl (h.writing background newBase member id base)
      · rcases exists_moved here carried with ⟨_, _, same, copied⟩ | theirs
        · cases same
          exact .inl copied
        · exact .inr theirs

/-- A compaction that drains the deltas carries what it finds there. -/
theorem delta_step {t u : Pool (LsmShared S) (LsmPhase S)} {a : Move LsmOperation}
    (taken : program.step t a = some u) {id : UInt32} (delta : t.shared.bitmap.inDeltas id = true) :
    u.shared.bitmap.inDeltas id = true ∨ Carried u id := by
  cases a with
  | call i op =>
    obtain ⟨_, _, _, rfl⟩ := Program.step_call.mp taken
    exact .inl delta
  | advance i =>
    obtain ⟨p, q, s, started, here, moved, rfl⟩ := Program.step_advance.mp taken
    rcases advance_cases moved with quiet | ⟨rfl, ⟨new, rfl, rfl, rfl⟩ | ⟨_, rfl, rfl, rfl⟩ |
      ⟨background, newBase, rfl, rfl, rfl⟩ | ⟨_, _, rfl, rfl, rfl⟩⟩
    · exact .inl ((quiet.deltas id).trans delta)
    · exact .inl ((t.shared.bitmap.inDeltas_addDelta new id).mpr (.inr delta))
    · exact .inl delta
    · exact .inr ⟨_, mem_moved here, background, _, rfl,
        (t.shared.bitmap.contains_mergeDeltas newBase id).mpr (.inr delta)⟩
    · exact .inl delta

theorem Tracked.placed_step {t u : Pool (LsmShared S) (LsmPhase S)} (h : Tracked t)
    {a : Move LsmOperation} (taken : program.step t a = some u) {id : UInt32}
    (present : id ∈ u.shared.inserted) : u.shared.bitmap.inDeltas id = true ∨ Below u id := by
  rcases inserted_step taken present with old | new
  · rcases h.placed id old with delta | below
    · exact (delta_step taken delta).imp_right .inr
    · exact .inr (below.step h taken)
  · exact .inl new

/-- A copy is the base until the deltas are drained into it, and holds the base from then on. -/
structure Copies (t : Pool (LsmShared S) (LsmPhase S)) : Prop where
  draining : ∀ background newBase, .compacting (.draining background newBase) ∈ t.phases →
    ∀ id : UInt32, IdSet.contains newBase id.toNat = t.shared.bitmap.inBase id
  writing : ∀ background newBase, .compacting (.writing background newBase) ∈ t.phases →
    ∀ id : UInt32, t.shared.bitmap.inBase id = true → IdSet.contains newBase id.toNat = true

/-- Without new copies and with the same base the copies are as good as they were. -/
theorem Copies.of_old {t u : Pool (LsmShared S) (LsmPhase S)} (h : Copies t)
    (old : ∀ r ∈ u.phases, r.copy ≠ none → r ∈ t.phases)
    (base : ∀ id, u.shared.bitmap.inBase id = t.shared.bitmap.inBase id) : Copies u where
  draining background newBase member id :=
    (h.draining background newBase (old _ member (by simp [LsmPhase.copy])) id).trans (base id).symm
  writing background newBase member id present :=
    h.writing background newBase (old _ member (by simp [LsmPhase.copy])) id (base id ▸ present)

theorem Tracked.copies_advance {t : Pool (LsmShared S) (LsmPhase S)} (h : Tracked t) {i : Nat}
    {p q : LsmPhase S} {s : LsmShared S} {started : List (LsmPhase S)} (here : t.phases[i]? = some p)
    (moved : advance p t.shared = some (q, s, started)) :
    Copies (⟨s, t.phases.set i q ++ started⟩ : Pool (LsmShared S) (LsmPhase S)) := by
  have copies : Copies t := ⟨h.draining, h.writing⟩
  have own := List.mem_of_getElem? here
  have before {r : LsmPhase S} (member : r ∈ t.phases.set i q ++ started) :
      r ∈ t.phases ∨ r = q ∨ r ∈ started := by
    rcases List.mem_append.mp member with old | new
    · exact (List.mem_or_eq_of_mem_set old).imp_right .inl
    · exact .inr (.inr new)
  rcases advance_cases moved with quiet | ⟨rfl, ⟨new, rfl, rfl, rfl⟩ | ⟨_, rfl, rfl, rfl⟩ |
    ⟨background, newBase, rfl, rfl, rfl⟩ | ⟨background, newBase, rfl, rfl, rfl⟩⟩
  · refine copies.of_old (fun r member copied => ?_) quiet.base
    rcases before member with old | rfl | new
    · exact old
    · exact absurd quiet.after copied
    · exact absurd (quiet.spawned r new) copied
  · refine copies.of_old (fun r member copied => ?_) (fun _ => rfl)
    rcases before member with old | rfl | none
    · exact old
    · exact absurd rfl copied
    · cases none
  · constructor
    · intro background newBase member id
      rcases before member with old | same | none
      · exact h.draining background newBase old id
      · cases same
        rfl
      · cases none
    · intro background newBase member
      exact h.writing background newBase (by simpa using before member)
  · constructor
    · intro background newBase member
      exact h.draining background newBase (by simpa using before member)
    · intro background' newBase' member id base
      rcases before member with old | same | none
      · exact h.writing background' newBase' old id base
      · cases same
        exact (t.shared.bitmap.contains_mergeDeltas newBase id).mpr
          (.inl ((h.draining background newBase own id).trans base))
      · cases none
  · -- The one that writes is the only one with a copy.
    constructor
    · intro background' newBase' member id
      have old : .compacting (.draining background' newBase') ∈ t.phases := by simpa using before member
      cases h.lone.only here old (by simp [LsmPhase.copy]) (by simp [LsmPhase.copy])
    · intro background' newBase' member id base
      have old : .compacting (.writing background' newBase') ∈ t.phases := by simpa using before member
      cases h.lone.only here old (by simp [LsmPhase.copy]) (by simp [LsmPhase.copy])
      exact base

/-- The copies keep up with the base, as no other compaction writes it. -/
theorem Tracked.copies_step {t u : Pool (LsmShared S) (LsmPhase S)} (h : Tracked t)
    {a : Move LsmOperation} (taken : program.step t a = some u) : Copies u := by
  cases a with
  | call i op =>
    obtain ⟨p, here, rests, rfl⟩ := Program.step_call.mp taken
    refine Copies.of_old ⟨h.draining, h.writing⟩ (fun r member copied => ?_) (fun _ => rfl)
    rcases List.mem_or_eq_of_mem_set member with old | rfl
    · exact old
    · exact absurd (copy_enter op t.shared) copied
  | advance i =>
    obtain ⟨p, q, s, started, here, moved, rfl⟩ := Program.step_advance.mp taken
    exact h.copies_advance here moved

/-- Only inserts return ids, and only such that they inserted. -/
theorem returned_advance {t : Pool (LsmShared S) (LsmPhase S)} {p q : LsmPhase S} {s : LsmShared S}
    {started : List (LsmPhase S)} (expects : Expects t p)
    (moved : advance p t.shared = some (q, s, started)) {id : UInt32} (returned : id ∈ s.returned) :
    id ∈ t.shared.returned ∨ id ∈ t.shared.inserted := by
  cases section_of_advance moved with
  | decline other due =>
    rcases List.mem_append.mp returned with old | last
    · exact .inl old
    · cases List.mem_singleton.mp last
      exact .inr expects
  | trigger other =>
    rcases List.mem_append.mp returned with old | last
    · exact .inl old
    · cases List.mem_singleton.mp last
      exact .inr expects
  | _ => exact .inl returned

theorem inserted_mono {t u : Pool (LsmShared S) (LsmPhase S)} {a : Move LsmOperation}
    (taken : program.step t a = some u) : t.shared.inserted ⊆ u.shared.inserted := by
  cases a with
  | call i op =>
    obtain ⟨_, _, _, rfl⟩ := Program.step_call.mp taken
    exact fun _ old => old
  | advance i =>
    obtain ⟨p, q, s, started, here, moved, rfl⟩ := Program.step_advance.mp taken
    rcases advance_cases moved with quiet | ⟨rfl, ⟨_, rfl, rfl, rfl⟩ | ⟨_, rfl, rfl, rfl⟩ |
      ⟨_, _, rfl, rfl, rfl⟩ | ⟨_, _, rfl, rfl, rfl⟩⟩
    · exact fun _ old => quiet.inserted ▸ old
    · exact List.subset_append_left _ _
    · exact fun _ old => old
    · exact fun _ old => old
    · exact fun _ old => old

theorem Expects.step {t u : Pool (LsmShared S) (LsmPhase S)} (h : Tracked t) {a : Move LsmOperation}
    (taken : program.step t a = some u) {p : LsmPhase S} (expects : Expects t p) : Expects u p := by
  have grows := inserted_mono taken
  cases p with
  | added id => exact grows expects
  | weighed id due => exact grows expects
  | triggering id => exact grows expects
  | probing id expected => exact fun known => grows (expects known)
  | missed id expected => exact fun known => (expects known).step h taken
  | querying expected => exact fun id member => grows (expects id member)
  | holding expected => exact fun id member => grows (expects id member)
  | _ => trivial

/-- What the thread that moves relies on next. -/
theorem Tracked.expects_advance {t : Pool (LsmShared S) (LsmPhase S)} (h : Tracked t) {i : Nat}
    {p q : LsmPhase S} {s : LsmShared S} {started : List (LsmPhase S)} (here : t.phases[i]? = some p)
    (moved : advance p t.shared = some (q, s, started)) :
    Expects (⟨s, t.phases.set i q ++ started⟩ : Pool (LsmShared S) (LsmPhase S)) q ∧
      ∀ r ∈ started, Expects (⟨s, t.phases.set i q ++ started⟩ : Pool (LsmShared S) (LsmPhase S)) r := by
  have own := h.expects p (List.mem_of_getElem? here)
  have taken : program.step t (.advance i) = some ⟨s, t.phases.set i q ++ started⟩ :=
    Program.step_advance.mpr ⟨p, q, s, started, here, moved, rfl⟩
  cases section_of_advance moved with
  | add id => exact ⟨List.mem_append_right _ (List.mem_singleton.mpr rfl), by simp⟩
  | weigh id => exact ⟨own, by simp⟩
  | decide id _ => exact ⟨own, by simp⟩
  | trigger id => exact ⟨trivial, by simp [Expects]⟩
  | miss id expected missed =>
    refine ⟨fun known => ?_, by simp⟩
    rcases h.placed id (own known) with delta | below
    · rw [missed] at delta
      cases delta
    · exact below.step h taken
  | hold expected => exact ⟨own, by simp⟩
  | _ => exact ⟨trivial, by simp⟩

theorem Tracked.step {t u : Pool (LsmShared S) (LsmPhase S)} (h : Tracked t) {a : Move LsmOperation}
    (taken : OneCompaction t a u) : Tracked u := by
  obtain ⟨taken, lone⟩ := taken
  obtain ⟨draining, writing⟩ := h.copies_step taken
  have placed := fun id present => @Tracked.placed_step S _ t u h a taken id present
  have kept (p : LsmPhase S) (old : p ∈ t.phases) : Expects u p := (h.expects p old).step h taken
  cases a with
  | call i op =>
    obtain ⟨p, _, _, rfl⟩ := Program.step_call.mp taken
    refine ⟨lone, draining, writing, placed, h.returned, forall_set kept ?_⟩
    cases op with
    | insert id => trivial
    | compact => trivial
    | contains id => exact fun known => h.returned id (by simpa using known)
    | query => exact h.returned
  | advance i =>
    obtain ⟨p, q, s, started, here, moved, rfl⟩ := Program.step_advance.mp taken
    obtain ⟨mine, theirs⟩ := h.expects_advance here moved
    refine ⟨lone, draining, writing, placed, fun id returned => ?_, forall_moved kept mine theirs⟩
    rcases returned_advance (h.expects p (List.mem_of_getElem? here)) moved returned with old | inserted
    · exact inserted_mono taken (h.returned id old)
    · exact inserted_mono taken inserted

/-- Only the second section of a read can come out wrong. -/
theorem right_advance {p q : LsmPhase S} {s t : LsmShared S} {started : List (LsmPhase S)}
    (moved : advance p s = some (q, t, started)) (unmissed : ∀ id expected, p ≠ .missed id expected)
    (unheld : ∀ expected, p ≠ .holding expected) : Right q ∧ ∀ r ∈ started, Right r := by
  cases section_of_advance moved with
  | probe id expected => exact absurd rfl (unmissed id expected)
  | answer expected => exact absurd rfl (unheld expected)
  | find id expected found => exact ⟨fun _ => rfl, by simp⟩
  | trigger id => exact ⟨trivial, by simp [Right]⟩
  | _ => exact ⟨trivial, by simp⟩

/-- The read that missed the deltas looks into the base. -/
theorem missed_right_iff {t : Pool (LsmShared S) (LsmPhase S)} (right : ReadsRight t) {i : Nat} {id : UInt32}
    {expected : Bool} (here : t.phases[i]? = some (.missed id expected)) (own : expected = true → Below t id) :
    ReadsRight (⟨t.shared, t.phases.set i (.probed id expected (t.shared.bitmap.inBase id)) ++ []⟩ :
      Pool (LsmShared S) (LsmPhase S)) ↔ (expected = true → ¬ InTransit t id) := by
  have answers : ReadsRight (⟨t.shared, t.phases.set i (.probed id expected (t.shared.bitmap.inBase id)) ++ []⟩ :
      Pool (LsmShared S) (LsmPhase S)) ↔ (expected = true → t.shared.bitmap.inBase id = true) :=
    ⟨fun after => after _ (mem_moved here), fun found => forall_moved right found (by simp)⟩
  refine answers.trans (forall_congr' fun known => ?_)
  constructor
  · rintro base ⟨none, _⟩
    rw [base] at none
    cases none
  · intro settled
    by_contra absent
    exact settled ⟨Bool.eq_false_iff.mpr absent, (own known).resolve_left absent⟩

/-- A query reads base and deltas at once. -/
theorem held_right_iff {t : Pool (LsmShared S) (LsmPhase S)} (h : Tracked t) (right : ReadsRight t) {i : Nat}
    {expected : List UInt32} (here : t.phases[i]? = some (.holding expected))
    (own : ∀ id ∈ expected, id ∈ t.shared.inserted) :
    ReadsRight (⟨{ t.shared with baseReaders := t.shared.baseReaders - 1 },
      t.phases.set i (.queried expected t.shared.bitmap.query) ++ []⟩ : Pool (LsmShared S) (LsmPhase S)) ↔
      ∀ id ∈ expected, InTransit t id → t.shared.bitmap.inDeltas id = true := by
  have answers : ReadsRight (⟨{ t.shared with baseReaders := t.shared.baseReaders - 1 },
      t.phases.set i (.queried expected t.shared.bitmap.query) ++ []⟩ : Pool (LsmShared S) (LsmPhase S)) ↔
        ∀ id ∈ expected, t.shared.bitmap.inBase id = true ∨ t.shared.bitmap.inDeltas id = true := by
    simp only [← LsmBitmap.contains_query]
    exact ⟨fun after => after _ (mem_moved here), fun found => forall_moved right found (by simp)⟩
  refine answers.trans (forall₂_congr fun id member => ?_)
  constructor
  · rintro (base | delta) ⟨none, _⟩
    · rw [base] at none
      cases none
    · exact delta
  · intro settled
    rcases h.placed id (own id member) with delta | base | carried
    · exact .inr delta
    · exact .inl base
    · by_cases base : t.shared.bitmap.inBase id = true
      · exact .inl base
      · exact .inr (settled ⟨Bool.eq_false_iff.mpr base, carried⟩)

/-- A read comes out right exactly if no id that it expects is in transit. -/
theorem step_right_iff {t u : Pool (LsmShared S) (LsmPhase S)} (h : Tracked t) (right : ReadsRight t)
    {a : Move LsmOperation} (taken : program.step t a = some u) : ReadsRight u ↔ FindsAll t a u := by
  cases a with
  | call i op =>
    obtain ⟨p, _, _, rfl⟩ := Program.step_call.mp taken
    refine iff_of_true (forall_set right ?_) trivial
    cases op <;> trivial
  | advance i =>
    obtain ⟨p, q, s, started, here, moved, rfl⟩ := Program.step_advance.mp taken
    have own := h.expects p (List.mem_of_getElem? here)
    simp only [FindsAll, here]
    by_cases missed : ∃ id expected, p = .missed id expected
    · obtain ⟨id, expected, rfl⟩ := missed
      cases moved
      exact missed_right_iff right here own
    · by_cases held : ∃ expected, p = .holding expected
      · obtain ⟨expected, rfl⟩ := held
        cases moved
        exact held_right_iff h right here own
      · obtain ⟨mine, theirs⟩ := right_advance moved
          (fun id expected same => missed ⟨id, expected, same⟩) (fun expected same => held ⟨expected, same⟩)
        refine iff_of_true (forall_moved right mine theirs) ?_
        split
        · rename_i id expected same
          exact absurd ⟨id, expected, Option.some.inj same⟩ missed
        · rename_i expected same
          exact absurd ⟨expected, Option.some.inj same⟩ held
        · trivial

/-- In every run with one compaction at a time every read reports the ids whose
insert had returned before, exactly as long as no read finds such an id in
transit. -/
theorem reads_right_iff (maxDeltas maxDeltaSize threads : Nat) (moves : List (Move LsmOperation)) :
    Along OneCompaction (fun _ _ after => ReadsRight after)
      (start maxDeltas maxDeltaSize threads : Pool (LsmShared S) (LsmPhase S)) moves ↔
    Along OneCompaction FindsAll
      (start maxDeltas maxDeltaSize threads : Pool (LsmShared S) (LsmPhase S)) moves := by
  refine along_step_iff (fun t => Tracked t ∧ ReadsRight t) ?_ ?_ ?_ moves
  · intro t a u h taken
    exact step_right_iff h.1 h.2 taken.1
  · intro t a u h taken finds
    exact ⟨h.1.step taken, (step_right_iff h.1 h.2 taken.1).mpr finds⟩
  · refine ⟨start_tracked maxDeltas maxDeltaSize threads, fun p member => ?_⟩
    rw [List.eq_of_mem_replicate member]
    trivial

theorem Tracked.overwritesNothing {t : Pool (LsmShared S) (LsmPhase S)} (h : Tracked t)
    (a : Move LsmOperation) (u : Pool (LsmShared S) (LsmPhase S)) : OverwritesNothing t a u := by
  cases a with
  | call i op => trivial
  | advance i =>
    unfold OverwritesNothing
    dsimp only
    split
    · rename_i background newBase here
      exact fun id base => .inl (h.writing background newBase (List.mem_of_getElem? here) id base)
    · trivial

/-- One compaction at a time loses no insert. -/
theorem lone_compactions_conserve (maxDeltas maxDeltaSize threads : Nat) (moves : List (Move LsmOperation)) :
    Along OneCompaction (fun _ _ after => Conserved after)
      (start maxDeltas maxDeltaSize threads : Pool (LsmShared S) (LsmPhase S)) moves := by
  have known := @start_known S _ maxDeltas maxDeltaSize threads
  refine along_of_invariant (fun t => Tracked t ∧ Known t ∧ Conserved t) (fun _ _ _ => True) _ ?_
    ⟨start_tracked maxDeltas maxDeltaSize threads, known, conserved_of_held known (by simp [start])⟩
    (along_labels _ (fun _ _ => trivial) _)
  rintro t a u ⟨tracked, known, conserved⟩ taken _
  have after := (step_conserved_iff known conserved taken.1).mpr (tracked.overwritesNothing a u)
  exact ⟨⟨tracked.step taken, known.step taken.1, after⟩, after⟩

theorem oneCompaction_filter : @OneCompaction S _ =
    ofPartial fun t a => (program.step t a).filter fun u => decide (Lone u) := by
  funext t a u
  simp [OneCompaction, ofPartial, Option.filter_eq_some_iff]

/-- A reader looks into the deltas after a compaction has drained them and into
the base before it is written back. -/
theorem drained_id_missed :
    ∃ t : Pool (LsmShared SortedIds) (LsmPhase SortedIds),
      Run OneCompaction (start 4 100000 3)
        [.call 0 (.insert 1), .advance 0, .advance 0, .advance 0, .call 1 .compact, .advance 1, .advance 1,
          .call 2 (.contains 1), .advance 2, .advance 2] t ∧ ¬ ReadsRight t := by
  have outcome : ((List.foldlM (fun t a => (program.step t a).filter fun u => decide (Lone u)) (start 4 100000 3)
      [.call 0 (.insert 1), .advance 0, .advance 0, .advance 0, .call 1 .compact, .advance 1, .advance 1,
        .call 2 (.contains 1), .advance 2, .advance 2] :
      Option (Pool (LsmShared SortedIds) (LsmPhase SortedIds))).map fun t =>
        (t.phases.any fun | .probed _ expected answer => expected && !answer | _ => false)) =
      some true := by decide +kernel
  obtain ⟨t, ran, final⟩ := Option.map_eq_some_iff.mp outcome
  refine ⟨t, @oneCompaction_filter SortedIds _ ▸ (run_ofPartial _ _ _ _).mpr ran, fun right => ?_⟩
  obtain ⟨p, member, wrong⟩ := List.any_eq_true.mp final
  cases p with
  | probed id expected answer =>
    obtain ⟨known, missed⟩ := Bool.and_eq_true_iff.mp wrong
    rw [right _ member known] at missed
    cases missed
  | _ => cases wrong

end LsmShared

end Hyperplane

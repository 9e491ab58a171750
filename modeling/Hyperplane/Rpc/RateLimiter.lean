import Hyperplane.Lib.Transition
import Hyperplane.Lib.Maps

/-! The rate limiter of the RPC middleware. Every address has a window that is
cleared as a whole and timestamps that expire one by one. Times are nanoseconds
of a clock that does not go back. -/
namespace Hyperplane
open Transition Maps

/-- One second. -/
def windowDuration : Nat := 1000000000

structure IpRateLimitState where
  timestamps : List Nat
  windowStart : Nat

structure RateLimiter where
  limit : Nat
  ipWindows : Std.TreeMap String IpRateLimitState

/-- The timestamps that still count. -/
def live (now : Nat) (timestamps : List Nat) : List Nat :=
  timestamps.filter fun ts => now - ts < windowDuration

namespace IpRateLimitState

def fresh (now : Nat) : IpRateLimitState := ⟨[], now⟩

def reset (state : IpRateLimitState) (now : Nat) : IpRateLimitState :=
  if now - state.windowStart > windowDuration then fresh now else state

def retain (state : IpRateLimitState) (now : Nat) : IpRateLimitState :=
  { state with timestamps := live now state.timestamps }

def push (state : IpRateLimitState) (now : Nat) : IpRateLimitState :=
  { state with timestamps := state.timestamps ++ [now] }

end IpRateLimitState

namespace RateLimiter

def new (limit : Nat) : RateLimiter := ⟨limit, ∅⟩

/-- The window of an address after the reset and the expiry at a time. -/
def window (limiter : RateLimiter) (ip : String) (now : Nat) : IpRateLimitState :=
  ((limiter.ipWindows[ip]?.getD (.fresh now)).reset now).retain now

def allow (limiter : RateLimiter) (ip : String) (now : Nat) : RateLimiter × Bool :=
  let state := limiter.window ip now
  if state.timestamps.length ≥ limiter.limit then
    ({ limiter with ipWindows := limiter.ipWindows.insert ip state }, false)
  else ({ limiter with ipWindows := limiter.ipWindows.insert ip (state.push now) }, true)

def getCount (limiter : RateLimiter) (ip : String) (now : Nat) : Nat :=
  match limiter.ipWindows[ip]? with
  | some state => (live now state.timestamps).length
  | none => 0

def timestamps (limiter : RateLimiter) (ip : String) : List Nat :=
  (limiter.ipWindows[ip]?.map (·.timestamps)).getD []

/-- A window that is cleared holds no timestamp that still counts. -/
def ResetsExpired (limiter : RateLimiter) (ip : String) (now : Nat) : Prop :=
  ∀ state, limiter.ipWindows[ip]? = some state →
    now - state.windowStart ≤ windowDuration ∨ live now state.timestamps = []

instance (limiter : RateLimiter) (ip : String) (now : Nat) : Decidable (limiter.ResetsExpired ip now) :=
  inferInstanceAs (Decidable (∀ state ∈ limiter.ipWindows[ip]?,
    now - state.windowStart ≤ windowDuration ∨ live now state.timestamps = []))

end RateLimiter

theorem live_append (now : Nat) (front back : List Nat) :
    live now (front ++ back) = live now front ++ live now back := List.filter_append ..

theorem live_self (now : Nat) : live now [now] = [now] := by
  simp [live, windowDuration]

/-- What counts later counts now. -/
theorem live_live {clock now : Nat} (later : clock ≤ now) (timestamps : List Nat) :
    live now (live clock timestamps) = live now timestamps := by
  rw [live, live, List.filter_filter]
  refine List.filter_congr fun ts _ => ?_
  rw [Bool.and_eq_left_iff_imp]
  intro counts
  have young := of_decide_eq_true counts
  exact decide_eq_true (by omega)

namespace RateLimiter

theorem getCount_eq (limiter : RateLimiter) (ip : String) (now : Nat) :
    limiter.getCount ip now = (live now (limiter.timestamps ip)).length := by
  unfold getCount timestamps
  cases limiter.ipWindows[ip]? <;> rfl

theorem limit_allow (limiter : RateLimiter) (ip : String) (now : Nat) :
    (limiter.allow ip now).1.limit = limiter.limit := by
  unfold allow
  dsimp only
  split <;> rfl

theorem allow_iff (limiter : RateLimiter) (ip : String) (now : Nat) :
    (limiter.allow ip now).2 = true ↔ (limiter.window ip now).timestamps.length < limiter.limit := by
  unfold allow
  dsimp only
  split
  · rename_i full
    simpa using full
  · rename_i room
    simpa using room

theorem timestamps_allow (limiter : RateLimiter) (ip : String) (now : Nat) :
    (limiter.allow ip now).1.timestamps ip = (limiter.window ip now).timestamps ++
      if (limiter.allow ip now).2 then [now] else [] := by
  unfold allow timestamps
  dsimp only
  split
  · simp
  · simp [IpRateLimitState.push]

theorem timestamps_allow_ne (limiter : RateLimiter) {ip other : String} (differ : other ≠ ip) (now : Nat) :
    (limiter.allow ip now).1.timestamps other = limiter.timestamps other := by
  unfold allow timestamps
  dsimp only
  split <;> dsimp only <;> rw [getElem?_insert_ne _ differ]

/-- Without a live timestamp lost, the window holds what still counts. -/
theorem window_of_resetsExpired {limiter : RateLimiter} {ip : String} {now : Nat}
    (expired : limiter.ResetsExpired ip now) :
    (limiter.window ip now).timestamps = live now (limiter.timestamps ip) := by
  unfold window timestamps
  cases found : limiter.ipWindows[ip]? with
  | none => simp [IpRateLimitState.reset, IpRateLimitState.retain, IpRateLimitState.fresh]
  | some state =>
    rw [Option.getD_some, Option.map_some, Option.getD_some, IpRateLimitState.reset]
    split
    · rename_i past
      rw [(expired state found).resolve_left (by omega)]
      rfl
    · rfl

theorem windowStart_window (limiter : RateLimiter) (ip : String) (now : Nat) :
    now - (limiter.window ip now).windowStart ≤ windowDuration := by
  unfold window IpRateLimitState.retain IpRateLimitState.reset
  dsimp only
  split
  · rw [IpRateLimitState.fresh, Nat.sub_self]
    exact Nat.zero_le _
  · rename_i recent
    exact Nat.le_of_not_gt recent

theorem live_window (limiter : RateLimiter) (ip : String) (now : Nat) :
    live now (limiter.window ip now).timestamps = (limiter.window ip now).timestamps :=
  live_live (Nat.le_refl now) _

theorem window_subset (limiter : RateLimiter) (ip : String) (now : Nat) :
    (limiter.window ip now).timestamps ⊆ limiter.timestamps ip := by
  unfold window timestamps IpRateLimitState.retain IpRateLimitState.reset
  refine fun ts member => ?_
  replace member := List.mem_of_mem_filter member
  cases found : limiter.ipWindows[ip]? with
  | none =>
    rw [found, Option.getD_none, IpRateLimitState.fresh] at member
    split at member <;> exact member
  | some state =>
    rw [found, Option.getD_some] at member
    split at member
    · exact absurd member List.not_mem_nil
    · exact member

/-- Right after a call the window of its address is not cleared. -/
theorem resetsExpired_allow (limiter : RateLimiter) (ip : String) (now : Nat) :
    (limiter.allow ip now).1.ResetsExpired ip now := by
  intro state found
  have recent := limiter.windowStart_window ip now
  unfold allow at found
  dsimp only at found
  split at found <;> rw [Std.TreeMap.getElem?_insert_self] at found <;> cases found <;> exact .inl recent

theorem window_allow (limiter : RateLimiter) (ip : String) (now : Nat) :
    ((limiter.allow ip now).1.window ip now).timestamps =
      (limiter.window ip now).timestamps ++ if (limiter.allow ip now).2 then [now] else [] := by
  rw [window_of_resetsExpired (limiter.resetsExpired_allow ip now), timestamps_allow, live_append, live_window]
  split
  · rw [live_self]
  · rfl

theorem window_of_lost {limiter : RateLimiter} {ip : String} {now : Nat}
    (lost : ¬ limiter.ResetsExpired ip now) :
    (limiter.window ip now).timestamps = [] ∧ live now (limiter.timestamps ip) ≠ [] := by
  unfold ResetsExpired at lost
  push Not at lost
  obtain ⟨state, found, past, young⟩ := lost
  unfold window timestamps
  rw [found, Option.getD_some, Option.map_some, Option.getD_some, IpRateLimitState.reset, if_pos past]
  exact ⟨rfl, young⟩

end RateLimiter

/-- A limiter with the time of its last call and the calls that were allowed. -/
structure RateLimited where
  limiter : RateLimiter
  clock : Nat
  allowed : List (String × Nat)

namespace RateLimited

def start (limit : Nat) : RateLimited := ⟨.new limit, 0, []⟩

def call (s : RateLimited) (c : String × Nat) : Option RateLimited :=
  if s.clock ≤ c.2 then
    let answer := s.limiter.allow c.1 c.2
    some ⟨answer.1, c.2, s.allowed ++ if answer.2 then [c] else []⟩
  else none

/-- The times at which an address was allowed. -/
def times (s : RateLimited) (ip : String) : List Nat :=
  (s.allowed.filter (·.1 = ip)).map Prod.snd

def ResetsExpired (s : RateLimited) (c : String × Nat) (_ : RateLimited) : Prop :=
  s.limiter.ResetsExpired c.1 c.2

instance (s t : RateLimited) (c : String × Nat) : Decidable (s.ResetsExpired c t) :=
  inferInstanceAs (Decidable (s.limiter.ResetsExpired c.1 c.2))

/-- The second that starts at a time, its end left out. -/
def inSecond (first ts : Nat) : Bool := first ≤ ts ∧ ts < first + windowDuration

def countFrom (s : RateLimited) (ip : String) (first : Nat) : Nat :=
  ((s.times ip).filter (inSecond first)).length

/-- Every call that still counts has its timestamp, and no second has more than
the limit. -/
structure Bounded (limit : Nat) (s : RateLimited) : Prop where
  limit_eq : s.limiter.limit = limit
  kept : ∀ ip, live s.clock (s.times ip) = live s.clock (s.limiter.timestamps ip)
  bound : ∀ ip first, s.countFrom ip first ≤ limit

theorem bounded_start (limit : Nat) : Bounded limit (start limit) where
  limit_eq := rfl
  kept _ := by simp [start, times, RateLimiter.new, RateLimiter.timestamps]
  bound _ _ := Nat.zero_le _

theorem call_eq_some {s t : RateLimited} {c : String × Nat} (called : s.call c = some t) :
    s.clock ≤ c.2 ∧ t = ⟨(s.limiter.allow c.1 c.2).1, c.2,
      s.allowed ++ if (s.limiter.allow c.1 c.2).2 then [c] else []⟩ := by
  unfold call at called
  split at called
  · rename_i later
    exact ⟨later, (Option.some.inj called).symm⟩
  · cases called

theorem times_call {s t : RateLimited} {c : String × Nat} (called : s.call c = some t) :
    t.times c.1 = s.times c.1 ++ if (s.limiter.allow c.1 c.2).2 then [c.2] else [] := by
  obtain ⟨-, rfl⟩ := call_eq_some called
  unfold times
  dsimp only
  split <;> simp

theorem times_call_ne {s t : RateLimited} {c : String × Nat} (called : s.call c = some t)
    {ip : String} (differ : ip ≠ c.1) : t.times ip = s.times ip := by
  obtain ⟨-, rfl⟩ := call_eq_some called
  unfold times
  dsimp only
  split <;> simp [differ.symm]

theorem countFrom_of_times {s t : RateLimited} {ip : String} {more : List Nat}
    (times : t.times ip = s.times ip ++ more) (first : Nat) : t.countFrom ip first =
      s.countFrom ip first + (more.filter (inSecond first)).length := by
  rw [countFrom, countFrom, times, List.filter_append, List.length_append]

/-- What was allowed in a second still counts until the second ends. -/
theorem countFrom_le (s : RateLimited) (ip : String) {first now : Nat} (before : now < first + windowDuration) :
    s.countFrom ip first ≤ (live now (s.times ip)).length := by
  refine List.Sublist.length_le (List.monotone_filter_right _ fun ts inside => ?_)
  have bounds := of_decide_eq_true inside
  exact decide_eq_true (by omega)

theorem bounded_call {limit : Nat} {s t : RateLimited} {c : String × Nat} (bounded : Bounded limit s)
    (called : s.call c = some t) (expired : ResetsExpired s c t) : Bounded limit t := by
  obtain ⟨later, split⟩ := call_eq_some called
  have clock : t.clock = c.2 := by rw [split]
  have limiter : t.limiter = (s.limiter.allow c.1 c.2).1 := by rw [split]
  have carried (ip : String) : live c.2 (s.times ip) = live c.2 (s.limiter.timestamps ip) := by
    rw [← live_live later, bounded.kept, live_live later]
  have window : (s.limiter.window c.1 c.2).timestamps = live c.2 (s.times c.1) := by
    rw [RateLimiter.window_of_resetsExpired expired, carried]
  refine ⟨?_, fun ip => ?_, fun ip first => ?_⟩
  · rw [limiter, RateLimiter.limit_allow, bounded.limit_eq]
  · by_cases same : ip = c.1
    · subst same
      rw [clock, limiter, times_call called, RateLimiter.timestamps_allow, window, live_append,
        live_append, live_live (Nat.le_refl _)]
    · rw [clock, limiter, times_call_ne called same, RateLimiter.timestamps_allow_ne _ same, carried]
  · by_cases same : ip = c.1
    · subst same
      have before := bounded.bound c.1 first
      rw [countFrom_of_times (times_call called)]
      split
      · rename_i allowed
        rw [RateLimiter.allow_iff, window, bounded.limit_eq] at allowed
        by_cases inside : inSecond first c.2 = true
        · have counted := countFrom_le s c.1 (of_decide_eq_true inside).2
          rw [List.filter_cons_of_pos inside, List.filter_nil, List.length_singleton]
          omega
        · rw [List.filter_cons_of_neg inside]
          exact before
      · exact before
    · rw [countFrom, times_call_ne called same]
      exact bounded.bound ip first

/-- Timestamps are times of calls that were allowed, none of them to come. -/
structure Recorded (limit : Nat) (s : RateLimited) : Prop where
  limit_eq : s.limiter.limit = limit
  allowed : ∀ ip, s.limiter.timestamps ip ⊆ s.times ip
  past : ∀ ip, ∀ ts ∈ s.times ip, ts ≤ s.clock

theorem recorded_start (limit : Nat) : Recorded limit (start limit) where
  limit_eq := rfl
  allowed _ := by simp [start, RateLimiter.new, RateLimiter.timestamps]
  past _ := by simp [start, times]

theorem recorded_call {limit : Nat} {s t : RateLimited} {c : String × Nat} (recorded : Recorded limit s)
    (called : s.call c = some t) : Recorded limit t := by
  obtain ⟨later, split⟩ := call_eq_some called
  have clock : t.clock = c.2 := by rw [split]
  have limiter : t.limiter = (s.limiter.allow c.1 c.2).1 := by rw [split]
  refine ⟨?_, fun ip => ?_, fun ip ts member => ?_⟩
  · rw [limiter, RateLimiter.limit_allow, recorded.limit_eq]
  · by_cases same : ip = c.1
    · subst same
      rw [limiter, times_call called, RateLimiter.timestamps_allow]
      intro ts member
      rcases List.mem_append.mp member with old | new
      · exact List.mem_append_left _ (recorded.allowed c.1 (s.limiter.window_subset c.1 c.2 old))
      · exact List.mem_append_right _ new
    · rw [limiter, times_call_ne called same, RateLimiter.timestamps_allow_ne _ same]
      exact recorded.allowed ip
  · rw [clock]
    by_cases same : ip = c.1
    · subst same
      rw [times_call called, List.mem_append] at member
      rcases member with old | new
      · exact (recorded.past c.1 ts old).trans later
      · split at new
        · exact (List.mem_singleton.mp new).le
        · cases new
    · rw [times_call_ne called same] at member
      exact (recorded.past ip ts member).trans later

/-- While there is room in the window a call can be repeated at once. -/
theorem repeated {s : RateLimited} {c : String × Nat} (later : s.clock ≤ c.2) (n : Nat)
    (room : (s.limiter.window c.1 c.2).timestamps.length + n ≤ s.limiter.limit) :
    ∃ t, Run (ofPartial call) s (List.replicate n c) t ∧
      t.times c.1 = s.times c.1 ++ List.replicate n c.2 := by
  induction n generalizing s with
  | zero => exact ⟨s, rfl, (List.append_nil _).symm⟩
  | succ n ih =>
    have allowed : (s.limiter.allow c.1 c.2).2 = true := by
      rw [RateLimiter.allow_iff]
      omega
    obtain ⟨m, called⟩ : ∃ m, s.call c = some m := by
      unfold call
      rw [if_pos later]
      exact ⟨_, rfl⟩
    have times := times_call called
    obtain ⟨-, split⟩ := call_eq_some called
    have next : m.clock ≤ c.2 := by rw [split]
    have left : (m.limiter.window c.1 c.2).timestamps.length + n ≤ m.limiter.limit := by
      rw [split]
      dsimp only
      rw [RateLimiter.window_allow, RateLimiter.limit_allow, if_pos allowed, List.length_append,
        List.length_singleton]
      omega
    obtain ⟨t, ran, repeats⟩ := ih next left
    rw [if_pos allowed] at times
    refine ⟨t, ⟨m, called, ran⟩, ?_⟩
    rw [repeats, times, List.append_assoc]
    rfl

theorem bounded_repeated {limit n : Nat} {s t : RateLimited} {c : String × Nat} (bounded : Bounded limit s)
    (expired : s.limiter.ResetsExpired c.1 c.2) (ran : Run (ofPartial call) s (List.replicate n c) t) :
    Bounded limit t := by
  induction n generalizing s with
  | zero => exact (ran : s = t) ▸ bounded
  | succ n ih =>
    obtain ⟨m, called, later⟩ := ran
    have next : m.limiter.ResetsExpired c.1 c.2 := by
      obtain ⟨-, rfl⟩ := call_eq_some called
      exact s.limiter.resetsExpired_allow c.1 c.2
    exact ih (bounded_call bounded called expired) next later

/-- After a reset that loses a timestamp a burst goes over the limit. -/
theorem exceeded_of_lost {limit : Nat} {s : RateLimited} {c : String × Nat} (recorded : Recorded limit s)
    (later : s.clock ≤ c.2) (lost : ¬ s.limiter.ResetsExpired c.1 c.2) :
    ∃ t, Run (ofPartial call) s (List.replicate limit c) t ∧ ∃ first, limit < t.countFrom c.1 first := by
  obtain ⟨empty, young⟩ := RateLimiter.window_of_lost lost
  obtain ⟨ts, member⟩ := List.exists_mem_of_ne_nil _ young
  obtain ⟨kept, counts⟩ := List.mem_filter.mp member
  have allowed := recorded.allowed c.1 kept
  have before := recorded.past c.1 ts allowed
  have recent := of_decide_eq_true counts
  have room : (s.limiter.window c.1 c.2).timestamps.length + limit ≤ s.limiter.limit := by
    rw [empty, recorded.limit_eq, List.length_nil, Nat.zero_add]
  obtain ⟨t, ran, times⟩ := repeated later limit room
  refine ⟨t, ran, ts, ?_⟩
  have own : inSecond ts ts = true := decide_eq_true (by unfold windowDuration; omega)
  have burst : inSecond ts c.2 = true := decide_eq_true (by omega)
  have old : 0 < s.countFrom c.1 ts := List.length_pos_of_mem (List.mem_filter.mpr ⟨allowed, own⟩)
  rw [countFrom_of_times times, List.filter_replicate_of_pos burst, List.length_replicate]
  omega

/-- As long as no reset loses a timestamp that still counts no second has more
calls than the limit; one that does lets a burst of calls go over it. -/
theorem counts_bounded_iff {limit : Nat} {calls : List (String × Nat)} {s : RateLimited}
    (ran : Run (ofPartial call) (start limit) calls s)
    (meets : Along (ofPartial call) ResetsExpired (start limit) calls) :
    (∀ ip first, s.countFrom ip first ≤ limit) ∧
    ∀ c : String × Nat, s.clock ≤ c.2 → (s.limiter.ResetsExpired c.1 c.2 ↔
      ∀ t, Run (ofPartial call) s (List.replicate limit c) t → ∀ ip first, t.countFrom ip first ≤ limit) := by
  have bounded := run_invariant_along (Bounded limit) ResetsExpired
    (fun _ _ _ before called expired => bounded_call before called expired) (bounded_start limit) meets ran
  have recorded := run_invariant (Recorded limit)
    (fun _ _ _ before called => recorded_call before called) (recorded_start limit) ran
  refine ⟨bounded.bound, fun c later => ⟨fun expired t repeats => ?_, fun counts => ?_⟩⟩
  · exact (bounded_repeated bounded expired repeats).bound
  · by_contra lost
    obtain ⟨t, repeats, first, many⟩ := exceeded_of_lost recorded later lost
    have counted := counts t repeats c.1 first
    omega

/-- The second call clears a window whose one timestamp has expired, and is allowed. -/
theorem counts_bounded_after_reset :
    let calls := [("127.0.0.1", 0), ("127.0.0.1", 2000000000), ("127.0.0.1", 2500000000)]
    ∃ s, Run (ofPartial call) (start 1) calls s ∧ s.times "127.0.0.1" = [0, 2000000000] ∧
      ∀ ip first, s.countFrom ip first ≤ 1 := by
  intro calls
  have ends : (calls.foldlM call (start 1)).map (·.times "127.0.0.1") = some [0, 2000000000] := by
    decide +kernel
  obtain ⟨s, ran, times⟩ := Option.map_eq_some_iff.mp ends
  have ran := (run_ofPartial call _ _ _).mpr ran
  exact ⟨s, ran, times, (counts_bounded_iff ran (by decide +kernel)).1⟩

/-- The reset at the third call forgets the second one, half a second old. -/
theorem second_exceeded : ∃ s, Run (ofPartial call) (start 1)
    [("127.0.0.1", 0), ("127.0.0.1", 1000000000), ("127.0.0.1", 1500000000)] s ∧
      s.countFrom "127.0.0.1" 1000000000 = 2 := by
  refine ⟨_, (run_ofPartial call _ _ _).mpr rfl, ?_⟩
  decide +kernel

end RateLimited

end Hyperplane

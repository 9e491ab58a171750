import Hyperplane.Rpc.Server

/-! Runs of the RPC server over any requests of any peers. The rate limit keeps the peers
apart, and lets no peer have more than twice the limit answered in a second. -/
namespace Hyperplane
open Transition Maps RateLimited

/-- A request, when it came, and what came back. -/
structure Exchange where
  now : Nat
  request : HttpRequest
  response : Option HttpResponse

/-- The peer whose limit the request counts for. -/
def Exchange.client (e : Exchange) : Option String :=
  if e.request.method = .post then some e.request.ip else none

/-- The request was not refused for its rate. -/
def Exchange.passed (e : Exchange) : Bool := e.response.map (·.status) ≠ some 429

/-- What the rate limiter does at the window of one address. -/
def judge (limit : Nat) (window : Option IpRateLimitState) (now : Nat) : IpRateLimitState × Bool :=
  let state := ((window.getD (.fresh now)).reset now).retain now
  if state.timestamps.length ≥ limit then (state, false) else (state.push now, true)

theorem RateLimiter.allow_eq_judge (limiter : RateLimiter) (ip : String) (now : Nat) :
    limiter.allow ip now =
      (⟨limiter.limit, limiter.ipWindows.insert ip (judge limiter.limit limiter.ipWindows[ip]? now).1⟩,
        (judge limiter.limit limiter.ipWindows[ip]? now).2) := by
  unfold RateLimiter.allow judge RateLimiter.window
  dsimp only
  split <;> rfl

/-- The limit and the window of one address. -/
def RpcServerState.quota (s : RpcServerState) (ip : String) : Nat × Option IpRateLimitState :=
  (s.rateLimiter.limit, s.rateLimiter.ipWindows[ip]?)

namespace RpcLibraries

variable {N : Type} (lib : RpcLibraries N)

def exchange (s : RpcServerState) (e : Exchange) (t : RpcServerState) : Prop :=
  lib.handleRequest e.now s e.request = (t, e.response)

/-- A request that counts, seen from its address alone. -/
def counted (quota : Nat × Option IpRateLimitState) (e : Exchange) (after : Nat × Option IpRateLimitState) : Prop :=
  after = (quota.1, some (judge quota.1 quota.2 e.now).1) ∧
    e.response = if (judge quota.1 quota.2 e.now).2 then e.request.body.map lib.answer else some lib.refusal

variable {s t : RpcServerState} {e : Exchange}

theorem exchange_post {ip : String} (client : e.client = some ip) :
    lib.exchange s e t ↔ t = ⟨s.requestCount, s.rateLimiter.limit, s.rateLimiter.ipWindows.insert ip
        (judge s.rateLimiter.limit s.rateLimiter.ipWindows[ip]? e.now).1⟩ ∧
      e.response = if (judge s.rateLimiter.limit s.rateLimiter.ipWindows[ip]? e.now).2
        then e.request.body.map lib.answer else some lib.refusal := by
  unfold Exchange.client at client
  split at client
  · rename_i post
    cases client
    unfold exchange handleRequest
    rw [post]
    dsimp only
    rw [RateLimiter.allow_eq_judge]
    dsimp only
    split <;> simp [Prod.ext_iff, eq_comm]
  · cases client

/-- A request that does not count is answered from itself, and changes nothing. -/
theorem exchange_other (client : e.client = none) (taken : lib.exchange s e t) :
    t = s ∧ ∀ u : RpcServerState, u.requestCount = s.requestCount →
      e.response = (lib.handleRequest e.now u e.request).2 := by
  unfold Exchange.client at client
  split at client
  · cases client
  · rename_i differs
    unfold exchange handleRequest at taken
    unfold handleRequest
    cases method : e.request.method with
    | post => exact absurd method differs
    | other name =>
      rw [method] at taken
      obtain ⟨rfl, response⟩ := Prod.mk.inj taken
      exact ⟨rfl, fun u _ => response.symm⟩
    | get =>
      rw [method] at taken
      dsimp only at taken ⊢
      by_cases health : e.request.path = "/health"
      · rw [if_pos health] at taken
        obtain ⟨rfl, response⟩ := Prod.mk.inj taken
        exact ⟨rfl, fun u _ => by rw [if_pos health, response]⟩
      · by_cases metrics : e.request.path = "/metrics"
        · rw [if_neg health, if_pos metrics] at taken
          obtain ⟨rfl, response⟩ := Prod.mk.inj taken
          refine ⟨rfl, fun u same => ?_⟩
          rw [if_neg health, if_pos metrics, ← response, handleMetrics, handleMetrics, same]
        · rw [if_neg health, if_neg metrics] at taken
          obtain ⟨rfl, response⟩ := Prod.mk.inj taken
          exact ⟨rfl, fun u _ => by rw [if_neg health, if_neg metrics, response]⟩

theorem shards : Shards lib.exchange Exchange.client RpcServerState.quota lib.counted where
  own s e t ip taken client := by
    obtain ⟨rfl, response⟩ := (lib.exchange_post client).mp taken
    exact ⟨by simp [RpcServerState.quota], response⟩
  other s e t ip taken differs := by
    cases client : e.client with
    | none => rw [(lib.exchange_other client taken).1]
    | some own =>
      have other : ip ≠ own := by
        rintro rfl
        exact differs client
      obtain ⟨rfl, _⟩ := (lib.exchange_post client).mp taken
      simp [RpcServerState.quota, getElem?_insert_ne _ other]

/-- What an address alone allows, the server does. -/
theorem exchange_counted (s : RpcServerState) (e : Exchange) (ip : String) (w : Nat × Option IpRateLimitState)
    (client : e.client = some ip) (taken : lib.counted (s.quota ip) e w) :
    ∃ t, lib.exchange s e t ∧ t.quota ip = w := by
  obtain ⟨after, response⟩ := taken
  refine ⟨_, (lib.exchange_post client).mpr ⟨rfl, response⟩, ?_⟩
  simp [after, RpcServerState.quota]

theorem requestCount_exchange (taken : lib.exchange s e t) : t.requestCount = s.requestCount := by
  cases client : e.client with
  | none => rw [(lib.exchange_other client taken).1]
  | some ip =>
    obtain ⟨rfl, _⟩ := (lib.exchange_post client).mp taken
    rfl

/-- The peers do not notice each other: what a peer is answered is what it would be answered
alone. Requests that do not count are answered as by a server that has done nothing; those
that count are refused or answered from their bodies, which are answered under their ids. -/
theorem clients_isolated {limit : Nat} {log : List Exchange}
    (ran : Run lib.exchange (.new limit) log s) :
    (∀ ip, ∃ u, Run lib.exchange (.new limit) (log.filter (·.client = some ip)) u) ∧
    (∀ e ∈ log, if e.client = none then e.response = (lib.handleRequest e.now (.new limit) e.request).2
      else e.response = some lib.refusal ∨ e.response = e.request.body.map lib.answer) ∧
    ∀ body request, lib.fromSlice body = .ok request →
      ∃ value, lib.answer body = jsonResponse (lib.toBytes value) 200 ∧ lib.Replies request value := by
  refine ⟨fun ip => ?_, ?_, fun body request => lib.answer_replies⟩
  · obtain ⟨u, alone, _⟩ := lib.shards.alone lib.exchange_counted ran ip
    exact ⟨u, alone⟩
  · have zero := run_invariant (fun s : RpcServerState => s.requestCount = 0)
      (fun _ _ _ h taken => (lib.requestCount_exchange taken).trans h) rfl ran
    refine ((run_iff (fun s : RpcServerState => s.requestCount = 0) _ (fun s e t taken => ?_) ran).mp zero).2
    rw [lib.requestCount_exchange taken]
    refine ⟨fun none => ⟨none, ?_⟩, And.left⟩
    cases client : e.client with
    | none =>
      rw [if_pos rfl]
      exact (lib.exchange_other client taken).2 _ none.symm
    | some ip =>
      rw [if_neg nofun]
      obtain ⟨_, response⟩ := (lib.exchange_post client).mp taken
      rw [response]
      split
      · exact .inr rfl
      · exact .inl rfl

end RpcLibraries

mutual

/-- The text of a value whose strings need no escapes. -/
def Json.render : Json Int → String
  | .null => "null"
  | .bool value => toString value
  | .number value => toString value
  | .string value => "\"" ++ value ++ "\""
  | .array items => "[" ++ Json.renderItems items ++ "]"
  | .object fields => "\x7b" ++ Json.renderFields fields ++ "\x7d"

def Json.renderItems : List (Json Int) → String
  | [] => ""
  | [item] => item.render
  | item :: rest => item.render ++ "," ++ Json.renderItems rest

def Json.renderFields : List (String × Json Int) → String
  | [] => ""
  | [(name, value)] => "\"" ++ name ++ "\":" ++ value.render
  | (name, value) :: rest => "\"" ++ name ++ "\":" ++ value.render ++ "," ++ Json.renderFields rest

end

/-- A request for the account of the system program. -/
def sampleRequest : RpcRequest Int :=
  ⟨"2.0", "getAccountInfo", .array [.string "11111111111111111111111111111111"], some (.number 1)⟩

def sampleBody : List UInt8 := RpcLibraries.utf8 (Json.render (.object [("jsonrpc", .string sampleRequest.jsonrpc),
  ("method", .string sampleRequest.method), ("params", sampleRequest.params), ("id", .number 1)]))

/-- The libraries on the sample and on an empty body. -/
def sampleLibraries : RpcLibraries Int where
  number n := n
  fromSlice body :=
    if body = sampleBody then .ok sampleRequest else .error "EOF while parsing a value at line 1 column 0"
  toVec value := some (RpcLibraries.utf8 value.render)
  fromStr text :=
    if text = "11111111111111111111111111111111" then .ok (Vector.replicate 32 0)
    else .error "String is the wrong size"

/-- The sample from a peer, answered or refused. -/
def sampleExchange (now : Nat) (ip : String) (allowed : Bool) : Exchange :=
  ⟨now, ⟨.post, "/", ip, some sampleBody⟩,
    if allowed then (some sampleBody).map sampleLibraries.answer else some sampleLibraries.refusal⟩

/-- A limit of one, with a window more. -/
def sampleState (windows : Std.TreeMap String IpRateLimitState) (ip : String) (window : IpRateLimitState) :
    RpcServerState := ⟨0, 1, windows.insert ip window⟩

theorem exchange_sample {windows : Std.TreeMap String IpRateLimitState} {ip : String} {now : Nat}
    {allowed : Bool} (window : IpRateLimitState) (admitted : judge 1 windows[ip]? now = (window, allowed)) :
    sampleLibraries.exchange ⟨0, 1, windows⟩ (sampleExchange now ip allowed) (sampleState windows ip window) := by
  have client : (sampleExchange now ip allowed).client = some ip := by
    simp [Exchange.client, sampleExchange]
  refine (sampleLibraries.exchange_post client).mpr ⟨?_, ?_⟩
  · simp only [sampleExchange, admitted, sampleState]
  · simp only [sampleExchange, admitted]

/-- One peer is refused at once, another is not, and the metrics know of neither. -/
theorem other_client_served :
    let metrics : HttpRequest := ⟨.get, "/metrics", "10.0.0.1", some []⟩
    let log := [sampleExchange 0 "127.0.0.1" true, sampleExchange 0 "127.0.0.1" false,
      ⟨6, metrics, (sampleLibraries.handleRequest 6 (.new 1) metrics).2⟩, sampleExchange 7 "10.0.0.1" true]
    (∃ s, Run sampleLibraries.exchange (.new 1) log s) ∧
      (∃ u, Run sampleLibraries.exchange (.new 1) (log.filter (·.client = some "10.0.0.1")) u) ∧
      ∃ value, sampleLibraries.answer sampleBody =
          RpcLibraries.jsonResponse (sampleLibraries.toBytes value) 200 ∧
        sampleLibraries.Replies sampleRequest value := by
  intro metrics log
  have ran : Run sampleLibraries.exchange (.new 1) log _ :=
    ⟨_, exchange_sample ⟨[0], 0⟩ rfl, _, exchange_sample ⟨[0], 0⟩ rfl, _, rfl,
      _, exchange_sample ⟨[7], 7⟩ rfl, rfl⟩
  obtain ⟨isolated, _, replies⟩ := sampleLibraries.clients_isolated ran
  exact ⟨⟨_, ran⟩, isolated "10.0.0.1", replies sampleBody sampleRequest rfl⟩

/-- How many of the times lie in the second that starts at one. -/
def within (times : List Nat) (first : Nat) : Nat := (times.filter (inSecond first)).length

theorem within_append (front back : List Nat) (first : Nat) :
    within (front ++ back) first = within front first + within back first := by
  rw [within, List.filter_append, List.length_append, within, within]

theorem within_eq_zero {times : List Nat} {first : Nat} (outside : ∀ ts ∈ times, inSecond first ts = false) :
    within times first = 0 := by
  rw [within, List.length_eq_zero_iff, List.filter_eq_nil_iff]
  intro ts member counts
  rw [outside ts member] at counts
  cases counts

/-- What counts in a second that is not over is still live. -/
theorem within_le_live (times : List Nat) {first now : Nat} (before : now < first + windowDuration) :
    within times first ≤ (live now times).length := by
  refine List.Sublist.length_le (List.monotone_filter_right _ fun ts inside => ?_)
  have bounds := of_decide_eq_true inside
  exact decide_eq_true (by omega)

/-- The times an address was let through, cut where its window was reset: those before the
last reset but one, those since then, and those since the last reset. -/
structure Segments (limit clock : Nat) (state : IpRateLimitState) (old mid new : List Nat) : Prop where
  kept : live clock new = live clock state.timestamps
  started : state.windowStart ≤ clock
  past : ∀ ts ∈ new, ts ≤ clock
  newer : ∀ ts ∈ new, state.windowStart ≤ ts
  middle : ∀ ts ∈ mid, ts ≤ state.windowStart
  older : ∀ ts ∈ old, ts + windowDuration < state.windowStart
  fewMid : ∀ first, within mid first ≤ limit
  fewNew : ∀ first, within new first ≤ limit
  fewBefore : ∀ first, within (old ++ mid) first ≤ 2 * limit

namespace Segments

variable {limit clock now : Nat} {state : IpRateLimitState} {old mid new : List Nat}

/-- A second that reaches the last segment does not reach the first. -/
theorem few (h : Segments limit clock state old mid new) (first : Nat) :
    within (old ++ mid ++ new) first ≤ 2 * limit := by
  rw [within_append]
  by_cases reaches : ∃ ts ∈ new, inSecond first ts = true
  · obtain ⟨ts, member, inside⟩ := reaches
    have bounds := of_decide_eq_true inside
    have since := h.newer ts member
    have none : within old first = 0 := by
      refine within_eq_zero fun ts before => decide_eq_false ?_
      have early := h.older ts before
      omega
    have middle := h.fewMid first
    have last := h.fewNew first
    rw [within_append, none]
    omega
  · have none : within new first = 0 := by
      refine within_eq_zero fun ts member => Bool.eq_false_iff.mpr fun inside => reaches ⟨ts, member, inside⟩
    rw [none]
    exact h.fewBefore first

theorem start : Segments limit now (.fresh now) [] [] [] where
  kept := rfl
  started := Nat.le_refl _
  past := nofun
  newer := nofun
  middle := nofun
  older := nofun
  fewMid _ := Nat.zero_le _
  fewNew _ := Nat.zero_le _
  fewBefore _ := Nat.zero_le _

theorem later (h : Segments limit clock state old mid new) (le : clock ≤ now) :
    Segments limit now state old mid new where
  kept := by rw [← live_live le, h.kept, live_live le]
  started := h.started.trans le
  past ts member := (h.past ts member).trans le
  newer := h.newer
  middle := h.middle
  older := h.older
  fewMid := h.fewMid
  fewNew := h.fewNew
  fewBefore := h.fewBefore

/-- A reset starts a segment: the middle and the last move down by one. -/
theorem reset (h : Segments limit clock state old mid new) (le : clock ≤ now)
    (expired : windowDuration < now - state.windowStart) :
    Segments limit now (.fresh now) (old ++ mid) new [] where
  kept := rfl
  started := Nat.le_refl _
  past := nofun
  newer := nofun
  middle ts member := (h.past ts member).trans le
  older ts member := by
    rcases List.mem_append.mp member with before | before
    · have early := h.older ts before
      have start : (IpRateLimitState.fresh now).windowStart = now := rfl
      omega
    · have early := h.middle ts before
      have start : (IpRateLimitState.fresh now).windowStart = now := rfl
      omega
  fewMid := h.fewNew
  fewNew _ := Nat.zero_le _
  fewBefore := h.few

theorem retain (h : Segments limit now state old mid new) : Segments limit now (state.retain now) old mid new where
  kept := h.kept.trans (live_live (Nat.le_refl now) _).symm
  started := h.started
  past := h.past
  newer := h.newer
  middle := h.middle
  older := h.older
  fewMid := h.fewMid
  fewNew := h.fewNew
  fewBefore := h.fewBefore

/-- There is room in every second that the new time falls into. -/
theorem push (h : Segments limit now (state.retain now) old mid new)
    (room : (state.retain now).timestamps.length < limit) :
    Segments limit now ((state.retain now).push now) old mid (new ++ [now]) where
  kept := by rw [live_append, h.kept, ← live_append]; rfl
  started := h.started
  past := by
    intro ts member
    rcases List.mem_append.mp member with before | last
    · exact h.past ts before
    · exact (List.mem_singleton.mp last).le
  newer := by
    intro ts member
    rcases List.mem_append.mp member with before | last
    · exact h.newer ts before
    · exact List.mem_singleton.mp last ▸ h.started
  middle := h.middle
  older := h.older
  fewMid := h.fewMid
  fewNew first := by
    rw [within_append]
    by_cases inside : inSecond first now = true
    · have counted := (of_decide_eq_true inside).2 |> within_le_live new
      have still : live now (state.retain now).timestamps = (state.retain now).timestamps :=
        live_live (Nat.le_refl now) _
      rw [h.kept, still] at counted
      have one : within [now] first = 1 := by rw [within, List.filter_cons_of_pos inside]; rfl
      omega
    · have none : within [now] first = 0 := by rw [within, List.filter_cons_of_neg inside]; rfl
      have few := h.fewNew first
      omega
  fewBefore := h.fewBefore

theorem judge (h : Segments limit clock state old mid new) (le : clock ≤ now) :
    ∃ old' mid' new', old' ++ mid' ++ new' = old ++ mid ++ new ++
        (if (judge limit (some state) now).2 then [now] else []) ∧
      Segments limit now (judge limit (some state) now).1 old' mid' new' := by
  obtain ⟨old', mid', new', same, cut⟩ : ∃ old' mid' new', old' ++ mid' ++ new' = old ++ mid ++ new ∧
      Segments limit now (state.reset now) old' mid' new' := by
    unfold IpRateLimitState.reset
    split
    · rename_i expired
      exact ⟨old ++ mid, new, [], List.append_nil _, h.reset le expired⟩
    · exact ⟨old, mid, new, rfl, h.later le⟩
  have retained := cut.retain
  unfold Hyperplane.judge
  rw [Option.getD_some]
  dsimp only
  split
  · exact ⟨old', mid', new', same.trans (List.append_nil _).symm, retained⟩
  · rename_i full
    refine ⟨old', mid', new' ++ [now], ?_, retained.push (Nat.lt_of_not_le full)⟩
    rw [← List.append_assoc, same]
    rfl

end Segments

/-- The window of an address and the times it was let through. -/
def Cut (limit clock : Nat) (window : Option IpRateLimitState) (times : List Nat) : Prop :=
  (window = none ∧ times = []) ∨ ∃ state old mid new, window = some state ∧ times = old ++ mid ++ new ∧
    Segments limit clock state old mid new

theorem Cut.few {limit clock : Nat} {window : Option IpRateLimitState} {times : List Nat}
    (cut : Cut limit clock window times) (first : Nat) : within times first ≤ 2 * limit := by
  obtain ⟨_, rfl⟩ | ⟨_, _, _, _, _, rfl, segments⟩ := cut
  · exact Nat.zero_le _
  · exact segments.few first

theorem Cut.judge {limit clock now : Nat} {window : Option IpRateLimitState} {times : List Nat}
    (cut : Cut limit clock window times) (le : clock ≤ now) :
    Cut limit now (some (Hyperplane.judge limit window now).1)
      (times ++ if (Hyperplane.judge limit window now).2 then [now] else []) := by
  obtain ⟨rfl, rfl⟩ | ⟨state, old, mid, new, rfl, rfl, segments⟩ := cut
  · have fresh : Segments limit now (.fresh now) [] [] [] := .start
    obtain ⟨old', mid', new', same, after⟩ := fresh.judge (Nat.le_refl now)
    exact .inr ⟨_, old', mid', new', rfl, same.symm, after⟩
  · obtain ⟨old', mid', new', same, after⟩ := segments.judge le
    exact .inr ⟨_, old', mid', new', rfl, same.symm, after⟩

namespace RpcLibraries

variable {N : Type} (lib : RpcLibraries N)

theorem status_answer (body : List UInt8) : (lib.answer body).status ≠ 429 := by
  unfold answer
  split
  · simp [jsonResponse]
  · split <;> simp [jsonResponse]

theorem passed_counted {v w : Nat × Option IpRateLimitState} {e : Exchange} (step : lib.counted v e w) :
    e.passed = (judge v.1 v.2 e.now).2 := by
  unfold Exchange.passed
  rw [step.2]
  cases (judge v.1 v.2 e.now).2 with
  | false => simp [refusal, jsonResponse]
  | true =>
    cases e.request.body with
    | none => simp
    | some body => simp [lib.status_answer body]

theorem cut_run {limit clock : Nat} {window : Option IpRateLimitState} {times : List Nat} {log : List Exchange}
    {w : Nat × Option IpRateLimitState} (cut : Cut limit clock window times)
    (ran : Run lib.counted (limit, window) log w) (ordered : log.Pairwise fun a b => a.now ≤ b.now)
    (later : ∀ e ∈ log, clock ≤ e.now) :
    ∃ clock' window', Cut limit clock' window' (times ++ (log.filter (·.passed)).map (·.now)) := by
  induction log generalizing clock window times with
  | nil => exact ⟨clock, window, by simpa using cut⟩
  | cons e rest ih =>
    obtain ⟨m, first, tail⟩ := ran
    have passed := lib.passed_counted first
    obtain ⟨after, ordered⟩ := List.pairwise_cons.mp ordered
    have next := cut.judge (later e List.mem_cons_self)
    rw [first.1] at tail
    obtain ⟨clock', window', done⟩ := ih next tail ordered after
    refine ⟨clock', window', ?_⟩
    rw [List.append_assoc] at done
    cases allowed : (judge limit window e.now).2 with
    | false =>
      rw [allowed] at done
      rwa [List.filter_cons_of_neg (by simp [passed, allowed])]
    | true =>
      rw [allowed] at done
      rwa [List.filter_cons_of_pos (by simp [passed, allowed])]

/-- A request from an address that is let through. -/
def asked (ip : String) (now : Nat) : Exchange := ⟨now, ⟨.post, "/", ip, some []⟩, some (lib.answer [])⟩

theorem passed_asked (ip : String) (now : Nat) : (lib.asked ip now).passed = true := by
  simp [Exchange.passed, asked, lib.status_answer]

theorem counted_asked {limit now : Nat} {window : Option IpRateLimitState} {after : IpRateLimitState}
    (ip : String) (admitted : judge limit window now = (after, true)) :
    lib.counted (limit, window) (lib.asked ip now) (limit, some after) := by
  refine ⟨?_, ?_⟩ <;> simp [asked, admitted]

/-- While a window is open, requests at one time are let through up to the limit. -/
theorem counted_replicate {limit now : Nat} {state : IpRateLimitState} (count n : Nat) (ip : String)
    (young : now - state.windowStart ≤ windowDuration)
    (filled : live now state.timestamps = List.replicate count now)
    (room : count + n ≤ limit) : ∃ after, after.windowStart = state.windowStart ∧
      Run lib.counted (limit, some state) (List.replicate n (lib.asked ip now)) (limit, some after) := by
  induction n generalizing count state with
  | zero => exact ⟨state, rfl, rfl⟩
  | succ n ih =>
    have admitted : judge limit (some state) now = ((state.retain now).push now, true) := by
      have few : (state.retain now).timestamps.length = count := by
        rw [IpRateLimitState.retain, filled, List.length_replicate]
      simp only [judge, Option.getD_some, IpRateLimitState.reset, if_neg (Nat.not_lt.mpr young), few]
      exact if_neg (by omega)
    have more : live now ((state.retain now).push now).timestamps = List.replicate (count + 1) now := by
      rw [IpRateLimitState.push, IpRateLimitState.retain, live_append, live_live (Nat.le_refl now), filled,
        live_self, List.replicate_succ']
    have still : now - ((state.retain now).push now).windowStart ≤ windowDuration := young
    obtain ⟨after, start, ran⟩ := ih (count + 1) still more (by omega)
    exact ⟨after, start, _, lib.counted_asked ip admitted, ran⟩

/-- One request opens a window. When it is one second old the limit is used up, and used
up again once the window is reset half a second later. -/
theorem limit_passed_twice (limit : Nat) (ip : String) : ∃ log s first,
    Run lib.exchange (.new (limit + 1)) log s ∧ (log.Pairwise fun a b => a.now ≤ b.now) ∧
      (log.filter fun e => e.client = some ip ∧ e.passed ∧ inSecond first e.now).length = 2 * (limit + 1) := by
  have opened : judge (limit + 1) none 0 = (⟨[0], 0⟩, true) := rfl
  obtain ⟨after, start, full⟩ := lib.counted_replicate 0 (limit + 1) ip
    (show 1000000000 - (⟨[0], 0⟩ : IpRateLimitState).windowStart ≤ windowDuration by decide) (by decide)
    (Nat.le_of_eq (Nat.zero_add (limit + 1)))
  have reset : judge (limit + 1) (some after) 1500000000 = (⟨[1500000000], 1500000000⟩, true) := by
    have expired : after.reset 1500000000 = .fresh 1500000000 := if_pos (by rw [start]; decide)
    rw [judge, Option.getD_some, expired]
    rfl
  obtain ⟨last, _, again⟩ := lib.counted_replicate 1 limit ip
    (show 1500000000 - (⟨[1500000000], 1500000000⟩ : IpRateLimitState).windowStart ≤ windowDuration by decide)
    (by decide) (Nat.le_of_eq (Nat.add_comm 1 limit))
  let log := lib.asked ip 0 :: (List.replicate (limit + 1) (lib.asked ip 1000000000) ++
    List.replicate (limit + 1) (lib.asked ip 1500000000))
  have counts : Run lib.counted (RpcServerState.quota (.new (limit + 1)) ip) log (limit + 1, some last) := by
    have empty : RpcServerState.quota (.new (limit + 1)) ip = (limit + 1, none) := by
      simp [RpcServerState.quota, RpcServerState.new, RateLimiter.new]
    rw [empty]
    exact ⟨_, lib.counted_asked ip opened, full.append ⟨_, lib.counted_asked ip reset, again⟩⟩
  have own : ∀ e ∈ log, e.client = some ip := by
    simp only [log, List.forall_mem_cons, List.forall_mem_append, List.mem_replicate]
    exact ⟨rfl, fun _ same => same.2 ▸ rfl, fun _ same => same.2 ▸ rfl⟩
  obtain ⟨s, ran, _⟩ := run_of_shard lib.exchange_counted own counts
  refine ⟨log, s, 1000000000, ran, ?_, ?_⟩
  · simp [log, List.pairwise_append, List.pairwise_replicate, asked]
  · have none : inSecond 1000000000 (lib.asked ip 0).now = false := rfl
    have opening : inSecond 1000000000 (lib.asked ip 1000000000).now = true := rfl
    have within : inSecond 1000000000 (lib.asked ip 1500000000).now = true := rfl
    have client (now : Nat) : (lib.asked ip now).client = some ip := rfl
    simp only [log, List.filter_cons, List.filter_append, List.filter_replicate, client, lib.passed_asked, none,
      opening, within]
    simp
    omega

/-- However the requests of the peers come, in no second is a peer let through more than
twice the limit: a reset forgets at most one window. A peer can be let through twice. -/
theorem passed_at_most_twice (limit : Nat) (ip : String) :
    (∀ log s, Run lib.exchange (.new limit) log s → (log.Pairwise fun a b => a.now ≤ b.now) → ∀ first,
      (log.filter fun e => e.client = some ip ∧ e.passed ∧ inSecond first e.now).length ≤ 2 * limit) ∧
    ∃ log s first, Run lib.exchange (.new limit) log s ∧ (log.Pairwise fun a b => a.now ≤ b.now) ∧
      (log.filter fun e => e.client = some ip ∧ e.passed ∧ inSecond first e.now).length = 2 * limit := by
  constructor
  · intro log s ran ordered first
    have own := lib.shards.run ran ip
    have empty : Cut limit 0 (RpcServerState.quota (.new limit) ip).2 [] := .inl ⟨by simp [RpcServerState.quota,
      RpcServerState.new, RateLimiter.new], rfl⟩
    obtain ⟨clock, window, cut⟩ :=
      lib.cut_run empty own (ordered.sublist List.filter_sublist) fun _ _ => Nat.zero_le _
    refine le_trans (Nat.le_of_eq ?_) (cut.few first)
    simp [within, labelsAt, List.filter_map, List.filter_filter, Function.comp_def, Bool.and_assoc, Bool.and_comm]
  · cases limit with
    | zero => exact ⟨[], .new 0, 0, rfl, .nil, rfl⟩
    | succ limit => exact lib.limit_passed_twice limit ip

/-- With a limit of one the window is reset between the last two. -/
theorem passed_twice :
    let log := [sampleExchange 0 "127.0.0.1" true, sampleExchange 1000000000 "127.0.0.1" true,
      sampleExchange 1500000000 "127.0.0.1" true]
    let counts := (log.filter fun e => e.client = some "127.0.0.1" ∧ e.passed ∧ inSecond 1000000000 e.now).length
    (∃ s, Run sampleLibraries.exchange (.new 1) log s) ∧ counts = 2 ∧ counts ≤ 2 * 1 := by
  intro log counts
  have ran : Run sampleLibraries.exchange (.new 1) log _ :=
    ⟨_, exchange_sample ⟨[0], 0⟩ rfl, _, exchange_sample ⟨[1000000000], 0⟩ rfl,
      _, exchange_sample ⟨[1500000000], 1500000000⟩ rfl, rfl⟩
  have ordered : log.Pairwise fun a b => a.now ≤ b.now := by decide
  exact ⟨⟨_, ran⟩, by decide +kernel,
    (sampleLibraries.passed_at_most_twice 1 "127.0.0.1").1 log _ ran ordered 1000000000⟩

end RpcLibraries

end Hyperplane

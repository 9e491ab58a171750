import Hyperplane.Lib.Glob
import Hyperplane.Lib.Transition
import Hyperplane.Cache.CacheKeys

/-! The second cache level: tasks of this process and others share one server. The
server is a parameter that does what is documented of its commands. -/
namespace Hyperplane
open Transition

inductive RedisCommand where
  | set (key : String) (value : List UInt8) (ttl : UInt64)
  | get (key : String)
  | del (keys : List String)
  | keys (pattern : String)

inductive RedisReply where
  | okay
  | value (value : Option (List UInt8))
  | count (n : Nat)
  | keys (keys : List String)
  | error

/-- What a time reads under a key once the command is carried out at another. -/
def RedisCommand.effect (now later : Nat) (key : String) (before : Option (List UInt8)) :
    RedisCommand → Option (List UInt8)
  | .set own value ttl => if own = key then (if later < now + ttl.toNat then some value else none) else before
  | .del names => if key ∈ names then none else before
  | .get _ | .keys _ => before

/-- A server with what it stores under a key at a time, if nothing is written until then. -/
structure RedisServer (S : Type) where
  stored : S → Nat → String → Option (List UInt8)
  executes : Nat → RedisCommand → S → RedisReply → S → Prop

/-- The documented behaviour. A command whose answer is lost may have been carried
out or not, for each key. -/
structure RedisServer.Documented {S : Type} (redis : RedisServer S) : Prop where
  expires : ∀ s now later key value, now ≤ later → redis.stored s later key = some value →
    redis.stored s now key = some value
  succeeds : ∀ now command s reply t, redis.executes now command s reply t → reply ≠ .error →
    ∀ later key, now ≤ later →
      redis.stored t later key = command.effect now later key (redis.stored s later key)
  fails : ∀ now command s t, redis.executes now command s .error t → ∀ key,
    (∀ later, now ≤ later → redis.stored t later key = redis.stored s later key) ∨
      ∀ later, now ≤ later →
        redis.stored t later key = command.effect now later key (redis.stored s later key)
  got : ∀ now key s value t, redis.executes now (.get key) s (.value value) t →
    value = redis.stored s now key
  listed : ∀ now pattern s keys t, redis.executes now (.keys pattern) s (.keys keys) t →
    (∀ c ∈ pattern.toList, c ∉ ['?', '[', ']', '\\']) → ∀ key,
      key ∈ keys ↔ (redis.stored s now key).isSome ∧ Glob.Matches pattern.toList key.toList

structure DragonflyCache where
  keyPrefix : String
  defaultTtlSecs : UInt64

inductive DragonflyCall where
  | set (method key : String) (value : List UInt8) (ttlSecs : Option UInt64)
  | get (method key : String)
  | delete (method key : String)
  | deletePattern (pattern : String)

inductive DragonflyResult where
  | unit
  | value (value : Option (List UInt8))
  | count (n : Nat)
  | error

/-- Where a task is in its call. -/
inductive DragonflyPhase where
  | idle
  | entered (call : DragonflyCall)
  | connected (call : DragonflyCall)
  | listed (keys : List String)
  | returned (result : DragonflyResult)

def DragonflyPhase.Resting : DragonflyPhase → Prop
  | .idle | .returned _ => True
  | _ => False

namespace DragonflyCache

variable (self : DragonflyCache) (display : Pubkey → String)

def makeKey (method key : String) : String := self.keyPrefix ++ ":" ++ method ++ ":" ++ key

def invalidatePubkey (pubkey : Pubkey) : DragonflyCall := .deletePattern (display pubkey)

/-- The first command of a call. -/
def command : DragonflyCall → RedisCommand
  | .set method key value ttlSecs => .set (self.makeKey method key) value (ttlSecs.getD self.defaultTtlSecs)
  | .get method key => .get (self.makeKey method key)
  | .delete method key => .del [self.makeKey method key]
  | .deletePattern pattern => .keys (self.keyPrefix ++ ":*:" ++ pattern ++ "*")

/-- Without a connection a call does nothing, and that is no error. -/
def unconnected : DragonflyCall → DragonflyResult
  | .set _ _ _ _ => .unit
  | .get _ _ => .value none
  | .delete _ _ => .count 0
  | .deletePattern _ => .count 0

/-- What follows the answer to the first command. -/
def answered : DragonflyCall → RedisReply → DragonflyPhase
  | .set _ _ _ _, .okay => .returned .unit
  | .get _ _, .value value => .returned (.value value)
  | .delete _ _, .count n => .returned (.count n)
  | .deletePattern _, .keys keys => if keys.isEmpty then .returned (.count 0) else .listed keys
  | _, _ => .returned .error

/-- What follows the answer to the second command of a deletion. -/
def deleted : RedisReply → DragonflyPhase
  | .count n => .returned (.count n)
  | _ => .returned .error

end DragonflyCache

/-- The cache, its connection if it has one, and the tasks that use it. -/
structure DragonflySystem (S : Type) where
  server : S
  clock : Nat
  connection : Bool
  tasks : List DragonflyPhase

inductive DragonflyAction where
  | call (i : Nat) (call : DragonflyCall)
  | getConnection (i : Nat) (opens : Bool)
  | command (i now : Nat) (reply : RedisReply)
  | close
  | other (now : Nat) (command : RedisCommand)

namespace DragonflySystem

variable {S : Type} (redis : RedisServer S) (cache : DragonflyCache)

/-- A command of another process, or of one of our tasks. -/
def step (s : DragonflySystem S) : DragonflyAction → DragonflySystem S → Prop
  | .call i call, t => ∃ p, s.tasks[i]? = some p ∧ p.Resting ∧
      t = { s with tasks := s.tasks.set i (.entered call) }
  | .getConnection i opens, t => ∃ call, s.tasks[i]? = some (.entered call) ∧
      t = if s.connection ∨ opens then
          { s with connection := true, tasks := s.tasks.set i (.connected call) }
        else { s with tasks := s.tasks.set i (.returned (DragonflyCache.unconnected call)) }
  | .command i now reply, t => s.clock ≤ now ∧ ∃ server,
      (∃ call, s.tasks[i]? = some (.connected call) ∧
        redis.executes now (cache.command call) s.server reply server ∧
          t = { s with server, clock := now, tasks := s.tasks.set i (DragonflyCache.answered call reply) }) ∨
      ∃ keys, s.tasks[i]? = some (.listed keys) ∧ redis.executes now (.del keys) s.server reply server ∧
        t = { s with server, clock := now, tasks := s.tasks.set i (DragonflyCache.deleted reply) }
  | .close, t => t = { s with connection := false }
  | .other now command, t => s.clock ≤ now ∧ ∃ reply server,
      redis.executes now command s.server reply server ∧ t = { s with server, clock := now }

end DragonflySystem

def makeAccountInfoKey (display : Pubkey → String) (pubkey : Pubkey) (encoding : AccountEncoding)
    (commitment : CommitmentLevel) : String :=
  "ai:" ++ display pubkey ++ ":" ++ toString encoding.code.toNat ++ ":" ++ toString commitment.code.toNat

/-- The keys of the answers about an account, or about the accounts of a program. -/
inductive AnswersFor (sha256 : List UInt8 → Vector UInt8 32) (display : Pubkey → String) (pubkey : Pubkey) :
    String → Prop where
  | accountInfo (encoding : AccountEncoding) (commitment : CommitmentLevel) :
      AnswersFor sha256 display pubkey (makeAccountInfoKey display pubkey encoding commitment)
  | programAccounts (request : ProgramAccountsRequest) : request.programId = pubkey →
      AnswersFor sha256 display pubkey (request.makeProgramAccountsKey sha256 display)

/-- No character of a text has a meaning in a pattern. -/
def Plain (text : String) : Prop := ∀ c ∈ text.toList, c ∉ ['*', '?', '[', ']', '\\']

namespace DragonflyCache

variable {cache : DragonflyCache} {sha256 : List UInt8 → Vector UInt8 32} {display : Pubkey → String}
  {pubkey : Pubkey}

/-- An answer about a pubkey is found by the pattern of that pubkey, whatever the method. -/
theorem matches_answer (plain : Plain cache.keyPrefix) (plain' : Plain (display pubkey)) {key : String}
    (answers : AnswersFor sha256 display pubkey key) (method : String) :
    Glob.Matches (cache.keyPrefix ++ ":*:" ++ display pubkey ++ "*").toList (cache.makeKey method key).toList := by
  have literal : '*' ∉ cache.keyPrefix.toList ++ [':'] := by
    intro among
    rcases List.mem_append.mp among with own | own
    · exact plain _ own (by decide)
    · exact absurd own (by decide)
  have literal' : '*' ∉ [':'] ++ (display pubkey).toList := by
    intro among
    rcases List.mem_append.mp among with own | own
    · exact absurd own (by decide)
    · exact plain' _ own (by decide)
  have pattern : (cache.keyPrefix ++ ":*:" ++ display pubkey ++ "*").toList =
      (cache.keyPrefix.toList ++ [':']) ++ '*' :: (([':'] ++ (display pubkey).toList) ++ ['*']) := by
    simp [String.toList_append]
  rw [pattern, Glob.matches_between literal literal']
  cases answers with
  | accountInfo encoding commitment =>
    refine ⟨method.toList ++ [':', 'a', 'i'], (":" ++ toString encoding.code.toNat ++ ":" ++
      toString commitment.code.toNat).toList, ?_⟩
    simp [makeKey, makeAccountInfoKey, String.toList_append]
  | programAccounts request same =>
    subst same
    refine ⟨method.toList ++ [':', 'p', 'a'], (":" ++ Hex.encode ((sha256 request.hashed).toList.take 8) ++
      ":" ++ toString request.encoding.code.toNat ++ ":" ++ toString request.commitment.code.toNat).toList, ?_⟩
    simp [makeKey, ProgramAccountsRequest.makeProgramAccountsKey, String.toList_append]

end DragonflyCache

namespace DragonflySystem

variable {S : Type} {redis : RedisServer S} {cache : DragonflyCache} {s t u : DragonflySystem S}

/-- Nothing is stored under the key, now or later, if nobody writes it. -/
def Gone (redis : RedisServer S) (key : String) (s : DragonflySystem S) : Prop :=
  ∀ later, s.clock ≤ later → redis.stored s.server later key = none

/-- The action carries out a write of the key. -/
def Writes (cache : DragonflyCache) (key : String) (s : DragonflySystem S) : DragonflyAction → Prop
  | .command i _ _ => ∃ method own value ttl, s.tasks[i]? = some (.connected (.set method own value ttl)) ∧
      cache.makeKey method own = key
  | .other _ command => ∃ value ttl, command = .set key value ttl
  | _ => False

/-- A step that is no write of the key. -/
def leaves (redis : RedisServer S) (cache : DragonflyCache) (key : String) (s : DragonflySystem S)
    (a : DragonflyAction) (t : DragonflySystem S) : Prop :=
  s.step redis cache a t ∧ ¬ s.Writes cache key a

/-- A command that does not write a missing key leaves it missing, even if its answer is lost. -/
theorem missing_executes (documented : redis.Documented) {key : String} {now : Nat} {command : RedisCommand}
    {server after : S} {reply : RedisReply} (executed : redis.executes now command server reply after)
    (other : ∀ value ttl, command ≠ .set key value ttl)
    (missing : ∀ later, now ≤ later → redis.stored server later key = none) :
    ∀ later, now ≤ later → redis.stored after later key = none := by
  have effect (later : Nat) : command.effect now later key none = none := by
    cases command with
    | set own value ttl =>
      refine if_neg ?_
      rintro rfl
      exact other value ttl rfl
    | del names => exact ite_self none
    | get own => rfl
    | keys pattern => rfl
  intro later after_now
  by_cases lost : reply = .error
  · subst lost
    rcases documented.fails _ _ _ _ executed key with kept | done
    · rw [kept later after_now, missing later after_now]
    · rw [done later after_now, missing later after_now, effect]
  · rw [documented.succeeds _ _ _ _ _ executed lost later key after_now, missing later after_now, effect]

theorem gone_step (documented : redis.Documented) {key : String} {a : DragonflyAction}
    (taken : leaves redis cache key s a t) (gone : Gone redis key s) : Gone redis key t := by
  obtain ⟨taken, unwritten⟩ := taken
  cases a with
  | call i call =>
    obtain ⟨_, _, _, rfl⟩ := taken
    exact gone
  | getConnection i opens =>
    obtain ⟨call, _, rfl⟩ := taken
    split <;> exact gone
  | close =>
    cases taken
    exact gone
  | command i now reply =>
    obtain ⟨ahead, server, ⟨call, there, executed, rfl⟩ | ⟨keys, there, executed, rfl⟩⟩ := taken
    · refine missing_executes documented executed ?_ fun later le => gone later (ahead.trans le)
      intro value ttl same
      cases call with
      | set method own value' ttl' =>
        cases same
        exact unwritten ⟨method, own, _, _, there, rfl⟩
      | _ => cases same
    · exact missing_executes documented executed (fun _ _ => nofun) fun later le => gone later (ahead.trans le)
  | other now command =>
    obtain ⟨ahead, reply, server, executed, rfl⟩ := taken
    refine missing_executes documented executed ?_ fun later le => gone later (ahead.trans le)
    rintro value ttl rfl
    exact unwritten ⟨value, ttl, rfl⟩

/-- How far the deletion of one task has come with a key. -/
inductive Invalidating (redis : RedisServer S) (pattern key : String) (i : Nat) (s : DragonflySystem S) :
    Prop where
  | asks : s.tasks[i]? = some (.connected (.deletePattern pattern)) → Invalidating redis pattern key i s
  | deletes (keys : List String) : s.tasks[i]? = some (.listed keys) → key ∈ keys ∨ Gone redis key s →
      Invalidating redis pattern key i s
  | done (n : Nat) : s.tasks[i]? = some (.returned (.count n)) → Gone redis key s →
      Invalidating redis pattern key i s
  | failed : s.tasks[i]? = some (.returned .error) → Invalidating redis pattern key i s

/-- Steps of others leave a task where it is. -/
theorem Invalidating.carry {pattern key : String} {i : Nat} (h : Invalidating redis pattern key i s)
    (same : t.tasks[i]? = s.tasks[i]?) (gone : Gone redis key s → Gone redis key t) :
    Invalidating redis pattern key i t := by
  cases h with
  | asks there => exact .asks (same.trans there)
  | deletes keys there missing => exact .deletes keys (same.trans there) (missing.imp_right gone)
  | done n there missing => exact .done n (same.trans there) (gone missing)
  | failed there => exact .failed (same.trans there)

/-- A key that is not listed is missing from then on. -/
theorem gone_of_unlisted (documented : redis.Documented) {pattern key : String} {now : Nat} {keys : List String}
    {server after : S} (executed : redis.executes now (.keys pattern) server (.keys keys) after)
    (simple : ∀ c ∈ pattern.toList, c ∉ ['?', '[', ']', '\\'])
    (found : Glob.Matches pattern.toList key.toList) (unlisted : key ∉ keys) :
    ∀ later, now ≤ later → redis.stored after later key = none := by
  have missing : redis.stored server now key = none := by
    by_contra stored
    have present : (redis.stored server now key).isSome := Option.isSome_iff_ne_none.mpr stored
    exact unlisted ((documented.listed _ _ _ _ _ executed simple key).mpr ⟨present, found⟩)
  have expired (later : Nat) (le : now ≤ later) : redis.stored server later key = none := by
    by_contra stored
    obtain ⟨value, still⟩ := Option.ne_none_iff_exists'.mp stored
    exact Option.some_ne_none value ((documented.expires _ _ _ _ _ le still).symm.trans missing)
  exact missing_executes documented executed (fun _ _ => nofun) expired

theorem invalidating_step (documented : redis.Documented) {pattern key : String} {i : Nat}
    (simple : ∀ c ∈ (cache.keyPrefix ++ ":*:" ++ pattern ++ "*").toList, c ∉ ['?', '[', ']', '\\'])
    (found : Glob.Matches (cache.keyPrefix ++ ":*:" ++ pattern ++ "*").toList key.toList)
    (h : Invalidating redis pattern key i s) {a : DragonflyAction} (taken : leaves redis cache key s a t)
    (own : ∀ call, a ≠ .call i call) : Invalidating redis pattern key i t := by
  have gone := gone_step documented taken
  obtain ⟨taken, unwritten⟩ := taken
  have unmoved {j : Nat} {p : DragonflyPhase} (other : j ≠ i) : (s.tasks.set j p)[i]? = s.tasks[i]? :=
    List.getElem?_set_ne other
  cases a with
  | call j call =>
    obtain ⟨_, _, _, rfl⟩ := taken
    exact h.carry (unmoved fun same => own call (same ▸ rfl)) gone
  | close =>
    cases taken
    exact h.carry rfl gone
  | other now command =>
    obtain ⟨_, _, _, _, rfl⟩ := taken
    exact h.carry rfl gone
  | getConnection j opens =>
    obtain ⟨call, there, rfl⟩ := taken
    by_cases same : j = i
    · subst same
      cases h with
      | asks here => cases there.symm.trans here
      | deletes keys here => cases there.symm.trans here
      | done n here => cases there.symm.trans here
      | failed here => cases there.symm.trans here
    · split
      · rename_i opened
        rw [if_pos opened] at gone
        exact h.carry (unmoved same) gone
      · rename_i closed
        rw [if_neg closed] at gone
        exact h.carry (unmoved same) gone
  | command j now reply =>
    obtain ⟨_, server, ⟨call, there, executed, rfl⟩ | ⟨names, there, executed, rfl⟩⟩ := taken
    · by_cases same : j = i
      · subst same
        have placed (p : DragonflyPhase) : (s.tasks.set j p)[j]? = some p :=
          List.getElem?_set_self (List.getElem?_eq_some_iff.mp there).1
        cases h with
        | asks here =>
          cases there.symm.trans here
          cases reply with
          | keys keys =>
            have unlisted := gone_of_unlisted documented executed simple found
            cases keys with
            | nil => exact .done 0 (placed _) (unlisted (by simp))
            | cons first rest =>
              refine .deletes (first :: rest) (placed _) ?_
              by_cases listed : key ∈ first :: rest
              · exact .inl listed
              · exact .inr (unlisted listed)
          | _ => exact .failed (placed _)
        | deletes keys here => cases there.symm.trans here
        | done n here => cases there.symm.trans here
        | failed here => cases there.symm.trans here
      · exact h.carry (unmoved same) gone
    · by_cases same : j = i
      · subst same
        have placed (p : DragonflyPhase) : (s.tasks.set j p)[j]? = some p :=
          List.getElem?_set_self (List.getElem?_eq_some_iff.mp there).1
        cases h with
        | deletes keys here missing =>
          cases there.symm.trans here
          cases reply with
          | count n =>
            refine .done n (placed _) ?_
            rcases missing with among | missing
            · intro later le
              rw [documented.succeeds _ _ _ _ _ executed nofun later key le]
              exact if_pos among
            · exact gone missing
          | _ => exact .failed (placed _)
        | asks here => cases there.symm.trans here
        | done n here => cases there.symm.trans here
        | failed here => cases there.symm.trans here
      · exact h.carry (unmoved same) gone

variable {sha256 : List UInt8 → Vector UInt8 32} {display : Pubkey → String}

/-- After an invalidation that was answered, no answer about the pubkey is found under any
method, whatever other tasks and processes do meanwhile and later, as long as none writes
it again; a write between the call's KEYS and its DEL would stay. A call that got no
connection reports no deletion in the same way. -/
theorem invalidated_stays_missing (documented : redis.Documented) {pubkey : Pubkey}
    (plain : Plain cache.keyPrefix) (plain' : Plain (display pubkey)) {key : String}
    (answers : AnswersFor sha256 display pubkey key) (method : String) {i : Nat}
    {actions later : List DragonflyAction}
    (began : s.tasks[i]? = some (.connected (DragonflyCache.invalidatePubkey display pubkey)))
    (ran : Run (leaves redis cache (cache.makeKey method key)) s actions t)
    (own : ∀ call, .call i call ∉ actions) {n : Nat} (ended : t.tasks[i]? = some (.returned (.count n)))
    (ranOn : Run (leaves redis cache (cache.makeKey method key)) t later u) :
    (∀ now, u.clock ≤ now → redis.stored u.server now (cache.makeKey method key) = none) ∧
      ∀ j now reply w, u.tasks[j]? = some (.connected (.get method key)) →
        u.step redis cache (.command j now reply) w →
          w.tasks[j]? = some (.returned (.value none)) ∨ w.tasks[j]? = some (.returned .error) := by
  have simple : ∀ c ∈ (cache.keyPrefix ++ ":*:" ++ display pubkey ++ "*").toList,
      c ∉ ['?', '[', ']', '\\'] := by
    intro c among special
    have meant : c ∈ ['*', '?', '[', ']', '\\'] := List.mem_cons_of_mem '*' special
    simp only [String.toList_append, List.mem_append] at among
    rcases among with ((among | among) | among) | among
    · exact plain c among meant
    · revert special
      simp at among
      rcases among with rfl | rfl | rfl <;> decide
    · exact plain' c among meant
    · revert special
      simp at among
      subst among
      decide
  have found := cache.matches_answer plain plain' answers method
  have initial : Invalidating redis (display pubkey) (cache.makeKey method key) i s := .asks began
  have others : ∀ a ∈ actions, ∀ call, a ≠ .call i call := by
    rintro a among call rfl
    exact own call among
  have invalidating := run_invariant_along
    (Invalidating redis (display pubkey) (cache.makeKey method key) i) _
    (fun _ _ _ h taken other => invalidating_step documented simple found h taken other) initial
    (along_labels (leaves redis cache (cache.makeKey method key)) others s) ran
  have gone : Gone redis (cache.makeKey method key) t := by
    cases invalidating with
    | asks there => cases ended.symm.trans there
    | deletes keys there => cases ended.symm.trans there
    | done n there missing => exact missing
    | failed there => cases ended.symm.trans there
  have missing : Gone redis (cache.makeKey method key) u :=
    run_invariant (Gone redis _) (fun _ _ _ h taken => gone_step documented taken h) gone ranOn
  refine ⟨missing, ?_⟩
  rintro j now reply w there ⟨ahead, server, ⟨call, here, executed, rfl⟩ | ⟨_, here, _⟩⟩
  · cases there.symm.trans here
    have placed (p : DragonflyPhase) : (u.tasks.set j p)[j]? = some p :=
      List.getElem?_set_self (List.getElem?_eq_some_iff.mp there).1
    cases reply with
    | value value =>
      have got := documented.got _ _ _ _ _ executed
      rw [missing now ahead] at got
      exact .inl (got ▸ placed _)
    | _ => exact .inr (placed _)
  · cases there.symm.trans here

/-- A server that keeps a value and a deadline under a key. -/
def tableServer : RedisServer (String → Option (List UInt8 × Nat)) where
  stored s later key := (s key).bind fun entry => if later < entry.2 then some entry.1 else none
  executes now command s reply t := (reply = .error ∧ t = s) ∨ match command, reply with
    | .set own value ttl, .okay => t = fun key => if own = key then some (value, now + ttl.toNat) else s key
    | .get own, .value value => t = s ∧
        value = (s own).bind fun entry => if now < entry.2 then some entry.1 else none
    | .del names, .count n => (t = fun key => if key ∈ names then none else s key) ∧ n ≤ names.length
    | .keys pattern, .keys keys => t = s ∧ ∀ key, key ∈ keys ↔
        ((s key).bind fun entry => if now < entry.2 then some entry.1 else none).isSome ∧
          Glob.Matches pattern.toList key.toList
    | _, _ => False

theorem tableServer_documented : tableServer.Documented where
  expires s now later key value le still := by
    cases entry : s key with
    | none => simp [tableServer, entry] at still
    | some entry' =>
      simp only [tableServer, entry, Option.bind_some] at still ⊢
      split at still
      · rw [if_pos (by omega)]
        exact still
      · cases still
  succeeds now command s reply t executed answered later key le := by
    rcases executed with ⟨lost, _⟩ | executed
    · exact absurd lost answered
    cases command with
    | set own value ttl =>
      cases reply with
      | okay =>
        subst executed
        simp only [tableServer, RedisCommand.effect]
        by_cases same : own = key
        · rw [if_pos same, if_pos same, Option.bind_some]
        · rw [if_neg same, if_neg same]
      | _ => exact executed.elim
    | get own =>
      cases reply with
      | value value => exact executed.1 ▸ rfl
      | _ => exact executed.elim
    | del names =>
      cases reply with
      | count n =>
        obtain ⟨rfl, _⟩ := executed
        simp only [tableServer, RedisCommand.effect]
        split <;> rfl
      | _ => exact executed.elim
    | keys pattern =>
      cases reply with
      | keys keys => exact executed.1 ▸ rfl
      | _ => exact executed.elim
  fails now command s t executed key := by
    rcases executed with ⟨_, rfl⟩ | executed
    · exact .inl fun _ _ => rfl
    · cases command <;> exact executed.elim
  got now key s value t executed := by
    rcases executed with ⟨lost, _⟩ | ⟨_, same⟩
    · cases lost
    · exact same
  listed now pattern s keys t executed _ key := by
    rcases executed with ⟨lost, _⟩ | ⟨_, same⟩
    · cases lost
    · exact same key

/-- Two tasks: one invalidates while the other asks, and the other asks again. -/
theorem answer_invalidated :
    let cache : DragonflyCache := ⟨"cache", 60⟩
    let display : Pubkey → String := fun _ => "So1"
    let pubkey : Pubkey := Vector.replicate 32 7
    let key := makeAccountInfoKey display pubkey .base64 .confirmed
    let stored := cache.makeKey "getAccountInfo" key
    let held : String → Option (List UInt8 × Nat) := fun own => if own = stored then some ([1, 2], 100) else none
    let s : DragonflySystem (String → Option (List UInt8 × Nat)) := ⟨held, 0, true,
      [.connected (DragonflyCache.invalidatePubkey display pubkey), .connected (.get "getAccountInfo" key)]⟩
    ∃ t u, Run (leaves tableServer cache stored) s [.command 1 5 (.value (some [1, 2])),
        .command 0 5 (.keys [stored]), .call 1 (.get "getAccountInfo" key), .command 0 6 (.count 1)] t ∧
      Run (leaves tableServer cache stored) t [.close, .getConnection 1 true] u ∧
      ∀ now, 6 ≤ now → tableServer.stored u.server now stored = none := by
  intro cache display pubkey key stored held s
  have plain : Plain cache.keyPrefix := by
    simp [Plain, cache]
  have plain' : Plain (display pubkey) := by
    simp [Plain, display]
  have answers : AnswersFor (fun _ => Vector.replicate 32 0) display pubkey key := .accountInfo _ _
  have found := cache.matches_answer plain plain' answers "getAccountInfo"
  let call : DragonflyCall := .get "getAccountInfo" key
  let after : String → Option (List UInt8 × Nat) := fun own => if own ∈ [stored] then none else held own
  let t : DragonflySystem (String → Option (List UInt8 × Nat)) :=
    ⟨after, 6, true, [.returned (.count 1), .entered call]⟩
  let u : DragonflySystem (String → Option (List UInt8 × Nat)) :=
    ⟨after, 6, true, [.returned (.count 1), .connected call]⟩
  have hit : tableServer.executes 5 (cache.command call) held (.value (some [1, 2])) held :=
    .inr ⟨rfl, by simp [held, stored]⟩
  have listed : tableServer.executes 5 (cache.command (.deletePattern (display pubkey))) held
      (.keys [stored]) held := by
    refine .inr ⟨rfl, fun own => ?_⟩
    by_cases same : own = stored
    · subst same
      exact ⟨fun _ => ⟨by simp [held], found⟩, fun _ => by simp⟩
    · simp [held, same]
  have removed : tableServer.executes 6 (.del [stored]) held (.count 1) after := .inr ⟨rfl, Nat.le_refl 1⟩
  have ran : Run (leaves tableServer cache stored) s [.command 1 5 (.value (some [1, 2])),
      .command 0 5 (.keys [stored]), .call 1 call, .command 0 6 (.count 1)] t := by
    refine ⟨_, ⟨⟨Nat.zero_le 5, held, .inl ⟨call, rfl, hit, rfl⟩⟩, ?_⟩,
      _, ⟨⟨Nat.le_refl 5, held, .inl ⟨.deletePattern (display pubkey), rfl, listed, rfl⟩⟩, ?_⟩,
      _, ⟨⟨_, rfl, trivial, rfl⟩, id⟩,
      _, ⟨⟨Nat.le_succ 5, after, .inr ⟨[stored], rfl, removed, rfl⟩⟩, ?_⟩, rfl⟩
    all_goals
      rintro ⟨_, _, _, _, there, _⟩
      cases there
  have ranOn : Run (leaves tableServer cache stored) t [.close, .getConnection 1 true] u := by
    refine ⟨_, ⟨rfl, id⟩, u, ⟨⟨call, rfl, rfl⟩, id⟩, rfl⟩
  have began : s.tasks[0]? = some (.connected (DragonflyCache.invalidatePubkey display pubkey)) := rfl
  exact ⟨t, u, ran, ranOn, (invalidated_stays_missing tableServer_documented plain plain' answers
    "getAccountInfo" began ran (by simp) rfl ranOn).1⟩

end DragonflySystem

end Hyperplane

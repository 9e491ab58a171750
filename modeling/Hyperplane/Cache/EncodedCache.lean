import Hyperplane.Cache.L1HotCache

/-! Encoded responses, one for each pubkey, encoding and commitment. -/
namespace Hyperplane

structure ResponseCacheConfig where
  maxEntries : Nat := 500000
  ttlMs : UInt64 := 60000

structure EncodedResponseCache where
  cache : L1HotCache

/-- A response of some version of an account, and when it is cached. -/
structure ResponseCall where
  now : Nat
  account : AccountView
  responseJson : List UInt8

namespace ResponseCall

/-- The version is not older than another one, by slot and then by write version. -/
def NotOlder (call other : ResponseCall) : Prop :=
  other.account.slot < call.account.slot ∨
    (other.account.slot = call.account.slot ∧ other.account.writeVersion ≤ call.account.writeVersion)

theorem NotOlder.refl (call : ResponseCall) : call.NotOlder call := .inr ⟨rfl, UInt64.le_refl _⟩

end ResponseCall

namespace EncodedResponseCache

def new (config : ResponseCacheConfig) : EncodedResponseCache where
  cache := .new {
    maxEntries := config.maxEntries
    processedTtlMs := config.ttlMs
    confirmedTtlMs := config.ttlMs * 5
    finalizedTtlMs := config.ttlMs * 60 }

def getAccountInfoKey (pubkey : Pubkey) (encoding : AccountEncoding) (commitment : CommitmentLevel) :
    CacheKey := ⟨pubkey, encoding, commitment⟩

/-- The version already cached under the key is not looked at. -/
def cacheAccountInfo (self : EncodedResponseCache) (now : Nat) (pubkey : Pubkey) (account : AccountView)
    (encoding : AccountEncoding) (commitment : CommitmentLevel) (responseJson : List UInt8) :
    EncodedResponseCache where
  cache := self.cache.insert now (getAccountInfoKey pubkey encoding commitment)
    (.new now responseJson encoding account.slot account.writeVersion)

def getAccountInfo (self : EncodedResponseCache) (pubkey : Pubkey) (encoding : AccountEncoding)
    (commitment : CommitmentLevel) : Option (List UInt8) × EncodedResponseCache :=
  let (entry, cache) := self.cache.get (getAccountInfoKey pubkey encoding commitment)
  (entry.map L1CacheEntry.data, ⟨cache⟩)

section newest

variable (config : ResponseCacheConfig) (pubkey : Pubkey) (encoding : AccountEncoding)
  (commitment : CommitmentLevel)

def cacheAll (calls : List ResponseCall) : EncodedResponseCache :=
  calls.foldl (fun cache call =>
    cache.cacheAccountInfo call.now pubkey call.account encoding commitment call.responseJson) (.new config)

/-- The response served was cached for one of the calls, at a version that is not
stale against any of them. -/
def ServesNewest (self : EncodedResponseCache) (calls : List ResponseCall) : Prop :=
  ∃ entry, (self.cache.get (getAccountInfoKey pubkey encoding commitment)).1 = some entry ∧
    (self.getAccountInfo pubkey encoding commitment).1 = some entry.data ∧
    (∃ call ∈ calls, entry.data = call.responseJson ∧ entry.cachedSlot = call.account.slot ∧
      entry.cachedWriteVersion = call.account.writeVersion) ∧
    ∀ other ∈ calls, entry.isStale other.account.slot other.account.writeVersion = false

theorem get_cacheAll (earlier : List ResponseCall) (call : ResponseCall) :
    ((cacheAll config pubkey encoding commitment (earlier ++ [call])).cache.get
        (getAccountInfoKey pubkey encoding commitment)).1 =
      some (L1CacheEntry.new call.now call.responseJson encoding call.account.slot
        call.account.writeVersion).touch := by
  rw [L1HotCache.get_fst, cacheAll, List.foldl_append]
  exact congrArg (·.map L1CacheEntry.touch)
    ((L1HotCache.getElem?_insert _ _ call.now _ _).trans (if_pos rfl))

theorem isStale_eq_false_iff (self : L1CacheEntry) (slot writeVersion : UInt64) :
    self.isStale slot writeVersion = false ↔ slot < self.cachedSlot ∨
      (slot = self.cachedSlot ∧ writeVersion ≤ self.cachedWriteVersion) := by
  unfold L1CacheEntry.isStale
  by_cases newer : self.cachedSlot < slot
  · have other : slot ≠ self.cachedSlot := fun same => UInt64.lt_irrefl _ (same ▸ newer)
    simp [newer, other, UInt64.le_of_lt newer]
  · rcases UInt64.lt_or_eq_of_le (UInt64.not_lt.mp newer) with older | same
    · have other : slot ≠ self.cachedSlot := fun same => UInt64.lt_irrefl _ (same ▸ older)
      simp [newer, older, other]
    · simp [same]

theorem servesNewest_iff (earlier : List ResponseCall) (call : ResponseCall) :
    ServesNewest pubkey encoding commitment
        (cacheAll config pubkey encoding commitment (earlier ++ [call])) (earlier ++ [call]) ↔
      ∀ other ∈ earlier, call.NotOlder other := by
  have got := get_cacheAll config pubkey encoding commitment earlier call
  constructor
  · rintro ⟨entry, found, _, _, newest⟩ other member
    rw [got] at found
    cases found
    exact (isStale_eq_false_iff _ _ _).mp (newest other (List.mem_append_left _ member))
  · intro newest
    refine ⟨_, got, ?_, ⟨call, by simp, rfl, rfl, rfl⟩, fun other member => ?_⟩
    · simp only [getAccountInfo, got, Option.map_some]
    · refine (isStale_eq_false_iff _ _ _).mpr ?_
      rcases List.mem_append.mp member with before | last
      · exact newest other before
      · rw [List.mem_singleton.mp last]
        exact ResponseCall.NotOlder.refl call

/-- The version served never goes back exactly when the versions arrive in order. -/
theorem versions_forward_iff (calls : List ResponseCall) :
    (∀ earlier call later, calls = earlier ++ call :: later →
        ServesNewest pubkey encoding commitment
          (cacheAll config pubkey encoding commitment (earlier ++ [call])) (earlier ++ [call])) ↔
      calls.Pairwise fun other call => call.NotOlder other := by
  simp only [servesNewest_iff]
  constructor
  · intro newest
    induction calls using List.reverseRecOn with
    | nil => exact .nil
    | append_singleton rest last ih =>
      refine List.pairwise_append.mpr ⟨ih ?_, List.pairwise_singleton _ _, ?_⟩
      · rintro earlier call later rfl
        exact newest earlier call (later ++ [last]) (by simp)
      · intro other member call among
        rw [List.mem_singleton.mp among]
        exact newest rest last [] rfl other member
  · rintro ordered earlier call later rfl other member
    exact (List.pairwise_append.mp ordered).2.2 other member call (by simp)

/-- A slow reader stores its older result last. -/
theorem older_version_served :
    let account (slot : UInt64) : AccountView := ⟨Vector.replicate 32 1, 0, [], Vector.replicate 32 0, false,
      slot, 1, 0, .base, ⟨0, 0, 0, 0, 0, slot, 1, .base⟩⟩
    let calls : List ResponseCall := [⟨0, account 101, [2]⟩, ⟨1, account 100, [1]⟩]
    ¬ ServesNewest (Vector.replicate 32 1) .base64 .processed
      (cacheAll {} (Vector.replicate 32 1) .base64 .processed calls) calls := by
  intro account calls newest
  have inOrder : ResponseCall.NotOlder ⟨1, account 100, [1]⟩ ⟨0, account 101, [2]⟩ :=
    (servesNewest_iff {} _ _ _ [⟨0, account 101, [2]⟩] ⟨1, account 100, [1]⟩).mp newest _
      (List.mem_singleton.mpr rfl)
  rcases inOrder with newer | ⟨same, _⟩
  · exact absurd newer (by decide)
  · exact absurd same (by decide)

end newest

end EncodedResponseCache

end Hyperplane

import Hyperplane.Lib.Bytes
import Hyperplane.Cache.L1HotCache

/-! The keys under which the two cache levels keep the answer to a program accounts
request. SHA-256 and the text of a pubkey are parameters. -/
namespace Hyperplane
open Bytes

def AccountEncoding.code : AccountEncoding → UInt8
  | .base58 => 0
  | .base64 => 1
  | .base64Zstd => 2
  | .binary => 3
  | .jsonParsed => 4

def CommitmentLevel.code : CommitmentLevel → UInt8
  | .processed => 0
  | .confirmed => 1
  | .finalized => 2

structure ProgramAccountsRequest where
  programId : Pubkey
  filtersHash : List UInt8
  encoding : AccountEncoding
  commitment : CommitmentLevel
  limit : UInt64
  cursor : Option String

namespace Hex

def byteChars (b : UInt8) : List Char := [Nat.digitChar (b.toNat / 16), Nat.digitChar (b.toNat % 16)]

def encode (bytes : List UInt8) : String := String.ofList (bytes.flatMap byteChars)

theorem byteChars_inj {a b : UInt8} (same : byteChars a = byteChars b) : a = b := by
  have high : Nat.digitChar (a.toNat / 16) = Nat.digitChar (b.toNat / 16) := List.head_eq_of_cons_eq same
  have low : Nat.digitChar (a.toNat % 16) = Nat.digitChar (b.toNat % 16) :=
    List.head_eq_of_cons_eq (List.tail_eq_of_cons_eq same)
  have boundA := a.toNat_lt
  have boundB := b.toNat_lt
  have quotient := digitChar_inj (by omega) (by omega) high
  have rest := digitChar_inj (by omega) (by omega) low
  apply UInt8.toNat_inj.mp
  omega

theorem length_flatMap_byteChars (bytes : List UInt8) : (bytes.flatMap byteChars).length = 2 * bytes.length := by
  induction bytes with
  | nil => rfl
  | cons b rest ih =>
    rw [List.flatMap_cons, List.length_append, ih, List.length_cons, byteChars]
    simp only [List.length_cons, List.length_nil]
    omega

theorem flatMap_byteChars_inj {as bs : List UInt8} (same : as.flatMap byteChars = bs.flatMap byteChars) :
    as = bs := by
  induction as generalizing bs with
  | nil =>
    cases bs with
    | nil => rfl
    | cons b rest => cases same
  | cons a as ih =>
    cases bs with
    | nil => cases same
    | cons b bs =>
      rw [List.flatMap_cons, List.flatMap_cons] at same
      obtain ⟨first, later⟩ := List.append_inj same rfl
      rw [byteChars_inj first, ih later]

end Hex

namespace ProgramAccountsRequest

variable (sha256 : List UInt8 → Vector UInt8 32) (display : Pubkey → String) (a b : ProgramAccountsRequest)

def cursorBytes : List UInt8 := (a.cursor.map (·.toUTF8.toList)).getD []

/-- What the second level hashes. -/
def hashed : List UInt8 :=
  a.programId.toList ++ (a.filtersHash ++ ([a.encoding.code] ++ ([a.commitment.code] ++ a.cursorBytes)))

/-- What the first level hashes. -/
def hashedWithLimit : List UInt8 :=
  a.programId.toList ++ (a.filtersHash ++ ([a.encoding.code] ++ ([a.commitment.code] ++
    (toLE 8 a.limit.toNat ++ a.cursorBytes))))

def makeProgramAccountsKey : String :=
  "pa:" ++ display a.programId ++ ":" ++ Hex.encode ((sha256 a.hashed).toList.take 8) ++ ":" ++
    toString a.encoding.code.toNat ++ ":" ++ toString a.commitment.code.toNat

def getProgramAccountsKey : CacheKey :=
  let hash := sha256 a.hashedWithLimit
  let pseudoPubkey := (Pubkey.tryFrom (hash.toList.take 32)).getD (Vector.replicate 32 0)
  ⟨pseudoPubkey, a.encoding, a.commitment⟩

/-- Neither the hash nor its first eight bytes collide on the two requests. -/
structure CollisionFree : Prop where
  whole : sha256 a.hashedWithLimit = sha256 b.hashedWithLimit → a.hashedWithLimit = b.hashedWithLimit
  front : (sha256 a.hashed).toList.take 8 = (sha256 b.hashed).toList.take 8 → a.hashed = b.hashed

structure AgreeButLimit : Prop where
  programId : a.programId = b.programId
  filtersHash : a.filtersHash = b.filtersHash
  encoding : a.encoding = b.encoding
  commitment : a.commitment = b.commitment
  cursorBytes : a.cursorBytes = b.cursorBytes

theorem getProgramAccountsKey_eq :
    a.getProgramAccountsKey sha256 = ⟨sha256 a.hashedWithLimit, a.encoding, a.commitment⟩ := by
  have whole : (sha256 a.hashedWithLimit).toList.take 32 = (sha256 a.hashedWithLimit).toList :=
    List.take_of_length_le (by simp)
  unfold getProgramAccountsKey
  dsimp only
  rw [whole, (Pubkey.tryFrom_eq_some _ _).mpr rfl]
  rfl

theorem codes_length (encoding : AccountEncoding) (commitment : CommitmentLevel) :
    (toString encoding.code.toNat).toList.length = 1 ∧ (toString commitment.code.toNat).toList.length = 1 := by
  cases encoding <;> cases commitment <;> decide

theorem encoding_of_text {x y : AccountEncoding}
    (same : (toString x.code.toNat).toList = (toString y.code.toNat).toList) : x = y := by
  revert same
  cases x <;> cases y <;> decide

theorem commitment_of_text {x y : CommitmentLevel}
    (same : (toString x.code.toNat).toList = (toString y.code.toNat).toList) : x = y := by
  revert same
  cases x <;> cases y <;> decide

/-- The last twenty characters of a key are the hash, the encoding and the commitment. -/
theorem makeProgramAccountsKey_inj
    (same : a.makeProgramAccountsKey sha256 display = b.makeProgramAccountsKey sha256 display) :
    (sha256 a.hashed).toList.take 8 = (sha256 b.hashed).toList.take 8 ∧ a.encoding = b.encoding ∧
      a.commitment = b.commitment := by
  have text := congrArg String.toList same
  simp only [makeProgramAccountsKey, String.toList_append] at text
  obtain ⟨encodingA, commitmentA⟩ := codes_length a.encoding a.commitment
  obtain ⟨encodingB, commitmentB⟩ := codes_length b.encoding b.commitment
  obtain ⟨text, commitment⟩ := List.append_inj' text (by rw [commitmentA, commitmentB])
  obtain ⟨text, -⟩ := List.append_inj' text rfl
  obtain ⟨text, encoding⟩ := List.append_inj' text (by rw [encodingA, encodingB])
  obtain ⟨text, -⟩ := List.append_inj' text rfl
  have width (hash : Vector UInt8 32) : (Hex.encode (hash.toList.take 8)).toList.length = 16 := by
    rw [Hex.encode, String.toList_ofList, Hex.length_flatMap_byteChars, List.length_take, Vector.length_toList]
    rfl
  obtain ⟨-, hash⟩ := List.append_inj' text (by rw [width, width])
  rw [Hex.encode, Hex.encode, String.toList_ofList, String.toList_ofList] at hash
  exact ⟨Hex.flatMap_byteChars_inj hash, encoding_of_text encoding, commitment_of_text commitment⟩

variable {a b}

theorem makeProgramAccountsKey_eq_iff (free : CollisionFree sha256 a b) :
    a.makeProgramAccountsKey sha256 display = b.makeProgramAccountsKey sha256 display ↔
      a.encoding = b.encoding ∧ a.commitment = b.commitment ∧ a.hashed = b.hashed := by
  constructor
  · intro same
    obtain ⟨front, encoding, commitment⟩ := makeProgramAccountsKey_inj sha256 display a b same
    exact ⟨encoding, commitment, free.front front⟩
  · rintro ⟨encoding, commitment, hashed⟩
    have programId : a.programId = b.programId :=
      Vector.toList_inj.mp (List.append_inj_left hashed (by simp))
    unfold makeProgramAccountsKey
    rw [programId, hashed, encoding, commitment]

theorem getProgramAccountsKey_eq_iff (free : CollisionFree sha256 a b) :
    a.getProgramAccountsKey sha256 = b.getProgramAccountsKey sha256 ↔
      a.encoding = b.encoding ∧ a.commitment = b.commitment ∧ a.hashedWithLimit = b.hashedWithLimit := by
  rw [getProgramAccountsKey_eq, getProgramAccountsKey_eq, CacheKey.mk.injEq]
  constructor
  · rintro ⟨hash, encoding, commitment⟩
    exact ⟨encoding, commitment, free.whole hash⟩
  · rintro ⟨encoding, commitment, hashed⟩
    exact ⟨congrArg sha256 hashed, encoding, commitment⟩

theorem hashed_eq_iff (width : a.filtersHash.length = b.filtersHash.length) :
    a.encoding = b.encoding ∧ a.commitment = b.commitment ∧ a.hashed = b.hashed ↔ AgreeButLimit a b := by
  constructor
  · rintro ⟨encoding, commitment, hashed⟩
    obtain ⟨programId, rest⟩ := List.append_inj hashed (by simp)
    obtain ⟨filtersHash, rest⟩ := List.append_inj rest width
    rw [encoding, commitment] at rest
    exact ⟨Vector.toList_inj.mp programId, filtersHash, encoding, commitment,
      List.append_cancel_left (List.append_cancel_left rest)⟩
  · rintro ⟨programId, filtersHash, encoding, commitment, cursorBytes⟩
    refine ⟨encoding, commitment, ?_⟩
    unfold hashed
    rw [programId, filtersHash, encoding, commitment, cursorBytes]

theorem hashedWithLimit_eq_iff (agree : AgreeButLimit a b) :
    a.hashedWithLimit = b.hashedWithLimit ↔ a.limit = b.limit := by
  unfold hashedWithLimit
  rw [agree.programId, agree.filtersHash, agree.encoding, agree.commitment, agree.cursorBytes]
  constructor
  · intro same
    have rest := List.append_cancel_left (List.append_cancel_left (List.append_cancel_left
      (List.append_cancel_left same)))
    have limit := List.append_inj_left rest (by simp)
    rw [← u64_round a.limit, limit, u64_round]
  · rintro same
    rw [same]

/-- The second level keeps no two requests together that the first keeps apart exactly
when this holds of the bytes they hash: for filter hashes of one length, exactly when
the requests do not differ in the limit alone. -/
theorem levels_agree_iff (free : CollisionFree sha256 a b) :
    ((a.makeProgramAccountsKey sha256 display = b.makeProgramAccountsKey sha256 display →
        a.getProgramAccountsKey sha256 = b.getProgramAccountsKey sha256) ↔
      (a.encoding = b.encoding → a.commitment = b.commitment → a.hashed = b.hashed →
        a.hashedWithLimit = b.hashedWithLimit)) ∧
    (a.filtersHash.length = b.filtersHash.length →
      ((a.makeProgramAccountsKey sha256 display = b.makeProgramAccountsKey sha256 display →
        a.getProgramAccountsKey sha256 = b.getProgramAccountsKey sha256) ↔
      (AgreeButLimit a b → a.limit = b.limit))) := by
  rw [makeProgramAccountsKey_eq_iff sha256 display free, getProgramAccountsKey_eq_iff sha256 free]
  refine ⟨?_, fun width => ?_⟩
  · constructor
    · intro carried encoding commitment hashed
      exact (carried ⟨encoding, commitment, hashed⟩).2.2
    · rintro carried ⟨encoding, commitment, hashed⟩
      exact ⟨encoding, commitment, carried encoding commitment hashed⟩
  · rw [hashed_eq_iff width]
    constructor
    · intro carried agree
      exact (hashedWithLimit_eq_iff agree).mp (carried agree).2.2
    · intro limit agree
      exact ⟨agree.encoding, agree.commitment, (hashedWithLimit_eq_iff agree).mpr (limit agree)⟩

theorem levels_agree_pair :
    let sha256 : List UInt8 → Vector UInt8 32 := fun bytes => Vector.ofFn fun i => bytes.reverse[i]?.getD 0
    let request cursor : ProgramAccountsRequest :=
      ⟨Vector.replicate 32 0, List.replicate 32 1, .base64, .processed, 10, cursor⟩
    (request none).makeProgramAccountsKey sha256 (fun _ => "11111111111111111111111111111111") =
        (request (some "a")).makeProgramAccountsKey sha256 (fun _ => "11111111111111111111111111111111") →
      (request none).getProgramAccountsKey sha256 = (request (some "a")).getProgramAccountsKey sha256 := by
  intro sha256 request
  have free : CollisionFree sha256 (request none) (request (some "a")) :=
    ⟨by decide +kernel, by decide +kernel⟩
  exact ((levels_agree_iff sha256 (fun _ => "11111111111111111111111111111111") free).2 rfl).mpr fun _ => rfl

/-- Two pages of ten and of twenty accounts have one key in the second level. -/
theorem limit_not_told_apart :
    let sha256 : List UInt8 → Vector UInt8 32 := fun bytes => Vector.ofFn fun i => bytes.reverse[i]?.getD 0
    let request limit : ProgramAccountsRequest :=
      ⟨Vector.replicate 32 0, List.replicate 32 1, .base64, .processed, limit, none⟩
    CollisionFree sha256 (request 10) (request 20) ∧
    (request 10).makeProgramAccountsKey sha256 (fun _ => "11111111111111111111111111111111") =
      (request 20).makeProgramAccountsKey sha256 (fun _ => "11111111111111111111111111111111") ∧
    (request 10).getProgramAccountsKey sha256 ≠ (request 20).getProgramAccountsKey sha256 := by
  intro sha256 request
  have free : CollisionFree sha256 (request 10) (request 20) := ⟨by decide +kernel, fun _ => rfl⟩
  refine ⟨free, rfl, fun same => ?_⟩
  rw [getProgramAccountsKey_eq_iff sha256 free] at same
  exact absurd same.2.2 (by decide +kernel)

end ProgramAccountsRequest

end Hyperplane

import Mathlib.Data.List.Flatten
import Hyperplane.Types.Account

/-! Checksums of account data. A batch is hashed as one stream, in which nothing marks
where the data of an account ends. BLAKE3 is a parameter. -/
namespace Hyperplane

abbrev Account := Pubkey × List UInt8

/-- What an account adds to the stream. -/
def Account.bytes (account : Account) : List UInt8 := account.1.toList ++ account.2

def batchBytes (accounts : List Account) : List UInt8 := accounts.flatMap Account.bytes

def computeBatchChecksum (blake3 : List UInt8 → Vector UInt8 32) (accounts : List Account) : Vector UInt8 32 :=
  blake3 (batchBytes accounts)

namespace Account

@[simp] theorem length_bytes (account : Account) : account.bytes.length = 32 + account.2.length := by
  simp [bytes]

theorem bytes_injective : Function.Injective bytes := by
  intro a b same
  obtain ⟨pubkey, data⟩ := List.append_inj same (by simp)
  exact Prod.ext (Vector.toList_inj.mp pubkey) data

end Account

theorem batchBytes_cons (account : Account) (rest : List Account) :
    batchBytes (account :: rest) = account.bytes ++ batchBytes rest := rfl

theorem batchBytes_single (account : Account) : batchBytes [account] = account.bytes := List.append_nil _

/-- Nothing but the empty batch adds nothing to the stream. -/
theorem batchBytes_eq_nil {accounts : List Account} (nothing : batchBytes accounts = []) : accounts = [] := by
  cases accounts with
  | nil => rfl
  | cons account rest =>
    have length := congrArg List.length nothing
    rw [batchBytes_cons, List.length_append, Account.length_bytes, List.length_nil] at length
    omega

/-- No batch but this one has its stream. -/
def ToldApart (accounts : List Account) : Prop := ∀ other, batchBytes accounts = batchBytes other → accounts = other

/-- At most one account, whose data has no room for a pubkey. -/
def Unsplittable : List Account → Prop
  | [] => True
  | [account] => account.2.length < 32
  | _ => False

theorem toldApart_single {account : Account} (short : account.2.length < 32) : ToldApart [account] := by
  intro other same
  have length := congrArg List.length same
  match other with
  | [] =>
    rw [batchBytes_single, Account.length_bytes, batchBytes, List.flatMap_nil, List.length_nil] at length
    omega
  | [only] =>
    rw [batchBytes_single, batchBytes_single] at same
    rw [Account.bytes_injective same]
  | first :: second :: rest =>
    rw [batchBytes_single, batchBytes_cons, batchBytes_cons] at length
    simp only [List.length_append, Account.length_bytes] at length
    omega

/-- The data from the pubkey in it on is an account of its own. -/
theorem exists_split {account : Account} (long : 32 ≤ account.2.length) :
    ∃ first second, batchBytes [account] = batchBytes [first, second] := by
  have width : (account.2.take 32).length = 32 := by
    rw [List.length_take]
    omega
  obtain ⟨pubkey, named⟩ := Pubkey.exists_toList width
  refine ⟨(account.1, []), (pubkey, account.2.drop 32), ?_⟩
  rw [batchBytes_single, batchBytes_cons, batchBytes_single]
  simp only [Account.bytes, List.append_nil, ← named, List.take_append_drop]

/-- All that follows the first pubkey may be the data of one account. -/
theorem exists_merged (first : Account) (rest : List Account) :
    ∃ merged, batchBytes (first :: rest) = batchBytes [merged] := by
  refine ⟨(first.1, first.2 ++ batchBytes rest), ?_⟩
  rw [batchBytes_cons, batchBytes_single, Account.bytes, Account.bytes, List.append_assoc]

theorem toldApart_iff (accounts : List Account) : ToldApart accounts ↔ Unsplittable accounts := by
  match accounts with
  | [] => exact iff_of_true (fun other same => (batchBytes_eq_nil same.symm).symm) trivial
  | [account] =>
    refine ⟨fun apart => ?_, toldApart_single⟩
    refine Nat.lt_of_not_ge fun long => ?_
    obtain ⟨first, second, same⟩ := exists_split long
    cases apart _ same
  | first :: second :: rest =>
    refine iff_of_false (fun apart => ?_) id
    obtain ⟨merged, same⟩ := exists_merged first (second :: rest)
    cases apart _ same

/-- A batch is told from every other by its stream exactly if it has at most one account,
with less than 32 bytes of data. Batches whose data have the same lengths in turn are
always told apart. -/
theorem batch_committed_iff (accounts : List Account) :
    ((∀ other, batchBytes accounts = batchBytes other → accounts = other) ↔ Unsplittable accounts) ∧
    ∀ other, accounts.map (·.2.length) = other.map (·.2.length) →
      batchBytes accounts = batchBytes other → accounts = other := by
  refine ⟨toldApart_iff accounts, fun other lengths same => ?_⟩
  have pieces : accounts.map Account.bytes = other.map Account.bytes := by
    rw [List.eq_iff_flatten_eq]
    refine ⟨by rwa [← List.flatMap_def, ← List.flatMap_def], ?_⟩
    have widths := congrArg (List.map (32 + ·)) lengths
    simpa only [List.map_map, Function.comp_def, Account.length_bytes] using widths
  exact List.map_injective_iff.mpr Account.bytes_injective pieces

/-- The data of the one account are the pubkey of the other's second. -/
theorem split_differently :
    let a : Pubkey := Vector.replicate 32 1
    let b : Pubkey := Vector.replicate 32 2
    ¬ (batchBytes [(a, b.toList)] = batchBytes [(a, []), (b, [])] → [(a, b.toList)] = [(a, []), (b, [])]) := by
  intro a b injective
  have same := injective (by decide +kernel)
  cases same

end Hyperplane

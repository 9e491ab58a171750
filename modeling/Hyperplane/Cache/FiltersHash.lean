import Hyperplane.Lib.Bytes
import Hyperplane.Types.Account

/-! The hash of the filters of a program accounts request, a part of its cache keys. Each
condition is fed under a tag; where the bytes of a memcmp condition end is not marked, and
their encoding is not fed at all. SHA-256 is a parameter. -/
namespace Hyperplane
open Bytes

/-- The memcmp filter of a request, with the bytes as text. -/
structure AccountFilter.MemcmpFilter where
  offset : UInt64
  bytes : String
  encoding : Option String
  deriving DecidableEq

structure AccountFilter where
  dataSize : Option UInt64 := none
  memcmp : Option AccountFilter.MemcmpFilter := none
  mint : Option Pubkey := none
  tokenOwner : Option Pubkey := none
  deriving DecidableEq

/-- One condition of a filter. -/
inductive Condition where
  | dataSize (size : UInt64)
  | memcmp (filter : AccountFilter.MemcmpFilter)
  | mint (key : Pubkey)
  | tokenOwner (key : Pubkey)

def textBytes (text : String) : List UInt8 := text.toUTF8.toList

namespace Condition

def tag : Condition → List UInt8
  | .dataSize _ => textBytes "data_size"
  | .memcmp _ => textBytes "memcmp"
  | .mint _ => textBytes "mint"
  | .tokenOwner _ => textBytes "token_owner"

def value : Condition → List UInt8
  | .dataSize size => toLE 8 size.toNat
  | .memcmp filter => toLE 8 filter.offset.toNat ++ textBytes filter.bytes
  | .mint key => key.toList
  | .tokenOwner key => key.toList

def bytes (c : Condition) : List UInt8 := c.tag ++ c.value

end Condition

namespace AccountFilter

/-- The conditions of a filter in the order in which they are fed. -/
def conditions (filter : AccountFilter) : List Condition :=
  (filter.dataSize.map .dataSize).toList ++ (filter.memcmp.map .memcmp).toList ++
    (filter.mint.map .mint).toList ++ (filter.tokenOwner.map .tokenOwner).toList

end AccountFilter

def conditionsOf (filters : List AccountFilter) : List Condition := filters.flatMap AccountFilter.conditions

def filtersBytes (filters : List AccountFilter) : List UInt8 := (conditionsOf filters).flatMap Condition.bytes

def computeFiltersHash (sha256 : List UInt8 → Vector UInt8 32) (filters : List AccountFilter) : List UInt8 :=
  (sha256 (filtersBytes filters)).toList

/-- The filters name the same sizes, the same memcmp conditions with their encodings, and
the same keys. -/
structure SameConditions (filters other : List AccountFilter) : Prop where
  dataSize : ∀ size, (∃ f ∈ filters, f.dataSize = some size) ↔ ∃ f ∈ other, f.dataSize = some size
  memcmp : ∀ memcmp, (∃ f ∈ filters, f.memcmp = some memcmp) ↔ ∃ f ∈ other, f.memcmp = some memcmp
  mint : ∀ mint, (∃ f ∈ filters, f.mint = some mint) ↔ ∃ f ∈ other, f.mint = some mint
  tokenOwner : ∀ owner, (∃ f ∈ filters, f.tokenOwner = some owner) ↔ ∃ f ∈ other, f.tokenOwner = some owner

namespace Condition

/-- The first two bytes of the tag. -/
def front : Condition → List UInt8
  | .dataSize _ => [100, 97]
  | .memcmp _ => [109, 101]
  | .mint _ => [109, 105]
  | .tokenOwner _ => [116, 111]

theorem take_bytes (c : Condition) (rest : List UInt8) : (c.bytes ++ rest).take 2 = c.front := by
  have size : textBytes "data_size" = [100, 97, 116, 97, 95, 115, 105, 122, 101] := by decide +kernel
  have memcmp : textBytes "memcmp" = [109, 101, 109, 99, 109, 112] := by decide +kernel
  have mint : textBytes "mint" = [109, 105, 110, 116] := by decide +kernel
  have owner : textBytes "token_owner" = [116, 111, 107, 101, 110, 95, 111, 119, 110, 101, 114] := by decide +kernel
  cases c <;> simp [bytes, tag, front, size, memcmp, mint, owner]

/-- Any condition but one of memcmp can be read off the front of a stream. -/
theorem eq_of_bytes {c d : Condition} (fixed : ∀ filter, c ≠ .memcmp filter) {rest other : List UInt8}
    (same : c.bytes ++ rest = d.bytes ++ other) : c = d ∧ rest = other := by
  have fronts : c.front = d.front := by rw [← c.take_bytes rest, same, d.take_bytes]
  have value (tags : c.tag = d.tag) (width : c.value.length = d.value.length) :
      c.value = d.value ∧ rest = other := by
    rw [bytes, bytes, tags, List.append_assoc, List.append_assoc, List.append_cancel_left_eq] at same
    exact List.append_inj same width
  cases c with
  | memcmp filter => exact absurd rfl (fixed filter)
  | dataSize size =>
    cases d with
    | dataSize again =>
      obtain ⟨bytes, rest⟩ := value rfl (by simp [Condition.value])
      have same : toLE 8 size.toNat = toLE 8 again.toNat := bytes
      have sizes : size = again := by rw [← u64_round size, same, u64_round]
      exact ⟨congrArg _ sizes, rest⟩
    | _ => exact absurd fronts (by simp [front])
  | mint key =>
    cases d with
    | mint again =>
      obtain ⟨bytes, rest⟩ := value rfl (by simp [Condition.value])
      exact ⟨congrArg _ (Vector.toList_inj.mp bytes), rest⟩
    | _ => exact absurd fronts (by simp [front])
  | tokenOwner key =>
    cases d with
    | tokenOwner again =>
      obtain ⟨bytes, rest⟩ := value rfl (by simp [Condition.value])
      exact ⟨congrArg _ (Vector.toList_inj.mp bytes), rest⟩
    | _ => exact absurd fronts (by simp [front])

theorem bytes_ne_nil (c : Condition) (rest : List UInt8) : c.bytes ++ rest ≠ [] := by
  intro nothing
  have none := c.take_bytes rest
  rw [nothing] at none
  cases c <;> cases none

/-- A stream without memcmp conditions can be read in one way only. -/
theorem flatMap_bytes_inj {conditions other : List Condition}
    (fixed : ∀ c ∈ conditions, ∀ filter, c ≠ .memcmp filter)
    (same : conditions.flatMap bytes = other.flatMap bytes) : conditions = other := by
  induction conditions generalizing other with
  | nil =>
    cases other with
    | nil => rfl
    | cons d rest => exact absurd same.symm (d.bytes_ne_nil _)
  | cons c rest ih =>
    cases other with
    | nil => exact absurd same (c.bytes_ne_nil _)
    | cons d later =>
      obtain ⟨rfl, tails⟩ := eq_of_bytes (fixed c List.mem_cons_self) same
      rw [ih (fun d member => fixed d (List.mem_cons_of_mem c member)) tails]

end Condition

section conditions

variable (filters : List AccountFilter)

theorem dataSize_mem_conditionsOf (size : UInt64) :
    .dataSize size ∈ conditionsOf filters ↔ ∃ f ∈ filters, f.dataSize = some size := by
  simp [conditionsOf, AccountFilter.conditions]

theorem memcmp_mem_conditionsOf (filter : AccountFilter.MemcmpFilter) :
    .memcmp filter ∈ conditionsOf filters ↔ ∃ f ∈ filters, f.memcmp = some filter := by
  simp [conditionsOf, AccountFilter.conditions]

theorem mint_mem_conditionsOf (key : Pubkey) :
    .mint key ∈ conditionsOf filters ↔ ∃ f ∈ filters, f.mint = some key := by
  simp [conditionsOf, AccountFilter.conditions]

theorem tokenOwner_mem_conditionsOf (key : Pubkey) :
    .tokenOwner key ∈ conditionsOf filters ↔ ∃ f ∈ filters, f.tokenOwner = some key := by
  simp [conditionsOf, AccountFilter.conditions]

theorem sameConditions_of_eq {filters other : List AccountFilter}
    (same : conditionsOf filters = conditionsOf other) : SameConditions filters other where
  dataSize size := by rw [← dataSize_mem_conditionsOf, same, dataSize_mem_conditionsOf]
  memcmp filter := by rw [← memcmp_mem_conditionsOf, same, memcmp_mem_conditionsOf]
  mint key := by rw [← mint_mem_conditionsOf, same, mint_mem_conditionsOf]
  tokenOwner key := by rw [← tokenOwner_mem_conditionsOf, same, tokenOwner_mem_conditionsOf]

end conditions

namespace AccountFilter

def withEncoding (encoding : Option String) (filter : AccountFilter) : AccountFilter :=
  { filter with memcmp := filter.memcmp.map fun memcmp => { memcmp with encoding } }

theorem bytes_withEncoding (encoding : Option String) (filter : AccountFilter) :
    (filter.withEncoding encoding).conditions.flatMap Condition.bytes =
      filter.conditions.flatMap Condition.bytes := by
  obtain ⟨size, memcmp, mint, owner⟩ := filter
  cases memcmp <;> simp [withEncoding, conditions, Condition.bytes, Condition.tag, Condition.value]

end AccountFilter

/-- The encoding of a memcmp condition is not fed. -/
theorem filtersBytes_withEncoding (encoding : Option String) (filters : List AccountFilter) :
    filtersBytes (filters.map (·.withEncoding encoding)) = filtersBytes filters := by
  simp only [filtersBytes, conditionsOf, List.flatMap_assoc, List.flatMap_map,
    AccountFilter.bytes_withEncoding]

theorem exists_fresh_encoding (encoding : Option String) : ∃ fresh : Option String, encoding ≠ fresh := by
  cases encoding with
  | none => exact ⟨some "", by decide⟩
  | some text => exact ⟨none, Option.some_ne_none text⟩

/-- The stream tells what the filters ask for exactly if none of them has a memcmp condition. -/
theorem filters_told_apart_iff (filters : List AccountFilter) :
    (∀ other, filtersBytes filters = filtersBytes other → SameConditions filters other) ↔
      ∀ filter ∈ filters, filter.memcmp = none := by
  constructor
  · intro apart filter member
    refine Option.eq_none_iff_forall_ne_some.mpr fun memcmp asked => ?_
    obtain ⟨encoding, fresh⟩ := exists_fresh_encoding memcmp.encoding
    have same := apart (filters.map (·.withEncoding encoding)) (filtersBytes_withEncoding encoding filters).symm
    obtain ⟨changed, among, found⟩ := (same.memcmp memcmp).mp ⟨filter, member, asked⟩
    obtain ⟨original, _, rfl⟩ := List.mem_map.mp among
    obtain ⟨_, _, rfl⟩ := Option.map_eq_some_iff.mp found
    exact fresh rfl
  · intro none other same
    refine sameConditions_of_eq (Condition.flatMap_bytes_inj ?_ same)
    rintro _ member filter rfl
    obtain ⟨f, among, asked⟩ := (memcmp_mem_conditionsOf filters filter).mp member
    rw [none f among] at asked
    cases asked

/-- The text of a memcmp condition contains the tag and the key of a mint. -/
theorem text_imitates_mint :
    let key := "AAAAAAAAAAAAAAAAAAAAAAAAAAAAAAAA"
    let long : AccountFilter := { memcmp := some ⟨0, "mint" ++ key, none⟩ }
    let short : AccountFilter := { memcmp := some ⟨0, "", none⟩, mint := some (Vector.replicate 32 65) }
    ¬ (filtersBytes [long] = filtersBytes [short] → SameConditions [long] [short]) := by
  intro key long short apart
  have same := apart (by decide +kernel)
  obtain ⟨f, member, asked⟩ := (same.mint (Vector.replicate 32 65)).mpr ⟨short, List.mem_singleton_self _, rfl⟩
  cases List.mem_singleton.mp member
  cases asked

end Hyperplane

import Hyperplane.Scan.AppendVec
import Hyperplane.Scan.BaseLocator
import Hyperplane.Scan.RecordReaders

/-! Single accounts read from an account file: by an offset, and by a pubkey.
Both are compared with the scan of the whole file. -/
namespace Hyperplane
open Bytes Outcome Maps

namespace AppendVecScanner

/-- The sum wraps. -/
def actualOffset (self : AppendVecScanner) (offset : UInt64) : UInt64 :=
  if self.hasHeader then offset + UInt64.ofNat self.headerSize else offset

def getAccountAtOffset (self : AppendVecScanner) (fileId offset : UInt64) (file : Slice) :
    Outcome ParseError ParsedAccount :=
  let actualOffset := self.actualOffset offset
  if UInt64.ofNat file.bytes.length < actualOffset + 8 then .error .metadataOverflow
  else do
    let sizeBytes ← slice file.bytes actualOffset.toNat (actualOffset + 8).toNat
    let storedSize := UInt64.ofNat (ofLE sizeBytes)
    let recordBytes ← slice file.bytes actualOffset.toNat (actualOffset + storedSize).toNat
    parseAccountRecord fileId actualOffset recordBytes

/-- The check of the first eight bytes fails, or the record is read from where
it is, or one of the two slices panics. -/
theorem getAccountAtOffset_eq (self : AppendVecScanner) (fileId offset : UInt64) (file : Slice) :
    self.getAccountAtOffset fileId offset file =
      if file.bytes.length < (self.actualOffset offset + 8).toNat then .error .metadataOverflow
      else if (self.actualOffset offset).toNat + 8 ≤ file.bytes.length ∧
          (self.actualOffset offset).toNat + sizeAt file.bytes (self.actualOffset offset).toNat ≤
            file.bytes.length then
        parseAccountRecord fileId (self.actualOffset offset)
          (recordAt file.bytes (self.actualOffset offset).toNat)
      else .fault := by
  have short := file.short
  have length : (UInt64.ofNat file.bytes.length).toNat = file.bytes.length := by
    rw [UInt64.toNat_ofNat', Nat.mod_eq_of_lt (by omega)]
  unfold getAccountAtOffset
  generalize self.actualOffset offset = start
  simp only [UInt64.lt_iff_toNat_lt, length]
  split
  · rfl
  · rw [slice_wrapping short start 8]
    by_cases sized : start.toNat + 8 ≤ file.bytes.length
    · have eight : start.toNat + (8 : UInt64).toNat ≤ file.bytes.length := sized
      have size : (UInt64.ofNat (ofLE ((file.bytes.drop start.toNat).take (8 : UInt64).toNat))).toNat =
          sizeAt file.bytes start.toNat := by
        apply toNat_u64
        exact List.length_take_of_le (by rw [List.length_drop]; omega)
      rw [if_pos eight]
      simp only [ok_bind, slice_wrapping short, size, sized, true_and]
      split
      · rfl
      · rfl
    · have eight : ¬ start.toNat + (8 : UInt64).toNat ≤ file.bytes.length := sized
      rw [if_neg eight, if_neg (fun valid => sized valid.1)]
      rfl

/-- It returns, and an account it returns was parsed from a record inside the
bytes. -/
structure ReadsInside (scanner : AppendVecScanner) (fileId offset : UInt64) (file : Slice) : Prop where
  returns : scanner.getAccountAtOffset fileId offset file ≠ .fault
  inside : ∀ account, scanner.getAccountAtOffset fileId offset file = .ok account →
    account.location.offset.toNat + sizeAt file.bytes account.location.offset.toNat ≤
        file.bytes.length ∧
      parseAccountRecord fileId account.location.offset
        (recordAt file.bytes account.location.offset.toNat) = .ok account

/-- The end of the size field is past the end of the file, or size field and
record lie inside it. -/
theorem readsInside_iff (self : AppendVecScanner) (fileId offset : UInt64) (file : Slice) :
    ReadsInside self fileId offset file ↔
      file.bytes.length < (self.actualOffset offset + 8).toNat ∨
        ((self.actualOffset offset).toNat + 8 ≤ file.bytes.length ∧
          (self.actualOffset offset).toNat + sizeAt file.bytes (self.actualOffset offset).toNat ≤
            file.bytes.length) := by
  have reads := self.getAccountAtOffset_eq fileId offset file
  constructor
  · intro sound
    by_contra outside
    obtain ⟨checked, beyond⟩ := not_or.mp outside
    rw [if_neg checked, if_neg beyond] at reads
    exact sound.returns reads
  · intro condition
    by_cases checked : file.bytes.length < (self.actualOffset offset + 8).toNat
    · rw [if_pos checked] at reads
      refine ⟨by simp [reads], fun account found => ?_⟩
      rw [reads] at found
      cases found
    · have inside := condition.resolve_left checked
      rw [if_neg checked, if_pos inside] at reads
      refine ⟨by rw [reads]; exact parse_ne_fault _ _ _, fun account found => ?_⟩
      rw [reads] at found
      have place := (parse_names found).1
      rw [place]
      exact ⟨inside.2, found⟩

/-- A size of nine in a file of eight bytes. -/
theorem long_record_panics :
    ¬ ReadsInside .new 0 0 ⟨9 :: List.replicate 7 0, by decide⟩ := by
  intro sound
  exact sound.returns (by decide)

end AppendVecScanner

/-- Going from record to record, the scan that is at the first offset gets to
the second. -/
inductive Reaches (bytes : List UInt8) : Nat → Nat → Prop
  | here (offset : Nat) : Reaches bytes offset offset
  | next {offset later : Nat} : HasRecord bytes offset → Reaches bytes (nextRecord bytes offset) later →
      Reaches bytes offset later

/-- A record that is reached and parses to the account. -/
def ScannedAt (fileId : UInt64) (bytes : List UInt8) (start : Nat) (account : ParsedAccount)
    (place : Nat) : Prop :=
  Reaches bytes start place ∧ HasRecord bytes place ∧
    parseAccountRecord fileId (UInt64.ofNat place) (recordAt bytes place) = .ok account

theorem scannedAt_end {fileId : UInt64} {bytes : List UInt8} {start place : Nat} {account : ParsedAccount}
    (none : ¬ HasRecord bytes start) : ¬ ScannedAt fileId bytes start account place := by
  rintro ⟨reached, has, _⟩
  cases reached with
  | here => exact none has
  | next first _ => exact none first

theorem scannedAt_record {fileId : UInt64} {bytes : List UInt8} {start : Nat} {account : ParsedAccount}
    (has : HasRecord bytes start) (place : Nat) : ScannedAt fileId bytes start account place ↔
      (place = start ∧
        parseAccountRecord fileId (UInt64.ofNat start) (recordAt bytes start) = .ok account) ∨
      ScannedAt fileId bytes (nextRecord bytes start) account place := by
  constructor
  · rintro ⟨reached, found, parsed⟩
    cases reached with
    | here => exact .inl ⟨rfl, parsed⟩
    | next _ later => exact .inr ⟨later, found, parsed⟩
  · rintro (⟨rfl, parsed⟩ | ⟨reached, found, parsed⟩)
    · exact ⟨.here place, has, parsed⟩
    · exact ⟨.next has reached, found, parsed⟩

/-- The loop finds exactly the records it reaches that parse. -/
theorem scanLoop_exact {fileId : UInt64} {bytes : List UInt8} (short : bytes.length < 2 ^ 63)
    {fuel offset : Nat} (enough : bytes.length - offset < fuel)
    (accounts : List (Except ParseError ParsedAccount)) :
    ∃ found : List ParsedAccount,
      scanLoop fileId bytes fuel offset accounts = .ok (accounts ++ found.map .ok) ∧
        ∀ account, account ∈ found ↔ ∃ place, ScannedAt fileId bytes offset account place := by
  induction fuel generalizing offset accounts with
  | zero => omega
  | succ fuel ih =>
    by_cases has : HasRecord bytes offset
    · have after := (nextRecord_after has).1
      have sized := has.sized
      have left : bytes.length - nextRecord bytes offset < fuel := by omega
      rw [scanLoop_record short has]
      cases parsed : parseAccountRecord fileId (UInt64.ofNat offset) (recordAt bytes offset) with
      | ok here =>
        obtain ⟨later, rest, exactly⟩ := ih left (accounts ++ [.ok here])
        refine ⟨here :: later, ?_, fun account => ?_⟩
        · simp only [pushParsed, ok_bind, rest, List.map_cons, List.append_assoc, List.singleton_append]
        · simp only [List.mem_cons, exactly, scannedAt_record has, parsed, Outcome.ok.injEq]
          constructor
          · rintro (rfl | ⟨place, found⟩)
            · exact ⟨offset, .inl ⟨rfl, rfl⟩⟩
            · exact ⟨place, .inr found⟩
          · rintro ⟨place, ⟨_, rfl⟩ | found⟩
            · exact .inl rfl
            · exact .inr ⟨place, found⟩
      | error e =>
        obtain ⟨later, rest, exactly⟩ := ih left accounts
        refine ⟨later, ?_, fun account => ?_⟩
        · simp only [pushParsed, ok_bind, rest]
        · simp only [exactly, scannedAt_record has, parsed, reduceCtorEq, and_false, false_or]
      | fault => exact absurd parsed (parse_ne_fault _ _ _)
    · refine ⟨[], ?_, fun account => ?_⟩
      · rw [scanLoop_end short has, List.map_nil, List.append_nil]
      · simp only [List.not_mem_nil, false_iff]
        rintro ⟨place, found⟩
        exact scannedAt_end has found

theorem ScannedAt.place {fileId : UInt64} {file : Slice} {start place : Nat} {account : ParsedAccount}
    (found : ScannedAt fileId file.bytes start account place) :
    account.location.offset = UInt64.ofNat place ∧ account.location.offset.toNat = place := by
  obtain ⟨_, has, parsed⟩ := found
  have inside := has.sized
  have short := file.short
  have offset := (parse_names parsed).1
  refine ⟨offset, ?_⟩
  rw [offset, UInt64.toNat_ofNat', Nat.mod_eq_of_lt (by omega)]

/-- Records with all their metadata are the ones that parse. -/
theorem exists_scannedAt {fileId : UInt64} {bytes : List UInt8} {start place : Nat} :
    (∃ account, ScannedAt fileId bytes start account place) ↔
      Reaches bytes start place ∧ HasRecord bytes place ∧ 97 ≤ sizeAt bytes place := by
  constructor
  · rintro ⟨account, reached, has, parsed⟩
    refine ⟨reached, has, ?_⟩
    rcases parse_recordAt fileId (UInt64.ofNat place) has.inside with ⟨_, e, refused⟩ | ⟨full, _⟩
    · rw [refused] at parsed
      cases parsed
    · exact full
  · rintro ⟨reached, has, full⟩
    rcases parse_recordAt fileId (UInt64.ofNat place) has.inside with ⟨short, _⟩ | ⟨_, account, parsed, _⟩
    · omega
    · exact ⟨account, reached, has, parsed⟩

namespace AppendVecScanner

theorem scanFile_exact (scanner : AppendVecScanner) (fileId : UInt64) (file : Slice) :
    ∃ accounts : List ParsedAccount, scanner.scanFile fileId file = .ok (accounts.map .ok) ∧
      ∀ account, account ∈ accounts ↔ ∃ place, ScannedAt fileId file.bytes scanner.start account place :=
  @scanLoop_exact fileId file.bytes file.short (file.bytes.length + 1) scanner.start (by omega) []

/-- Every account of the scan is what reading at its location gives. -/
def AgreesWithScan (scanner : AppendVecScanner) (fileId : UInt64) (file : Slice) : Prop :=
  ∀ results, scanner.scanFile fileId file = .ok results → ∀ account, Except.ok account ∈ results →
    scanner.getAccountAtOffset fileId account.location.offset file = .ok account

theorem agreesWithScan_of {scanner : AppendVecScanner} {fileId : UInt64} {file : Slice}
    (each : ∀ account place, ScannedAt fileId file.bytes scanner.start account place →
      scanner.getAccountAtOffset fileId account.location.offset file = .ok account) :
    AgreesWithScan scanner fileId file := by
  intro results scanned account member
  obtain ⟨accounts, listed, exactly⟩ := scanner.scanFile_exact fileId file
  cases scanned.symm.trans listed
  obtain ⟨found, among, same⟩ := List.mem_map.mp member
  cases same
  obtain ⟨place, at_⟩ := (exactly account).mp among
  exact each account place at_

theorem AgreesWithScan.apply {scanner : AppendVecScanner} {fileId : UInt64} {file : Slice}
    (agrees : AgreesWithScan scanner fileId file) {account : ParsedAccount} {place : Nat}
    (found : ScannedAt fileId file.bytes scanner.start account place) :
    scanner.getAccountAtOffset fileId account.location.offset file = .ok account := by
  obtain ⟨accounts, listed, exactly⟩ := scanner.scanFile_exact fileId file
  exact agrees _ listed account (List.mem_map_of_mem ((exactly account).mpr ⟨place, found⟩))

/-- Without a header the two offsets are one. -/
theorem headerless_reads {scanner : AppendVecScanner} {fileId : UInt64} {file : Slice} {start : Nat}
    (headerless : scanner.hasHeader = false) {account : ParsedAccount} {place : Nat}
    (found : ScannedAt fileId file.bytes start account place) :
    scanner.getAccountAtOffset fileId account.location.offset file = .ok account := by
  obtain ⟨offset, place_eq⟩ := found.place
  obtain ⟨_, has, parsed⟩ := found
  have sized := has.sized
  have short := file.short
  have actual : scanner.actualOffset account.location.offset = account.location.offset := by
    simp [actualOffset, headerless]
  have stop : (account.location.offset + 8).toNat = place + 8 := by
    have eight : (8 : UInt64).toNat = 8 := rfl
    rw [UInt64.toNat_add, place_eq, eight, Nat.mod_eq_of_lt (by omega)]
  rw [getAccountAtOffset_eq, actual, stop, place_eq, if_neg (by omega), if_pos ⟨sized, has.inside⟩, offset]
  exact parsed

/-- With a header the record is read from eight bytes further on, and its
location says so. -/
theorem header_shifts {scanner : AppendVecScanner} (header : scanner.hasHeader = true)
    (fileId : UInt64) (file : Slice) (account : ParsedAccount) :
    scanner.getAccountAtOffset fileId account.location.offset file ≠ .ok account := by
  intro same
  have size := scanner.sized
  have actual : scanner.actualOffset account.location.offset = account.location.offset + 8 := by
    rw [header] at size
    simp [actualOffset, header, size, APPENDVEC_HEADER_SIZE]
  rw [getAccountAtOffset_eq, actual] at same
  split at same
  · cases same
  · split at same
    · have place := (parse_names same).1
      have moved := congrArg UInt64.toNat place
      have eight : (8 : UInt64).toNat = 8 := rfl
      rw [UInt64.toNat_add, eight] at moved
      have low := account.location.offset.toNat_lt
      omega
    · cases same

/-- The two agree on a file exactly when there is no header or nothing to find. -/
theorem agreesWithScan_iff (scanner : AppendVecScanner) (fileId : UInt64) (file : Slice) :
    AgreesWithScan scanner fileId file ↔ scanner.hasHeader = false ∨
      ∀ place, Reaches file.bytes scanner.start place → HasRecord file.bytes place →
        sizeAt file.bytes place < 97 := by
  constructor
  · intro agrees
    cases header : scanner.hasHeader with
    | false => exact .inl rfl
    | true =>
      refine .inr fun place reached has => ?_
      by_contra full
      obtain ⟨account, found⟩ := (@exists_scannedAt fileId file.bytes scanner.start place).mpr
        ⟨reached, has, Nat.le_of_not_lt full⟩
      exact header_shifts header fileId file account (agrees.apply found)
  · intro condition
    apply agreesWithScan_of
    intro account place found
    rcases condition with headerless | nothing
    · exact headerless_reads headerless found
    · obtain ⟨reached, has, full⟩ := exists_scannedAt.mp ⟨account, found⟩
      have small := nothing place reached has
      omega

theorem one_account_behind_header :
    let file : Slice := ⟨List.replicate 8 0 ++ 97 :: List.replicate 96 0, by decide⟩
    ¬ AgreesWithScan (withHeader .new) 7 file := by
  intro file agrees
  have has : HasRecord file.bytes 8 := ⟨by decide, by decide, by decide⟩
  obtain ⟨account, found⟩ := (@exists_scannedAt 7 file.bytes 8 8).mpr ⟨.here 8, has, by decide⟩
  exact header_shifts rfl 7 file account (agrees.apply found)

end AppendVecScanner

/-- The first account with the pubkey. -/
def locateIn (targetPubkey : Pubkey) :
    List (Except ParseError ParsedAccount) → Option AccountLocation
  | [] => none
  | .ok account :: rest =>
    if account.pubkey = targetPubkey then some account.location else locateIn targetPubkey rest
  | .error _ :: rest => locateIn targetPubkey rest

def locateAccount (fileId : UInt64) (file : Slice) (targetPubkey : Pubkey) :
    Outcome Empty (Option AccountLocation) := do
  let accounts ← AppendVecScanner.new.scanFile fileId file
  return locateIn targetPubkey accounts

/-- The lookup in the base locator of the whole file. -/
def lookupScanned (fileId : UInt64) (file : Slice) (targetPubkey : Pubkey) :
    Outcome Empty (Option AccountLocation) := do
  let results ← AppendVecScanner.new.scanFile fileId file
  return (buildBaseLocator (results.filterMap Except.toOption))[targetPubkey]?

theorem locateIn_parsed (targetPubkey : Pubkey) (accounts : List ParsedAccount) :
    locateIn targetPubkey (accounts.map .ok) =
      (accounts.find? (·.pubkey = targetPubkey)).map (·.location) := by
  induction accounts with
  | nil => rfl
  | cons account rest ih =>
    rw [List.map_cons, locateIn, ih, List.find?_cons]
    by_cases same : account.pubkey = targetPubkey
    · simp [same]
    · simp [same]

theorem toOption_parsed (accounts : List ParsedAccount) :
    ((accounts.map Except.ok : List (Except ParseError ParsedAccount)).filterMap Except.toOption) =
      accounts := by
  rw [List.filterMap_map]
  exact List.filterMap_some

/-- A record of the file that parses and has the pubkey. -/
def HoldsAt (bytes : List UInt8) (pubkey : Pubkey) (place : Nat) : Prop :=
  Reaches bytes 0 place ∧ HasRecord bytes place ∧ 97 ≤ sizeAt bytes place ∧
    getAccountPubkey (recordAt bytes place) = .ok pubkey

theorem holdsAt_iff {fileId : UInt64} {file : Slice} {pubkey : Pubkey} {place : Nat} :
    HoldsAt file.bytes pubkey place ↔
      ∃ account, ScannedAt fileId file.bytes 0 account place ∧ account.pubkey = pubkey := by
  constructor
  · rintro ⟨reached, has, full, named⟩
    obtain ⟨account, found⟩ := (@exists_scannedAt fileId file.bytes 0 place).mpr ⟨reached, has, full⟩
    have own := (parse_names found.2.2).2
    rw [named, Outcome.ok.injEq] at own
    exact ⟨account, found, own.symm⟩
  · rintro ⟨account, found, rfl⟩
    obtain ⟨reached, has, full⟩ := exists_scannedAt.mp ⟨account, found⟩
    exact ⟨reached, has, full, (parse_names found.2.2).2⟩

/-- Where each account was found, and that the scan went forward. -/
theorem scanFile_increasing (scanner : AppendVecScanner) (fileId : UInt64) (file : Slice) :
    ∃ accounts : List ParsedAccount, scanner.scanFile fileId file = .ok (accounts.map .ok) ∧
      (∀ account, account ∈ accounts ↔
        ∃ place, ScannedAt fileId file.bytes scanner.start account place) ∧
      accounts.Pairwise fun a b => a.location.offset.toNat < b.location.offset.toNat := by
  obtain ⟨accounts, scanned, exactly⟩ := scanner.scanFile_exact fileId file
  obtain ⟨others, again, parsed, ordered⟩ := scanFile_parsed scanner fileId file
  rw [scanned, Outcome.ok.injEq] at again
  have same : accounts = others :=
    List.map_injective_iff.mpr (fun a b equal => Except.ok.inj equal) again
  subst same
  refine ⟨accounts, scanned, exactly, ordered.imp_of_mem ?_⟩
  intro a b first _ before
  have after := (nextRecord_after (parsed a first).has).1
  exact Nat.lt_of_lt_of_le after before

theorem find_least {accounts : List ParsedAccount} {pubkey : Pubkey} {first account : ParsedAccount}
    (increasing : accounts.Pairwise fun a b => a.location.offset.toNat < b.location.offset.toNat)
    (found : accounts.find? (·.pubkey = pubkey) = some first) (member : account ∈ accounts)
    (named : account.pubkey = pubkey) : first.location.offset.toNat ≤ account.location.offset.toNat := by
  obtain ⟨_, before, after, rfl, none⟩ := List.find?_eq_some_iff_append.mp found
  rcases List.mem_append.mp member with earlier | rest
  · have other := none account earlier
    simp [named] at other
  · rcases List.mem_cons.mp rest with rfl | later
    · exact Nat.le_refl _
    · have tail := (List.pairwise_append.mp increasing).2.1
      exact Nat.le_of_lt ((List.pairwise_cons.mp tail).1 account later)

theorem last_greatest {accounts : List ParsedAccount} {last account : ParsedAccount}
    (increasing : accounts.Pairwise fun a b => a.location.offset.toNat < b.location.offset.toNat)
    (final : Last (·.pubkey) accounts last) (member : account ∈ accounts)
    (named : account.pubkey = last.pubkey) :
    account.location.offset.toNat ≤ last.location.offset.toNat := by
  obtain ⟨before, after, rfl, none⟩ := final
  rcases List.mem_append.mp member with earlier | rest
  · exact Nat.le_of_lt ((List.pairwise_append.mp increasing).2.2 account earlier last (by simp))
  · rcases List.mem_cons.mp rest with rfl | later
    · exact Nat.le_refl _
    · exact absurd named (none account later)

/-- The first and the last account of a pubkey are one exactly if it has only one. -/
theorem first_eq_last_iff {accounts : List ParsedAccount} (pubkey : Pubkey)
    (increasing : accounts.Pairwise fun a b => a.location.offset.toNat < b.location.offset.toNat) :
    (accounts.find? (·.pubkey = pubkey)).map (·.location) = (buildBaseLocator accounts)[pubkey]? ↔
      ∀ a ∈ accounts, ∀ b ∈ accounts, a.pubkey = pubkey → b.pubkey = pubkey → a = b := by
  by_cases present : ∃ account ∈ accounts, account.pubkey = pubkey
  · obtain ⟨last, final, named⟩ := exists_last present
    obtain ⟨first, found⟩ : ∃ first, accounts.find? (·.pubkey = pubkey) = some first := by
      obtain ⟨account, member, same⟩ := present
      exact Option.isSome_iff_exists.mp (List.find?_isSome.mpr ⟨account, member, by simp [same]⟩)
    have located := buildBaseLocator_last final
    rw [named] at located
    rw [found, located, Option.map_some, Option.some.injEq]
    have own : first.pubkey = pubkey := by simpa using List.find?_some found
    constructor
    · intro same a first_member b second_member first_named second_named
      have injective := List.inj_on_of_nodup_map
        (f := fun account : ParsedAccount => account.location.offset.toNat)
        (List.pairwise_map.mpr (increasing.imp fun below => Nat.ne_of_lt below))
      have here : ∀ account ∈ accounts, account.pubkey = pubkey →
          account.location.offset.toNat = last.location.offset.toNat := by
        intro account member given
        have least := find_least increasing found member given
        have greatest := last_greatest increasing final member (given.trans named.symm)
        rw [same] at least
        exact Nat.le_antisymm greatest least
      exact injective first_member second_member
        ((here a first_member first_named).trans (here b second_member second_named).symm)
    · intro unique
      rw [unique first (List.mem_of_find?_eq_some found) last final.mem own named]
  · have absent : ∀ account ∈ accounts, account.pubkey ≠ pubkey :=
      fun account member same => present ⟨account, member, same⟩
    have missing : accounts.find? (·.pubkey = pubkey) = none :=
      List.find?_eq_none.mpr fun account member => by simp [absent account member]
    have empty : (buildBaseLocator accounts)[pubkey]? = none :=
      (insertAll_absent absent (·.location) ∅).trans Std.TreeMap.getElem?_emptyc
    rw [missing, empty]
    simp only [Option.map_none, true_iff]
    intro a member b _ named _
    exact absurd named (absent a member)

/-- Both lookups answer alike exactly if the file holds the pubkey at most once. -/
theorem locateAccount_iff (fileId : UInt64) (file : Slice) (pubkey : Pubkey) :
    locateAccount fileId file pubkey = lookupScanned fileId file pubkey ↔
      ∀ place other, HoldsAt file.bytes pubkey place → HoldsAt file.bytes pubkey other →
        place = other := by
  obtain ⟨accounts, scanned, exactly, increasing⟩ := scanFile_increasing .new fileId file
  simp only [locateAccount, lookupScanned, scanned, ok_bind, pure_eq_ok, Outcome.ok.injEq,
    locateIn_parsed, toOption_parsed]
  rw [first_eq_last_iff pubkey increasing]
  constructor
  · intro unique place other first second
    obtain ⟨a, a_found, a_named⟩ := (@holdsAt_iff fileId file pubkey place).mp first
    obtain ⟨b, b_found, b_named⟩ := (@holdsAt_iff fileId file pubkey other).mp second
    have same := unique a ((exactly a).mpr ⟨place, a_found⟩) b ((exactly b).mpr ⟨other, b_found⟩)
      a_named b_named
    subst same
    rw [← a_found.place.2, ← b_found.place.2]
  · intro unique a first b second a_named b_named
    obtain ⟨place, a_found⟩ := (exactly a).mp first
    obtain ⟨other, b_found⟩ := (exactly b).mp second
    have same := unique place other (holdsAt_iff.mpr ⟨a, a_found, a_named⟩)
      (holdsAt_iff.mpr ⟨b, b_found, b_named⟩)
    subst same
    exact Outcome.ok.inj (a_found.2.2.symm.trans b_found.2.2)

/-- Two records of one pubkey. -/
theorem first_and_last_differ :
    let record : List UInt8 := 104 :: List.replicate 103 0
    let file : Slice := ⟨record ++ record, by decide +kernel⟩
    locateAccount 7 file (Vector.replicate 32 0) ≠ lookupScanned 7 file (Vector.replicate 32 0) := by
  decide +kernel

end Hyperplane

import Hyperplane.Base.RocksLocator
import Hyperplane.Base.DictRuns
import Hyperplane.Scan.MmapReader
import Hyperplane.Scan.RoundTrip

/-! The program that fills the base layer: it scans the account files, stores the
locations of the accounts in the locator and gives their pubkeys ids. A reader of
the base layer looks a pubkey up and reads its data in the mapping of the file. -/
namespace Hyperplane
open Maps

/-- The number of records, counted one by one. -/
def RocksLocator.count (self : RocksLocator) : UInt64 :=
  self.table.keys.foldl (fun count _ => count + 1) 0

/-- What a run of the program leaves behind, and the numbers it prints. -/
structure BaseScan where
  scanner : AccountFileScanner
  stats : ScanStats
  locator : RocksLocator
  count : UInt64
  dictionary : PersistentPubkeyDictionary
  dictionaryLen : Nat

/-- The data of an account is read back through its location. -/
theorem ParsedAt.reads {fileId : UInt64} {file : MmapAccountFile} {account : ParsedAccount}
    (h : ParsedAt fileId file.mmap.bytes account.location.offset.toNat account)
    (size : file.fileSize = file.mmap.bytes.length) (small : 97 + account.data.length < 2 ^ 32) :
    file.getAccountData account.location = .ok account.data := by
  have length : account.data.length = sizeAt file.mmap.bytes account.location.offset.toNat - 97 := by
    rw [h.data, List.length_drop, length_recordAt h.has.inside]
  have full := h.full
  obtain ⟨inside, start, ordered, stop, data, stored⟩ := h.located file.mmap.short (by omega)
  rw [UInt64.le_iff_toNat_le] at start ordered stop
  have bound := file.mmap.short
  have span : account.location.dataRange.2.toNat =
      account.location.dataRange.1.toNat + account.location.dataLen.toNat := by
    have width : account.location.dataLen.toNat < 2 ^ 32 := account.location.dataLen.toNat_lt
    have wrapping : account.location.dataRange.2.toNat =
        (account.location.dataRange.1.toNat + account.location.dataLen.toNat) % 2 ^ 64 := by
      rw [← UInt32.toNat_toUInt64, ← UInt64.toNat_add]
      rfl
    omega
  refine (MmapAccountFile.readRange_ok_iff size _ _ _).mpr ⟨?_, ?_⟩
  · change account.location.dataRange.1.toNat + _ ≤ _
    omega
  · rw [← data, span, Nat.add_sub_cancel_left]
    rfl

theorem RocksLocator.landed_all {operation : Nat → Bool} (all : ∀ i, operation i = true) (n : Nat)
    (locations : List (Pubkey × AccountLocation)) : landed operation n locations = locations := by
  induction locations generalizing n with
  | nil => rfl
  | cons item rest ih => rw [landed, if_pos (all n), ih]

namespace BaseScanner

def config (accountsPath : String) : ScannerConfig := ⟨accountsPath, 100⟩

def located (account : ParsedAccount) : Pubkey × AccountLocation := (account.pubkey, account.location)

end BaseScanner

namespace AccountFileScanner

theorem accountsIn_parsed {fileId : UInt64} {entry : DirEntry} {slice : Slice}
    (opened : entry.contents = some slice) {account : ParsedAccount}
    (member : account ∈ accountsIn fileId entry) :
    ParsedAt fileId slice.bytes account.location.offset.toNat account := by
  obtain ⟨accounts, scanned, parsed, _⟩ := scanFile_parsed AppendVecScanner.new fileId slice
  simp only [accountsIn, opened, scanned, List.mem_filterMap, List.mem_map] at member
  obtain ⟨_, ⟨found, among, rfl⟩, same⟩ := member
  cases Option.some.inj same
  exact parsed account among

/-- Every mapping that was stored knows its length. -/
theorem storeMmap_sized (order : List (UInt64 × DirEntry)) (self : AccountFileScanner)
    (initial : ∀ (fileId : UInt64) file, self.mmapFiles[fileId]? = some file →
      file.fileSize = file.mmap.bytes.length) (fileId : UInt64) (file : MmapAccountFile)
    (stored : (order.foldl storeMmap self).getMmapFile fileId = some file) :
    file.fileSize = file.mmap.bytes.length := by
  refine Transition.foldl_invariant
    (fun s : AccountFileScanner => ∀ (fileId : UInt64) file, s.mmapFiles[fileId]? = some file →
      file.fileSize = file.mmap.bytes.length) ?_ initial order fileId file stored
  intro s entry sized fileId file found
  unfold storeMmap at found
  split at found
  · rename_i mmap mapped
    rw [getElem?_insert_ite] at found
    split at found
    · cases found
      exact MmapAccountFile.open_size mapped
    · exact sized fileId file found
  · exact sized fileId file found

end AccountFileScanner

namespace BaseScanner
open AccountFileScanner

variable {accountsPath : String} {directory : Directory} {files order : List (UInt64 × DirEntry)}
  {locator : RocksLocator} {redb : RedbOutcome}

/-- All accounts that the scan of the files finds, in its order. -/
def scanned (files : List (UInt64 × DirEntry)) : List ParsedAccount :=
  files.flatMap fun file => accountsIn file.1 file.2

/-- What the run leaves when the scan finds files and the batch is committed. -/
def finished (accountsPath : String) (files order : List (UInt64 × DirEntry))
    (locator : RocksLocator) (redb : RedbOutcome) : BaseScan :=
  let stored := (locator.insertBatch redb ((scanned files).map located)).2
  let dictionary := (PersistentPubkeyDictionary.created.insertBatch ((scanned files).map (·.pubkey))).2
  { scanner := order.foldl storeMmap ⟨config accountsPath, ∅⟩
    stats := ScanResult.stats ⟨scanned files, files.filterMap resultOf⟩
    locator := stored
    count := stored.count
    dictionary := dictionary
    dictionaryLen := dictionary.len }

/-- An account that is the last one scanned with its pubkey is served. -/
theorem served (discovered : discoverAccountFiles (config accountsPath) directory = .ok files)
    (apart : directory.IdsApart) (perm : order.Perm files) (commits : RocksLocator.Commits redb)
    (inserts : ∀ i, redb.operation i = true) {account : ParsedAccount}
    (last : Last (·.pubkey) (scanned files) account) (small : 97 + account.data.length < 2 ^ 32) :
    let done := finished accountsPath files order locator redb
    (done.locator.get account.pubkey).1 = .ok (some account.location) ∧
      ∃ file, done.scanner.getMmapFile account.location.fileId = some file ∧
        file.getAccountData account.location = .ok account.data := by
  have final : Last Prod.fst ((scanned files).map located) (located account) :=
    last_map_iff.mpr ⟨account, last, rfl⟩
  have batch := (RocksLocator.insertBatch_commits commits locator ((scanned files).map located)).2
  rw [RocksLocator.landed_all inserts] at batch
  refine ⟨RocksLocator.get_of_stored ?_, ?_⟩
  · exact (congrArg (·[account.pubkey]?) batch).trans (insertAll_last final _ _)
  · obtain ⟨⟨fileId, entry⟩, among, member⟩ := List.mem_flatMap.mp last.mem
    have opened : ∃ slice, entry.contents = some slice := by
      unfold accountsIn at member
      split at member
      · cases member
      · exact ⟨_, ‹_›⟩
    obtain ⟨slice, opened⟩ := opened
    have result : (⟨fileId, accountsIn fileId entry, slice.bytes.length, entry⟩ : FileScanResult) ∈
        files.filterMap resultOf := by
      refine List.mem_filterMap.mpr ⟨(fileId, entry), among, ?_⟩
      rw [resultOf, opened]
      rfl
    have resolves : Resolves _ (order.foldl storeMmap ⟨config accountsPath, ∅⟩) :=
      resolves_of_apart apart discovered perm
    obtain ⟨file, found, _, contents⟩ := resolves _ result account member
    rw [opened] at contents
    cases contents
    have sized := storeMmap_sized order ⟨config accountsPath, ∅⟩ (by simp) _ file found
    exact ⟨file, found, (accountsIn_parsed opened member).reads sized small⟩

/-- The accounts written to the files, each with the place it was written to. -/
def placed (files : List (UInt64 × DirEntry)) (written : DirEntry → List StoredAccount) : List ParsedAccount :=
  files.flatMap fun file => parsedFrom file.1 0 (written file.2)

/-- Every file is the accounts written to it, one record after the other. -/
def Stored (files : List (UInt64 × DirEntry)) (written : DirEntry → List StoredAccount) : Prop :=
  ∀ file ∈ files, ∃ slice lastPadded, file.2.contents = some slice ∧
    slice.bytes = accountFile lastPadded (written file.2) ∧
      ∀ account ∈ written file.2, 97 + account.data.length < 2 ^ 32

/-- The files have ids of their own. -/
def OwnIds (files : List (UInt64 × DirEntry)) : Prop :=
  ∀ f ∈ files, ∀ g ∈ files, f.1 = g.1 → f.2.name = g.2.name

theorem OwnIds.apart (own : OwnIds files)
    (discovered : discoverAccountFiles (config accountsPath) directory = .ok files) :
    directory.IdsApart := by
  obtain ⟨listing, entries, exactly⟩ := mem_discovered discovered
  intro other same f g f_listed g_listed f_regular g_regular differ fileId f_id g_id _
  cases entries.symm.trans same
  have first := (exactly (fileId, f)).mpr ⟨f_listed, f_regular, f_id⟩
  have second := (exactly (fileId, g)).mpr ⟨g_listed, g_regular, g_id⟩
  exact absurd (own _ first _ second rfl) differ

end BaseScanner

end Hyperplane

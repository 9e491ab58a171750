import Mathlib.Data.List.Sort
import Hyperplane.Lib.Disk
import Hyperplane.Lib.Maps
import Hyperplane.Scan.AppendVec

/-! Scanning a directory of account files. The files are mapped and scanned in
parallel, and each mapping is kept under the id taken from the file's name. -/
namespace Hyperplane
open Maps

inductive OsName where
  | utf8 (chars : List Char)
  | raw (bytes : List UInt8)
  deriving DecidableEq

/-- A file without contents cannot be opened or mapped. -/
structure DirEntry where
  name : OsName
  isFile : Bool
  contents : Option Slice

/-- What the file system says of a path: whether it is there, and its listing,
in which reading an entry can fail. A name stands for one entry. -/
structure Directory where
  present : Bool
  entries : Option (List (Option DirEntry))
  distinct : ∀ listing, entries = some listing → ∀ f g : DirEntry, some f ∈ listing →
    some g ∈ listing → f.name = g.name → f = g

inductive ScannerError where
  | ioError (e : IoError)
  | mmapError (e : IoError)
  | directoryNotFound (path : String)
  | noAccountFiles (path : String)
  deriving DecidableEq, Repr

structure ScannerConfig where
  accountsPath : String
  progressInterval : Nat

structure MmapAccountFile where
  fileId : UInt64
  mmap : Slice
  fileSize : Nat
  path : OsName

/-- The last field records where the accounts come from and is read by no
operation. -/
structure FileScanResult where
  fileId : UInt64
  accounts : List ParsedAccount
  fileSize : Nat
  source : DirEntry

structure ScanResult where
  accounts : List ParsedAccount
  fileResults : List FileScanResult

/-- The counts of a scan; the average size and the rate are left out. -/
structure ScanStats where
  filesScanned : Nat
  totalAccounts : Nat
  totalBytes : UInt64
  deriving DecidableEq

def ScanResult.stats (result : ScanResult) : ScanStats where
  filesScanned := result.fileResults.length
  totalAccounts := result.accounts.length
  totalBytes := result.fileResults.foldl (fun total file => total + UInt64.ofNat file.fileSize) 0

structure AccountFileScanner where
  config : ScannerConfig
  mmapFiles : Std.TreeMap UInt64 MmapAccountFile := ∅

/-- A decimal number that fits 64 bits, with an optional plus sign. -/
def parseU64 (chars : List Char) : Option UInt64 :=
  let digits := match chars with
    | '+' :: rest => rest
    | _ => chars
  if digits.isEmpty then none
  else (digits.foldlM (fun n c =>
    if c.isDigit ∧ n * 10 + (c.toNat - '0'.toNat) < 2 ^ 64 then some (n * 10 + (c.toNat - '0'.toNat))
    else none) 0).map UInt64.ofNat

/-- The part of the name before its first dot. -/
def parseFileId : OsName → Option UInt64
  | .raw _ => none
  | .utf8 chars =>
    let parts := chars.splitOn '.'
    if 2 ≤ parts.length then parseU64 (parts.headD []) else none

def MmapAccountFile.open (fileId : UInt64) (entry : DirEntry) : Outcome IoError MmapAccountFile :=
  match entry.contents with
  | some file => .ok ⟨fileId, file, file.bytes.length, entry.name⟩
  | none => .error .failed

namespace AccountFileScanner

def collectFiles : List (Option DirEntry) → List (UInt64 × DirEntry) →
    Outcome ScannerError (List (UInt64 × DirEntry))
  | [], files => .ok files
  | none :: _, _ => .error (.ioError .failed)
  | some entry :: rest, files =>
    if entry.isFile then
      match parseFileId entry.name with
      | some fileId => collectFiles rest (files ++ [(fileId, entry)])
      | none => collectFiles rest files
    else collectFiles rest files

def discoverAccountFiles (config : ScannerConfig) (directory : Directory) :
    Outcome ScannerError (List (UInt64 × DirEntry)) :=
  if directory.present then
    match directory.entries with
    | none => .error (.ioError .failed)
    | some listing => do
      let files ← collectFiles listing []
      return files.insertionSort fun a b => a.1 ≤ b.1
  else .error (.directoryNotFound config.accountsPath)

def storeMmap (self : AccountFileScanner) (file : UInt64 × DirEntry) : AccountFileScanner :=
  match MmapAccountFile.open file.1 file.2 with
  | .ok mmap => { self with mmapFiles := self.mmapFiles.insert file.1 mmap }
  | _ => self

def scanFile (file : UInt64 × DirEntry) : Outcome ScannerError FileScanResult := do
  let mmap ← (MmapAccountFile.open file.1 file.2).mapError .mmapError
  match AppendVecScanner.new.scanFile file.1 mmap.mmap with
  | .ok results => return ⟨file.1, results.filterMap Except.toOption, mmap.fileSize, file.2⟩
  | _ => .fault

/-- A file that cannot be scanned is left out. -/
def scanFiles : List (UInt64 × DirEntry) → Outcome ScannerError (List FileScanResult)
  | [] => .ok []
  | file :: rest =>
    match scanFile file with
    | .ok result => do
      let results ← scanFiles rest
      return result :: results
    | .error _ => scanFiles rest
    | .fault => .fault

/-- The mappings are stored in the order in which the parallel scan gets there;
the results are in the order of the files. -/
def scan (directory : Directory) (order : List (UInt64 × DirEntry)) :
    Method AccountFileScanner ScannerError ScanResult := fun self =>
  match discoverAccountFiles self.config directory with
  | .ok files =>
    if files.isEmpty then (.error (.noAccountFiles self.config.accountsPath), self)
    else if self.config.progressInterval = 0 then (.fault, self)
    else (do
      let fileResults ← scanFiles files
      return ⟨fileResults.flatMap (·.accounts), fileResults⟩, order.foldl storeMmap self)
  | .error e => (.error e, self)
  | .fault => (.fault, self)

def getMmapFile (self : AccountFileScanner) (fileId : UInt64) : Option MmapAccountFile :=
  self.mmapFiles[fileId]?

/-- A regular file whose name parses, with its id. -/
def accepted (entry : DirEntry) : Option (UInt64 × DirEntry) :=
  if entry.isFile then (parseFileId entry.name).map (·, entry) else none

theorem accepted_eq_some {entry other : DirEntry} {fileId : UInt64} :
    accepted entry = some (fileId, other) ↔
      entry = other ∧ other.isFile ∧ parseFileId other.name = some fileId := by
  constructor
  · intro known
    unfold accepted at known
    split at known
    · rename_i regular
      obtain ⟨id, parsed, same⟩ := Option.map_eq_some_iff.mp known
      cases same
      exact ⟨rfl, regular, parsed⟩
    · cases known
  · rintro ⟨rfl, regular, parsed⟩
    simp [accepted, regular, parsed]

theorem collectFiles_ok {listing : List (Option DirEntry)} {before files : List (UInt64 × DirEntry)}
    (collected : collectFiles listing before = .ok files) :
    files = before ++ listing.filterMap (·.bind accepted) := by
  induction listing generalizing before with
  | nil =>
    cases collected
    simp
  | cons entry rest ih =>
    cases entry with
    | none => cases collected
    | some entry =>
      simp only [collectFiles] at collected
      split at collected
      · rename_i regular
        split at collected
        · rename_i fileId parsed
          simp [ih collected, accepted, regular, parsed]
        · rename_i unparsed
          simp [ih collected, accepted, regular, unparsed]
      · rename_i special
        simp [ih collected, accepted, special]

theorem mem_discovered {config : ScannerConfig} {directory : Directory}
    {files : List (UInt64 × DirEntry)} (found : discoverAccountFiles config directory = .ok files) :
    ∃ listing, directory.entries = some listing ∧ ∀ file, file ∈ files ↔
      some file.2 ∈ listing ∧ file.2.isFile ∧ parseFileId file.2.name = some file.1 := by
  unfold discoverAccountFiles at found
  split at found
  · split at found
    · cases found
    · rename_i listing entries
      refine ⟨listing, entries, ?_⟩
      intro file
      cases collected : collectFiles listing [] with
      | ok all =>
        rw [collected] at found
        cases found
        rw [List.mem_insertionSort, collectFiles_ok collected, List.nil_append, List.mem_filterMap]
        constructor
        · rintro ⟨entry, member, known⟩
          obtain ⟨entry, rfl, known⟩ := Option.bind_eq_some_iff.mp known
          obtain ⟨rfl, valid⟩ := accepted_eq_some.mp known
          exact ⟨member, valid⟩
        · rintro ⟨member, valid⟩
          exact ⟨some file.2, member, accepted_eq_some.mpr ⟨rfl, valid⟩⟩
      | error e =>
        rw [collected] at found
        cases found
      | fault =>
        rw [collected] at found
        cases found
  · cases found

/-- The accounts that are parsed from an entry scanned under an id. -/
def accountsIn (fileId : UInt64) (entry : DirEntry) : List ParsedAccount :=
  match entry.contents with
  | none => []
  | some file =>
    match AppendVecScanner.new.scanFile fileId file with
    | .ok results => results.filterMap Except.toOption
    | _ => []

theorem scanFile_none {fileId : UInt64} {entry : DirEntry} (none : entry.contents = none) :
    scanFile (fileId, entry) = .error (.mmapError .failed) := by
  simp only [scanFile, MmapAccountFile.open, none]
  rfl

theorem scanFile_some {fileId : UInt64} {entry : DirEntry} {file : Slice}
    (some : entry.contents = some file) : scanFile (fileId, entry) =
      .ok ⟨fileId, accountsIn fileId entry, file.bytes.length, entry⟩ := by
  obtain ⟨accounts, scanned, _⟩ := scanFile_parsed AppendVecScanner.new fileId file
  simp only [scanFile, MmapAccountFile.open, some, Outcome.mapError, Outcome.ok_bind, scanned,
    accountsIn]
  rfl

theorem accountsIn_fileId {fileId : UInt64} {entry : DirEntry} {account : ParsedAccount}
    (member : account ∈ accountsIn fileId entry) : account.location.fileId = fileId := by
  unfold accountsIn at member
  split at member
  · cases member
  · rename_i file _
    obtain ⟨accounts, scanned, parsed, _⟩ := scanFile_parsed AppendVecScanner.new fileId file
    rw [scanned] at member
    simp only [List.mem_filterMap, List.mem_map] at member
    obtain ⟨_, ⟨found, among, rfl⟩, same⟩ := member
    cases Option.some.inj same
    exact congrArg (·.fileId) (parsed account among).location

/-- The result of a file that can be opened. -/
def resultOf (file : UInt64 × DirEntry) : Option FileScanResult :=
  file.2.contents.map fun slice =>
    ⟨file.1, accountsIn file.1 file.2, slice.bytes.length, file.2⟩

theorem scanFiles_eq (files : List (UInt64 × DirEntry)) :
    scanFiles files = .ok (files.filterMap resultOf) := by
  induction files with
  | nil => rfl
  | cons file rest ih =>
    cases opened : file.2.contents with
    | none => simp only [scanFiles, scanFile_none opened, ih, resultOf, opened, Option.map_none,
        List.filterMap_cons_none]
    | some slice =>
      simp only [scanFiles, scanFile_some opened, ih, Outcome.ok_bind, Outcome.pure_eq_ok]
      rw [List.filterMap_cons_some (show resultOf file = _ by rw [resultOf, opened]; rfl)]

def mmapOf (file : UInt64 × DirEntry) : Option MmapAccountFile :=
  file.2.contents.map fun slice => ⟨file.1, slice, slice.bytes.length, file.2.name⟩

theorem foldl_storeMmap (order : List (UInt64 × DirEntry)) (self : AccountFileScanner) :
    (order.foldl storeMmap self).mmapFiles =
      insertAll (·.fileId) id self.mmapFiles (order.filterMap mmapOf) := by
  induction order generalizing self with
  | nil => rfl
  | cons file rest ih =>
    rw [List.foldl_cons, ih]
    cases opened : file.2.contents with
    | none => simp [storeMmap, MmapAccountFile.open, mmapOf, opened]
    | some slice => simp [storeMmap, MmapAccountFile.open, mmapOf, opened, insertAll]

/-- Every location of the result leads to the mapping of the file that the
account was parsed from. -/
def Resolves (result : ScanResult) (after : AccountFileScanner) : Prop :=
  ∀ r ∈ result.fileResults, ∀ account ∈ r.accounts, ∃ mmap,
    after.getMmapFile account.location.fileId = some mmap ∧ mmap.path = r.source.name ∧
      r.source.contents = some mmap.mmap

def AlwaysResolves (self : AccountFileScanner) (directory : Directory)
    (files : List (UInt64 × DirEntry)) : Prop :=
  ∀ order, order.Perm files → ∀ result after, scan directory order self = (.ok result, after) →
    Resolves result after

theorem scan_ok_iff {self after : AccountFileScanner} {directory : Directory}
    {files order : List (UInt64 × DirEntry)} {result : ScanResult}
    (discovered : discoverAccountFiles self.config directory = .ok files) :
    scan directory order self = (.ok result, after) ↔ files ≠ [] ∧
      self.config.progressInterval ≠ 0 ∧ after = order.foldl storeMmap self ∧
        result = ⟨(files.filterMap resultOf).flatMap (·.accounts), files.filterMap resultOf⟩ := by
  simp only [scan, discovered, scanFiles_eq, Outcome.ok_bind, Outcome.pure_eq_ok, List.isEmpty_iff]
  split
  · rename_i none
    simp [none]
  · rename_i some
    split
    · rename_i zero
      simp [zero]
    · rename_i positive
      simp [some, positive, eq_comm, and_comm]

end AccountFileScanner

/-- Of two files whose names parse to one id, if the one can be opened then no
account is parsed from the other. -/
def Directory.IdsApart (directory : Directory) : Prop :=
  ∀ listing, directory.entries = some listing → ∀ f g : DirEntry, some f ∈ listing → some g ∈ listing →
    f.isFile → g.isFile → f.name ≠ g.name → ∀ fileId, parseFileId f.name = some fileId →
      parseFileId g.name = some fileId → g.contents.isSome →
        AccountFileScanner.accountsIn fileId f = []

namespace AccountFileScanner

theorem resolves_of_apart {self : AccountFileScanner} {directory : Directory}
    {files order : List (UInt64 × DirEntry)} (apart : directory.IdsApart)
    (discovered : discoverAccountFiles self.config directory = .ok files) (perm : order.Perm files) :
    Resolves ⟨(files.filterMap resultOf).flatMap (·.accounts), files.filterMap resultOf⟩
      (order.foldl storeMmap self) := by
  obtain ⟨listing, entries, exactly⟩ := mem_discovered discovered
  intro r member account found
  obtain ⟨⟨fileId, f⟩, among, scanned⟩ := List.mem_filterMap.mp member
  obtain ⟨slice, opened, rfl⟩ := Option.map_eq_some_iff.mp scanned
  replace opened : f.contents = some slice := opened
  replace found : account ∈ accountsIn fileId f := found
  have same_id := accountsIn_fileId found
  have stored : (⟨fileId, slice, slice.bytes.length, f.name⟩ : MmapAccountFile) ∈
      order.filterMap mmapOf := by
    refine List.mem_filterMap.mpr ⟨(fileId, f), perm.mem_iff.mpr among, ?_⟩
    rw [mmapOf, opened]
    rfl
  obtain ⟨mmap, last, equal⟩ : ∃ mmap, Last (·.fileId) (order.filterMap mmapOf) mmap ∧
      mmap.fileId = fileId := exists_last ⟨_, stored, rfl⟩
  have lookup : (order.foldl storeMmap self).getMmapFile account.location.fileId = some mmap := by
    rw [getMmapFile, foldl_storeMmap, same_id, ← equal]
    exact insertAll_last last id self.mmapFiles
  -- The mapping that was stored last under this id is that of the same file.
  have source : mmap ∈ order.filterMap mmapOf := by
    obtain ⟨before, after, split, _⟩ := last
    rw [split]
    simp
  obtain ⟨⟨otherId, g⟩, listed, mapped⟩ := List.mem_filterMap.mp source
  obtain ⟨other, g_opened, rfl⟩ := Option.map_eq_some_iff.mp mapped
  obtain ⟨f_listed, f_regular, f_id⟩ := (exactly (fileId, f)).mp among
  obtain ⟨g_listed, g_regular, g_id⟩ := (exactly (otherId, g)).mp (perm.mem_iff.mp listed)
  dsimp only at equal
  subst equal
  by_cases named : f.name = g.name
  · have equal := directory.distinct listing entries f g f_listed g_listed named
    subst equal
    exact ⟨_, lookup, rfl, g_opened⟩
  · have none := apart listing entries f g f_listed g_listed f_regular g_regular named _ f_id g_id
      (Option.isSome_iff_exists.mpr ⟨other, g_opened⟩)
    rw [none] at found
    cases found

/-- When the other file is stored last, its mapping takes the place of the file's own. -/
theorem apart_of_resolves {self : AccountFileScanner} {directory : Directory}
    {files : List (UInt64 × DirEntry)}
    (discovered : discoverAccountFiles self.config directory = .ok files)
    (runs : self.config.progressInterval ≠ 0) (resolves : AlwaysResolves self directory files) :
    directory.IdsApart := by
  obtain ⟨listing, entries, exactly⟩ := mem_discovered discovered
  intro other same f g f_listed g_listed f_regular g_regular distinct fileId f_id g_id g_opens
  rw [entries] at same
  cases same
  have f_found : (fileId, f) ∈ files := (exactly (fileId, f)).mpr ⟨f_listed, f_regular, f_id⟩
  have g_found : (fileId, g) ∈ files := (exactly (fileId, g)).mpr ⟨g_listed, g_regular, g_id⟩
  obtain ⟨slice, g_opened⟩ := Option.isSome_iff_exists.mp g_opens
  apply List.eq_nil_iff_forall_not_mem.mpr
  intro account member
  have f_opened : ∃ file, f.contents = some file := by
    unfold accountsIn at member
    split at member
    · cases member
    · exact ⟨_, ‹_›⟩
  obtain ⟨file, f_opened⟩ := f_opened
  obtain ⟨before, after, split⟩ := List.append_of_mem g_found
  have perm : (before ++ after ++ [(fileId, g)]).Perm files := by
    rw [split, List.append_assoc]
    exact List.Perm.append_left before List.perm_append_comm
  have result : (⟨fileId, accountsIn fileId f, file.bytes.length, f⟩ : FileScanResult) ∈
      files.filterMap resultOf := by
    refine List.mem_filterMap.mpr ⟨(fileId, f), f_found, ?_⟩
    rw [resultOf, f_opened]
    rfl
  obtain ⟨mmap, found, named, _⟩ := resolves _ perm _ _
    ((scan_ok_iff discovered).mpr ⟨List.ne_nil_of_mem f_found, runs, rfl, rfl⟩) _ result account member
  have lookup : ((before ++ after ++ [(fileId, g)]).foldl storeMmap self).getMmapFile fileId =
      some ⟨fileId, slice, slice.bytes.length, g.name⟩ := by
    rw [getMmapFile, List.foldl_append]
    simp [storeMmap, MmapAccountFile.open, g_opened]
  rw [accountsIn_fileId member, lookup] at found
  cases Option.some.inj found
  exact distinct named.symm

/-- A scan always leads back to the right files exactly when no two of them
share an id, or when it panics. -/
theorem scan_resolves_iff (self : AccountFileScanner) (directory : Directory)
    (files : List (UInt64 × DirEntry))
    (discovered : discoverAccountFiles self.config directory = .ok files) :
    AlwaysResolves self directory files ↔ self.config.progressInterval = 0 ∨ directory.IdsApart := by
  constructor
  · intro resolves
    by_cases zero : self.config.progressInterval = 0
    · exact .inl zero
    · exact .inr (apart_of_resolves discovered zero resolves)
  · rintro (zero | apart) order perm result after scanned
    · exact absurd zero ((scan_ok_iff discovered).mp scanned).2.1
    · obtain ⟨_, _, rfl, rfl⟩ := (scan_ok_iff discovered).mp scanned
      exact resolves_of_apart apart discovered perm

/-- Two files with an account each, under the ids 7 and 8. -/
theorem two_files_resolve :
    let file : Slice := ⟨97 :: List.replicate 96 0, by simp⟩
    let f : DirEntry := ⟨.utf8 ['7', '.', '0'], true, some file⟩
    let g : DirEntry := ⟨.utf8 ['8', '.', '0'], true, some file⟩
    let directory : Directory := ⟨true, some [some f, some g], by
      rintro listing ⟨⟩ a b first second same
      simp only [List.mem_cons, Option.some.injEq, List.not_mem_nil, or_false] at first second
      rcases first with rfl | rfl <;> rcases second with rfl | rfl <;> first | rfl | cases same⟩
    AlwaysResolves ⟨⟨"accounts", 100⟩, ∅⟩ directory [(7, f), (8, g)] := by
  intro file f g directory
  refine (scan_resolves_iff _ _ _ rfl).mpr (.inr ?_)
  rintro listing ⟨⟩ a b first second _ _ distinct fileId a_id b_id
  simp only [List.mem_cons, Option.some.injEq, List.not_mem_nil, or_false] at first second
  rcases first with rfl | rfl <;> rcases second with rfl | rfl
  · exact absurd rfl distinct
  · exact absurd (a_id.trans b_id.symm) (by decide)
  · exact absurd (a_id.trans b_id.symm) (by decide)
  · exact absurd rfl distinct

/-- Two versions of one file: both names stand for id 7. -/
theorem two_versions_collide :
    let file : Slice := ⟨97 :: List.replicate 96 0, by simp⟩
    let f : DirEntry := ⟨.utf8 ['7', '.', '0'], true, some file⟩
    let g : DirEntry := ⟨.utf8 ['7', '.', '1'], true, some file⟩
    let directory : Directory := ⟨true, some [some f, some g], by
      rintro listing ⟨⟩ a b first second same
      simp only [List.mem_cons, Option.some.injEq, List.not_mem_nil, or_false] at first second
      rcases first with rfl | rfl <;> rcases second with rfl | rfl <;> first | rfl | cases same⟩
    discoverAccountFiles ⟨"accounts", 100⟩ directory = .ok [(7, f), (7, g)] ∧
      ¬ AlwaysResolves ⟨⟨"accounts", 100⟩, ∅⟩ directory [(7, f), (7, g)] := by
  intro file f g directory
  have discovered : discoverAccountFiles ⟨"accounts", 100⟩ directory = .ok [(7, f), (7, g)] := rfl
  refine ⟨discovered, ?_⟩
  intro resolves
  have apart := @apart_of_resolves ⟨⟨"accounts", 100⟩, ∅⟩ directory _ discovered (by decide) resolves
  have none := apart [some f, some g] rfl f g (by simp) (by simp) rfl rfl (by decide) 7 rfl rfl rfl
  exact absurd none (by decide)

end AccountFileScanner

end Hyperplane

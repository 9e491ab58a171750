import Mathlib.Data.List.Perm.Basic
import Hyperplane.Manager.Keys
import Hyperplane.Query.CostModelLocks
import Hyperplane.Query.Pagination

/-! The statistics kept account by account against those taken from the indexes. One
side counts calls, the other what the bitmaps hold in the end. -/
namespace Hyperplane
open Maps

/-- The statistics with the total, which only updates by account change. -/
structure CountedStatistics extends IndexStatistics where
  totalAccounts : UInt64 := 0

namespace CountedStatistics

variable {S : Type} [IdSet S]

def refreshStatistics (stats : CountedStatistics) (contents : IndexContents S) : CountedStatistics :=
  { stats with toIndexStatistics := IndexStatistics.refreshStatistics contents }

def updateAccountStatistics (stats : CountedStatistics) (programId : Pubkey) (dataSize : Nat)
    (data : List UInt8) : CountedStatistics where
  toIndexStatistics := stats.toIndexStatistics.updateAccountStatistics programId dataSize data
  totalAccounts := stats.totalAccounts + 1

def updateAll (stats : CountedStatistics) (accounts : List AccountView) : CountedStatistics :=
  accounts.foldl (fun stats account =>
    stats.updateAccountStatistics account.owner account.data.length account.data) stats

end CountedStatistics

/-- How often a key is in the list, if it is. -/
def tally {K : Type} [DecidableEq K] (keys : List K) (key : K) : Option UInt64 :=
  if keys.count key = 0 then none else some (UInt64.ofNat (keys.count key))

section tally

variable {K : Type} [DecidableEq K]

theorem tally_eq_none_iff (keys : List K) (key : K) : tally keys key = none ↔ key ∉ keys := by
  rw [tally, ite_eq_left_iff, ← List.count_eq_zero]
  simp

theorem tally_snoc (keys : List K) (key a : K) : tally (keys ++ [key]) a =
    if a = key then some ((tally keys key).getD 0 + 1) else tally keys a := by
  by_cases same : a = key
  · subst same
    have count : (keys ++ [a]).count a = keys.count a + 1 := by simp
    rw [tally, count, if_neg (Nat.succ_ne_zero _), if_pos rfl, UInt64.ofNat_add, tally]
    split
    · rename_i absent
      rw [absent]
      rfl
    · rfl
  · have count : (keys ++ [key]).count a = keys.count a := by
      rw [List.count_append, List.count_singleton, if_neg (by simpa using Ne.symm same), Nat.add_zero]
    rw [if_neg same, tally, count, tally]

variable [Ord K] [Std.TransOrd K] [Std.LawfulEqOrd K]

/-- Counting up the entry of every key tallies the list. -/
theorem getElem?_foldl_entry (keys : List K) (key : K) :
    (keys.foldl (fun t k => entry t k 0 (· + 1)) (∅ : Std.TreeMap K UInt64))[key]? = tally keys key := by
  induction keys using List.reverseRecOn generalizing key with
  | nil => simp [tally]
  | append_singleton keys last ih =>
    rw [List.foldl_append, List.foldl_cons, List.foldl_nil, tally_snoc]
    split
    · rename_i same
      rw [same, getElem?_entry_self, ih]
    · rename_i other
      rw [getElem?_entry_ne _ other, ih]

end tally

namespace IdBitmaps

variable {S K : Type} [IdSet S] [Ord K]

/-- The bitmaps hold the pairs of a key and an account, and no key without one. -/
structure Records (ids : IdBitmaps S K) (pairs : List (K × Pubkey)) : Prop where
  wellFormed : ids.WellFormed
  listed : ∀ key account, ids.Listed key account ↔ (key, account) ∈ pairs
  keyed : ∀ key, (ids.accounts key).isSome ↔ key ∈ pairs.map Prod.fst

variable {ids : IdBitmaps S K} {pairs : List (K × Pubkey)}

/-- Each account is listed once, so a key's list is as long as the key is frequent. -/
theorem Records.length_accounts [DecidableEq K] (h : ids.Records pairs) (distinct : pairs.Nodup) {key : K}
    {found : List Pubkey} (lookup : ids.accounts key = some found) :
    found.length = (pairs.map Prod.fst).count key := by
  have inKey : ((pairs.filter (·.1 = key)).map Prod.snd).Perm found := by
    refine (List.perm_ext_iff_of_nodup ?_ (h.wellFormed.nodup_accounts lookup)).mpr fun account => ?_
    · refine (List.nodup_map_iff_inj_on (distinct.filter _)).mpr ?_
      rintro ⟨k, a⟩ first ⟨l, b⟩ second same
      simp only [List.mem_filter, decide_eq_true_eq] at first second
      exact Prod.ext (first.2.trans second.2.symm) same
    · have listed : account ∈ found ↔ (key, account) ∈ pairs := by
        rw [← h.listed]
        exact ⟨fun member => ⟨found, lookup, member⟩, fun ⟨other, same, member⟩ =>
          Option.some.inj (lookup.symm.trans same) ▸ member⟩
      rw [listed]
      simp
  rw [← inKey.length_eq, List.length_map, List.count, List.countP_map, List.countP_eq_length_filter]
  rfl

variable [Std.TransOrd K]

theorem records_empty : ({} : IdBitmaps S K).Records [] where
  wellFormed := KeyedIndex.empty_wellFormed
  listed key account := by simp [Listed, accounts]
  keyed key := by simp [accounts]

variable [Std.LawfulEqOrd K]

theorem Records.mark (h : ids.Records pairs) (key : K) (account : Pubkey) :
    (ids.mark account key).Records (pairs ++ [(key, account)]) := by
  obtain ⟨after, bits⟩ := mark_spec h.wellFormed account key
  refine ⟨after, fun k a => ?_, fun k => ?_⟩
  · rw [after.listed_iff, bits, ← h.wellFormed.listed_iff, h.listed]
    simp
  · rw [accounts_isSome_mark, h.keyed]
    simp

theorem Records.markIf (h : ids.Records pairs) (c : Prop) [Decidable c] (key : K) (account : Pubkey) :
    (if c then ids.mark account key else ids).Records (pairs ++ if c then [(key, account)] else []) := by
  split
  · exact h.mark key account
  · exact (List.append_nil pairs).symm ▸ h

theorem getElem?_cardinalities (ids : IdBitmaps S K) (key : K) :
    (IndexStatistics.cardinalities ids.bitmaps.keys ids.accounts)[key]? =
      (ids.accounts key).map (UInt64.ofNat ·.length) := by
  classical
  have table (keys : List K) : (IndexStatistics.cardinalities keys ids.accounts)[key]? =
      if key ∈ keys then (ids.accounts key).map (UInt64.ofNat ·.length) else none := by
    unfold IndexStatistics.cardinalities
    induction keys using List.reverseRecOn with
    | nil => simp
    | append_singleton keys last ih =>
      rw [List.foldl_append, List.foldl_cons, List.foldl_nil]
      by_cases same : key = last
      · subst same
        cases found : ids.accounts key with
        | none => simpa [found] using ih
        | some accounts => simp
      · cases found : ids.accounts last with
        | none => simpa [same] using ih
        | some accounts => simpa [getElem?_insert_ne _ same, same] using ih
  rw [table]
  split
  · rfl
  · rename_i absent
    rw [Std.TreeMap.mem_keys, Std.TreeMap.mem_iff_isSome_getElem?, Option.not_isSome_iff_eq_none] at absent
    rw [accounts, absent]
    rfl

/-- A refresh tallies the keys recorded. -/
theorem Records.cardinalities [DecidableEq K] (h : ids.Records pairs) (distinct : pairs.Nodup) (key : K) :
    (IndexStatistics.cardinalities ids.bitmaps.keys ids.accounts)[key]? = tally (pairs.map Prod.fst) key := by
  rw [getElem?_cardinalities]
  cases found : ids.accounts key with
  | none =>
    have absent : key ∉ pairs.map Prod.fst := by
      rw [← h.keyed, found]
      nofun
    exact ((tally_eq_none_iff _ _).mpr absent).symm
  | some accounts =>
    have recorded : key ∈ pairs.map Prod.fst := by
      rw [← h.keyed, found]
      rfl
    rw [tally, if_neg (List.count_pos_iff.mpr recorded).ne', ← h.length_accounts distinct found]
    rfl

end IdBitmaps

namespace IndexContents

variable {S : Type} [IdSet S]

/-- What an update of the manager does to the indexes that a refresh counts. -/
def updateAccount (contents : IndexContents S) (account : AccountView) (slot : UInt64) : IndexContents S where
  programs := ProgramIndex.addAccount contents.programs account.pubkey account.owner slot
  dataSizes := DataSizeIndex.addAccount contents.dataSizes account.pubkey account.data.length slot
  memcmps := IndexManager.addMemcmps account slot contents.memcmps
  discriminators := if 8 ≤ account.data.length then
    DiscriminatorIndex.addAccount contents.discriminators account.pubkey (discriminatorOf account.data) slot
    else contents.discriminators

end IndexContents

namespace IndexManager

variable {S : Type}

/-- The indexes of the manager that a refresh counts, if it has them all. -/
def contents (manager : IndexManager S) : Option (IndexContents S) := do
  return ⟨← manager.programIndex, ← manager.dataSizeIndex, ← manager.memcmpIndex, ← manager.discriminatorIndex⟩

theorem contents_new {config : IndexManagerConfig} {contents : IndexContents S}
    (enabled : (new config).contents = some contents) : contents = ⟨{}, {}, {}, {}⟩ := by
  unfold IndexManager.contents new at enabled
  cases config with
  | mk program owner mint size memcmp discriminator =>
    cases program <;> cases size <;> cases memcmp <;> cases discriminator <;>
      first | exact (Option.some.inj enabled).symm | cases enabled

variable [IdSet S]

def updateAccounts (manager : IndexManager S) (updates : List (AccountView × UInt64)) : IndexManager S :=
  updates.foldl (fun manager update => manager.updateAccount update.1 update.2) manager

theorem addMemcmps_ids (account : AccountView) (slot : UInt64) (index : MemcmpIndex S) :
    (addMemcmps account slot index).ids =
      let eight := if 8 ≤ account.data.length then
        index.ids.mark account.pubkey ⟨0, account.data.take 8⟩ else index.ids
      if 32 ≤ account.data.length then eight.mark account.pubkey ⟨0, account.data.take 32⟩ else eight := by
  unfold addMemcmps
  simp only [apply_ite MemcmpIndex.ids, MemcmpIndex.addAccountMemcmp]

theorem contents_updateAccount (manager : IndexManager S) (account : AccountView) (slot : UInt64) :
    (manager.updateAccount account slot).contents = manager.contents.map (·.updateAccount account slot) := by
  unfold contents updateAccount
  cases manager.programIndex with
  | none => rfl
  | some programs =>
    cases manager.dataSizeIndex with
    | none => rfl
    | some dataSizes =>
      cases manager.memcmpIndex with
      | none => rfl
      | some memcmps =>
        by_cases long : 8 ≤ account.data.length
        · simp only [if_pos long, IndexContents.updateAccount]
          cases manager.discriminatorIndex <;> rfl
        · simp only [if_neg long, IndexContents.updateAccount]
          cases manager.discriminatorIndex <;> rfl

theorem contents_updateAccounts (manager : IndexManager S) (updates : List (AccountView × UInt64)) :
    (manager.updateAccounts updates).contents = manager.contents.map fun contents =>
      updates.foldl (fun contents update => contents.updateAccount update.1 update.2) contents := by
  induction updates generalizing manager with
  | nil => simp [updateAccounts]
  | cons update rest ih =>
    have later := ih (manager.updateAccount update.1 update.2)
    rw [contents_updateAccount, Option.map_map] at later
    exact later

end IndexManager

namespace AccountView

/-- The memcmp filters that an update records. -/
def memcmps (account : AccountView) : List MemcmpFilter :=
  (if 8 ≤ account.data.length then [⟨0, account.data.take 8⟩] else []) ++
    if 32 ≤ account.data.length then [⟨0, account.data.take 32⟩] else []

def discriminators (account : AccountView) : List Discriminator :=
  if 8 ≤ account.data.length then [discriminatorOf account.data] else []

theorem memcmps_eq_nil_iff (account : AccountView) : account.memcmps = [] ↔ account.data.length < 8 := by
  rw [memcmps, List.append_eq_nil_iff]
  split <;> split <;> simp <;> omega

theorem discriminators_sublist (accounts : List AccountView) :
    ((accounts.flatMap fun a => a.discriminators.map fun disc => (disc, a.pubkey)).map Prod.snd).Sublist
      (accounts.map pubkey) := by
  induction accounts with
  | nil => exact .slnil
  | cons account rest ih =>
    rw [List.flatMap_cons, List.map_append, List.map_cons, discriminators]
    split
    · exact ih.cons_cons account.pubkey
    · exact ih.cons account.pubkey

end AccountView

/-- The indexes hold, for every account, the keys it was recorded under. -/
structure IndexContents.Records {S : Type} [IdSet S] (contents : IndexContents S) (accounts : List AccountView) :
    Prop where
  programs : contents.programs.ids.Records (accounts.map fun a => (a.owner, a.pubkey))
  dataSizes : contents.dataSizes.ids.Records (accounts.map fun a => (a.data.length, a.pubkey))
  memcmps : contents.memcmps.ids.Records
    (accounts.flatMap fun a => a.memcmps.map fun filter => (filter, a.pubkey))
  discriminators : contents.discriminators.ids.Records
    (accounts.flatMap fun a => a.discriminators.map fun disc => (disc, a.pubkey))

namespace IndexContents

variable {S : Type} [IdSet S]

theorem records_empty : (⟨{}, {}, {}, {}⟩ : IndexContents S).Records [] where
  programs := IdBitmaps.records_empty
  dataSizes := IdBitmaps.records_empty
  memcmps := IdBitmaps.records_empty
  discriminators := IdBitmaps.records_empty

theorem Records.updateAccount {contents : IndexContents S} {accounts : List AccountView}
    (h : contents.Records accounts) (account : AccountView) (slot : UInt64) :
    (contents.updateAccount account slot).Records (accounts ++ [account]) where
  programs := by
    rw [List.map_append]
    exact h.programs.mark account.owner account.pubkey
  dataSizes := by
    rw [List.map_append]
    exact h.dataSizes.mark account.data.length account.pubkey
  memcmps := by
    have eight := h.memcmps.markIf (8 ≤ account.data.length) ⟨0, account.data.take 8⟩ account.pubkey
    have both := eight.markIf (32 ≤ account.data.length) ⟨0, account.data.take 32⟩ account.pubkey
    have ids : (contents.updateAccount account slot).memcmps.ids = _ := IndexManager.addMemcmps_ids ..
    have pairs : account.memcmps.map (fun filter => (filter, account.pubkey)) = _ ++ _ := List.map_append
    rw [ids, List.flatMap_append, List.flatMap_singleton, pairs, ← List.append_assoc]
    simpa only [apply_ite (List.map _), List.map_cons, List.map_nil] using both
  discriminators := by
    have added := h.discriminators.markIf (8 ≤ account.data.length) (discriminatorOf account.data) account.pubkey
    have ids : (contents.updateAccount account slot).discriminators.ids = if 8 ≤ account.data.length then
        contents.discriminators.ids.mark account.pubkey (discriminatorOf account.data)
        else contents.discriminators.ids := apply_ite KeyedIndex.ids ..
    rw [ids, List.flatMap_append, List.flatMap_singleton]
    simpa only [AccountView.discriminators, apply_ite (List.map _), List.map_cons, List.map_nil] using added

theorem records_updates (updates : List (AccountView × UInt64)) :
    (updates.foldl (fun contents update => contents.updateAccount update.1 update.2)
      (⟨{}, {}, {}, {}⟩ : IndexContents S)).Records (updates.map Prod.fst) := by
  induction updates using List.reverseRecOn with
  | nil => exact records_empty
  | append_singleton updates last ih =>
    rw [List.foldl_append, List.foldl_cons, List.foldl_nil, List.map_append]
    exact ih.updateAccount last.1 last.2

variable {contents : IndexContents S} {accounts : List AccountView}

/-- A refresh tallies the keys of the accounts. -/
theorem Records.refreshStatistics (h : contents.Records accounts)
    (distinct : (accounts.map AccountView.pubkey).Nodup) :
    let stats := IndexStatistics.refreshStatistics contents
    (∀ programId : Pubkey, stats.programCardinality[programId]? = tally (accounts.map (·.owner)) programId) ∧
    (∀ size : Nat, stats.datasizeCardinality[size]? = tally (accounts.map (·.data.length)) size) ∧
    (∀ filter : MemcmpFilter, (stats.memcmpCardinality[filter]?).isSome ↔
      filter ∈ accounts.flatMap AccountView.memcmps) ∧
    ∀ disc : Discriminator, stats.discriminatorCardinality[disc]? =
      tally (accounts.flatMap AccountView.discriminators) disc := by
  have pairs {K : Type} (key : AccountView → K) : (accounts.map fun a => (key a, a.pubkey)).Nodup :=
    .of_map Prod.snd (by rw [List.map_map]; exact distinct)
  refine ⟨fun programId => ?_, fun size => ?_, fun filter => ?_, fun disc => ?_⟩
  · have table := h.programs.cardinalities (pairs _) programId
    rw [List.map_map] at table
    exact table
  · have table := h.dataSizes.cardinalities (pairs _) size
    rw [List.map_map] at table
    exact table
  · have keyed := h.memcmps.keyed filter
    have table := IdBitmaps.getElem?_cardinalities contents.memcmps.ids filter
    have names : ((accounts.flatMap fun a => a.memcmps.map fun filter => (filter, a.pubkey)).map Prod.fst) =
        accounts.flatMap AccountView.memcmps := by
      simp [List.map_flatMap, Function.comp_def]
    rw [names] at keyed
    refine Iff.trans ?_ keyed
    change ((IndexStatistics.cardinalities contents.memcmps.ids.bitmaps.keys
      contents.memcmps.ids.accounts)[filter]?).isSome ↔ _
    rw [table, Option.isSome_map]
  · have once : (accounts.flatMap fun a => a.discriminators.map fun disc => (disc, a.pubkey)).Nodup :=
      .of_map Prod.snd (distinct.sublist (AccountView.discriminators_sublist accounts))
    have table := h.discriminators.cardinalities once disc
    have names : ((accounts.flatMap fun a => a.discriminators.map fun disc => (disc, a.pubkey)).map Prod.fst) =
        accounts.flatMap AccountView.discriminators := by
      simp [List.map_flatMap, Function.comp_def]
    rw [names] at table
    exact table

end IndexContents

namespace CountedStatistics

/-- Both have the same entries in all four tables, and the same total. -/
structure Agrees (a b : CountedStatistics) : Prop where
  program : ∀ programId : Pubkey, a.programCardinality[programId]? = b.programCardinality[programId]?
  datasize : ∀ size : Nat, a.datasizeCardinality[size]? = b.datasizeCardinality[size]?
  memcmp : ∀ filter : MemcmpFilter, a.memcmpCardinality[filter]? = b.memcmpCardinality[filter]?
  discriminator : ∀ disc : Discriminator, a.discriminatorCardinality[disc]? = b.discriminatorCardinality[disc]?
  totalAccounts : a.totalAccounts = b.totalAccounts

/-- What the updates count: no memcmp filter, and every account. -/
theorem updateAll_empty (accounts : List AccountView) :
    let stats := ({} : CountedStatistics).updateAll accounts
    stats.programCardinality = (accounts.map (·.owner)).foldl (fun t k => entry t k 0 (· + 1)) ∅ ∧
    stats.datasizeCardinality = (accounts.map (·.data.length)).foldl (fun t k => entry t k 0 (· + 1)) ∅ ∧
    stats.memcmpCardinality = ∅ ∧
    stats.discriminatorCardinality =
      (accounts.flatMap AccountView.discriminators).foldl (fun t k => entry t k 0 (· + 1)) ∅ ∧
    stats.totalAccounts = UInt64.ofNat accounts.length := by
  induction accounts using List.reverseRecOn with
  | nil => exact ⟨rfl, rfl, rfl, rfl, rfl⟩
  | append_singleton accounts last ih =>
    have step : ({} : CountedStatistics).updateAll (accounts ++ [last]) =
        (({} : CountedStatistics).updateAll accounts).updateAccountStatistics
          last.owner last.data.length last.data := by
      simp [updateAll]
    obtain ⟨program, datasize, memcmp, discriminator, total⟩ := ih
    dsimp only
    rw [step]
    refine ⟨?_, ?_, memcmp, ?_, ?_⟩
    · simp only [updateAccountStatistics, IndexStatistics.updateAccountStatistics, program, List.map_append,
        List.foldl_append, List.map_cons, List.map_nil, List.foldl_cons, List.foldl_nil]
    · simp only [updateAccountStatistics, IndexStatistics.updateAccountStatistics, datasize, List.map_append,
        List.foldl_append, List.map_cons, List.map_nil, List.foldl_cons, List.foldl_nil]
    · rw [List.flatMap_append, List.foldl_append, ← discriminator, List.flatMap_singleton]
      by_cases long : 8 ≤ last.data.length
      · have key : (⟨(last.data.take 8).toArray, by simpa using long⟩ : Discriminator) =
            discriminatorOf last.data := (AccountView.discriminatorOf_eq_iff long _).mpr rfl
        simp only [updateAccountStatistics, IndexStatistics.updateAccountStatistics, dif_pos long,
          AccountView.discriminators, if_pos long, key, List.foldl_cons, List.foldl_nil]
      · simp only [updateAccountStatistics, IndexStatistics.updateAccountStatistics, dif_neg long,
          AccountView.discriminators, if_neg long, List.foldl_nil]
    · simp [updateAccountStatistics, total]

variable {S : Type} [IdSet S]

/-- The tables of programs, sizes and discriminators agree whatever the accounts; the
memcmp table and the total do only when no data has a discriminator and the number of
accounts is zero modulo 2^64. -/
theorem updates_agree_iff (config : IndexManagerConfig) (updates : List (AccountView × UInt64))
    (distinct : (updates.map (·.1.pubkey)).Nodup) {contents : IndexContents S}
    (enabled : ((IndexManager.new config).updateAccounts updates).contents = some contents) :
    let counted := ({} : CountedStatistics).updateAll (updates.map Prod.fst)
    let refreshed := ({} : CountedStatistics).refreshStatistics contents
    ((∀ programId : Pubkey,
        counted.programCardinality[programId]? = refreshed.programCardinality[programId]?) ∧
      (∀ size : Nat, counted.datasizeCardinality[size]? = refreshed.datasizeCardinality[size]?) ∧
      ∀ disc : Discriminator,
        counted.discriminatorCardinality[disc]? = refreshed.discriminatorCardinality[disc]?) ∧
    (counted.Agrees refreshed ↔ (∀ update ∈ updates, update.1.data.length < 8) ∧ updates.length % 2 ^ 64 = 0) := by
  intro counted refreshed
  obtain ⟨programs, sizes, noMemcmps, discriminators, total⟩ := updateAll_empty (updates.map Prod.fst)
  have records : contents.Records (updates.map Prod.fst) := by
    rw [IndexManager.contents_updateAccounts, Option.map_eq_some_iff] at enabled
    obtain ⟨first, isFirst, rfl⟩ := enabled
    rw [IndexManager.contents_new isFirst]
    exact IndexContents.records_updates updates
  have pubkeys : ((updates.map Prod.fst).map AccountView.pubkey).Nodup := by
    rw [List.map_map]
    exact distinct
  obtain ⟨program, datasize, memcmp, discriminator⟩ := records.refreshStatistics pubkeys
  have tables : (∀ programId : Pubkey,
        counted.programCardinality[programId]? = refreshed.programCardinality[programId]?) ∧
      (∀ size : Nat, counted.datasizeCardinality[size]? = refreshed.datasizeCardinality[size]?) ∧
      ∀ disc : Discriminator,
        counted.discriminatorCardinality[disc]? = refreshed.discriminatorCardinality[disc]? := by
    refine ⟨fun programId => ?_, fun size => ?_, fun disc => ?_⟩
    · exact (congrArg (·[programId]?) programs).trans ((getElem?_foldl_entry _ _).trans (program programId).symm)
    · exact (congrArg (·[size]?) sizes).trans ((getElem?_foldl_entry _ _).trans (datasize size).symm)
    · exact (congrArg (·[disc]?) discriminators).trans
        ((getElem?_foldl_entry _ _).trans (discriminator disc).symm)
  have memcmps : (∀ filter : MemcmpFilter,
        counted.memcmpCardinality[filter]? = refreshed.memcmpCardinality[filter]?) ↔
      ∀ update ∈ updates, update.1.data.length < 8 := by
    have lookup (filter : MemcmpFilter) :
        counted.memcmpCardinality[filter]? = refreshed.memcmpCardinality[filter]? ↔
          filter ∉ (updates.map Prod.fst).flatMap AccountView.memcmps := by
      have empty : counted.memcmpCardinality[filter]? = none := by
        rw [noMemcmps]
        exact Std.TreeMap.getElem?_emptyc
      rw [empty, eq_comm, ← Option.not_isSome_iff_eq_none]
      exact not_congr (memcmp filter)
    simp only [lookup, ← AccountView.memcmps_eq_nil_iff, ← List.eq_nil_iff_forall_not_mem,
      List.flatMap_eq_nil_iff, List.forall_mem_map]
  have totals : counted.totalAccounts = refreshed.totalAccounts ↔ updates.length % 2 ^ 64 = 0 := by
    rw [total, List.length_map, ← UInt64.toNat_inj, UInt64.toNat_ofNat']
    rfl
  refine ⟨tables, fun agrees => ⟨memcmps.mp agrees.memcmp, totals.mp agrees.totalAccounts⟩, ?_⟩
  rintro ⟨short, none⟩
  exact ⟨tables.1, tables.2.1, memcmps.mpr short, tables.2.2, totals.mpr none⟩

/-- An account of ten bytes owned by another. -/
private def tenBytes : AccountView :=
  ⟨.replicate 32 1, 5, .replicate 10 7, .replicate 32 2, false, 3, 1, 0, .delta, ⟨0, 0, 0, 0, 10, 3, 1, .delta⟩⟩

private def indexed : IndexContents SortedIds := IndexContents.updateAccount ⟨{}, {}, {}, {}⟩ tenBytes 3

theorem updates_agree_iff_ten_bytes :
    (({} : CountedStatistics).updateAll [tenBytes]).programCardinality[tenBytes.owner]? =
      (({} : CountedStatistics).refreshStatistics indexed).programCardinality[tenBytes.owner]? :=
  (updates_agree_iff {} [(tenBytes, 3)] (by simp)
    (rfl : ((IndexManager.new {}).updateAccounts [(tenBytes, 3)]).contents = some indexed)).1.1 tenBytes.owner

/-- After one account the updates have counted it and know no memcmp filter, while the
refresh has a filter and a total of zero. -/
theorem updates_disagree :
    let counted := ({} : CountedStatistics).updateAll [tenBytes]
    let refreshed := ({} : CountedStatistics).refreshStatistics indexed
    ((IndexManager.new {}).updateAccounts [(tenBytes, 3)]).contents = some indexed ∧
      counted.memcmpCardinality[(⟨0, .replicate 8 7⟩ : MemcmpFilter)]? = none ∧
      refreshed.memcmpCardinality[(⟨0, .replicate 8 7⟩ : MemcmpFilter)]? = some 1 ∧
      counted.totalAccounts = 1 ∧ refreshed.totalAccounts = 0 ∧ ¬ counted.Agrees refreshed := by
  intro counted refreshed
  exact ⟨rfl, by decide +kernel, by decide +kernel, rfl, rfl, fun agrees => by cases agrees.totalAccounts⟩

end CountedStatistics

end Hyperplane

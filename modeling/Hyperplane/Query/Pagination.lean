import Hyperplane.Lib.Transition
import Hyperplane.Query.Planner

/-! Query results page by page. A cursor names the last account of a page; the
next page is cut from a result computed anew. -/
namespace Hyperplane

structure PaginationCursor where
  lastPubkey : Option Pubkey
  offset : Option UInt64
  limit : Nat

def PaginationCursor.fromPubkey (pubkey : Pubkey) (limit : Nat) : PaginationCursor :=
  ⟨some pubkey, none, limit⟩

structure PaginatedResult where
  results : List Pubkey
  nextCursor : Option PaginationCursor
  totalCount : Option UInt64
  isLastPage : Bool

/-- A full page is never the last one. -/
def PaginatedResult.new (results : List Pubkey) (limit : Nat) (totalCount : Option UInt64) :
    PaginatedResult where
  results := results
  nextCursor := if results.length < limit then none
    else results.getLast?.map fun last => .fromPubkey last limit
  totalCount := totalCount
  isLastPage := results.length < limit

structure PaginationHelper where
  defaultLimit : Nat := 100

namespace PaginationHelper

def limit (self : PaginationHelper) (cursor : Option PaginationCursor) : Nat :=
  (cursor.map PaginationCursor.limit).getD self.defaultLimit

/-- A pubkey that is not among the results starts over. -/
def startIndex (results : List Pubkey) : Option PaginationCursor → Nat
  | none => 0
  | some cursor => match cursor.lastPubkey, cursor.offset with
    | some lastPubkey, _ => ((results.findIdx? (· == lastPubkey)).map (· + 1)).getD 0
    | none, some offset => offset.toNat
    | none, none => 0

def paginate (self : PaginationHelper) (results : List Pubkey) (cursor : Option PaginationCursor) :
    PaginatedResult :=
  let start := startIndex results cursor
  let stop := min (start + self.limit cursor) results.length
  let page := if results.length ≤ start then [] else (results.take stop).drop start
  .new page (self.limit cursor) (some (UInt64.ofNat results.length))

theorem results_paginate (self : PaginationHelper) (results : List Pubkey)
    (cursor : Option PaginationCursor) : (self.paginate results cursor).results =
      (results.drop (startIndex results cursor)).take (self.limit cursor) := by
  change (if _ then _ else _) = _
  split
  · rename_i past
    rw [List.drop_of_length_le past, List.take_nil]
  · rename_i inside
    rw [List.drop_take]
    refine List.take_eq_take_iff.mpr ?_
    rw [List.length_drop]
    omega

theorem nextCursor_paginate (self : PaginationHelper) (results : List Pubkey)
    (cursor : Option PaginationCursor) : (self.paginate results cursor).nextCursor =
      if (self.paginate results cursor).results.length < self.limit cursor then none
      else (self.paginate results cursor).results.getLast?.map fun last =>
        .fromPubkey last (self.limit cursor) := rfl

theorem nextCursor_short {self : PaginationHelper} {results : List Pubkey}
    {cursor : Option PaginationCursor}
    (short : results.length - startIndex results cursor < self.limit cursor) :
    (self.paginate results cursor).nextCursor = none := by
  rw [nextCursor_paginate, results_paginate, List.length_take, List.length_drop, if_pos (by omega)]

theorem nextCursor_full {self : PaginationHelper} {results : List Pubkey}
    {cursor : Option PaginationCursor} {k limit : Nat} (start : startIndex results cursor = k)
    (limited : self.limit cursor = limit) (positive : 0 < limit) (full : k + limit ≤ results.length) :
    (self.paginate results cursor).nextCursor = some (.fromPubkey results[k + limit - 1] limit) := by
  have length : ((results.drop k).take limit).length = limit := by
    rw [List.length_take, List.length_drop]
    omega
  have last : ((results.drop k).take limit).getLast? = some results[k + limit - 1] := by
    rw [List.getLast?_eq_getElem?, length, List.getElem?_take, if_pos (by omega), List.getElem?_drop,
      List.getElem?_eq_some_iff]
    exact ⟨by omega, getElem_congr_idx (by omega)⟩
  rw [nextCursor_paginate, results_paginate, start, limited, length, if_neg (Nat.lt_irrefl limit), last]
  rfl

theorem startIndex_fromPubkey {results : List Pubkey} (distinct : results.Nodup) {k : Nat}
    (below : k < results.length) (limit : Nat) :
    startIndex results (some (.fromPubkey results[k] limit)) = k + 1 := by
  have position : results.findIdx? (· == results[k]) = some k := by
    refine List.findIdx?_eq_some_iff_getElem.mpr ⟨below, by simp, fun j before => ?_⟩
    have different : results[j] ≠ results[k] := by
      rw [Ne, distinct.getElem_inj_iff]
      omega
    simpa using different
  simp [startIndex, PaginationCursor.fromPubkey, position]

/-- The pages a client is given that follows the cursors, each cut from the
answer to its own call. -/
inductive Walk (self : PaginationHelper) (answers : Nat → List Pubkey) :
    Nat → Option PaginationCursor → List (List Pubkey) → Prop where
  | last {call : Nat} {cursor : Option PaginationCursor}
      (done : (self.paginate (answers call) cursor).nextCursor = none) :
      Walk self answers call cursor [(self.paginate (answers call) cursor).results]
  | next {call : Nat} {cursor : Option PaginationCursor} {nextCursor : PaginationCursor}
      {pages : List (List Pubkey)}
      (more : (self.paginate (answers call) cursor).nextCursor = some nextCursor)
      (rest : Walk self answers (call + 1) (some nextCursor) pages) :
      Walk self answers call cursor ((self.paginate (answers call) cursor).results :: pages)

section walk

variable {self : PaginationHelper} {answers : Nat → List Pubkey} {all : List Pubkey}

/-- Over one list without duplicates the pages from a position on are the rest of it. -/
theorem walk_fixed (positive : 0 < self.defaultLimit) (distinct : all.Nodup)
    (fixed : ∀ call, answers call = all) (call k : Nat) (cursor : Option PaginationCursor)
    (limit : self.limit cursor = self.defaultLimit) (start : startIndex all cursor = k) :
    ∃ pages, Walk self answers call cursor pages ∧ pages.flatten = all.drop k := by
  induction rest : all.length - k using Nat.strongRecOn generalizing call k cursor with
  | ind n ih =>
    have page : (self.paginate (answers call) cursor).results = (all.drop k).take self.defaultLimit := by
      rw [results_paginate, fixed, start, limit]
    by_cases short : all.length - k < self.defaultLimit
    · refine ⟨_, .last (nextCursor_short ?_), ?_⟩
      · rw [fixed, start, limit]
        exact short
      · rw [page, List.take_of_length_le (by rw [List.length_drop]; omega), List.flatten_singleton]
    · have inside : k + self.defaultLimit - 1 < all.length := by omega
      have next : (self.paginate (answers call) cursor).nextCursor =
          some (.fromPubkey all[k + self.defaultLimit - 1] self.defaultLimit) := by
        rw [fixed]
        exact nextCursor_full start limit positive (by omega)
      have position := startIndex_fromPubkey distinct inside self.defaultLimit
      obtain ⟨pages, walk, flat⟩ := ih (all.length - (k + self.defaultLimit)) (by omega) (call + 1)
        (k + self.defaultLimit) _ rfl (position.trans (by omega)) rfl
      refine ⟨_, .next next walk, ?_⟩
      rw [List.flatten_cons, page, flat, ← List.drop_drop, List.take_append_drop]

/-- One page is all there is, in whatever order. -/
theorem walk_short (short : (answers 0).length < self.defaultLimit) :
    Walk self answers 0 none [answers 0] := by
  have page : (self.paginate (answers 0) none).results = answers 0 := by
    rw [results_paginate]
    exact List.take_of_length_le (Nat.le_of_lt short)
  have walk : Walk self answers 0 none [(self.paginate (answers 0) none).results] :=
    .last (nextCursor_short short)
  rwa [page] at walk

theorem Walk.head {call : Nat} {cursor : Option PaginationCursor} {pages : List (List Pubkey)}
    (walk : Walk self answers call cursor pages) :
    ∃ rest, pages = (self.paginate (answers call) cursor).results :: rest := by
  cases walk with
  | last done => exact ⟨[], rfl⟩
  | next more rest => exact ⟨_, rfl⟩

/-- The second call in the reverse order gives an account of the first page again. -/
theorem walk_reverse (several : 1 < self.defaultLimit) (distinct : all.Nodup)
    (many : self.defaultLimit ≤ all.length) (first : answers 0 = all) (second : answers 1 = all.reverse)
    {pages : List (List Pubkey)} (walk : Walk self answers 0 none pages) : ¬ pages.flatten.Nodup := by
  have next : (self.paginate (answers 0) none).nextCursor =
      some (.fromPubkey all[self.defaultLimit - 1] self.defaultLimit) := by
    have start : startIndex all none = 0 := rfl
    have limited : self.limit none = self.defaultLimit := rfl
    have full := nextCursor_full start limited (by omega) (by omega)
    simp only [Nat.zero_add] at full
    rw [first, full]
  have earlier : all[self.defaultLimit - 2] ∈ (self.paginate (answers 0) none).results := by
    rw [results_paginate, first]
    refine List.mem_iff_getElem?.mpr ⟨self.defaultLimit - 2, ?_⟩
    change (all.take self.defaultLimit)[self.defaultLimit - 2]? = _
    rw [List.getElem?_take, if_pos (by omega), List.getElem?_eq_getElem]
  have again : all[self.defaultLimit - 2] ∈ (self.paginate (answers 1)
      (some (.fromPubkey all[self.defaultLimit - 1] self.defaultLimit))).results := by
    -- In reverse the cursor's account stands right before this one.
    have below : all.length - self.defaultLimit < all.reverse.length := by
      rw [List.length_reverse]
      omega
    have cursor : all.reverse[all.length - self.defaultLimit] = all[self.defaultLimit - 1] := by
      rw [List.getElem_reverse]
      exact getElem_congr_idx (by omega)
    have position := startIndex_fromPubkey (List.nodup_reverse.mpr distinct) below self.defaultLimit
    rw [cursor] at position
    rw [results_paginate, second, position]
    refine List.mem_iff_getElem?.mpr ⟨0, ?_⟩
    change ((all.reverse.drop _).take self.defaultLimit)[0]? = _
    rw [List.getElem?_take, if_pos (by omega), List.getElem?_drop, List.getElem?_reverse (by omega),
      List.getElem?_eq_getElem (by omega)]
    exact congrArg some (getElem_congr_idx (by omega))
  cases walk with
  | last done =>
    rw [next] at done
    cases done
  | next more rest =>
    rw [next] at more
    cases more
    obtain ⟨later, rfl⟩ := rest.head
    intro nodup
    rw [List.flatten_cons, List.flatten_cons] at nodup
    have apart := (List.nodup_append.mp nodup).2.2 _ earlier _ (List.mem_append_left _ again)
    exact apart rfl

end walk

end PaginationHelper

/-- A change of the program index. -/
inductive ProgramChange where
  | addAccount (account programId : Pubkey) (slot : UInt64)
  | removeAccount (account : Pubkey)

namespace ProgramIndex

variable {S : Type} [IdSet S]

def change (index : ProgramIndex S) : ProgramChange → ProgramIndex S
  | .addAccount account programId slot => index.addAccount account programId slot
  | .removeAccount account => index.removeAccount account

def build (changes : List ProgramChange) : ProgramIndex S := changes.foldl change {}

theorem build_wellFormed (changes : List ProgramChange) :
    (build changes : ProgramIndex S).ids.WellFormed := by
  refine Transition.foldl_invariant (fun index : ProgramIndex S => index.ids.WellFormed) ?_
    KeyedIndex.empty_wellFormed changes
  intro index call wf
  cases call with
  | addAccount account programId slot => exact (KeyedIndex.add_spec wf account programId).1
  | removeAccount account => exact (KeyedIndex.remove_spec wf account).1

end ProgramIndex

theorem IdBitmaps.WellFormed.nodup_accounts {S K : Type} [IdSet S] [Ord K] {ids : IdBitmaps S K}
    (wf : ids.WellFormed) {key : K} {accounts : List Pubkey} (found : ids.accounts key = some accounts) :
    accounts.Nodup := by
  obtain ⟨bitmap, _, rfl⟩ := Option.map_eq_some_iff.mp found
  have distinct : bitmap.iter.Nodup := IdSet.iter_nodup bitmap.bitmap
  refine List.Nodup.filterMap ?_ distinct
  intro i j account first second
  have known := (wf.idToPubkey_iff i account).mp first
  rw [(wf.idToPubkey_iff j account).mp second] at known
  exact (Option.some.inj known).symm

namespace QueryPlanner

variable {S : Type} [IdSet S]

/-- As the planner's constructor sets it. -/
def paginationHelper (_ : QueryPlanner S) : PaginationHelper := {}

def executeQueryPaginated (order : HashOrder Pubkey) (planner : QueryPlanner S) (plan : QueryPlan)
    (cursor : Option PaginationCursor) : PaginatedResult × QueryPlanner S :=
  let (allResults, after) := executeQuery order planner plan
  (after.paginationHelper.paginate allResults cursor, after)

/-- The pages a client receives that follows the cursors to the end, each call
converting its hash set in an order of its own. -/
inductive Paged (plan : QueryPlan) (orders : Nat → HashOrder Pubkey) :
    Nat → QueryPlanner S → Option PaginationCursor → List (List Pubkey) → Prop where
  | last {call : Nat} {planner : QueryPlanner S} {cursor : Option PaginationCursor}
      (done : (executeQueryPaginated (orders call) planner plan cursor).1.nextCursor = none) :
      Paged plan orders call planner cursor
        [(executeQueryPaginated (orders call) planner plan cursor).1.results]
  | next {call : Nat} {planner : QueryPlanner S} {cursor : Option PaginationCursor}
      {nextCursor : PaginationCursor} {pages : List (List Pubkey)}
      (more : (executeQueryPaginated (orders call) planner plan cursor).1.nextCursor = some nextCursor)
      (rest : Paged plan orders (call + 1) (executeQueryPaginated (orders call) planner plan cursor).2
        (some nextCursor) pages) :
      Paged plan orders call planner cursor
        ((executeQueryPaginated (orders call) planner plan cursor).1.results :: pages)

/-- The answers of the filters, which the plain path intersects. -/
def filterSets (planner : QueryPlanner S) (filters : List GpaFilter) : List (List Pubkey) :=
  planner.dataSizeSets filters ++ (planner.memcmpSets filters ++ planner.discriminatorSets filters)

def resultSet (planner : QueryPlanner S) (programAccounts : List Pubkey) (filters : List GpaFilter) :
    Finset Pubkey :=
  (planner.filterSets filters).foldl (fun current accounts => current ∩ accounts.toFinset)
    programAccounts.toFinset

section answers

variable {planner : QueryPlanner S} {plan : QueryPlan} {programAccounts : List Pubkey}

theorem filterSets_eq_nil_iff : planner.filterSets plan.filters = [] ↔
    ∀ f ∈ plan.filters, planner.lookup f.filterType = none := by
  rw [List.eq_nil_iff_forall_not_mem]
  constructor
  · intro none f member
    by_contra answered
    obtain ⟨accounts, found⟩ := Option.ne_none_iff_exists'.mp answered
    exact none accounts ((mem_filterSets planner plan.filters accounts).mpr ⟨f, member, found⟩)
  · intro none accounts among
    obtain ⟨f, member, found⟩ := (mem_filterSets planner plan.filters accounts).mp among
    rw [none f member] at found
    cases found

theorem executeQuery_missing (missing : planner.lookup (.program plan.programId) = none)
    (order : HashOrder Pubkey) : executeQuery order planner plan = ([], planner) := by
  have program : ProgramIndex.getProgramAccounts planner.programIndex plan.programId = none := missing
  rw [executeQuery, program]

theorem executeQuery_fixed (found : planner.lookup (.program plan.programId) = some programAccounts)
    (none : planner.filterSets plan.filters = []) (order : HashOrder Pubkey) :
    executeQuery order planner plan = (programAccounts, planner) := by
  have program : ProgramIndex.getProgramAccounts planner.programIndex plan.programId =
    some programAccounts := found
  rw [executeQuery, program]
  exact if_pos none

theorem executeQuery_hashed (found : planner.lookup (.program plan.programId) = some programAccounts)
    (some_answer : planner.filterSets plan.filters ≠ []) (order : HashOrder Pubkey) :
    executeQuery order planner plan = (order.list (planner.resultSet programAccounts plan.filters),
      planner.record (UInt64.ofNat (planner.resultSet programAccounts plan.filters).card * 10)) := by
  have program : ProgramIndex.getProgramAccounts planner.programIndex plan.programId =
    some programAccounts := found
  rw [executeQuery, program]
  exact if_neg some_answer

end answers

/-- The statistics, all that a query changes, play no part in the answer. -/
theorem executeQuery_after (order other : HashOrder Pubkey) (planner : QueryPlanner S) (plan : QueryPlan) :
    (executeQuery order (executeQuery other planner plan).2 plan).1 = (executeQuery order planner plan).1 := by
  cases program : planner.lookup (.program plan.programId) with
  | none => rw [executeQuery_missing program other]
  | some programAccounts =>
    by_cases none : planner.filterSets plan.filters = []
    · rw [executeQuery_fixed program none other]
    · obtain ⟨timeUs, recorded⟩ : ∃ timeUs, (executeQuery other planner plan).2 = planner.record timeUs :=
        ⟨_, by rw [executeQuery_hashed program none other]⟩
      have again := congrArg Prod.fst
        (@executeQuery_hashed S _ (planner.record timeUs) plan programAccounts program none order)
      rw [recorded]
      exact again.trans (congrArg Prod.fst (executeQuery_hashed program none order)).symm

section paged

variable {plan : QueryPlan} {orders : Nat → HashOrder Pubkey} {answers : Nat → List Pubkey}
  {call : Nat} {cursor : Option PaginationCursor} {pages : List (List Pubkey)}

theorem paginated_fst {planner : QueryPlanner S} {order : HashOrder Pubkey} {answer : List Pubkey}
    (same : (executeQuery order planner plan).1 = answer) (cursor : Option PaginationCursor) :
    (executeQueryPaginated order planner plan cursor).1 =
      PaginationHelper.paginate {} answer cursor := by
  rw [← same]
  rfl

theorem paged_of_walk (walk : PaginationHelper.Walk {} answers call cursor pages) (planner : QueryPlanner S)
    (same : ∀ i, (executeQuery (orders i) planner plan).1 = answers i) :
    Paged plan orders call planner cursor pages := by
  induction walk generalizing planner with
  | last done =>
    rw [← paginated_fst (same _)] at done ⊢
    exact .last done
  | next more rest ih =>
    rw [← paginated_fst (same _)] at more ⊢
    exact .next more (ih _ fun i => (executeQuery_after ..).trans (same i))

theorem walk_of_paged {planner : QueryPlanner S} (paged : Paged plan orders call planner cursor pages)
    (same : ∀ i, (executeQuery (orders i) planner plan).1 = answers i) :
    PaginationHelper.Walk {} answers call cursor pages := by
  induction paged with
  | last done =>
    rw [paginated_fst (same _)] at done ⊢
    exact .last done
  | next more rest ih =>
    rw [paginated_fst (same _)] at more ⊢
    exact .next more (ih fun i => (executeQuery_after ..).trans (same i))

end paged

/-- The client reaches the end and has received each account of the result set
exactly once. -/
def ReceivesOnce (planner : QueryPlanner S) (plan : QueryPlan) (orders : Nat → HashOrder Pubkey) : Prop :=
  ∃ pages, Paged plan orders 0 planner none pages ∧ pages.flatten.Nodup ∧
    ∀ pubkey, pubkey ∈ pages.flatten ↔ pubkey ∈ (executeQuery (orders 0) planner plan).1

theorem receivesOnce_of_fixed {planner : QueryPlanner S} {plan : QueryPlan}
    {orders : Nat → HashOrder Pubkey} {all : List Pubkey} (distinct : all.Nodup)
    (fixed : ∀ call, (executeQuery (orders call) planner plan).1 = all) :
    ReceivesOnce planner plan orders := by
  obtain ⟨pages, walk, flat⟩ := @PaginationHelper.walk_fixed {} _ all (by decide) distinct fixed 0 0 none rfl rfl
  rw [List.drop_zero] at flat
  refine ⟨pages, paged_of_walk walk planner fun _ => rfl, flat ▸ distinct, fun pubkey => ?_⟩
  rw [flat, fixed]

theorem receivesOnce_of_short {planner : QueryPlanner S} {plan : QueryPlan}
    {orders : Nat → HashOrder Pubkey} (distinct : (executeQuery (orders 0) planner plan).1.Nodup)
    (short : (executeQuery (orders 0) planner plan).1.length < 100) :
    ReceivesOnce planner plan orders := by
  have walk := @PaginationHelper.walk_short {}
    (fun call => (executeQuery (orders call) planner plan).1) short
  refine ⟨_, paged_of_walk walk planner fun _ => rfl, ?_, fun pubkey => ?_⟩
  · rwa [List.flatten_singleton]
  · rw [List.flatten_singleton]

/-- With a full page of results, the reverse order repeats an account. -/
theorem not_receivesOnce {planner : QueryPlanner S} {plan : QueryPlan} {set : Finset Pubkey}
    (hashed : ∀ order, (executeQuery order planner plan).1 = order.list set) (order : HashOrder Pubkey)
    (many : 100 ≤ (order.list set).length) :
    ∃ orders, ¬ ReceivesOnce planner plan orders := by
  refine ⟨fun call => if call = 0 then order else order.reverse, ?_⟩
  rintro ⟨pages, paged, distinct, _⟩
  have walk := walk_of_paged paged fun _ => rfl
  exact PaginationHelper.walk_reverse (by decide) (order.nodup_list set) many (hashed _) (hashed _) walk distinct

/-- Whatever the orders of the calls, every account is received once, exactly
when no hash set is built or its accounts do not fill a page. -/
theorem paged_once_iff (changes : List ProgramChange) (planner : QueryPlanner S) (plan : QueryPlan)
    (order : HashOrder Pubkey) :
    let planner := { planner with programIndex := .build changes }
    (∀ orders, ReceivesOnce planner plan orders) ↔
      (∀ f ∈ plan.filters, planner.lookup f.filterType = none) ∨
        (executeQuery order planner plan).1.length < 100 := by
  intro planner
  cases program : planner.lookup (.program plan.programId) with
  | none =>
    have empty (order : HashOrder Pubkey) : (executeQuery order planner plan).1 = [] := by
      rw [executeQuery_missing program]
    refine iff_of_true (fun orders => receivesOnce_of_fixed .nil fun call => empty _) (.inr ?_)
    rw [empty]
    decide
  | some programAccounts =>
    have distinct : programAccounts.Nodup := (ProgramIndex.build_wellFormed changes).nodup_accounts program
    by_cases none : planner.filterSets plan.filters = []
    · refine iff_of_true (fun orders => receivesOnce_of_fixed distinct fun call => ?_)
        (.inl (filterSets_eq_nil_iff.mp none))
      rw [executeQuery_fixed program none]
    · have hashed (order : HashOrder Pubkey) : (executeQuery order planner plan).1 =
          order.list (planner.resultSet programAccounts plan.filters) := by
        rw [executeQuery_hashed program none]
      rw [or_iff_right (mt filterSets_eq_nil_iff.mpr none)]
      constructor
      · intro once
        by_contra many
        obtain ⟨orders, twice⟩ := not_receivesOnce hashed order (by rw [← hashed]; omega)
        exact twice (once orders)
      · intro short orders
        have length := (order.list_perm (orders 0) (planner.resultSet programAccounts plan.filters)).length_eq
        refine receivesOnce_of_short ?_ ?_
        · rw [hashed]
          exact (orders 0).nodup_list _
        · rw [hashed, ← length, ← hashed]
          exact short

/-- A filter with an answer and a full page of accounts that match are enough. -/
theorem not_receivesOnce_of_listed {planner : QueryPlanner S} {programId : Pubkey} {size : Nat}
    {accounts : List Pubkey} (distinct : accounts.Nodup) (many : 100 ≤ accounts.length)
    (ofProgram : ∀ account ∈ accounts, planner.programIndex.ids.Listed programId account)
    (ofSize : ∀ account ∈ accounts, planner.dataSizeIndex.ids.Listed size account) :
    ∃ orders, ¬ ReceivesOnce planner ⟨programId, [.dataSize size]⟩ orders := by
  obtain ⟨account, member⟩ := List.exists_mem_of_length_pos (l := accounts) (by omega)
  obtain ⟨programAccounts, program, _⟩ := ofProgram account member
  obtain ⟨sized, found, _⟩ := ofSize account member
  have answered : planner.filterSets [.dataSize size] ≠ [] :=
    List.ne_nil_of_mem ((mem_filterSets planner _ sized).mpr ⟨.dataSize size, by simp, found⟩)
  have covers : accounts.toFinset ⊆ planner.resultSet programAccounts [.dataSize size] := by
    intro a inside
    have listed := List.mem_toFinset.mp inside
    refine (mem_foldl_inter _ _ a).mpr ⟨List.mem_toFinset.mpr ?_, fun set among => ?_⟩
    · obtain ⟨again, same, here⟩ := ofProgram a listed
      cases Option.some.inj (program.symm.trans same)
      exact here
    · obtain ⟨f, named, answer⟩ := (mem_filterSets planner _ set).mp among
      rw [List.mem_singleton.mp named] at answer
      obtain ⟨again, same, here⟩ := ofSize a listed
      cases Option.some.inj (answer.symm.trans same)
      exact here
  have count := Finset.card_le_card covers
  rw [List.toFinset_card_of_nodup distinct] at count
  have hashed (order : HashOrder Pubkey) :=
    congrArg Prod.fst (@executeQuery_hashed S _ planner ⟨programId, [.dataSize size]⟩ _
      program answered order)
  refine not_receivesOnce hashed (.some Pubkey) ?_
  rw [HashOrder.length_list]
  exact Nat.le_trans many count

/-- A hundred accounts of one program and one size: the second page may repeat
the first. -/
theorem full_page_repeats :
    let program : Pubkey := Vector.replicate 32 255
    let accounts : List Pubkey :=
      (List.range 100).map fun i => (Vector.replicate 32 0).set 0 (UInt8.ofNat i)
    let planner : QueryPlanner SortedIds :=
      { programIndex := .build (accounts.map fun account => .addAccount account program 0)
        dataSizeIndex := accounts.foldl (fun index account => index.addAccount account 5 0) {}
        memcmpIndex := {}
        discriminatorIndex := {} }
    ∃ orders, ¬ ReceivesOnce planner ⟨program, [.dataSize 5]⟩ orders := by
  intro program accounts planner
  have distinct : accounts.Nodup := by
    refine List.Nodup.map_on (fun i inI j inJ same => ?_) List.nodup_range
    have first : UInt8.ofNat i = UInt8.ofNat j := by
      simpa using congrArg (fun pubkey : Pubkey => pubkey[0]) same
    have bytes := congrArg UInt8.toNat first
    rw [List.mem_range] at inI inJ
    simp only [UInt8.toNat_ofNat'] at bytes
    omega
  have none {K : Type} [Ord K] [Std.TransOrd K] (key : K) (account : Pubkey) :
      ¬ ({} : KeyedIndex SortedIds K).ids.Listed key account := by
    simp [IdBitmaps.Listed, IdBitmaps.accounts]
  have ofProgram (account : Pubkey) : planner.programIndex.ids.Listed program account ↔ account ∈ accounts := by
    have listed := (KeyedIndex.listed_addAll (@KeyedIndex.empty_wellFormed SortedIds Pubkey _ _ _) accounts
      program).2 program account
    simpa [planner, ProgramIndex.build, ProgramIndex.change, ProgramIndex.addAccount, List.foldl_map, none]
      using listed
  have ofSize (account : Pubkey) : planner.dataSizeIndex.ids.Listed 5 account ↔ account ∈ accounts := by
    have listed :=
      (KeyedIndex.listed_addAll (@KeyedIndex.empty_wellFormed SortedIds Nat _ _ _) accounts 5).2 5 account
    simpa [planner, DataSizeIndex.addAccount, none] using listed
  exact not_receivesOnce_of_listed distinct (by simp [accounts]) (fun account => (ofProgram account).mpr)
    (fun account => (ofSize account).mpr)

end QueryPlanner

end Hyperplane

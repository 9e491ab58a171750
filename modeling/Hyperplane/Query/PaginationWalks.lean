import Mathlib.Algebra.Ring.Nat
import Hyperplane.Query.Pagination

/-! Walks over the pages of one list: the whole of it while it stays as it is, and what a
cursor gives of it after deletions. -/
namespace Hyperplane

def PaginationCursor.fromOffset (offset : UInt64) (limit : Nat) : PaginationCursor :=
  ⟨none, some offset, limit⟩

namespace PaginationHelper

/-- A page, or nothing where the sum of start and limit does not fit into 64 bits. -/
def paginateChecked (self : PaginationHelper) (results : List Pubkey) (cursor : Option PaginationCursor) :
    Option PaginatedResult :=
  if startIndex results cursor + self.limit cursor < 2 ^ 64 then some (self.paginate results cursor) else none

/-- The cursors are followed to the page without one. -/
inductive Pages (self : PaginationHelper) (results : List Pubkey) :
    Option PaginationCursor → List PaginatedResult → Prop where
  | last {cursor : Option PaginationCursor} {page : PaginatedResult}
      (cut : self.paginateChecked results cursor = some page) (done : page.nextCursor = none) :
      Pages self results cursor [page]
  | next {cursor : Option PaginationCursor} {page : PaginatedResult} {next : PaginationCursor}
      {pages : List PaginatedResult} (cut : self.paginateChecked results cursor = some page)
      (more : page.nextCursor = some next) (rest : Pages self results (some next) pages) :
      Pages self results cursor (page :: pages)

/-- No cursor, or one with an offset. -/
inductive StartsAt (self : PaginationHelper) (limit : Nat) : Option PaginationCursor → Nat → Prop where
  | beginning (default : self.defaultLimit = limit) : StartsAt self limit none 0
  | offset (offset : UInt64) : StartsAt self limit (some (.fromOffset offset limit)) offset.toNat

/-- The pages delivered so far and the cursor to go on with. -/
inductive Walked (self : PaginationHelper) (results : List Pubkey) (start : Option PaginationCursor) :
    List (List Pubkey) → Option PaginationCursor → Prop where
  | start : Walked self results start [] start
  | page {pages : List (List Pubkey)} {cursor : Option PaginationCursor} {page : PaginatedResult}
      {next : PaginationCursor} (before : Walked self results start pages cursor)
      (cut : self.paginateChecked results cursor = some page) (more : page.nextCursor = some next) :
      Walked self results start (pages ++ [page.results]) (some next)

section whole

variable {self : PaginationHelper} {results : List Pubkey} {limit : Nat}

theorem Pages.unique {cursor : Option PaginationCursor} {pages others : List PaginatedResult}
    (followed : self.Pages results cursor pages) (other : self.Pages results cursor others) :
    others = pages := by
  induction followed generalizing others with
  | last cut done =>
    cases other with
    | last again _ => rw [Option.some.inj (again.symm.trans cut)]
    | next again more _ =>
      rw [Option.some.inj (again.symm.trans cut), done] at more
      cases more
  | next cut more rest ih =>
    cases other with
    | last again done =>
      rw [Option.some.inj (again.symm.trans cut), more] at done
      cases done
    | next again also later =>
      rw [Option.some.inj (again.symm.trans cut)] at also ⊢
      cases Option.some.inj (more.symm.trans also)
      rw [ih later]

/-- From a position inside the list or past its end, by induction on what is left of it. -/
theorem pages_from (distinct : results.Nodup) (positive : 0 < limit)
    (short : results.length + limit < 2 ^ 64) (k : Nat) (cursor : Option PaginationCursor)
    (fits : k + limit < 2 ^ 64) (limited : self.limit cursor = limit) (start : startIndex results cursor = k) :
    ∃ pages, self.Pages results cursor pages ∧
      (pages.map PaginatedResult.results).flatten = results.drop k ∧
      ∀ page ∈ pages, page.results.length ≤ limit ∧ page.totalCount = some (UInt64.ofNat results.length) := by
  induction left : results.length - k using Nat.strongRecOn generalizing k cursor with
  | ind n ih =>
    have cut : self.paginateChecked results cursor = some (self.paginate results cursor) :=
      if_pos (by rw [start, limited]; exact fits)
    have page : (self.paginate results cursor).results = (results.drop k).take limit := by
      rw [results_paginate, start, limited]
    have sized : (self.paginate results cursor).results.length ≤ limit ∧
        (self.paginate results cursor).totalCount = some (UInt64.ofNat results.length) := by
      rw [page]
      exact ⟨List.length_take_le .., rfl⟩
    by_cases whole : k + limit ≤ results.length
    · have position := startIndex_fromPubkey distinct (k := k + limit - 1) (by omega) limit
      obtain ⟨pages, followed, flat, all⟩ := ih (results.length - (k + limit)) (by omega) (k + limit) _
        (by omega) rfl (position.trans (by omega)) rfl
      refine ⟨_, .next cut (nextCursor_full start limited positive whole) followed, ?_, ?_⟩
      · rw [List.map_cons, List.flatten_cons, flat, page, ← List.drop_drop, List.take_append_drop]
      · exact List.forall_mem_cons.mpr ⟨sized, all⟩
    · refine ⟨_, .last cut (nextCursor_short ?_), ?_, ?_⟩
      · rw [start, limited]
        omega
      · rw [List.map_singleton, List.flatten_singleton, page, List.take_of_length_le]
        rw [List.length_drop]
        omega
      · exact List.forall_mem_singleton.mpr sized

/-- Over a list that does not change the pages end, and together they are the list from the
start on. -/
theorem pages_whole (distinct : results.Nodup) (positive : 0 < limit) {start : Option PaginationCursor}
    {offset : Nat} (starts : self.StartsAt limit start offset) (short : results.length + limit < 2 ^ 64)
    (fits : offset + limit < 2 ^ 64) :
    ∃ pages, (∀ followed, self.Pages results start followed ↔ followed = pages) ∧
      (pages.map PaginatedResult.results).flatten = results.drop offset ∧
      ∀ page ∈ pages, page.results.length ≤ limit ∧
        page.totalCount.map UInt64.toNat = some results.length := by
  have limited : self.limit start = limit ∧ startIndex results start = offset := by
    cases starts with
    | beginning default => exact ⟨default, rfl⟩
    | offset offset => exact ⟨rfl, rfl⟩
  obtain ⟨pages, followed, flat, all⟩ := pages_from distinct positive short offset start fits limited.1 limited.2
  refine ⟨pages, fun other => ⟨followed.unique, fun same => same ▸ followed⟩, flat, fun page member => ?_⟩
  obtain ⟨sized, counted⟩ := all page member
  rw [counted, Option.map_some, UInt64.toNat_ofNat', Nat.mod_eq_of_lt (by omega)]
  exact ⟨sized, rfl⟩

/-- Three accounts from the second on, two to a page: a full page and an empty one. -/
theorem pages_whole_second :
    let results : List Pubkey := [.replicate 32 1, .replicate 32 2, .replicate 32 3]
    ∃ pages, (∀ followed, ({} : PaginationHelper).Pages results (some (.fromOffset 1 2)) followed ↔
        followed = pages) ∧
      (pages.map PaginatedResult.results).flatten = results.drop 1 ∧
      ∀ page ∈ pages, page.results.length ≤ 2 ∧ page.totalCount.map UInt64.toNat = some 3 :=
  pages_whole (by decide +kernel) (by decide) (.offset 1) (by decide) (by decide)

end whole

section deletions

variable {self : PaginationHelper} {results : List Pubkey} {start cursor : Option PaginationCursor}

/-- A page with a cursor is full, and the cursor names its last account. -/
theorem page_more {page : PaginatedResult} {next : PaginationCursor}
    (cut : self.paginateChecked results cursor = some page) (more : page.nextCursor = some next) :
    self.limit cursor < 2 ^ 64 ∧
      page.results = (results.drop (startIndex results cursor)).take (self.limit cursor) ∧
      ∃ front last, page.results = front ++ [last] ∧ next = .fromPubkey last (self.limit cursor) := by
  obtain ⟨fits, whole⟩ := Option.ite_none_right_eq_some.mp cut
  cases Option.some.inj whole
  refine ⟨by omega, results_paginate .., ?_⟩
  rw [nextCursor_paginate, Option.ite_none_left_eq_some, Option.map_eq_some_iff] at more
  obtain ⟨_, last, final, named⟩ := more
  obtain ⟨front, split⟩ := List.getLast?_eq_some_iff.mp final
  exact ⟨front, last, split, named.symm⟩

theorem findIdx?_absent {pubkey : Pubkey} (absent : pubkey ∉ results) : results.findIdx? (· == pubkey) = none := by
  refine List.findIdx?_eq_none_iff.mpr fun other member => ?_
  rw [beq_eq_false_iff_ne]
  exact fun same => absent (same ▸ member)

theorem drop_startIndex {front rest : List Pubkey} {last : Pubkey} (fresh : last ∉ front) (limit : Nat) :
    (front ++ last :: rest).drop (startIndex (front ++ last :: rest) (some (.fromPubkey last limit))) = rest := by
  have before := findIdx?_absent fresh
  have position : startIndex (front ++ last :: rest) (some (.fromPubkey last limit)) = front.length + 1 := by
    simp [startIndex, PaginationCursor.fromPubkey, List.findIdx?_append, before, List.findIdx?_cons]
  rw [position, ← List.drop_drop, List.drop_left]
  rfl

theorem startIndex_absent {last : Pubkey} (absent : last ∉ results) (limit : Nat) :
    startIndex results (some (.fromPubkey last limit)) = 0 := by
  have nowhere := findIdx?_absent absent
  simp [startIndex, PaginationCursor.fromPubkey, nowhere]

/-- What a walk has delivered follows what comes before its start, up to the account its
cursor names. -/
theorem Walked.delivered {head : List Pubkey} {pages : List (List Pubkey)} (distinct : results.Nodup)
    (begins : head ++ results.drop (startIndex results start) = results)
    (walked : self.Walked results start pages cursor) :
    self.limit cursor = self.limit start ∧
      head ++ pages.flatten ++ results.drop (startIndex results cursor) = results ∧
      ∀ next, cursor = some next → pages ≠ [] → self.limit start < 2 ^ 64 ∧
        ∃ front last, pages.flatten = front ++ [last] ∧ next = .fromPubkey last (self.limit start) := by
  induction walked with
  | start => exact ⟨rfl, by simpa using begins, fun _ _ some => absurd rfl some⟩
  | @page pages cursor page next before cut more ih =>
    obtain ⟨limited, split, _⟩ := ih
    obtain ⟨fits, taken, front, last, full, named⟩ := page_more cut more
    generalize results.drop (startIndex results cursor) = rest at split taken
    rw [limited] at taken named fits
    subst named
    have flat : (pages ++ [page.results]).flatten = pages.flatten ++ front ++ [last] := by
      rw [List.flatten_append, List.flatten_singleton, full, List.append_assoc]
    have again : head ++ pages.flatten ++ front ++ last :: rest.drop (self.limit start) = results := by
      calc head ++ pages.flatten ++ front ++ last :: rest.drop (self.limit start)
        _ = head ++ pages.flatten ++ (front ++ [last] ++ rest.drop (self.limit start)) := by simp
        _ = head ++ pages.flatten ++ rest := by rw [← full, taken, List.take_append_drop]
        _ = results := split
    have fresh : last ∉ head ++ pages.flatten ++ front := by
      intro earlier
      rw [← again] at distinct
      exact (List.nodup_append.mp distinct).2.2 _ earlier _ List.mem_cons_self rfl
    have left := @drop_startIndex _ (rest.drop (self.limit start)) _ fresh (self.limit start)
    rw [again] at left
    refine ⟨rfl, ?_, fun _ same _ => ?_⟩
    · rw [left, flat, ← again]
      simp
    · cases Option.some.inj same
      exact ⟨fits, _, last, flat, rfl⟩

/-- A sublist that kept one element kept nothing of the front behind it. -/
theorem split_at_kept {front rest after : List Pubkey} {last : Pubkey} (distinct : (front ++ last :: rest).Nodup)
    (kept : after.Sublist (front ++ last :: rest)) (present : last ∈ after) :
    ∃ earlier later, after = earlier ++ last :: later ∧ last ∉ earlier ∧ later.Sublist rest := by
  obtain ⟨_, behind, apart⟩ := List.nodup_append.mp distinct
  obtain ⟨earlier, later, rfl, inFront, inRest⟩ := List.sublist_append_iff.mp kept
  have fresh : last ∉ earlier := fun member => apart _ (inFront.subset member) _ List.mem_cons_self rfl
  cases inRest with
  | cons _ inRest =>
    have member := (List.mem_append.mp present).resolve_left fresh
    exact absurd (inRest.subset member) (List.nodup_cons.mp behind).1
  | cons_cons _ inRest => exact ⟨earlier, _, rfl, fresh, inRest⟩

/-- The first accounts of what is left, cut without a cursor. -/
theorem take_apart_iff {head delivered rest after : List Pubkey} (distinct : (head ++ delivered ++ rest).Nodup)
    (kept : after.Sublist (head ++ delivered ++ rest)) (limit : Nat) :
    (∀ account ∈ after.take limit, account ∉ delivered) ↔
      (∀ account ∈ after, account ∉ delivered) ∨
        limit ≤ (after.filter fun account => account ∈ head).length := by
  obtain ⟨front, apart⟩ := List.nodup_append.mp distinct |>.imp_right And.right
  have headApart := (List.nodup_append.mp front).2.2
  obtain ⟨inFront, later, rfl, sub, inRest⟩ := List.sublist_append_iff.mp kept
  obtain ⟨early, left, rfl, inHead, inDelivered⟩ := List.sublist_append_iff.mp sub
  have all : early.filter (fun account => account ∈ head) = early :=
    List.filter_eq_self.mpr fun account member => decide_eq_true (inHead.subset member)
  have none : (left ++ later).filter (fun account => account ∈ head) = [] := by
    refine List.filter_eq_nil_iff.mpr fun account member inside => ?_
    have inside := of_decide_eq_true inside
    rcases List.mem_append.mp member with inLeft | inLater
    · exact headApart _ inside _ (inDelivered.subset inLeft) rfl
    · exact apart _ (List.mem_append_left _ inside) _ (inRest.subset inLater) rfl
  rw [List.append_assoc, List.filter_append, all, none, List.append_nil]
  constructor
  · intro page
    by_contra neither
    obtain ⟨still, short⟩ := not_or.mp neither
    cases left with
    | nil =>
      refine still fun account member inside => ?_
      rcases List.mem_append.mp member with inEarly | inLater
      · exact headApart _ (inHead.subset inEarly) _ inside rfl
      · exact apart _ (List.mem_append_right _ inside) _ (inRest.subset inLater) rfl
    | cons account left =>
      -- The first delivered account that is left stands right behind the head.
      refine page account ?_ (inDelivered.subset List.mem_cons_self)
      obtain ⟨k, room⟩ : ∃ k, limit - early.length = k + 1 := ⟨limit - early.length - 1, by omega⟩
      rw [List.take_append, room]
      exact List.mem_append_right _ List.mem_cons_self
  · rintro (none | full) account member
    · exact none account (List.mem_of_mem_take member)
    · rw [List.take_append_of_le_length full] at member
      exact fun inside => headApart _ (inHead.subset (List.mem_of_mem_take member)) _ inside rfl

/-- The page behind an account that was kept has nothing of what was before it. -/
theorem page_of_present {head front rest after : List Pubkey} {last : Pubkey}
    (distinct : (head ++ (front ++ [last]) ++ rest).Nodup)
    (kept : after.Sublist (head ++ (front ++ [last]) ++ rest)) (present : last ∈ after) {limit : Nat}
    {page : PaginatedResult} (cut : self.paginateChecked after (some (.fromPubkey last limit)) = some page) :
    ∀ account ∈ page.results, account ∉ front ++ [last] := by
  intro account member again
  have shape : head ++ (front ++ [last]) ++ rest = head ++ front ++ last :: rest := by simp
  obtain ⟨earlier, later, rfl, fresh, inRest⟩ := split_at_kept (shape ▸ distinct) (shape ▸ kept) present
  cases Option.some.inj (Option.ite_none_right_eq_some.mp cut).2
  rw [results_paginate, drop_startIndex fresh] at member
  have behind := inRest.subset (List.mem_of_mem_take member)
  exact (List.nodup_append.mp distinct).2.2 _ (List.mem_append_right _ again) _ behind rfl

/-- Without the account that a cursor names the page is the first one. -/
theorem page_of_absent {after : List Pubkey} {last : Pubkey} {limit : Nat} (absent : last ∉ after)
    (fits : limit < 2 ^ 64) : ∃ page,
      self.paginateChecked after (some (.fromPubkey last limit)) = some page ∧
        page.results = after.take limit := by
  have beginning := startIndex_absent absent limit
  refine ⟨_, if_pos ?_, ?_⟩
  · rw [beginning, Nat.zero_add]
    exact fits
  · rw [results_paginate, beginning]
    rfl

end deletions

/-- After deletions a cursor gives an account again exactly when its own account is gone, one
of those delivered is left, and fewer than a page from before the start of the walk are. -/
theorem survives_iff {self : PaginationHelper} {before after : List Pubkey} {start : Option PaginationCursor}
    {pages : List (List Pubkey)} {cursor : PaginationCursor} (distinct : before.Nodup)
    (deleted : after.Sublist before) (walked : self.Walked before start pages (some cursor))
    (delivered : pages ≠ []) :
    (∀ page, self.paginateChecked after (some cursor) = some page →
      ∀ account ∈ page.results, account ∉ pages.flatten) ↔
      (∃ last ∈ after, cursor.lastPubkey = some last) ∨ (∀ account ∈ after, account ∉ pages.flatten) ∨
        cursor.limit ≤ (after.filter fun account =>
          account ∈ before.take (startIndex before start)).length := by
  obtain ⟨_, split, ends⟩ := walked.delivered distinct (List.take_append_drop ..)
  obtain ⟨fits, front, last, flat, rfl⟩ := ends cursor rfl delivered
  generalize before.take (startIndex before start) = head at split ⊢
  generalize before.drop _ = rest at split
  rw [← split] at distinct deleted
  by_cases present : last ∈ after
  · rw [flat] at distinct deleted ⊢
    exact iff_of_true (fun page => page_of_present distinct deleted present) (.inl ⟨last, present, rfl⟩)
  · obtain ⟨page, cut, first⟩ := @page_of_absent self after last (self.limit start) present fits
    rw [or_iff_right (fun ⟨other, among, same⟩ => present (Option.some.inj same ▸ among)), cut]
    refine Iff.trans ?_ (take_apart_iff distinct deleted (self.limit start))
    rw [← first]
    exact ⟨fun apart => apart page rfl, fun apart other same => Option.some.inj same ▸ apart⟩

theorem walked_two (a b c : Pubkey) : ({ defaultLimit := 2 } : PaginationHelper).Walked [a, b, c] none
    [[a, b]] (some (.fromPubkey b 2)) :=
  @Walked.page _ _ none [] none (({ defaultLimit := 2 } : PaginationHelper).paginate [a, b, c] none) _
    .start rfl rfl

/-- Two accounts to a page, and the one that the cursor names is kept. -/
theorem survives_kept :
    let a : Pubkey := .replicate 32 1
    let b : Pubkey := .replicate 32 2
    let c : Pubkey := .replicate 32 3
    let self : PaginationHelper := { defaultLimit := 2 }
    ∀ page, self.paginateChecked [b, c] (some (.fromPubkey b 2)) = some page →
      ∀ account ∈ page.results, account ∉ [[a, b]].flatten :=
  (survives_iff (by decide +kernel) (.cons _ (.refl _)) (walked_two ..) (List.cons_ne_nil _ _)).mpr
    (.inl ⟨_, List.mem_cons_self, rfl⟩)

/-- The account that the cursor names is deleted: the next page starts over. -/
theorem page_given_again :
    let a : Pubkey := .replicate 32 1
    let b : Pubkey := .replicate 32 2
    let c : Pubkey := .replicate 32 3
    let self : PaginationHelper := { defaultLimit := 2 }
    [a, b, c].Nodup ∧ [a, c].Sublist [a, b, c] ∧
      self.Walked [a, b, c] none [[a, b]] (some (.fromPubkey b 2)) ∧
      ∃ page, self.paginateChecked [a, c] (some (.fromPubkey b 2)) = some page ∧
        a ∈ page.results ∧ a ∈ [[a, b]].flatten := by
  intro a b c self
  obtain ⟨page, cut, first⟩ := @page_of_absent self [a, c] b 2 (by decide +kernel) (by decide)
  refine ⟨by decide +kernel, .cons_cons _ (.cons _ (.refl _)), walked_two .., page, cut, ?_, List.mem_cons_self⟩
  rw [first]
  exact List.mem_cons_self

end PaginationHelper

end Hyperplane

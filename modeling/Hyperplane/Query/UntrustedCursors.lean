import Hyperplane.Lib.Checked
import Hyperplane.Query.Pagination

/-! Pages for any cursor a client sends. Sums of 64 bits wrap around, and a slice whose
ends are out of order panics. -/
namespace Hyperplane

structure LimitedHelper extends PaginationHelper where
  maxLimit : Nat := 1000

/-- The check of a limit; cutting a page does not call it. -/
def LimitedHelper.validateLimit (self : LimitedHelper) : Option Nat → Nat
  | none => self.defaultLimit
  | some limit => min limit self.maxLimit

namespace PaginationHelper

def paginate64 (self : PaginationHelper) (results : List Pubkey) (cursor : Option PaginationCursor) :
    Outcome Empty PaginatedResult := do
  let limit := self.limit cursor
  let start := startIndex results cursor
  let stop := min ((start + limit) % 2 ^ 64) results.length
  let page ← if results.length ≤ start then .ok []
    else if start ≤ stop then .ok ((results.take stop).drop start) else .fault
  return .new page limit (some (UInt64.ofNat results.length))

section cursor

variable {self : PaginationHelper} {results : List Pubkey} {cursor : Option PaginationCursor}

theorem paginate64_past (past : results.length ≤ startIndex results cursor) :
    self.paginate64 results cursor = .ok (self.paginate results cursor) := by
  simp [paginate64, paginate, if_pos past]

theorem paginate64_fits (fits : startIndex results cursor + self.limit cursor < 2 ^ 64) :
    self.paginate64 results cursor = .ok (self.paginate results cursor) := by
  by_cases past : results.length ≤ startIndex results cursor
  · exact paginate64_past past
  · have ordered : startIndex results cursor ≤
        min (startIndex results cursor + self.limit cursor) results.length := by omega
    simp only [paginate64, paginate, Nat.mod_eq_of_lt fits, if_neg past, if_pos ordered]
    rfl

/-- A sum that wraps around lies before the start. -/
theorem paginate64_wraps (inside : startIndex results cursor < results.length)
    (limited : self.limit cursor < 2 ^ 64)
    (wraps : 2 ^ 64 ≤ startIndex results cursor + self.limit cursor) :
    self.paginate64 results cursor = .fault := by
  have before : ¬ startIndex results cursor ≤
      min ((startIndex results cursor + self.limit cursor) % 2 ^ 64) results.length := by omega
  simp only [paginate64, if_neg (Nat.not_le.mpr inside), if_neg before]
  rfl

end cursor

end PaginationHelper

namespace LimitedHelper
open PaginationHelper

/-- A page without a panic: consecutive results, at most the maximum of them. -/
def PageBounded (self : LimitedHelper) (results : List Pubkey) (cursor : PaginationCursor) : Prop :=
  ∃ page, self.paginate64 results (some cursor) = .ok page ∧
    page.results <:+: results ∧ page.results.length ≤ self.maxLimit

theorem pageBounded_of_ok {self : LimitedHelper} {results : List Pubkey} {cursor : PaginationCursor}
    (ok : self.paginate64 results (some cursor) = .ok (self.paginate results (some cursor))) :
    self.PageBounded results cursor ↔
      min cursor.limit (results.length - startIndex results (some cursor)) ≤ self.maxLimit := by
  have page := results_paginate self.toPaginationHelper results (some cursor)
  have length : (self.paginate results (some cursor)).results.length =
      min cursor.limit (results.length - startIndex results (some cursor)) := by
    rw [page, List.length_take, List.length_drop]
    rfl
  unfold PageBounded
  rw [ok, ← length]
  constructor
  · rintro ⟨_, same, _, short⟩
    cases same
    exact short
  · intro short
    refine ⟨_, rfl, ?_, short⟩
    rw [page]
    exact (List.take_prefix _ _).isInfix.trans (List.drop_suffix _ _).isInfix

/-- With the limit checked first a page is bounded, as long as its end does not wrap around. -/
theorem validateLimit_pageBounded (self : LimitedHelper) (results : List Pubkey) (cursor : PaginationCursor)
    (fits : startIndex results (some cursor) + self.maxLimit < 2 ^ 64) :
    self.PageBounded results { cursor with limit := self.validateLimit (some cursor.limit) } := by
  let checked : PaginationCursor := { cursor with limit := self.validateLimit (some cursor.limit) }
  have within : self.limit (some checked) ≤ self.maxLimit := Nat.min_le_right _ _
  have sum : startIndex results (some checked) + self.limit (some checked) < 2 ^ 64 :=
    Nat.lt_of_le_of_lt (Nat.add_le_add_left within _) fits
  exact (pageBounded_of_ok (paginate64_fits sum)).mpr (Nat.le_trans (Nat.min_le_left _ _) within)

/-- A cursor gives a bounded page exactly when it starts past the results, or its end
does not wrap around and its limit or what is left of the results is within the maximum. -/
theorem pageBounded_iff (self : LimitedHelper) (results : List Pubkey) (lastPubkey : Option Pubkey)
    (offset : Option UInt64) (limit : UInt64) :
    let cursor : PaginationCursor := ⟨lastPubkey, offset, limit.toNat⟩
    let start := startIndex results (some cursor)
    self.PageBounded results cursor ↔ results.length ≤ start ∨ start + limit.toNat < 2 ^ 64 ∧
      (limit.toNat ≤ self.maxLimit ∨ results.length - start ≤ self.maxLimit) := by
  intro cursor start
  by_cases past : results.length ≤ start
  · rw [pageBounded_of_ok (paginate64_past past)]
    omega
  by_cases fits : start + limit.toNat < 2 ^ 64
  · rw [pageBounded_of_ok (paginate64_fits fits), min_le_iff]
    simp only [past, fits, false_or, true_and]
    rfl
  · have limited : self.limit (some cursor) = limit.toNat := rfl
    have wraps : self.paginate64 results (some cursor) = .fault :=
      paginate64_wraps (by omega) limit.toNat_lt (by omega)
    simp only [PageBounded, wraps, past, fits, false_or, false_and, iff_false]
    rintro ⟨page, impossible, _⟩
    cases impossible

/-- The largest limit at the second of two results panics, and a limit above the
maximum is granted. -/
theorem page_not_bounded : let helper : LimitedHelper := {}
    let pubkey : Pubkey := .replicate 32 1
    ¬ helper.PageBounded [pubkey, pubkey] ⟨none, some 1, 2 ^ 64 - 1⟩ ∧
    ¬ helper.PageBounded (.replicate 1001 pubkey) ⟨none, none, 1001⟩ := by
  intro helper pubkey
  constructor
  · rintro ⟨page, ok, _⟩
    have wraps : helper.paginate64 [pubkey, pubkey] (some ⟨none, some 1, 2 ^ 64 - 1⟩) = .fault :=
      paginate64_wraps (by decide) (by decide) (by decide)
    rw [wraps] at ok
    cases ok
  · rw [pageBounded_of_ok (paginate64_fits (by decide)), List.length_replicate]
    decide

end LimitedHelper

end Hyperplane

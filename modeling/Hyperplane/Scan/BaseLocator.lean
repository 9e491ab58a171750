import Hyperplane.Lib.Maps
import Hyperplane.Scan.AccountParser

/-! The base locator built from scanned accounts. -/
namespace Hyperplane
open Maps

def buildBaseLocator (accounts : List ParsedAccount) : Std.TreeMap Pubkey AccountLocation :=
  accounts.foldl (fun locator account => locator.insert account.pubkey account.location) ∅

/-- Every pubkey of the list is mapped to the location of one of its accounts,
and no account with that pubkey is newer. -/
def MapsNewest (accounts : List ParsedAccount) (locator : Std.TreeMap Pubkey AccountLocation) : Prop :=
  ∀ account ∈ accounts, ∃ chosen ∈ accounts, chosen.pubkey = account.pubkey ∧
    locator[account.pubkey]? = some chosen.location ∧
      ∀ other ∈ accounts, other.pubkey = account.pubkey →
        ¬ other.location.isNewerThan chosen.location

/-- Of the accounts with one pubkey the one that is last in the list is not
older than any other. -/
def LastIsNewest (accounts : List ParsedAccount) : Prop :=
  ∀ before last after, accounts = before ++ last :: after →
    (∀ other ∈ after, other.pubkey ≠ last.pubkey) →
      ∀ other ∈ before, other.pubkey = last.pubkey → ¬ other.location.isNewerThan last.location

theorem not_isNewerThan_self (location : AccountLocation) : ¬ location.isNewerThan location := by
  simp [AccountLocation.isNewerThan]

theorem buildBaseLocator_last {accounts : List ParsedAccount} {account : ParsedAccount}
    (last : Last (·.pubkey) accounts account) :
    (buildBaseLocator accounts)[account.pubkey]? = some account.location :=
  insertAll_last last (·.location) ∅

theorem buildBaseLocator_newest_iff (accounts : List ParsedAccount) :
    MapsNewest accounts (buildBaseLocator accounts) ↔ LastIsNewest accounts := by
  constructor
  · rintro newest before last after rfl none other earlier same
    obtain ⟨chosen, _, _, found, least⟩ := newest last (by simp)
    have located := buildBaseLocator_last ⟨before, after, rfl, none⟩
    rw [located] at found
    rw [Option.some.inj found]
    exact least other (by simp [earlier]) same
  · intro newest account member
    obtain ⟨last, ⟨before, after, rfl, none⟩, same⟩ :
        ∃ last, Last (·.pubkey) accounts last ∧ last.pubkey = account.pubkey :=
      exists_last ⟨account, member, rfl⟩
    have located := buildBaseLocator_last ⟨before, after, rfl, none⟩
    rw [same] at located
    refine ⟨last, by simp, same, located, ?_⟩
    intro other among equal
    rcases List.mem_append.mp among with earlier | rest
    · exact newest before last after rfl none other earlier (equal.trans same.symm)
    · rcases List.mem_cons.mp rest with rfl | later
      · exact not_isNewerThan_self other.location
      · exact absurd (equal.trans same.symm) (none other later)

/-- An account stored at slot 5 and, later in the list, at slot 3. -/
theorem older_version_wins :
    let newer : ParsedAccount := ⟨Vector.replicate 32 1, Vector.replicate 32 2, 0, false, 0, 5, 0, [],
      ⟨7, 0, 97, 97, 0, 5, 0, .base⟩⟩
    let older : ParsedAccount := { newer with slot := 3, location := ⟨8, 0, 97, 97, 0, 3, 0, .base⟩ }
    ¬ MapsNewest [newer, older] (buildBaseLocator [newer, older]) := by
  intro newer older newest
  obtain ⟨chosen, member, _, found, least⟩ := newest newer (by simp)
  have located : (buildBaseLocator [newer, older])[newer.pubkey]? = some older.location :=
    @buildBaseLocator_last [newer, older] older ⟨[newer], [], rfl, by simp⟩
  rw [located] at found
  have older_chosen := least newer (by simp) rfl
  rw [← Option.some.inj found] at older_chosen
  exact older_chosen rfl

end Hyperplane

import Mathlib.Data.Finset.Card
import Mathlib.Data.Nat.Basic
import Mathlib.Order.Lattice

/-!
# Voting in rounds over intersecting quorums

Voters, of which some are honest, vote in numbered rounds.  A value is committed
in a round once a quorum has voted for it there.  The laws below say what honest
voters owe each other when they move between rounds; they force every later
proposal to repeat a committed value.
-/

namespace DvSpec.Library

/-! ## Counting voters -/

section Voters

variable {α ι : Type} [DecidableEq ι] (voter : α → ι)

/-- The distinct voters behind a list of votes. -/
def voters (votes : List α) : Finset ι := (votes.map voter).toFinset

theorem mem_voters {votes : List α} {who : ι} :
    who ∈ voters voter votes ↔ ∃ vote ∈ votes, voter vote = who := by
  simp [voters]

theorem card_voters_le (votes : List α) : (voters voter votes).card ≤ votes.length := by
  simpa [voters] using List.toFinset_card_le (votes.map voter)

theorem card_voters_of_nodup {votes : List α} (distinct : (votes.map voter).Nodup) :
    (voters voter votes).card = votes.length := by
  simpa [voters] using List.toFinset_card_of_nodup distinct

theorem voters_mono {votes more : List α} (included : votes ⊆ more) :
    voters voter votes ⊆ voters voter more := by
  intro who member
  obtain ⟨vote, among, by_who⟩ := (mem_voters voter).mp member
  exact (mem_voters voter).mpr ⟨vote, included among, by_who⟩

end Voters

/-! ## Quorum systems -/

/-- A family of quorums any two of which share an honest voter. -/
structure QuorumSystem (ι : Type) where
  IsQuorum : Finset ι → Prop
  Honest : ι → Prop
  share : ∀ {first second : Finset ι}, IsQuorum first → IsQuorum second →
    ∃ who, who ∈ first ∧ who ∈ second ∧ Honest who

/-- Sets of at least `size` among `population` voters form a quorum system as
soon as two of them overlap in more than the number of dishonest voters. -/
def QuorumSystem.threshold {ι : Type} [DecidableEq ι] (population dishonest : Finset ι)
    (size : Nat) (overlap : population.card + dishonest.card < 2 * size) :
    QuorumSystem ι where
  IsQuorum voters := voters ⊆ population ∧ size ≤ voters.card
  Honest who := who ∈ population ∧ who ∉ dishonest
  share := by
    rintro first second ⟨firstIn, firstSize⟩ ⟨secondIn, secondSize⟩
    have union_le : (first ∪ second).card ≤ population.card :=
      Finset.card_le_card (Finset.union_subset firstIn secondIn)
    have counted := Finset.card_union_add_card_inter first second
    have more : dishonest.card < (first ∩ second).card := by omega
    obtain ⟨who, member, honest⟩ := Finset.exists_mem_notMem_of_card_lt_card more
    have inFirst := (Finset.mem_inter.mp member).1
    exact ⟨who, inFirst, (Finset.mem_inter.mp member).2, firstIn inFirst, honest⟩

/-! ## Round based voting -/

/-- What the honest voters said in each round: which proposals they took up, and
their prepare, commit and round change votes.  A round change vote for a round
reports the latest round its voter had prepared, zero when there is none. -/
structure VotingHistory (ι ν : Type) where
  proposed : Nat → ν → Prop
  prepare : ι → Nat → ν → Prop
  commit : ι → Nat → ν → Prop
  roundChange : ι → Nat → Nat → Prop

namespace VotingHistory

variable {ι ν : Type} (history : VotingHistory ι ν) (system : QuorumSystem ι)

/-- The honest members of some quorum all voted to prepare the value. -/
def Prepared (round : Nat) (value : ν) : Prop :=
  ∃ quorum, system.IsQuorum quorum ∧
    ∀ who ∈ quorum, system.Honest who → history.prepare who round value

/-- The honest members of some quorum all voted to commit the value. -/
def Committed (round : Nat) (value : ν) : Prop :=
  ∃ quorum, system.IsQuorum quorum ∧
    ∀ who ∈ quorum, system.Honest who → history.commit who round value

/-- A proposal after the first round rests on a quorum that reported no prepared
round beyond `prepared`, and on a prepared value at `prepared` unless it is zero. -/
def Certified (round : Nat) (value : ν) : Prop :=
  ∃ prepared < round,
    (∃ quorum, system.IsQuorum quorum ∧ ∀ who ∈ quorum, system.Honest who →
      ∃ reported ≤ prepared, history.roundChange who round reported) ∧
    (prepared = 0 ∨ history.Prepared system prepared value)

/-! ### Growing histories -/

section Growth

variable {history system} {more : VotingHistory ι ν}

theorem Prepared.mono {round : Nat} {value : ν} (prepared : history.Prepared system round value)
    (prepare : ∀ {who round value}, history.prepare who round value →
      more.prepare who round value) : more.Prepared system round value := by
  obtain ⟨quorum, isQuorum, votes⟩ := prepared
  exact ⟨quorum, isQuorum, fun who member honest => prepare (votes who member honest)⟩

theorem Committed.mono {round : Nat} {value : ν} (committed : history.Committed system round value)
    (commit : ∀ {who round value}, history.commit who round value →
      more.commit who round value) : more.Committed system round value := by
  obtain ⟨quorum, isQuorum, votes⟩ := committed
  exact ⟨quorum, isQuorum, fun who member honest => commit (votes who member honest)⟩

theorem Certified.mono {round : Nat} {value : ν} (certified : history.Certified system round value)
    (prepare : ∀ {who round value}, history.prepare who round value →
      more.prepare who round value)
    (roundChange : ∀ {who round reported}, history.roundChange who round reported →
      more.roundChange who round reported) : more.Certified system round value := by
  obtain ⟨prepared, earlier, ⟨quorum, isQuorum, votes⟩, origin⟩ := certified
  refine ⟨prepared, earlier, ⟨quorum, isQuorum, fun who member honest => ?_⟩,
    origin.imp_right fun isPrepared => isPrepared.mono prepare⟩
  obtain ⟨reported, bounded, said⟩ := votes who member honest
  exact ⟨reported, bounded, roundChange said⟩

end Growth

/-- The obligations of honest voters. -/
structure Lawful : Prop where
  /-- Votes are cast only for proposals that were taken up. -/
  prepare_proposed : ∀ {who round value}, system.Honest who →
    history.prepare who round value → history.proposed round value
  /-- Rounds in which votes are committed are counted from one. -/
  commit_pos : ∀ {who round value}, system.Honest who →
    history.commit who round value → 0 < round
  /-- A voter that committed reports at least that round from then on. -/
  commit_reported : ∀ {who round later value reported}, system.Honest who →
    history.commit who round value → history.roundChange who later reported →
    round < later → round ≤ reported
  /-- Proposals after the first round carry a certificate. -/
  proposed_certified : ∀ {round value}, history.proposed round value → 1 < round →
    history.Certified system round value
  /-- No other value is prepared in the round of a committed one. -/
  committed_prepared : ∀ {round value other}, history.Committed system round value →
    history.Prepared system round other → value = other

namespace Lawful

variable {history system} (lawful : history.Lawful system)
include lawful

/-- Some honest voter stands behind every prepared value. -/
theorem proposed_of_prepared {round : Nat} {value : ν}
    (prepared : history.Prepared system round value) : history.proposed round value := by
  obtain ⟨quorum, isQuorum, votes⟩ := prepared
  obtain ⟨who, member, -, honest⟩ := system.share isQuorum isQuorum
  exact lawful.prepare_proposed honest (votes who member honest)

/-- The certificate of a later proposal reaches back at least to the committed round. -/
theorem committed_le_certificate {round later prepared : Nat} {value : ν}
    (committed : history.Committed system round value) (after : round < later)
    (certificate : ∃ quorum, system.IsQuorum quorum ∧ ∀ who ∈ quorum, system.Honest who →
      ∃ reported ≤ prepared, history.roundChange who later reported) :
    0 < round ∧ round ≤ prepared := by
  obtain ⟨commits, isCommitQuorum, commit⟩ := committed
  obtain ⟨changes, isChangeQuorum, change⟩ := certificate
  obtain ⟨who, inCommits, inChanges, honest⟩ := system.share isCommitQuorum isChangeQuorum
  obtain ⟨reported, bounded, said⟩ := change who inChanges honest
  have voted := commit who inCommits honest
  exact ⟨lawful.commit_pos honest voted,
    Nat.le_trans (lawful.commit_reported honest voted said after) bounded⟩

/-- A certified value repeats a committed one if the proposals in between do. -/
theorem eq_of_certified {round : Nat} {value : ν}
    (committed : history.Committed system round value) {later : Nat} {other : ν}
    (after : round < later)
    (between : ∀ earlier, round < earlier → earlier < later →
      ∀ {proposal}, history.proposed earlier proposal → value = proposal)
    (certified : history.Certified system later other) : value = other := by
  obtain ⟨prepared, earlier, certificate, origin⟩ := certified
  obtain ⟨positive, reaches⟩ := lawful.committed_le_certificate committed after certificate
  rcases origin with none | isPrepared
  · omega
  · rcases Nat.eq_or_lt_of_le reaches with same | beyond
    · subst same
      exact lawful.committed_prepared committed isPrepared
    · exact between prepared beyond earlier (lawful.proposed_of_prepared isPrepared)

theorem committed_pos {round : Nat} {value : ν}
    (committed : history.Committed system round value) : 0 < round := by
  obtain ⟨commits, isQuorum, commit⟩ := committed
  obtain ⟨who, member, -, honest⟩ := system.share isQuorum isQuorum
  exact lawful.commit_pos honest (commit who member honest)

/-- The value lock: every proposal after a committed round repeats its value. -/
theorem locked {round : Nat} {value : ν} (committed : history.Committed system round value)
    {later : Nat} {other : ν} (after : round < later)
    (proposal : history.proposed later other) : value = other := by
  induction later using Nat.strong_induction_on generalizing other with
  | _ later ih =>
      have positive := lawful.committed_pos committed
      exact lawful.eq_of_certified committed after
        (fun earlier later before => ih earlier before later)
        (lawful.proposed_certified proposal (by omega))

/-- The value lock extends to every certified value, whether or not it was taken up. -/
theorem certified_locked {round : Nat} {value : ν}
    (committed : history.Committed system round value) {later : Nat} {other : ν}
    (after : round < later) (certified : history.Certified system later other) :
    value = other :=
  lawful.eq_of_certified committed after (fun _ beyond _ => lawful.locked committed beyond)
    certified

/-- Agreement: two committed values are equal when honest commit votes follow a
prepared value. -/
theorem agreement
    (commit_prepared : ∀ {who round value}, system.Honest who →
      history.commit who round value → history.Prepared system round value)
    {first second : Nat} {value other : ν}
    (firstCommitted : history.Committed system first value)
    (secondCommitted : history.Committed system second other) : value = other := by
  have isPrepared : ∀ {round value}, history.Committed system round value →
      history.Prepared system round value := by
    rintro round value ⟨quorum, isQuorum, votes⟩
    obtain ⟨who, member, -, honest⟩ := system.share isQuorum isQuorum
    exact commit_prepared honest (votes who member honest)
  rcases Nat.lt_trichotomy first second with before | same | after
  · exact lawful.locked firstCommitted before
      (lawful.proposed_of_prepared (isPrepared secondCommitted))
  · subst same
    exact lawful.committed_prepared firstCommitted (isPrepared secondCommitted)
  · exact (lawful.locked secondCommitted after
      (lawful.proposed_of_prepared (isPrepared firstCommitted))).symm

end Lawful

end VotingHistory

end DvSpec.Library

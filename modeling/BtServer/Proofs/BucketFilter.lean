import BtServer.Proofs.Cleaning

/-! `clean_single_bucket` filters and ages its array in place. While it runs, the array is what stays,
then cells nobody reads any more, then the peers still to be looked at. -/

namespace BtServer.Proofs.BucketFilter
open Lib Cleaning

/-- What the cleaning of a bucket by `minutes` is for: at the front of the array are the peers that stay
below the timeout, older by that much and otherwise unchanged; the returned number is that of the
others, and the seeders among them are added to `removed_seeders`. -/
structure Filtered (array : List Peer) (minutes : Nat) (removedSeeders : Int) (result : List Peer × Int × Int) : Prop where
  front : List.Forall₂ (fun old new => new = { old with time := new.time } ∧ new.time.toNat = old.time.toNat + minutes)
    (array.filter fun peer => peer.time.toNat + minutes < 45)
    (result.1.take (array.filter fun peer => peer.time.toNat + minutes < 45).length)
  returned : result.2.1 = (array.filter fun peer => 45 ≤ peer.time.toNat + minutes).length
  seeders : result.2.2 =
    removedSeeders + (array.filter fun peer => 45 ≤ peer.time.toNat + minutes).countP Peer.seeding

private theorem expires_nat (minutes : Nat) : expires minutes = fun peer => decide (45 ≤ peer.time.toNat + minutes) := by
  funext peer
  apply decide_eq_decide.mpr
  simp only [otPeerTimeout]
  omega

/-- The counter of removed seeders is an `int`: the bucket is filtered and aged as it should be, and the
number of removed seeders is right as long as it can be represented. -/
theorem cleanSingleBucket_filters (array : List Peer) (minutes : Nat) (removedSeeders : Int)
    (least : -2 ^ 31 ≤ removedSeeders) (greatest : removedSeeders < 2 ^ 31) :
    Filtered array minutes removedSeeders (cleanSingleBucket array minutes removedSeeders) ↔
      removedSeeders + (array.filter fun peer => 45 ≤ peer.time.toNat + minutes).countP Peer.seeding < 2 ^ 31 := by
  have int : removedSeeders.bmod (2 ^ 32) = removedSeeders := by
    rw [Int.bmod_def]
    split <;> omega
  obtain ⟨behind, cleaned⟩ := cleanSingleBucket_eq array minutes removedSeeders
  rw [int] at cleaned
  rw [cleaned]
  have gone : departed minutes array = array.filter fun peer => 45 ≤ peer.time.toNat + minutes := by
    rw [departed, expires_nat]
  have kept : (array.filter fun peer => !expires minutes peer) = array.filter fun peer => peer.time.toNat + minutes < 45 := by
    apply List.filter_congr
    intro peer _
    rw [expires_nat, ← decide_not]
    exact decide_eq_decide.mpr Nat.not_le
  rw [removedSeeding, gone]
  generalize count : (array.filter fun peer => 45 ≤ peer.time.toNat + minutes).countP Peer.seeding = removed
  constructor
  · intro filtered
    have counted := filtered.seeders
    rw [count, Int.bmod_def] at counted
    dsimp only at counted
    split at counted <;> omega
  · intro representable
    refine ⟨?_, rfl, ?_⟩
    · have taken : (survivors minutes array ++ behind).take
          (array.filter fun peer => peer.time.toNat + minutes < 45).length = survivors minutes array := by
        rw [survivors, kept]
        simp
      rw [taken, survivors, kept, List.forall₂_map_right_iff, List.forall₂_same]
      intro peer member
      have stays : peer.time.toNat + minutes < 45 := by simpa using (List.mem_filter.mp member).2
      have time := @aged_time minutes peer (by omega) (by unfold otPeerTimeout; omega)
      exact ⟨rfl, by omega⟩
    · rw [count, Int.bmod_def]
      dsimp only
      split <;> omega

def leavingSeeder : Peer := ⟨Vector.replicate 4 9, Vector.replicate 2 9, peerFlagSeeding, 45⟩

def mixedBucket : List Peer :=
  [{ leavingSeeder with time := 5 }, leavingSeeder, { leavingSeeder with flag := 0, time := 42 },
    { leavingSeeder with flag := 0, time := 41 }]

/-- Two of the four peers stay, three minutes older, and one of those that leave is a seeder. -/
theorem cleanSingleBucket_filters_mixed : Filtered mixedBucket 3 7 (cleanSingleBucket mixedBucket 3 7) ∧
    (cleanSingleBucket mixedBucket 3 7).1.take 2 =
      [{ leavingSeeder with time := 8 }, { leavingSeeder with flag := 0, time := 44 }] ∧
    (cleanSingleBucket mixedBucket 3 7).2 = (2, 8) :=
  ⟨(cleanSingleBucket_filters mixedBucket 3 7 (by omega) (by omega)).mpr (by decide), by decide, by decide⟩

/-- With 2 ^ 31 seeders to remove the counter of the caller becomes negative. -/
theorem removed_seeders_overflow : (cleanSingleBucket (List.replicate (2 ^ 31) leavingSeeder) 1 0).2.2 = -2 ^ 31 ∧
    ¬ Filtered (List.replicate (2 ^ 31) leavingSeeder) 1 0
      (cleanSingleBucket (List.replicate (2 ^ 31) leavingSeeder) 1 0) := by
  generalize many : (2 : Nat) ^ 31 = count
  have everybody : removedSeeding 1 (List.replicate count leavingSeeder) = count := by
    simp [removedSeeding, departed, List.countP_replicate, leavingSeeder, expires, otPeerTimeout,
      Peer.seeding, peerFlagSeeding]
  obtain ⟨behind, cleaned⟩ := cleanSingleBucket_eq (List.replicate count leavingSeeder) 1 0
  have negative : (cleanSingleBucket (List.replicate count leavingSeeder) 1 0).2.2 = -2 ^ 31 := by
    rw [show (0 : Int) = (0 : Int).bmod (2 ^ 32) by decide, cleaned, everybody, ← many, Int.bmod_def]
    norm_num
  refine ⟨negative, ?_⟩
  intro filtered
  have counted := filtered.seeders
  omega

end BtServer.Proofs.BucketFilter

import BtServer.Proofs.CleaningTwice

/-! `vector_redistribute_buckets` on its own: whatever the allocations do, the peers of a
list are left alone or moved to the right number of sorted buckets, as long as no bucket
has more peers than an `int` can count down. -/

namespace BtServer.Proofs.Rebucketing
open Lib PeerListShape Redistribution PeerListInvariant CleaningTwice TrackerInvariant

def Settled (peerList : PeerList) : Prop :=
  numBucketsNew peerList.peerCount peerList.peers.bucketList.length = peerList.peers.bucketList.length

/-- The peers were moved: the same records, placed and sorted, and no other call moves
them again. -/
structure Moved (before after : PeerList) : Prop where
  fields : after = { before with peers := after.peers }
  count : after.peers.bucketList.length = 1 ∨ after.peers.bucketList.length = 16 ∨ after.peers.bucketList.length = 64
  members : after.peers.all.Perm before.peers.all
  sound : Sound after
  stable : ∀ heap, vectorRedistributeBuckets heap after = (heap, after)

/-- What a call may do, for given outcomes of its allocations. -/
def Rebuckets (heap : Heap) (peerList : PeerList) : Prop :=
  (vectorRedistributeBuckets heap peerList).2 = peerList ∧
      (Settled peerList ∨ Failed heap (vectorRedistributeBuckets heap peerList).1) ∨
    Moved peerList (vectorRedistributeBuckets heap peerList).2

/-- The thresholds overlap, but the number they ask for is kept by the next call. -/
theorem numBucketsNew_stable (peerCount old : Nat) :
    numBucketsNew peerCount (numBucketsNew peerCount old) = numBucketsNew peerCount old := by
  unfold numBucketsNew
  split_ifs <;> omega

theorem settled_unchanged {peerList : PeerList} (settled : Settled peerList) (heap : Heap) :
    vectorRedistributeBuckets heap peerList = (heap, peerList) := by
  unfold Settled at settled
  simp only [vectorRedistributeBuckets, settled, if_true]

variable {peerList : PeerList}

theorem relaid_moved (sound : Sound peerList) (small : ∀ vector ∈ peerList.peers.bucketList, vector.size < 2 ^ 32)
    {peers : PeerVector}
    (relaid : Relaid (numBucketsNew peerList.peerCount peerList.peers.bucketList.length) peerList.peers peers) :
    Moved peerList { peerList with peers := peers } := by
  obtain ⟨ordered, members⟩ := relaid.rearranged.whole sound.ordered small
  have range := numBucketsNew_range peerList.peerCount _ sound.shaped.length
  refine ⟨rfl, relaid.length ▸ range, members, .of_ordered relaid.rearranged.shaped ordered ?_ ?_, ?_⟩
  · exact sound.peerCount.trans members.length_eq.symm
  · exact sound.seedCount.trans (members.countP_eq Peer.seeding).symm
  · apply settled_unchanged
    show numBucketsNew peerList.peerCount peers.bucketList.length = peers.bucketList.length
    rw [relaid.length]
    exact numBucketsNew_stable _ _

theorem settled_rebuckets (settled : Settled peerList) (heap : Heap) : Rebuckets heap peerList := by
  rw [Rebuckets, settled_unchanged settled heap]
  exact .inl ⟨rfl, .inl settled⟩

theorem small_rebuckets (sound : Sound peerList) (small : ∀ vector ∈ peerList.peers.bucketList, vector.size < 2 ^ 32)
    (heap : Heap) : Rebuckets heap peerList := by
  obtain ⟨rest, peers, result, ⟨same, failed⟩ | relaid⟩ := vectorRedistributeBuckets_outcome heap peerList sound.shaped
  · rw [Rebuckets, result, same]
    exact .inl ⟨rfl, failed⟩
  · rw [Rebuckets, result]
    exact .inr (relaid_moved sound small relaid)

theorem large_loses (sound : Sound peerList) (unsettled : ¬ Settled peerList) {vector : OtVector Peer}
    (member : vector ∈ peerList.peers.bucketList) (large : 2 ^ 32 ≤ vector.size) : ¬ Rebuckets [] peerList := by
  have relaid := vectorRedistributeBuckets_relaid peerList sound.shaped unsettled
  have lost := moved_shorter member large
  rw [← relaid.contents.length_eq] at lost
  rintro (⟨same, _⟩ | moved)
  · rw [same, PeerVector.all] at lost
    exact lt_irrefl _ lost
  · rw [moved.members.length_eq] at lost
    exact lt_irrefl _ lost

/-- Every call rebuckets a list properly, whatever its allocations do, if and only if its
number of buckets is right already or none of them has 2 ^ 32 peers. -/
theorem rebuckets_iff (sound : Sound peerList) : (∀ heap, Rebuckets heap peerList) ↔
      Settled peerList ∨ ∀ vector ∈ peerList.peers.bucketList, vector.size < 2 ^ 32 := by
  constructor
  · intro rebuckets
    by_contra neither
    simp only [not_or, not_forall, not_lt] at neither
    obtain ⟨unsettled, vector, member, large⟩ := neither
    exact large_loses sound unsettled member large (rebuckets [])
  · rintro (settled | small) heap
    · exact settled_rebuckets settled heap
    · exact small_rebuckets sound small heap

theorem rebuckets_crowd : Sound (crowd 600) ∧ ∀ heap, Rebuckets heap (crowd 600) := by
  have sound : Sound (crowd 600) := crowd_sound (by norm_num)
  refine ⟨sound, (rebuckets_iff sound).mpr (.inr fun vector member => ?_)⟩
  rw [crowd_list, List.mem_singleton] at member
  rw [member]
  simp [OtVector.size]

private theorem crowd_unsettled {n : Nat} (large : 8192 < n) : ¬ Settled (crowd n) := by
  have many : ¬ n < 255 := by omega
  rw [Settled, crowd_list, show (crowd n).peerCount = n from rfl]
  simp [numBucketsNew, many, large]

private theorem crowd_vanishes {n : Nat} (bound : n ≤ 2 ^ 32) (large : 8192 < n) (wraps : n % 2 ^ 32 = 0) :
    (vectorRedistributeBuckets [] (crowd n)).2.peers.all = [] := by
  have relaid := vectorRedistributeBuckets_relaid (crowd n) (crowd_sound bound).shaped (crowd_unsettled large)
  have contents := relaid.contents
  have nobody : moved (crowd n).peers.bucketList = [] := by
    rw [crowd_list, moved, List.flatMap_singleton, OtVector.size, List.length_map, List.length_range, wraps, List.take_zero]
  rw [nobody] at contents
  exact contents.eq_nil

/-- A list of 2 ^ 32 peers in one bucket is empty after a call that succeeds. -/
theorem rebucketing_loses_peers : Sound (crowd (2 ^ 32)) ∧ (crowd (2 ^ 32)).peers.all.length = 2 ^ 32 ∧
      (vectorRedistributeBuckets [] (crowd (2 ^ 32))).2.peers.all = [] ∧ ¬ Rebuckets [] (crowd (2 ^ 32)) := by
  have sound : Sound (crowd (2 ^ 32)) := crowd_sound (le_refl _)
  have length : (crowd (2 ^ 32)).peers.all.length = 2 ^ 32 := by rw [crowd_all, List.length_map, List.length_range]
  refine ⟨sound, length, crowd_vanishes (le_refl _) (by norm_num) (by norm_num), ?_⟩
  have member : (⟨(List.range (2 ^ 32)).map peerAt, 2 ^ 32⟩ : OtVector Peer) ∈ (crowd (2 ^ 32)).peers.bucketList := by
    rw [crowd_list, List.mem_singleton]
  apply large_loses sound (crowd_unsettled (by norm_num)) member
  rw [OtVector.size, List.length_map, List.length_range]

end BtServer.Proofs.Rebucketing

import BtServer.PeerList
import BtServer.Proofs.VectorSearch

/-! The layout of a peer list: a plain vector, or 16 or 64 buckets under a space
of zero. The mark that tells the two apart always agrees with the block. -/

namespace BtServer.Proofs.PeerListShape
open Lib

variable {stored : List Peer} {space : Nat} {vector : OtVector Peer} {vectors left right : List (OtVector Peer)}

def Fits {α : Type} (vector : OtVector α) : Prop := vector.size ≤ vector.space

inductive Shaped : PeerVector → Prop where
  | plain {stored : List Peer} {space : Nat} (fits : stored.length ≤ space) : Shaped ⟨.members stored, space⟩
  | bucketed {vectors : List (OtVector Peer)} (count : vectors.length = 16 ∨ vectors.length = 64)
      (fits : ∀ vector ∈ vectors, Fits vector) : Shaped ⟨.buckets vectors, 0⟩

theorem hasBuckets_plain (fits : stored.length ≤ space) :
    PeerVector.hasBuckets ⟨.members stored, space⟩ = false := by
  simpa [PeerVector.hasBuckets, PeerVector.size] using fits

theorem hasBuckets_bucketed (count : vectors.length = 16 ∨ vectors.length = 64) :
    PeerVector.hasBuckets ⟨.buckets vectors, 0⟩ = true := by
  have marked : 0 < vectors.length := by omega
  simpa [PeerVector.hasBuckets, PeerVector.size] using marked

theorem bucketList_plain (fits : stored.length ≤ space) :
    PeerVector.bucketList ⟨.members stored, space⟩ = [⟨stored, space⟩] := by
  simp [PeerVector.bucketList, hasBuckets_plain fits]

theorem bucketList_bucketed (count : vectors.length = 16 ∨ vectors.length = 64) :
    PeerVector.bucketList ⟨.buckets vectors, 0⟩ = vectors := by
  simp [PeerVector.bucketList, hasBuckets_bucketed count]

theorem bucketFor_plain (fits : stored.length ≤ space) (peer : Peer) :
    PeerVector.bucketFor ⟨.members stored, space⟩ peer = ⟨stored, space⟩ := by
  have unmarked : ¬ space < stored.length := by omega
  simp [PeerVector.bucketFor, PeerVector.bucketIndex, PeerVector.size, bucketList_plain fits, unmarked]

theorem setBucketFor_plain (fits : stored.length ≤ space) (peer : Peer) (vector : OtVector Peer) :
    PeerVector.setBucketFor ⟨.members stored, space⟩ peer vector = ⟨.members vector.data, vector.space⟩ := by
  have unmarked : ¬ space < stored.length := by omega
  simp [PeerVector.setBucketFor, PeerVector.setBucketList, PeerVector.bucketIndex, PeerVector.size, bucketList_plain fits,
    hasBuckets_plain fits, unmarked]

namespace Shaped
variable {peers : PeerVector}
variable (shaped : Shaped peers)
include shaped

theorem length :
    peers.bucketList.length = 1 ∨ peers.bucketList.length = 16 ∨ peers.bucketList.length = 64 := by
  cases shaped with
  | plain fits => simp [bucketList_plain fits]
  | bucketed count fits => simpa [bucketList_bucketed count] using .inr count

theorem fits : ∀ vector ∈ peers.bucketList, Fits vector := by
  cases shaped with
  | plain fits => simpa [bucketList_plain fits, Fits, OtVector.size] using fits
  | bucketed count fits => simpa [bucketList_bucketed count] using fits

theorem hasBuckets : peers.hasBuckets = true ↔ peers.bucketList.length ≠ 1 := by
  cases shaped with
  | plain fits => simp [hasBuckets_plain fits, bucketList_plain fits]
  | bucketed count fits =>
    simp only [hasBuckets_bucketed count, bucketList_bucketed count, true_iff]
    omega

theorem bucketIndex (peer : Peer) :
    peers.bucketIndex peer = vectorHashPeer peer peers.bucketList.length := by
  cases shaped with
  | @plain stored space fits =>
    have unmarked : ¬ space < stored.length := by omega
    simp [PeerVector.bucketIndex, PeerVector.size, bucketList_plain fits, unmarked]
  | @bucketed vectors count fits =>
    have marked : 0 < vectors.length := by omega
    simp [PeerVector.bucketIndex, PeerVector.size, bucketList_bucketed count, marked]

theorem setBucketList (same : vectors.length = peers.bucketList.length) (fits : ∀ vector ∈ vectors, Fits vector) :
    Shaped (peers.setBucketList vectors) ∧ (peers.setBucketList vectors).bucketList = vectors := by
  cases shaped with
  | plain plainFits =>
    rw [bucketList_plain plainFits, List.length_singleton] at same
    obtain ⟨vector, rfl⟩ := List.length_eq_one_iff.mp same
    have room : vector.data.length ≤ vector.space := fits vector (by simp)
    simp only [PeerVector.setBucketList, hasBuckets_plain plainFits]
    exact ⟨.plain room, bucketList_plain room⟩
  | bucketed count _ =>
    rw [bucketList_bucketed count] at same
    simp only [PeerVector.setBucketList, hasBuckets_bucketed count]
    exact ⟨.bucketed (by omega) fits, bucketList_bucketed (by omega)⟩

theorem bucket_split (peer : Peer) :
    ∃ left right, peers.bucketList = left ++ peers.bucketFor peer :: right ∧
      left.length = vectorHashPeer peer peers.bucketList.length := by
  have count := shaped.length
  have inside : vectorHashPeer peer peers.bucketList.length < peers.bucketList.length :=
    vectorHashPeer_lt (by omega) peer
  refine ⟨peers.bucketList.take (vectorHashPeer peer peers.bucketList.length),
    peers.bucketList.drop (vectorHashPeer peer peers.bucketList.length + 1), ?_, ?_⟩
  · rw [PeerVector.bucketFor, shaped.bucketIndex, List.getD_eq_getElem?_getD, List.getElem?_eq_getElem inside,
      Option.getD_some, List.getElem_cons_drop, List.take_append_drop]
  · simp [Nat.min_eq_left (le_of_lt inside)]

theorem setBucketFor (peer : Peer) {old : OtVector Peer} (split : peers.bucketList = left ++ old :: right)
    (index : left.length = vectorHashPeer peer peers.bucketList.length) (fits : Fits vector) :
    Shaped (peers.setBucketFor peer vector) ∧
    (peers.setBucketFor peer vector).bucketList = left ++ vector :: right := by
  have edited : peers.bucketList.set (peers.bucketIndex peer) vector = left ++ vector :: right := by
    rw [shaped.bucketIndex, ← index, split, List.set_append_right _ _ (le_refl _)]
    simp
  rw [PeerVector.setBucketFor, edited]
  apply shaped.setBucketList
  · rw [split]
    simp
  · intro other member
    have kept := shaped.fits
    rw [split] at kept
    simp only [List.mem_append, List.mem_cons] at member
    rcases member with inside | rfl | inside
    · exact kept other (by simp [inside])
    · exact fits
    · exact kept other (by simp [inside])

theorem bucketFor_eq (peer : Peer) (split : peers.bucketList = left ++ vector :: right)
    (index : left.length = vectorHashPeer peer peers.bucketList.length) : peers.bucketFor peer = vector := by
  rw [PeerVector.bucketFor, shaped.bucketIndex, ← index, split]
  simp

end Shaped

theorem all_split {peers : PeerVector} (split : peers.bucketList = left ++ vector :: right) :
    peers.all = left.flatMap OtVector.data ++ (vector.data ++ right.flatMap OtVector.data) := by
  simp [PeerVector.all, split]

theorem subSize_eq {value n : Nat} (enough : n ≤ value) : subSize value n = value - n := if_pos enough

theorem shaped_zero : Shaped PeerList.zero.peers := .plain (by simp)

private theorem shrinkSpace_fits (size fuel space : Nat) (fits : size ≤ space) : size ≤ shrinkSpace size fuel space := by
  induction fuel generalizing space with
  | zero => simpa [shrinkSpace] using fits
  | succ fuel ih =>
    rw [shrinkSpace]
    split
    next sparse =>
      apply ih
      simp only [otVectorShrinkThresh, otVectorShrinkRatio, otVectorMinMembers] at *
      omega
    next => exact fits

@[simp] theorem vectorFixupPeers_data (vector : OtVector Peer) : (vectorFixupPeers vector).data = vector.data := by
  unfold vectorFixupPeers
  split
  next empty => exact (List.eq_nil_of_length_eq_zero empty).symm
  next => rfl

theorem vectorFixupPeers_eq (vector : OtVector Peer) : ∃ space, vectorFixupPeers vector = ⟨vector.data, space⟩ := by
  have kept := vectorFixupPeers_data vector
  cases seen : vectorFixupPeers vector with
  | mk data space =>
    rw [seen] at kept
    exact ⟨space, by rw [← kept]⟩

theorem vectorFixupPeers_fits (fits : Fits vector) : Fits (vectorFixupPeers vector) := by
  unfold vectorFixupPeers
  split
  · simp [Fits, OtVector.empty, OtVector.size]
  · exact shrinkSpace_fits _ _ _ fits

end BtServer.Proofs.PeerListShape

import BtServer.Proofs.Cleaning
import BtServer.Proofs.PeerListEdits

/-! The representation invariant of a peer list, and that every operation on a
peer list of fewer than 2 ^ 32 peers keeps it. -/

namespace BtServer.Proofs.PeerListInvariant
open Lib PeerListShape PeerListEdits Redistribution Cleaning

variable {peerList : PeerList} {now : Int} {peer : Peer}

structure Sound (peerList : PeerList) : Prop where
  shaped : Shaped peerList.peers
  sorted : ∀ vector ∈ peerList.peers.bucketList, vector.data.Pairwise fun left right => vectorComparePeer left right < 0
  placed : ∀ i vector, peerList.peers.bucketList[i]? = some vector →
    ∀ peer ∈ vector.data, vectorHashPeer peer peerList.peers.bucketList.length = i
  peerCount : peerList.peerCount = peerList.peers.all.length
  seedCount : peerList.seedCount = peerList.peers.all.countP Peer.seeding

theorem vectorComparePeer_neg (left right : Peer) : vectorComparePeer left right < 0 ↔ left.key < right.key :=
  memcmp_neg (by simp)

theorem sorted_iff (peers : List Peer) :
    (peers.Pairwise fun left right => vectorComparePeer left right < 0) ↔ StrictSorted Peer.key peers := by
  simp only [vectorComparePeer_neg, StrictSorted]

namespace Sound
variable {peerList : PeerList}

theorem ordered (sound : Sound peerList) : Ordered peerList.peers.bucketList := by
  refine ⟨fun vector member => (sorted_iff _).mp (sound.sorted vector member), fun i bucket found peer member => ?_⟩
  rw [List.getElem?_map, Option.map_eq_some_iff] at found
  obtain ⟨vector, position, rfl⟩ := found
  exact sound.placed i vector position peer member

theorem of_ordered (shaped : Shaped peerList.peers) (ordered : Ordered peerList.peers.bucketList)
    (peerCount : peerList.peerCount = peerList.peers.all.length)
    (seedCount : peerList.seedCount = peerList.peers.all.countP Peer.seeding) : Sound peerList :=
  ⟨shaped, fun vector member => (sorted_iff _).mpr (ordered.sorted vector member),
    fun i vector position => ordered.placed i vector.data (by simp [position]), peerCount, seedCount⟩

theorem distinct (sound : Sound peerList) : (peerList.peers.all.map Peer.key).Nodup := sound.ordered.nodup

theorem seedCount_le (sound : Sound peerList) : peerList.seedCount ≤ peerList.peerCount := by
  rw [sound.seedCount, sound.peerCount]
  exact List.countP_le_length

theorem bucket_small (sound : Sound peerList) {bound : Nat} (small : peerList.peerCount < bound) :
    ∀ vector ∈ peerList.peers.bucketList, vector.size < bound := by
  intro vector member
  have part : vector.data.length ≤ peerList.peers.all.length := by
    rw [PeerVector.all, List.flatMap_def]
    exact (List.sublist_flatten_of_mem (List.mem_map_of_mem member)).length_le
  rw [sound.peerCount] at small
  exact lt_of_le_of_lt part small

end Sound

theorem sound_zero (base : Int) (downCount : Nat) : Sound { PeerList.zero with base := base, downCount := downCount } := by
  have list : PeerList.zero.peers.bucketList = [⟨[], 0⟩] := rfl
  have ordered : Ordered PeerList.zero.peers.bucketList := by
    rw [list]
    constructor
    · intro vector member
      rw [List.mem_singleton.mp member]
      exact .nil
    · intro i bucket found peer member
      have inside := List.mem_of_getElem? found
      rw [List.map_singleton, List.mem_singleton] at inside
      rw [inside] at member
      simp at member
  exact .of_ordered shaped_zero ordered rfl rfl

theorem ordered_edit {left right : List (OtVector Peer)} {old new : OtVector Peer} (ordered : Ordered (left ++ old :: right))
    (sorted : StrictSorted Peer.key new.data)
    (kept : ∀ peer ∈ new.data, peer ∈ old.data ∨ vectorHashPeer peer (left ++ old :: right).length = left.length) :
    Ordered (left ++ new :: right) := by
  have length : (left ++ new :: right).length = (left ++ old :: right).length := by simp
  constructor
  · intro vector member
    simp only [List.mem_append, List.mem_cons] at member
    rcases member with inside | rfl | inside
    · exact ordered.sorted vector (by simp [inside])
    · exact sorted
    · exact ordered.sorted vector (by simp [inside])
  · have placed := ordered.placed
    rw [length]
    rw [List.map_append, List.map_cons] at placed ⊢
    exact placed.edit fun peer member => by simpa using kept peer member

theorem announced_sound {result : PeerList × Option (List StatsEvent)}
    (announced : Announced now peerList peer result) (sound : Sound peerList) (small : peerList.peerCount < 2 ^ 31) :
    Sound result.1 := by
  have ordered := sound.ordered
  have peerCount := sound.peerCount
  have seedCount := sound.seedCount
  cases announced with
  | refused => exact ⟨sound.shaped, sound.sorted, sound.placed, peerCount, seedCount⟩
  | @inserted left right before after space room peers split index cut shaped edited =>
    rw [split] at ordered index
    have sorted := ordered.sorted ⟨before ++ after, space⟩ (by simp)
    have between := cut sorted (sound.bucket_small (small.trans (by norm_num)) ⟨before ++ after, space⟩ (by simp [split]))
    rw [all_split split] at peerCount seedCount
    refine .of_ordered shaped ?_ ?_ ?_
    · rw [edited]
      refine ordered_edit ordered (sorted.insert between) fun other member => ?_
      simp only [List.mem_append, List.mem_cons] at member ⊢
      rcases member with inside | rfl | inside
      · exact .inl (.inl inside)
      · exact .inr (by rw [vectorHashPeer_congr (fresh_key peer), index])
      · exact .inl (.inr inside)
    · rw [all_split edited]
      simp only [List.length_append, List.length_cons] at peerCount ⊢
      omega
    · rw [all_split edited]
      simp only [List.countP_append, List.countP_cons] at seedCount ⊢
      split <;> omega
  | @renewed left right before after old space peers split index same shaped edited =>
    rw [split] at ordered index
    have sorted := ordered.sorted ⟨before ++ old :: after, space⟩ (by simp)
    have key : (PeerListEdits.renewed old peer).key = old.key := by
      rw [renewed_key]
      exact (Peer.key_eq_iff.mpr same).symm
    rw [all_split split] at peerCount seedCount
    refine .of_ordered shaped ?_ ?_ ?_
    · rw [edited]
      refine ordered_edit ordered (sorted.replace key) fun other member => ?_
      simp only [List.mem_append, List.mem_cons] at member ⊢
      rcases member with inside | rfl | inside
      · exact .inl (.inl inside)
      · exact .inr (by rw [vectorHashPeer_congr (renewed_key old peer), index])
      · exact .inl (.inr (.inr inside))
    · rw [all_split edited]
      simp only [List.length_append, List.length_cons] at peerCount ⊢
      omega
    · rw [all_split edited]
      simp only [List.countP_append, List.countP_cons, renewed_seeding] at seedCount ⊢
      cases was : old.seeding <;> cases is : (fresh peer).seeding <;>
        simp only [was, Bool.not_true, Bool.not_false, Bool.and_true, Bool.and_false,
          Bool.false_eq_true, if_true, if_false] at seedCount ⊢
      · omega
      · omega
      · rw [subSize_eq (by omega)]
        omega
      · omega

theorem stopped_sound {result : PeerList} (stopped : Stopped peerList peer result) (sound : Sound peerList) : Sound result := by
  have ordered := sound.ordered
  have peerCount := sound.peerCount
  have seedCount := sound.seedCount
  cases stopped with
  | absent missing => exact sound
  | @removed left right before after old space room peers split index same shaped edited =>
    rw [split] at ordered
    have sorted := ordered.sorted ⟨before ++ old :: after, space⟩ (by simp)
    rw [all_split split] at peerCount seedCount
    refine .of_ordered shaped ?_ ?_ ?_
    · rw [edited]
      refine ordered_edit ordered sorted.remove fun other member => .inl ?_
      simp only [List.mem_append, List.mem_cons] at member ⊢
      tauto
    · rw [all_split edited]
      simp only [List.length_append, List.length_cons] at peerCount ⊢
      rw [subSize_eq (by omega)]
      omega
    · rw [all_split edited]
      simp only [List.countP_append, List.countP_cons] at seedCount ⊢
      cases was : old.seeding <;> simp only [was, if_true, Bool.false_eq_true, if_false] at seedCount ⊢
      · omega
      · rw [subSize_eq (by omega)]
        omega

theorem cleaned_sound {result : PeerList × Bool} (cleaned : Cleaned now peerList result)
    (sound : Sound peerList) (small : peerList.peerCount < 2 ^ 31) :
    Sound result.1 ∧ result.1.peerCount ≤ peerList.peerCount := by
  cases cleaned with
  | current same => exact ⟨sound, le_refl _⟩
  | late idle => exact ⟨sound, le_refl _⟩
  | vacant idle empty => exact ⟨sound, le_refl _⟩
  | @swept peers remaining moved recent occupied counted swept =>
    obtain ⟨ordered, contents⟩ := swept.whole sound.ordered (sound.bucket_small (by omega))
    have parts := survivors_length (elapsed now peerList) peerList.peers.all
    have seeders := survivors_seeders (elapsed now peerList) peerList.peers.all
    have length := contents.length_eq
    have count := contents.countP_eq Peer.seeding
    have peerCount := sound.peerCount
    have seedCount := sound.seedCount
    rw [subSize_eq (by omega)] at counted
    refine ⟨.of_ordered swept.shaped ordered ?_ ?_, ?_⟩
    · show remaining = peers.all.length
      omega
    · have few := sound.seedCount_le
      dsimp only
      rw [seedersLeft_eq (by omega) (by omega) (by omega)]
      omega
    · show remaining ≤ peerList.peerCount
      omega

theorem announcePeer_sound (heap : Heap) (now : Int) (peer : Peer) (sound : Sound peerList)
    (small : peerList.peerCount < 2 ^ 31) : Sound (announcePeer heap now peerList peer).1 :=
  announced_sound (announcePeer_cases heap now peerList peer sound.shaped) sound small

theorem stopPeer_sound (peer : Peer) (sound : Sound peerList) : Sound (stopPeer peerList peer) :=
  stopped_sound (stopPeer_cases peerList peer sound.shaped) sound

theorem cleanSingleTorrent_sound (heap : Heap) (now : Int) (sound : Sound peerList) (small : peerList.peerCount < 2 ^ 31) :
    Sound (cleanSingleTorrent heap now peerList).2.1 ∧
      (cleanSingleTorrent heap now peerList).2.1.peerCount ≤ peerList.peerCount :=
  cleaned_sound (cleanSingleTorrent_cases heap now peerList sound.shaped) sound small

end BtServer.Proofs.PeerListInvariant

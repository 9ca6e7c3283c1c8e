import BtServer.Announce
import BtServer.Proofs.VectorSearch

/-! What the tracker reads of an announced record. Its age is overwritten, and a stop
looks at nothing but the address, so the state after an announce depends on the
address, on the flags and on whether they say that the peer stopped. -/

namespace BtServer.Proofs.AnnounceRecord
open Lib

def fill (peers : PeerVector) (peer : Peer) (position : Nat) (record : Peer) : PeerVector :=
  peers.setBucketFor peer ⟨(peers.bucketFor peer).data.set position record, (peers.bucketFor peer).space⟩

structure SameBut (position : Nat) (left right : OtVector Peer) : Prop where
  length : left.data.length = right.data.length
  space : left.space = right.space
  filled : ∀ record, left.data.set position record = right.data.set position record

theorem SameBut.refl (position : Nat) (vector : OtVector Peer) : SameBut position vector vector :=
  ⟨rfl, rfl, fun _ => rfl⟩

private theorem setBucketFor_unmarked {peers : PeerVector} (unmarked : ¬ peers.space < peers.size) (peer : Peer)
    (vector : OtVector Peer) : peers.setBucketFor peer vector = ⟨.members vector.data, vector.space⟩ := by
  have plain : peers.hasBuckets = false := by simpa [PeerVector.hasBuckets] using unmarked
  obtain ⟨only, list⟩ : ∃ only, peers.bucketList = [only] := by
    unfold PeerVector.bucketList
    rw [plain]
    cases peers.data <;> exact ⟨_, rfl⟩
  simp [PeerVector.setBucketFor, PeerVector.setBucketList, PeerVector.bucketIndex, plain, list, unmarked]

theorem fill_congr (peers : PeerVector) (peer record : Peer) {position : Nat} {left right : OtVector Peer}
    (same : SameBut position left right) :
    fill (peers.setBucketFor peer left) peer position record = fill (peers.setBucketFor peer right) peer position record := by
  by_cases marked : peers.space < peers.size
  · obtain ⟨data, room⟩ := peers
    cases data with
    | members stored =>
      have lost : ∀ vector, PeerVector.setBucketFor ⟨.members stored, room⟩ peer vector = ⟨.buckets [], room⟩ := by
        intro vector
        simp [PeerVector.setBucketFor, PeerVector.setBucketList, PeerVector.bucketList, PeerVector.hasBuckets, marked]
      rw [lost, lost]
    | buckets vectors =>
      have many : room < vectors.length := marked
      have index := vectorHashPeer_lt (Nat.zero_lt_of_lt many) peer
      simp [fill, PeerVector.setBucketFor, PeerVector.bucketFor, PeerVector.setBucketList, PeerVector.bucketList,
        PeerVector.hasBuckets, PeerVector.size, PeerVector.bucketIndex, many, same.space, same.filled, index]
  · rw [setBucketFor_unmarked marked, setBucketFor_unmarked marked, same.space]
    by_cases full : right.space < right.data.length
    · simp [fill, PeerVector.setBucketFor, PeerVector.setBucketList, PeerVector.bucketList, PeerVector.hasBuckets,
        PeerVector.size, same.length, full]
    · simp [fill, PeerVector.setBucketFor, PeerVector.bucketFor, PeerVector.setBucketList, PeerVector.bucketList,
        PeerVector.hasBuckets, PeerVector.size, PeerVector.bucketIndex, same.length, same.filled, full]

private theorem position_le (vector : OtVector Peer) (peer : Peer) :
    (binarySearch peer.addr Peer.addr vector.data).1 ≤ vector.data.length := by
  rcases VectorSearch.binarySearch_cases peer.addr Peer.addr vector.data (by simp) with
    ⟨before, found, after, interval, members, _, _, _, search⟩ | ⟨before, after, members, search, _⟩
  all_goals
    have length := congrArg List.length members
    simp only [List.length_append] at length
    simp only [search]
    omega

theorem vectorFindOrInsert_time (heap : Heap) (vector : OtVector Peer) (peer : Peer) (age : UInt8) :
    (∃ rest, vectorFindOrInsert heap vector { peer with time := age } Peer.addr = (rest, none) ∧
      vectorFindOrInsert heap vector peer Peer.addr = (rest, none)) ∨
    ∃ rest left right position exactmatch, SameBut position left right ∧ (exactmatch ≠ 0 → left = right) ∧
      vectorFindOrInsert heap vector { peer with time := age } Peer.addr = (rest, some (left, position, exactmatch)) ∧
      vectorFindOrInsert heap vector peer Peer.addr = (rest, some (right, position, exactmatch)) := by
  have within := position_le vector peer
  obtain ⟨⟨position, exactmatch⟩, search⟩ : ∃ result, binarySearch peer.addr Peer.addr vector.data = result := ⟨_, rfl⟩
  simp only [search] at within
  simp only [vectorFindOrInsert, Peer.addr_time, search]
  by_cases missed : exactmatch = 0
  · subst missed
    have opened : ∀ space, SameBut position
        ⟨vector.data.take position ++ { peer with time := age } :: vector.data.drop position, space⟩
        ⟨vector.data.take position ++ peer :: vector.data.drop position, space⟩ :=
      fun space => ⟨by simp, rfl, by simp [within]⟩
    simp only [ne_eq, not_true_eq_false, if_false]
    by_cases full : vector.size + 1 > vector.space
    · simp only [if_pos full]
      cases allocate heap with
      | mk granted rest =>
        cases granted with
        | false => exact .inl ⟨_, rfl, rfl⟩
        | true => exact .inr ⟨_, _, _, _, _, opened _, fun hit => absurd rfl hit, rfl, rfl⟩
    · simp only [if_neg full]
      exact .inr ⟨_, _, _, _, _, opened _, fun hit => absurd rfl hit, rfl, rfl⟩
  · simp only [ne_eq, missed, not_false_eq_true, if_true]
    exact .inr ⟨_, _, _, _, _, .refl _ _, fun _ => rfl, rfl, rfl⟩

theorem announcePeer_time (heap : Heap) (now : Int) (peerList : PeerList) (peer : Peer) (age : UInt8) :
    announcePeer heap now peerList { peer with time := age } = announcePeer heap now peerList peer := by
  have bucket : peerList.peers.bucketFor { peer with time := age } = peerList.peers.bucketFor peer := rfl
  rcases vectorFindOrInsert_time heap (peerList.peers.bucketFor peer) peer age with
    ⟨rest, aged, plain⟩ | ⟨rest, left, right, position, exactmatch, same, found, aged, plain⟩
  · simp only [announcePeer, vectorFindOrInsertPeer, bucket, aged, plain]
  · have written := fill_congr peerList.peers peer { peer with time := 0, flag := sanitizeFlag peer.flag } same
    simp only [announcePeer, vectorFindOrInsertPeer, bucket, aged, plain]
    by_cases missed : exactmatch = 0
    · simp only [if_pos missed]
      exact Prod.ext (congrArg (PeerList.mk _ _ _ _) written) rfl
    · cases found missed
      rfl

section Calls
variable (tracker : Tracker) (heap : Heap) (random random' : List Nat) (proto proto' : Proto) (hash : Hash) (peer : Peer)
  (age : UInt8)

private theorem addPeer_state (now : Int) (amount amount' : Nat) :
    (addPeerToTorrentAndReturnPeers tracker heap now random proto hash { peer with time := age } amount).1 =
      (addPeerToTorrentAndReturnPeers tracker heap now random' proto' hash peer amount').1 := by
  simp only [addPeerToTorrentAndReturnPeers, announcePeer_time]
  split
  next => rfl
  next =>
    split
    next => split <;> rfl
    next => split <;> rfl

private theorem removePeer_state (flag : UInt8) :
    (removePeerFromTorrent tracker random proto hash { peer with flag := flag, time := age }).1 =
      (removePeerFromTorrent tracker random' proto' hash peer).1 := by
  simp only [removePeerFromTorrent]
  split <;> rfl

theorem addPeer_time (now : Int) (amount : Nat) :
    addPeerToTorrentAndReturnPeers tracker heap now random proto hash { peer with time := age } amount =
      addPeerToTorrentAndReturnPeers tracker heap now random proto hash peer amount := by
  simp only [addPeerToTorrentAndReturnPeers, announcePeer_time]

theorem removePeer_time :
    removePeerFromTorrent tracker random proto hash { peer with time := age } =
      removePeerFromTorrent tracker random proto hash peer := by
  simp only [removePeerFromTorrent]
  split <;> rfl

theorem apply_announceCall (gNowSeconds : Int) (numwant numwant' : Nat) (flag : UInt8)
    (alike : flag = peer.flag ∨ flag &&& peerFlagStopped ≠ 0 ∧ peer.flag &&& peerFlagStopped ≠ 0) :
    tracker.apply ⟨gNowSeconds, heap, announceCall proto random hash { peer with flag := flag, time := age } numwant⟩ =
      tracker.apply ⟨gNowSeconds, heap, announceCall proto' random' hash peer numwant'⟩ := by
  rcases alike with rfl | ⟨stops, stops'⟩
  · simp only [announceCall]
    split
    next => exact removePeer_state ..
    next => exact addPeer_state ..
  · simp only [announceCall, if_pos stops, if_pos stops']
    exact removePeer_state ..

end Calls

end BtServer.Proofs.AnnounceRecord

import BtServer.LiveNodes
import BtServer.Proofs.TrackerRefinement

/-! A tracker with live sync stores its peers as the default build does. A peer that
the live sync inserts is stored as if it had announced itself with one more flag. -/

namespace BtServer.Proofs.LiveAnnounces
open Lib VectorSearch PeerListShape PeerListEdits TorrentTable TrackerSteps

variable {space position : Nat} {vectors : List (OtVector Peer)} {first second : List Peer} {new peer told : Peer}
  {heap rest : Heap} {proto : LiveProto}

section Slots
variable {peers : PeerVector} {peer : Peer}

private theorem setBucketFor_marked {stored : List Peer} (marked : space < stored.length) (peer : Peer)
    (vector : OtVector Peer) : PeerVector.setBucketFor ⟨.members stored, space⟩ peer vector = ⟨.buckets [], space⟩ := by
  simp [PeerVector.setBucketFor, PeerVector.setBucketList, PeerVector.bucketList, PeerVector.hasBuckets, PeerVector.size, marked]

private theorem setBucketFor_buckets (marked : space < vectors.length) (peer : Peer) (vector : OtVector Peer) :
    PeerVector.setBucketFor ⟨.buckets vectors, space⟩ peer vector =
      ⟨.buckets (vectors.set (vectorHashPeer peer vectors.length) vector), space⟩ := by
  simp [PeerVector.setBucketFor, PeerVector.setBucketList, PeerVector.bucketList, PeerVector.bucketIndex,
    PeerVector.hasBuckets, PeerVector.size, marked]

private theorem setBucketFor_unmarked (unmarked : ¬ space < vectors.length) (peer : Peer) (vector : OtVector Peer) :
    PeerVector.setBucketFor ⟨.buckets vectors, space⟩ peer vector = ⟨.members vector.data, vector.space⟩ := by
  simp [PeerVector.setBucketFor, PeerVector.setBucketList, PeerVector.bucketList, PeerVector.bucketIndex,
    PeerVector.hasBuckets, PeerVector.size, unmarked]

private theorem bucketFor_buckets (marked : space < vectors.length)
    (peer : Peer) : PeerVector.bucketFor ⟨.buckets vectors, space⟩ peer =
      vectors.getD (vectorHashPeer peer vectors.length) .empty := by
  simp [PeerVector.bucketFor, PeerVector.bucketList, PeerVector.bucketIndex, PeerVector.hasBuckets, PeerVector.size, marked]

def rewrite (peers : PeerVector) (peer : Peer) (position : Nat) (new : Peer) : PeerVector :=
  peers.setBucketFor peer ⟨(peers.bucketFor peer).data.set position new, (peers.bucketFor peer).space⟩

private theorem rewrite_plain
    (size : first.length = second.length) (same : first.set position new = second.set position new) (peer : Peer) :
    rewrite ⟨.members first, space⟩ peer position new = rewrite ⟨.members second, space⟩ peer position new := by
  unfold rewrite
  by_cases marked : space < first.length
  · rw [setBucketFor_marked marked, setBucketFor_marked (by omega)]
  · have fits : first.length ≤ space := not_lt.mp marked
    rw [bucketFor_plain fits, setBucketFor_plain fits, bucketFor_plain (by omega), setBucketFor_plain (by omega), same]

theorem rewrite_eq (size : first.length = second.length)
    (same : first.set position new = second.set position new) (peers : PeerVector) (peer : Peer) :
    rewrite (peers.setBucketFor peer ⟨first, space⟩) peer position new =
      rewrite (peers.setBucketFor peer ⟨second, space⟩) peer position new := by
  obtain ⟨data, room⟩ := peers
  cases data with
  | members stored =>
    by_cases marked : room < stored.length
    · rw [setBucketFor_marked marked, setBucketFor_marked marked]
    · rw [setBucketFor_plain (not_lt.mp marked), setBucketFor_plain (not_lt.mp marked)]
      exact rewrite_plain size same peer
  | buckets vectors =>
    by_cases marked : room < vectors.length
    · rw [setBucketFor_buckets marked, setBucketFor_buckets marked]
      unfold rewrite
      simp only [setBucketFor_buckets (show room < (vectors.set _ _).length by simpa using marked),
        bucketFor_buckets (show room < (vectors.set _ _).length by simpa using marked), List.length_set, List.set_set]
      by_cases inside : vectorHashPeer peer vectors.length < vectors.length
      · simp [List.getD_eq_getElem?_getD, inside, same]
      · simp [List.set_eq_of_length_le (not_lt.mp inside)]
    · rw [setBucketFor_unmarked marked, setBucketFor_unmarked marked]
      exact rewrite_plain size same peer

theorem binarySearch_le (peer : Peer) (members : List Peer) :
    (binarySearch peer.addr Peer.addr members).1 ≤ members.length := by
  rcases binarySearch_cases peer.addr Peer.addr members (by simp) with
    ⟨before, found, after, interval, split, -, -, -, searched⟩ | ⟨before, after, split, searched, -⟩
  · rw [searched, split]
    simp
  · rw [searched, split]
    simp

private theorem vectorFindOrInsert_flag {vector opened : OtVector Peer}
    (found : vectorFindOrInsert heap vector peer Peer.addr = (rest, some (opened, position, 0))) (flag : UInt8) :
    ∃ before after space, opened = ⟨before ++ peer :: after, space⟩ ∧ before.length = position ∧
      vectorFindOrInsert heap vector { peer with flag := flag } Peer.addr =
        (rest, some (⟨before ++ { peer with flag := flag } :: after, space⟩, position, 0)) := by
  have inside := binarySearch_le peer vector.data
  have addr : ({ peer with flag := flag } : Peer).addr = peer.addr := rfl
  simp only [vectorFindOrInsert, addr] at found ⊢
  cases searched : binarySearch peer.addr Peer.addr vector.data with
  | mk index exactmatch =>
    rw [searched] at inside
    simp only [searched] at found ⊢
    by_cases missed : exactmatch = 0
    · subst missed
      simp only [ne_eq, not_true_eq_false, if_false] at found ⊢
      by_cases full : vector.size + 1 > vector.space
      · simp only [if_pos full] at found ⊢
        cases outcome : allocate heap with
        | mk success left =>
          cases success with
          | false => simp [outcome] at found
          | true =>
            simp only [outcome, Prod.mk.injEq, Option.some.injEq] at found ⊢
            obtain ⟨rfl, rfl, rfl, -⟩ := found
            exact ⟨_, _, _, rfl, by simpa using inside, rfl, rfl, rfl, trivial⟩
      · simp only [if_neg full, Prod.mk.injEq, Option.some.injEq] at found ⊢
        obtain ⟨rfl, rfl, rfl, -⟩ := found
        exact ⟨_, _, _, rfl, by simpa using inside, rfl, rfl, rfl, trivial⟩
    · simp only [ne_eq, missed, not_false_eq_true, if_true, Prod.mk.injEq, Option.some.injEq] at found
      exact absurd found.2.2.2 not_false

theorem findOrInsert_flag {peers opened : PeerVector}
    (found : vectorFindOrInsertPeer heap peers peer = (rest, some (opened, position, 0))) (flag : UInt8) :
    ∃ other, vectorFindOrInsertPeer heap peers { peer with flag := flag } = (rest, some (other, position, 0)) ∧
      ∀ new, rewrite other peer position new = rewrite opened peer position new := by
  have bucket : peers.bucketFor { peer with flag := flag } = peers.bucketFor peer := rfl
  simp only [vectorFindOrInsertPeer, bucket] at found ⊢
  cases slot : vectorFindOrInsert heap (peers.bucketFor peer) peer Peer.addr with
  | mk left result =>
    cases result with
    | none => simp [slot] at found
    | some result =>
      obtain ⟨vector, index, exactmatch⟩ := result
      simp only [slot, Prod.mk.injEq, Option.some.injEq] at found
      obtain ⟨rfl, rfl, rfl, rfl⟩ := found
      obtain ⟨before, after, space, rfl, rfl, again⟩ := vectorFindOrInsert_flag slot flag
      rw [again]
      refine ⟨_, rfl, fun new => ?_⟩
      exact rewrite_eq (by simp) (by simp) peers peer

end Slots

section Lists
variable {heap : Heap} {now : Int} {peerList : PeerList} {peer : Peer}

theorem sanitizeFlag_fromSync (flag : UInt8) : sanitizeFlag (flag ||| peerFlagFromSync) = sanitizeFlag flag ||| peerFlagFromSync := by
  have checked : ∀ flag : UInt8, sanitizeFlag (flag ||| peerFlagFromSync) = sanitizeFlag flag ||| peerFlagFromSync :=
    forall_byte (by decide +kernel)
  exact checked flag

theorem announcePeerLive_eq (proto : LiveProto) (heap : Heap) (now : Int) (peerList : PeerList) (peer : Peer) : ∃ flag,
    (announcePeerLive proto heap now peerList peer).1 = (announcePeer heap now peerList { peer with flag := flag }).1 ∧
    (announcePeerLive proto heap now peerList peer).2.isSome =
      (announcePeer heap now peerList { peer with flag := flag }).2.isSome ∧
    (proto ≠ .mca → flag = peer.flag) := by
  cases found : vectorFindOrInsertPeer heap peerList.peers peer with
  | mk rest slot =>
    cases slot with
    | none =>
      refine ⟨peer.flag, ?_, ?_, fun _ => rfl⟩ <;> simp [announcePeerLive, announcePeer, found]
    | some slot =>
      obtain ⟨opened, position, exactmatch⟩ := slot
      by_cases missed : exactmatch = 0
      · subst missed
        by_cases mca : proto = .mca
        · obtain ⟨other, again, same⟩ := findOrInsert_flag found (peer.flag ||| peerFlagFromSync)
          refine ⟨peer.flag ||| peerFlagFromSync, ?_, ?_, fun client => absurd mca client⟩
          · simp only [announcePeerLive, announcePeer, found, again, if_true, sanitizeFlag_fromSync, if_pos mca]
            exact congrArg _ (same _).symm
          · simp [announcePeerLive, announcePeer, found, again]
        · refine ⟨peer.flag, ?_, ?_, fun _ => rfl⟩ <;> simp [announcePeerLive, announcePeer, found, mca]
      · refine ⟨peer.flag, ?_, ?_, fun _ => rfl⟩ <;>
          simp only [announcePeerLive, announcePeer, found, if_neg missed] <;>
          cases (opened.bucketFor peer).data[position]? <;> rfl

theorem announcePeerLive_told {events : List StatsEvent}
    (issued : (announcePeerLive proto heap now peerList peer).2 = some (events, some told)) : told = fresh peer := by
  simp only [announcePeerLive] at issued
  cases found : vectorFindOrInsertPeer heap peerList.peers peer with
  | mk rest slot =>
    cases slot with
    | none => simp [found] at issued
    | some slot =>
      obtain ⟨opened, position, exactmatch⟩ := slot
      simp only [found] at issued
      by_cases missed : exactmatch = 0
      · simp only [if_pos missed, Option.some.injEq, Prod.mk.injEq] at issued
        by_cases mca : proto = .mca
        · simp [mca] at issued
        · simpa [mca, fresh] using issued.2.symm
      · simp only [if_neg missed] at issued
        cases old : (opened.bucketFor peer).data[position]? with
        | none => simp [old] at issued
        | some old =>
          simp only [old, Option.some.injEq, Prod.mk.injEq, ite_eq_iff, reduceCtorEq] at issued
          simp_all [fresh]

end Lists

section Trackers
variable {tracker : Tracker} {heap : Heap} {now : Int} {random : List Nat} {hash : Hash} {peer : Peer} {amount : Nat}

theorem addPeerToTorrentLive_eq (tracker : Tracker) (heap : Heap) (now : Int) (random : List Nat) (proto : LiveProto)
    (hash : Hash) (peer : Peer) (amount : Nat) (usual : Proto) : ∃ flag,
    (addPeerToTorrentLive tracker heap now random proto hash peer amount).1 =
      (addPeerToTorrentAndReturnPeers tracker heap now random usual hash { peer with flag := flag } amount).1 ∧
    (addPeerToTorrentLive tracker heap now random proto hash peer amount).2.isSome =
      (addPeerToTorrentAndReturnPeers tracker heap now random usual hash { peer with flag := flag } amount).2.isSome ∧
    (proto ≠ .mca → flag = peer.flag) ∧
    ∀ told, (addPeerToTorrentLive tracker heap now random proto hash peer amount).2.bind LiveServed.told = some told →
      told = fresh peer := by
  -- What is told comes from the list, for every reply made of it.
  have tells : ∀ {heap peerList reply told}, ((announcePeerLive proto heap now peerList peer).2.map fun issued =>
      LiveServed.mk ⟨(announcePeerLive proto heap now peerList peer).1, issued.1, reply⟩ issued.2).bind LiveServed.told =
        some told → told = fresh peer := by
    intro heap peerList reply told result
    cases issued : (announcePeerLive proto heap now peerList peer).2 with
    | none => simp [issued] at result
    | some pair =>
      simp only [issued, Option.map_some, Option.bind_some] at result
      exact announcePeerLive_told (issued.trans (by rw [← result]))
  simp only [addPeerToTorrentLive, addPeerToTorrentAndReturnPeers]
  cases vectorFindOrInsert heap (tracker.allTorrents (bucketOfHash hash)) ⟨hash, none⟩ Torrent.bytes with
  | mk rest slot =>
    cases slot with
    | none => exact ⟨peer.flag, rfl, rfl, fun _ => rfl, fun _ told => by cases told⟩
    | some slot =>
      obtain ⟨torrents, position, exactmatch⟩ := slot
      simp only
      by_cases missed : exactmatch = 0
      · simp only [if_pos missed]
        cases allocate rest with
        | mk success left =>
          cases success with
          | false => exact ⟨peer.flag, rfl, rfl, fun _ => rfl, fun _ told => by cases told⟩
          | true =>
            obtain ⟨flag, list, some, client⟩ := announcePeerLive_eq proto left now .zero peer
            exact ⟨flag, by simp only [list], by simpa using some, client, fun _ => tells⟩
      · simp only [if_neg missed]
        cases torrents.data[position]?.bind Torrent.peerList with
        | none => exact ⟨peer.flag, rfl, rfl, fun _ => rfl, fun _ told => by cases told⟩
        | some peerList =>
          obtain ⟨flag, list, some, client⟩ := announcePeerLive_eq proto (cleanSingleTorrent rest now peerList).1 now
            (cleanSingleTorrent rest now peerList).2.1 peer
          exact ⟨flag, by simp only [list], by simpa using some, client, fun _ => tells⟩

end Trackers

section Records

theorem toPeer_syncRecord (hash : Hash) (peer : Peer) : (syncRecord hash peer).toPeer = peer := by
  have bytes : (syncRecord hash peer).peer.toList = peer.ip.toList ++ peer.port.toList ++ [peer.flag, peer.time] :=
    toList_readBytes (by simp [Peer.bytes, otPeerSize])
  have ip := readBytes_between [] (peer.port.toList ++ [peer.flag, peer.time]) peer.ip
  have port := readBytes_between peer.ip.toList [peer.flag, peer.time] peer.port
  simp only [List.nil_append, List.length_nil, Vector.length_toList, ← List.append_assoc] at ip port
  simp only [SyncRecord.toPeer, bytes, ip, port]
  simp [List.getD_eq_getElem?_getD]

end Records

section Events
variable {tracker : Tracker} {event : Event}

theorem applyLive_eq (tracker : Tracker) (event : Event) : (tracker.applyLive event).1 = tracker.apply event := by
  cases call : event.call with
  | announce proto hash peer amount random =>
    obtain ⟨flag, same, -, client, -⟩ := addPeerToTorrentLive_eq tracker event.heap event.now random (.client proto) hash peer
      amount proto
    simp only [Tracker.applyLive, Tracker.apply, call, same, client (by simp)]
  | _ => simp only [Tracker.applyLive, call]

theorem applyLive_told {record : SyncRecord 4} (told : (tracker.applyLive event).2 = some record) :
    (∃ proto peer amount random, event.call = .announce proto record.hash peer amount random ∧ record.toPeer = fresh peer) ∨
    ∃ proto peer random, event.call = .stop proto record.hash peer random ∧ record.toPeer.addr = peer.addr := by
  cases call : event.call with
  | announce proto hash peer amount random =>
    simp only [Tracker.applyLive, call] at told
    obtain ⟨stored, tells, rfl⟩ := Option.map_eq_some_iff.mp told
    obtain ⟨-, -, -, -, only⟩ := addPeerToTorrentLive_eq tracker event.heap event.now random (.client proto) hash peer amount proto
    exact .inl ⟨proto, peer, amount, random, rfl, by rw [toPeer_syncRecord]; exact only stored tells⟩
  | stop proto hash peer random =>
    simp only [Tracker.applyLive, call, Option.some.injEq] at told
    subst told
    exact .inr ⟨proto, peer, random, rfl, by rw [toPeer_syncRecord]; rfl⟩
  | _ => simp [Tracker.applyLive, call] at told

theorem handleRecord_eq (tracker : Tracker) (heap : Heap) (gNowSeconds : Int) (record : SyncRecord 4) :
    ∃ event, event.gNowSeconds = gNowSeconds ∧ (tracker.handleRecord heap gNowSeconds record).1 = tracker.apply event ∧
      ((record.toPeer.flag &&& peerFlagStopped ≠ 0 ∧ event.call = .stop .udp record.hash record.toPeer []) ∨
        (record.toPeer.flag &&& peerFlagStopped = 0 ∧ ∃ flag,
          event.call = .announce .udp record.hash { record.toPeer with flag := flag } 0 [] ∧
          (tracker.handleRecord heap gNowSeconds record).2 = (tracker.served event).isSome)) := by
  by_cases stopped : record.toPeer.flag &&& peerFlagStopped = 0
  · obtain ⟨flag, same, some, -, -⟩ := addPeerToTorrentLive_eq tracker heap (gNowMinutes gNowSeconds) [] .mca record.hash
      record.toPeer 0 .udp
    refine ⟨⟨gNowSeconds, heap, .announce .udp record.hash { record.toPeer with flag := flag } 0 []⟩, rfl, ?_,
      .inr ⟨stopped, flag, rfl, ?_⟩⟩
    · simp only [Tracker.handleRecord, stopped, ne_eq, not_true_eq_false, if_false]
      exact same
    · simp only [Tracker.handleRecord, stopped, ne_eq, not_true_eq_false, if_false]
      exact some
  · refine ⟨⟨gNowSeconds, heap, .stop .udp record.hash record.toPeer []⟩, rfl, ?_, .inl ⟨stopped, rfl⟩⟩
    simp only [Tracker.handleRecord, if_pos stopped]
    rfl

end Events

end BtServer.Proofs.LiveAnnounces

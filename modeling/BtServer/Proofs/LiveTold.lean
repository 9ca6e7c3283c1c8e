import BtServer.Proofs.Completions
import BtServer.Proofs.LiveAnnounces

/-! Announces in a tracker that does not run out of memory: every one of them is
served, and one of a peer that is not there, or has not announced itself for more than
`OT_CLIENT_SYNC_RENEW_BOUNDARY` minutes, is told to the live sync. -/

namespace BtServer.Proofs.LiveTold
open Lib VectorSearch PeerListShape PeerListEdits PeerListInvariant Cleaning TorrentTable TrackerSteps TrackerInvariant
open PeerMapEdits TrackerRefinement Completions LiveAnnounces

section Allocations
variable {heap : Heap}

def Plenty (heap : Heap) : Prop := ∀ outcome ∈ heap, outcome = true

theorem Plenty.suffix {rest : Heap} (plenty : Plenty heap) (suffix : rest <:+ heap) : Plenty rest :=
  fun outcome member => plenty outcome (suffix.subset member)

theorem allocate_suffix (heap : Heap) : (allocate heap).2 <:+ heap := by
  cases heap with
  | nil => exact List.suffix_rfl
  | cons outcome rest => exact List.suffix_cons outcome rest

theorem Plenty.allocate (plenty : Plenty heap) : ∃ rest, allocate heap = (true, rest) ∧ Plenty rest := by
  have suffix := allocate_suffix heap
  cases heap with
  | nil => exact ⟨[], rfl, plenty⟩
  | cons outcome rest =>
    have success := plenty outcome (by simp)
    exact ⟨rest, by simp [BtServer.allocate, success], plenty.suffix suffix⟩

theorem vectorFindOrInsert_plenty {α : Type} (plenty : Plenty heap) (vector : OtVector α) (record : α) (bytes : α → Bytes) :
    ∃ rest found, vectorFindOrInsert heap vector record bytes = (rest, some found) ∧ Plenty rest := by
  simp only [vectorFindOrInsert]
  split
  · exact ⟨_, _, rfl, plenty⟩
  split
  · obtain ⟨rest, outcome, left⟩ := plenty.allocate
    exact ⟨rest, _, by rw [outcome], left⟩
  · exact ⟨_, _, rfl, plenty⟩

theorem allocateEach_suffix (heap : Heap) (count : Nat) : (allocateEach heap count).2 <:+ heap := by
  induction count generalizing heap with
  | zero => exact List.suffix_rfl
  | succ count ih =>
    have suffix := allocate_suffix heap
    rw [allocateEach]
    cases outcome : allocate heap with
    | mk success rest =>
      rw [outcome] at suffix
      cases success with
      | false => exact suffix
      | true => exact (ih rest).trans suffix

private theorem distributePeer_suffix (heap : Heap) (vectors : List (OtVector Peer)) (peer : Peer) :
    (distributePeer heap vectors peer).1 <:+ heap := by
  have suffix := allocate_suffix heap
  unfold distributePeer
  extract_lets index dest
  split
  · cases outcome : allocate heap with
    | mk success rest =>
      rw [outcome] at suffix
      cases success <;> exact suffix
  · exact List.suffix_rfl

private theorem distributePeers_suffix (heap : Heap) (vectors : List (OtVector Peer)) (peers : List Peer) :
    (distributePeers heap vectors peers).1 <:+ heap := by
  induction peers generalizing heap vectors with
  | nil => exact List.suffix_rfl
  | cons peer rest ih =>
    have suffix := distributePeer_suffix heap vectors peer
    rw [distributePeers]
    cases placed : distributePeer heap vectors peer with
    | mk left result =>
      rw [placed] at suffix
      cases result with
      | none => exact suffix
      | some vectors => exact (ih left vectors).trans suffix

theorem vectorRedistributeBuckets_suffix (heap : Heap) (peerList : PeerList) :
    (vectorRedistributeBuckets heap peerList).1 <:+ heap := by
  have first := allocate_suffix heap
  simp only [vectorRedistributeBuckets]
  split
  · exact List.suffix_rfl
  cases outcome : allocate heap with
  | mk success rest =>
    rw [outcome] at first
    cases success with
    | false => exact first
    | true =>
      have second := allocateEach_suffix rest (numBucketsNew peerList.peerCount peerList.peers.bucketList.length)
      simp only
      split
      next _ left each =>
        rw [each] at second
        exact second.trans first
      next _ left each =>
        rw [each] at second
        have third := distributePeers_suffix left
          (List.replicate (numBucketsNew peerList.peerCount peerList.peers.bucketList.length) ⟨[], bucketSizeNew
            (peerList.peerCount / numBucketsNew peerList.peerCount peerList.peers.bucketList.length)
            (peerList.peerCount / numBucketsNew peerList.peerCount peerList.peers.bucketList.length) otVectorMinMembers⟩)
          (peerList.peers.bucketList.flatMap fun vector => vector.data.take (vector.size % 2 ^ 32))
        split
        next _ last moved =>
          rw [moved] at third
          exact third.trans (second.trans first)
        next _ last vectors moved =>
          rw [moved] at third
          split <;> exact third.trans (second.trans first)

theorem cleanSingleTorrent_suffix (heap : Heap) (now : Int) (peerList : PeerList) :
    (cleanSingleTorrent heap now peerList).1 <:+ heap := by
  simp only [cleanSingleTorrent]
  split
  · exact List.suffix_rfl
  split
  · exact List.suffix_rfl
  split
  · exact List.suffix_rfl
  split
  · exact vectorRedistributeBuckets_suffix heap _
  · exact List.suffix_rfl

end Allocations

section Lists
variable {heap : Heap} {now : Int} {peerList : PeerList} {peer : Peer}

theorem vectorFindOrInsertPeer_plenty (plenty : Plenty heap) (peers : PeerVector) (peer : Peer) :
    ∃ rest slot, vectorFindOrInsertPeer heap peers peer = (rest, some slot) := by
  obtain ⟨rest, found, result, -⟩ := vectorFindOrInsert_plenty plenty (peers.bucketFor peer) peer Peer.addr
  simp only [vectorFindOrInsertPeer, result]
  exact ⟨_, _, rfl⟩

theorem announcePeerLive_plenty (proto : LiveProto) (plenty : Plenty heap) (shaped : Shaped peerList.peers) (now : Int)
    (peer : Peer) : ∃ events told, (announcePeerLive proto heap now peerList peer).2 = some (events, told) ∧
      (proto ≠ .mca → (∀ old ∈ peerList.peers.all, old.addr = peer.addr → otClientSyncRenewBoundary < old.time.toNat) →
        told = some (fresh peer)) := by
  obtain ⟨rest, slot, result⟩ := vectorFindOrInsertPeer_plenty plenty peerList.peers peer
  have cases := vectorFindOrInsertPeer_slot heap shaped peer
  rw [result] at cases
  cases cases with
  | found split index same matched read write =>
    simp only [announcePeerLive, result, if_neg matched, read]
    refine ⟨_, _, rfl, fun client due => ?_⟩
    exact if_pos ⟨client, .inl (due _ (by simp [PeerVector.all, split]) same)⟩
  | fresh split index cut write =>
    simp only [announcePeerLive, result, if_true]
    exact ⟨_, _, rfl, fun client _ => by simp [client, fresh]⟩

/-- The peer, if it is there, announced itself more than `OT_CLIENT_SYNC_RENEW_BOUNDARY` minutes ago. -/
def Due (now : Int) (addr : Bytes) (peerList : PeerList) : Prop :=
  ∀ old ∈ peerList.peers.all, old.addr = addr → peerList.base ≤ now ∧ now - peerList.base ≤ otTorrentTimeout ∧
    (otClientSyncRenewBoundary : Int) < now - peerList.base + old.time.toNat

theorem Due.cleaned {result : PeerList × Bool} {addr : Bytes} (due : Due now addr peerList)
    (cleaned : Cleaned now peerList result) (sound : Sound peerList) :
    ∀ old ∈ result.1.peers.all, old.addr = addr → otClientSyncRenewBoundary < old.time.toNat := by
  intro old member here
  cases cleaned with
  | current same =>
    have older := (due old member here).2.2
    omega
  | late idle => exact absurd (due old member here).2.1 (not_le.mpr idle)
  | vacant idle empty =>
    rw [List.eq_nil_of_length_eq_zero (sound.peerCount.symm.trans empty)] at member
    cases member
  | swept moved recent occupied counted swept =>
    obtain ⟨stored, inside, young, rfl⟩ := mem_survivors.mp (swept.members old member)
    obtain ⟨past, -, older⟩ := due stored inside here
    have cut : elapsed now peerList = now - peerList.base := by
      unfold elapsed at young ⊢
      omega
    rw [cut] at young ⊢
    have time := aged_time (by omega) young
    omega

end Lists

section Trackers
variable {tracker : Tracker} {heap : Heap} {hash : Hash}

theorem toMap_eq (tidy : Tidy tracker) {peerList : PeerList} (held : Holds tracker hash peerList) :
    tracker.toMap hash = peerList.peers.toMap := by
  simp only [Tracker.toMap, (find_eq_some tidy).mpr held]

private theorem announced_absent {now : Int} {peerList : PeerList} {peer : Peer} {result : PeerList × Option (List StatsEvent)}
    (announced : Announced now peerList peer result) {addr : Bytes} (absent : peerList.peers.toMap addr = none)
    (other : peer.addr ≠ addr) : result.1.peers.toMap addr = none := by
  refine toMap_eq_none.mpr fun stored member => ?_
  rcases announced.members stored member with inside | ⟨same, -⟩
  · exact toMap_eq_none.mp absent stored inside
  · rw [same]
    exact other

/-- A peer that is not in a torrent gets there by its own announce only. -/
theorem absent_apply {event : Event} (tidy : Tidy tracker) (bounded : Bounded tracker event) {addr : Bytes}
    (absent : tracker.toMap hash addr = none)
    (other : ∀ proto peer amount random, event.call = .announce proto hash peer amount random → peer.addr ≠ addr) :
    (tracker.apply event).toMap hash addr = none := by
  have lists : ∀ old, Holds tracker hash old → old.peers.toMap addr = none ∧ Sound old ∧ old.peerCount < 2 ^ 31 := by
    intro old held
    exact ⟨by rw [← toMap_eq tidy held]; exact absent, tidy.sound hash old held, bounded.peers.small held⟩
  cases found : (tracker.apply event).find hash with
  | none => simp [Tracker.toMap, found, PeerMap.empty]
  | some new =>
    have inside := (find_eq_some (tidy_apply tidy bounded)).mp found
    rw [toMap_eq (tidy_apply tidy bounded) inside]
    cases (apply_explained tidy.housed event).2 hash new inside with
    | kept held => exact (lists _ held).1
    | cleaned held cleans passes =>
      obtain ⟨absent, sound, small⟩ := lists _ held
      exact (cleanings_descend passes sound small).absent absent
    | created call heap =>
      exact announced_absent (announcePeer_cases heap event.now _ _ shaped_zero) rfl (other _ _ _ _ call)
    | announced call held first second =>
      obtain ⟨absent, sound, small⟩ := lists _ held
      have cleaned := cleanSingleTorrent_cases first event.now _ sound.shaped
      refine announced_absent (announcePeer_cases second event.now _ _ (cleaned_sound cleaned sound small).1.shaped) ?_
        (other _ _ _ _ call)
      exact (cleaned_descends cleaned sound small).absent absent
    | stopped call held =>
      obtain ⟨absent, sound, small⟩ := lists _ held
      exact (stopped_descends (stopPeer_cases _ _ sound.shaped) sound small).absent absent
    | restored call => rfl

theorem addPeerToTorrentLive_plenty (tidy : Tidy tracker)
    (bounded : ∀ peerList, Holds tracker hash peerList → peerList.peerCount < 2 ^ 31) (plenty : Plenty heap) (now : Int)
    (random : List Nat) (proto : LiveProto) (peer : Peer) (amount : Nat) : ∃ served,
    (addPeerToTorrentLive tracker heap now random proto hash peer amount).2 = some served ∧
      (proto ≠ .mca → (∀ peerList, Holds tracker hash peerList → Due now peer.addr peerList) →
        served.told = some (fresh peer)) := by
  obtain ⟨rest, slot, opened, left⟩ :=
    vectorFindOrInsert_plenty plenty (tracker.allTorrents (bucketOfHash hash)) ⟨hash, none⟩ Torrent.bytes
  rcases vectorFindOrInsert_cases heap (tracker.allTorrents (bucketOfHash hash)) ⟨hash, none⟩ Torrent.bytes
      (by simp [Torrent.bytes]) with
    ⟨before, torrent, after, exactmatch, split, same, matched, result⟩ | ⟨_, result⟩ |
    ⟨before, after, space, _, split, grown, wide, cut, result⟩
  · obtain ⟨peerList, rfl⟩ := found_torrent (tidy.housed.complete _) split same
    have held : Holds tracker hash peerList := by
      rw [Holds, split]
      simp
    have sound := tidy.sound hash peerList held
    have cleaned := cleanSingleTorrent_cases heap now peerList sound.shaped
    have shaped := (cleaned_sound cleaned sound (bounded _ held)).1.shaped
    obtain ⟨events, told, issued, tells⟩ := announcePeerLive_plenty proto
      (plenty.suffix (cleanSingleTorrent_suffix heap now peerList)) shaped now peer
    simp only [addPeerToTorrentLive, result, if_neg matched, split, get_here, Option.bind_some, issued, Option.map_some]
    exact ⟨_, rfl, fun client due => tells client ((due _ held).cleaned cleaned sound)⟩
  · rw [result] at opened
    cases opened
  · rw [result] at opened
    cases opened
    obtain ⟨last, outcome, enough⟩ := left.allocate
    obtain ⟨events, told, issued, tells⟩ := announcePeerLive_plenty proto enough shaped_zero now peer
    simp only [addPeerToTorrentLive, result, if_true, outcome, issued, Option.map_some]
    exact ⟨_, rfl, fun client _ => tells client fun _ member => absurd member List.not_mem_nil⟩

end Trackers

end BtServer.Proofs.LiveTold

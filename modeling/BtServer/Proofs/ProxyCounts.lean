import BtServer.ProxyStore
import BtServer.Proofs.PeerListEdits
import BtServer.Proofs.TrackerSteps

/-! The counts and the locks of the proxy's peer store. They stay right unless the table of torrents cannot grow, which leaves
the bucket locked, or a peer comes back with its seeding flag changed, which is overwritten without a look at it. -/

namespace BtServer.Proofs.ProxyCounts
open Lib VectorSearch PeerListShape PeerListEdits TorrentTable TrackerSteps

variable {peerList : PeerList} {peer : Peer} {hash : Hash} {torrents : OtVector Torrent}

structure Tallied (peerList : PeerList) : Prop where
  shaped : Shaped peerList.peers
  peerCount : peerList.peerCount = peerList.peers.all.length
  seedCount : peerList.seedCount = peerList.peers.all.countP Peer.seeding

theorem tallied_zero : Tallied .zero := ⟨shaped_zero, rfl, rfl⟩

/-- A peer that is stored already comes back with the same seeding flag. -/
def Steady (peerList : PeerList) (peer : Peer) : Prop :=
  ∀ old ∈ peerList.peers.all, old.addr = peer.addr → old.seeding = peer.seeding

inductive Added (peerList : PeerList) (peer : Peer) : PeerList → Prop where
  | refused : Added peerList peer peerList
  | inserted {left right : List (OtVector Peer)} {before after : List Peer} {space room : Nat} {peers : PeerVector}
      (split : peerList.peers.bucketList = left ++ ⟨before ++ after, space⟩ :: right) (shaped : Shaped peers)
      (edited : peers.bucketList = left ++ ⟨before ++ { peer with time := 0 } :: after, room⟩ :: right) :
      Added peerList peer
        { peerList with
          peerCount := peerList.peerCount + 1
          seedCount := if peer.seeding then peerList.seedCount + 1 else peerList.seedCount
          peers := peers }
  | overwritten {left right : List (OtVector Peer)} {before after : List Peer} {old : Peer} {space : Nat} {peers : PeerVector}
      (split : peerList.peers.bucketList = left ++ ⟨before ++ old :: after, space⟩ :: right) (same : old.addr = peer.addr)
      (shaped : Shaped peers)
      (edited : peers.bucketList = left ++ ⟨before ++ { peer with time := 0 } :: after, space⟩ :: right) :
      Added peerList peer { peerList with peers := peers }

theorem addPeerToList_cases (heap : Heap) (shaped : Shaped peerList.peers) (peer : Peer) :
    Added peerList peer (addPeerToList heap peerList peer).1 := by
  have slot := vectorFindOrInsertPeer_slot heap shaped peer
  rw [addPeerToList]
  generalize vectorFindOrInsertPeer heap peerList.peers peer = result at slot ⊢
  obtain ⟨rest, result⟩ := result
  have seeding : ({ peer with time := 0 } : Peer).seeding = peer.seeding := rfl
  cases slot with
  | refused => exact .refused
  | found split index same matched read write =>
    obtain ⟨written, stored, shaped, edited⟩ := write { peer with time := 0 }
    subst stored
    simp only [matched, false_and, if_false]
    exact .overwritten split same shaped edited
  | fresh split index cut write =>
    obtain ⟨written, stored, shaped, edited⟩ := write { peer with time := 0 }
    subst stored
    simp only [seeding, true_and, if_true]
    exact .inserted split shaped edited

theorem addPeerToList_tallied (heap : Heap) (tallied : Tallied peerList)
    (steady : Steady peerList peer) : Tallied (addPeerToList heap peerList peer).1 := by
  have added := addPeerToList_cases heap tallied.shaped peer
  have peerCount := tallied.peerCount
  have seedCount := tallied.seedCount
  have seeding : ({ peer with time := 0 } : Peer).seeding = peer.seeding := rfl
  generalize (addPeerToList heap peerList peer).1 = result at added ⊢
  cases added with
  | refused => exact tallied
  | @inserted left right before after space room peers split shaped edited =>
    rw [all_split split] at peerCount seedCount
    simp only [List.length_append, List.countP_append] at peerCount seedCount
    refine ⟨shaped, ?_, ?_⟩
    · show peerList.peerCount + 1 = peers.all.length
      rw [all_split edited]
      simp only [List.length_append, List.length_cons]
      omega
    · show (if peer.seeding then peerList.seedCount + 1 else peerList.seedCount) = peers.all.countP Peer.seeding
      rw [all_split edited]
      simp only [List.countP_append, List.countP_cons, seeding]
      split <;> omega
  | @overwritten left right before after old space peers split same shaped edited =>
    have flag : old.seeding = peer.seeding := steady old (by rw [all_split split]; simp) same
    rw [all_split split] at peerCount seedCount
    refine ⟨shaped, ?_, ?_⟩
    · show peerList.peerCount = peers.all.length
      rw [all_split edited, peerCount]
      simp
    · show peerList.seedCount = peers.all.countP Peer.seeding
      rw [all_split edited, seedCount]
      simp only [List.countP_append, List.countP_cons, flag, seeding]

theorem stopPeer_tallied (tallied : Tallied peerList) (peer : Peer) : Tallied (stopPeer peerList peer) := by
  have stopped := stopPeer_cases peerList peer tallied.shaped
  have peerCount := tallied.peerCount
  have seedCount := tallied.seedCount
  generalize stopPeer peerList peer = result at stopped ⊢
  cases stopped with
  | absent missing => exact tallied
  | @removed left right before after old space room peers split index same shaped edited =>
    rw [all_split split] at peerCount seedCount
    simp only [List.length_append, List.length_cons, List.countP_append, List.countP_cons] at peerCount seedCount
    refine ⟨shaped, ?_, ?_⟩
    · show subSize peerList.peerCount 1 = peers.all.length
      rw [subSize_eq (by omega), all_split edited]
      simp only [List.length_append]
      omega
    · show (if old.seeding then subSize peerList.seedCount 1 else peerList.seedCount) = peers.all.countP Peer.seeding
      rw [all_split edited]
      simp only [List.countP_append]
      split
      next seeding =>
        rw [if_pos seeding] at seedCount
        rw [subSize_eq (by omega)]
        omega
      next leeching =>
        rw [if_neg leeching] at seedCount
        omega

/-- Between two calls: no bucket is locked, and every torrent's counts are right. -/
structure Settled (store : ProxyStore) : Prop where
  unlocked : store.bucketLocklist = []
  housed : Housed store.tracker
  tallied : ∀ hash peerList, Holds store.tracker hash peerList → Tallied peerList

section Calls
variable {store : ProxyStore}

theorem settled_initial : Settled .initial := by
  refine ⟨rfl, housed_initial, fun hash peerList held => ?_⟩
  simp [Holds, ProxyStore.initial, Tracker.initial, OtVector.empty] at held

theorem Settled.lock (settled : Settled store) (bucket : Nat) : store.lock bucket = some ⟨store.tracker, [bucket]⟩ := by
  simp [ProxyStore.lock, settled.unlocked, bucketCheck, bucketPush, otMaxThreads]

theorem Settled.unlock (settled : Settled store) {found left : Option PeerList}
    (edited : Edited hash (store.tracker.allTorrents (bucketOfHash hash)).data found left torrents.data)
    (tallied : ∀ peerList, left = some peerList → Tallied peerList) :
    Settled (ProxyStore.unlock ⟨store.tracker, [bucketOfHash hash]⟩ (bucketOfHash hash) torrents) := by
  refine ⟨by simp [ProxyStore.unlock, bucketRemove], housed_edited settled.housed edited, fun other peerList held => ?_⟩
  rcases holds_unlock held with before | ⟨same, member⟩
  · exact settled.tallied other peerList before
  · rcases edited.members _ member with inside | ⟨written, kept, equal⟩
    · exact settled.tallied other peerList (by rw [Holds, same]; exact inside)
    · cases equal
      exact tallied _ kept

theorem Settled.unchanged (settled : Settled store) {bucket : Nat}
    (same : torrents.data = (store.tracker.allTorrents bucket).data) :
    Settled (ProxyStore.unlock ⟨store.tracker, [bucket]⟩ bucket torrents) := by
  obtain ⟨housed, lists⟩ := unlock_unchanged settled.housed same 0
  exact ⟨by simp [ProxyStore.unlock, bucketRemove], housed,
    fun hash peerList held => settled.tallied hash peerList (lists hash peerList held)⟩

/-- The vector of torrents has the hash, or room for it, or can grow. -/
def Roomy (store : ProxyStore) (heap : Heap) (hash : Hash) : Prop :=
  (vectorFindOrInsert heap (store.tracker.allTorrents (bucketOfHash hash)) ⟨hash, none⟩ Torrent.bytes).2.isSome

theorem Settled.add (settled : Settled store) {heap : Heap} (roomy : Roomy store heap hash)
    (steady : ∀ peerList, Holds store.tracker hash peerList → Steady peerList peer) :
    ∃ after returned, addPeerToTorrentProxy store heap hash peer = some (after, returned) ∧ Settled after := by
  have complete := settled.housed.complete (bucketOfHash hash)
  rcases vectorFindOrInsert_cases heap (store.tracker.allTorrents (bucketOfHash hash)) ⟨hash, none⟩ Torrent.bytes
      (by simp [Torrent.bytes]) with
    ⟨before, torrent, after, exactmatch, split, same, matched, result⟩ | ⟨rest, result⟩ |
    ⟨before, after, space, rest, split, grown, opened, cut, result⟩
  · obtain ⟨peerList, rfl⟩ := found_torrent complete split same
    have held : Holds store.tracker hash peerList := by
      rw [Holds, split]
      simp
    simp only [addPeerToTorrentProxy, settled.lock, Option.map_some, result, if_neg matched, split, get_here, Option.bind_some,
      set_here]
    refine ⟨_, _, rfl, settled.unlock (.replaced split) fun _ left => ?_⟩
    rw [← Option.some.inj left]
    exact addPeerToList_tallied heap (settled.tallied hash peerList held) (steady peerList held)
  · rw [Roomy, result] at roomy
    cases roomy
  · simp only [addPeerToTorrentProxy, settled.lock, Option.map_some, result, if_true]
    cases outcome : allocate rest with
    | mk success rest =>
      cases success with
      | false =>
        refine ⟨_, _, rfl, settled.unchanged ?_⟩
        rw [vectorRemoveTorrent_data, split]
      | true =>
        refine ⟨_, _, rfl, settled.unlock (by rw [set_here]; exact .inserted split cut) fun _ left => ?_⟩
        rw [← Option.some.inj left]
        exact addPeerToList_tallied rest tallied_zero fun old member => absurd member List.not_mem_nil

theorem Settled.remove (settled : Settled store) (hash : Hash) (peer : Peer) :
    ∃ after returned, removePeerFromTorrentProxy store hash peer = some (after, returned) ∧ Settled after := by
  rcases search_cases _ hash (settled.housed.complete (bucketOfHash hash)) with
    ⟨before, after, peerList, exactmatch, split, matched, searched⟩ | ⟨position, searched, missing⟩
  · have held : Holds store.tracker hash peerList := by
      rw [Holds, split]
      simp
    rw [split] at searched
    simp only [removePeerFromTorrentProxy, settled.lock, Option.map_some, searched, if_neg matched, split, get_here,
      Option.bind_some, set_here]
    refine ⟨_, _, rfl, settled.unlock (.replaced split) fun _ left => ?_⟩
    rw [← Option.some.inj left]
    exact stopPeer_tallied (settled.tallied hash peerList held) peer
  · simp only [removePeerFromTorrentProxy, settled.lock, Option.map_some, searched, if_true]
    exact ⟨_, _, rfl, settled.unchanged rfl⟩

def Permitted (store : ProxyStore) : ProxyCall → Prop
  | .add hash peer heap => Roomy store heap hash ∧ ∀ peerList, Holds store.tracker hash peerList → Steady peerList peer
  | .remove .. => True

theorem Settled.step {before after : ProxyStore} {call : ProxyCall} (settled : Settled before) (permitted : Permitted before call)
    (step : ProxyStore.Step before call after) : Settled after := by
  obtain ⟨returned, result⟩ := step
  cases call with
  | add hash peer heap =>
    obtain ⟨final, code, equal, kept⟩ := settled.add permitted.1 permitted.2
    cases equal.symm.trans result
    exact kept
  | remove hash peer =>
    obtain ⟨final, code, equal, kept⟩ := settled.remove hash peer
    cases equal.symm.trans result
    exact kept

theorem proxy_store_settled {calls : List ProxyCall} (run : Run ProxyStore.Step Permitted .initial calls store) :
    store.bucketLocklist = [] ∧
    (∀ bucket, ∀ torrent ∈ (store.tracker.allTorrents bucket).data, ∃ peerList, torrent.peerList = some peerList ∧
      peerList.peerCount = peerList.peers.all.length ∧ peerList.seedCount = peerList.peers.all.countP Peer.seeding) ∧
    ∀ call, (store.call call).isSome := by
  have settled : Settled store :=
    run.invariant Settled (fun _ _ _ kept permitted step => kept.step permitted step) settled_initial
  refine ⟨settled.unlocked, fun bucket torrent member => ?_, fun call => ?_⟩
  · obtain ⟨peerList, has⟩ := Option.isSome_iff_exists.mp (settled.housed.complete bucket torrent member)
    have home := settled.housed.home bucket torrent member
    have held : Holds store.tracker torrent.hash peerList := by
      rw [Holds, home, ← has]
      exact member
    exact ⟨peerList, has, (settled.tallied _ _ held).peerCount, (settled.tallied _ _ held).seedCount⟩
  · cases call <;> simp [ProxyStore.call, addPeerToTorrentProxy, removePeerFromTorrentProxy, settled.lock]

def someHash : Hash := .replicate 20 0

def somePeer (flag : UInt8) : Peer := ⟨.replicate 4 10, .replicate 2 1, flag, 0⟩

theorem proxy_store_settled_removed :
    ∃ final, Run ProxyStore.Step Permitted .initial [.add someHash (somePeer peerFlagSeeding) [], .remove someHash (somePeer 0)] final ∧
      (final.tracker.allTorrents 0).data = [⟨someHash, some .zero⟩] ∧ final.bucketLocklist = [] := by
  have fresh : Permitted .initial (.add someHash (somePeer peerFlagSeeding) []) := by
    refine ⟨rfl, fun peerList held => ?_⟩
    simp [Holds, ProxyStore.initial, Tracker.initial, OtVector.empty] at held
  obtain ⟨final, run, left⟩ : ∃ final, Run ProxyStore.Step Permitted .initial
      [.add someHash (somePeer peerFlagSeeding) [], .remove someHash (somePeer 0)] final ∧
      (final.tracker.allTorrents 0).data = [⟨someHash, some .zero⟩] :=
    ⟨_, .next fresh ⟨_, rfl⟩ (.next trivial ⟨_, rfl⟩ (.done _)), by decide⟩
  exact ⟨final, run, left, (proxy_store_settled run).1⟩

/-- A peer that comes back as a seeder is not counted as one but uncounted when it
leaves; and a table that cannot grow stays locked. -/
theorem proxy_store_unsettled :
    (∃ final, Run ProxyStore.Step free .initial
        [.add someHash (somePeer 0) [], .add someHash (somePeer peerFlagSeeding) [], .remove someHash (somePeer 0)] final ∧
      (final.tracker.allTorrents 0).data = [⟨someHash, some { PeerList.zero with seedCount := 2 ^ 64 - 1 }⟩]) ∧
    ∃ after, ProxyStore.initial.call (.add someHash (somePeer 0) [false]) = some (after, -1) ∧
      after.bucketLocklist = [bucketOfHash someHash] ∧ after.call (.remove someHash (somePeer 0)) = none := by
  refine ⟨⟨_, .next trivial ⟨_, rfl⟩ (.next trivial ⟨_, rfl⟩ (.next trivial ⟨_, rfl⟩ (.done _))), by decide⟩, _, rfl, ?_, ?_⟩
  · rfl
  · rfl

end Calls

end BtServer.Proofs.ProxyCounts

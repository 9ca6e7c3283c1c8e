import BtServer.Proofs.PeerListInvariant
import BtServer.Proofs.TrackerSteps

/-! The representation invariant of all peer lists over whole runs of the tracker,
and the one way to break it: `binary_search` hands the interval of a match out as
an `int`, and an interval of 2 ^ 32 peers becomes the 0 that means no match. -/

namespace BtServer.Proofs.TrackerInvariant
open Lib PeerListShape PeerListEdits PeerListInvariant VectorSearch TorrentTable TrackerSteps

variable {tracker : Tracker} {peerList : PeerList} {n space i : Nat} {event : Event} {hash : Hash}

def Keeps (tracker : Tracker) (peerList : PeerList) : Prop :=
  ∃ bucket hash, ⟨hash, some peerList⟩ ∈ (tracker.allTorrents bucket).data

def Moderate (tracker : Tracker) (_ : Event) : Prop :=
  ∀ peerList, Keeps tracker peerList → peerList.peerCount < 2 ^ 31

theorem Keeps.holds (housed : Housed tracker) (kept : Keeps tracker peerList) :
    ∃ hash, Holds tracker hash peerList := by
  obtain ⟨bucket, hash, member⟩ := kept
  exact ⟨hash, by rw [Holds, housed.home bucket _ member]; exact member⟩

theorem Moderate.small (moderate : Moderate tracker event) (held : Holds tracker hash peerList) : peerList.peerCount < 2 ^ 31 :=
  moderate peerList ⟨_, hash, held⟩

theorem cleanings_sound {now : Int} {old new : PeerList} (passes : Relation.TransGen (CleanedBy now) old new)
    (sound : Sound old) (small : old.peerCount < 2 ^ 31) : Sound new ∧ new.peerCount < 2 ^ 31 := by
  refine cleanings_preserve (fun new => Sound new ∧ new.peerCount < 2 ^ 31) ?_ passes ⟨sound, small⟩
  rintro heap old ⟨sound, small⟩
  have cleaned := cleanSingleTorrent_sound heap now sound small
  exact ⟨cleaned.1, lt_of_le_of_lt cleaned.2 small⟩

theorem effect_sound
    (effect : Effect tracker event hash peerList)
    (before : ∀ hash peerList, Holds tracker hash peerList → Sound peerList ∧ peerList.peerCount < 2 ^ 31) :
    Sound peerList := by
  cases effect with
  | kept held => exact (before _ _ held).1
  | cleaned held cleans passes => exact (cleanings_sound passes (before _ _ held).1 (before _ _ held).2).1
  | created call heap => exact announcePeer_sound heap _ _ (sound_zero 0 0) (by simp [PeerList.zero])
  | announced call held first second =>
    obtain ⟨sound, small⟩ := before _ _ held
    have cleaned := cleanSingleTorrent_sound first event.now sound small
    exact announcePeer_sound second _ _ cleaned.1 (lt_of_le_of_lt cleaned.2 small)
  | stopped call held => exact stopPeer_sound _ (before _ _ held).1
  | restored call => exact sound_zero _ _

theorem lists_sound {events : List Event} {final : Tracker} (run : Run Tracker.Step Moderate .initial events final) :
    Housed final ∧ ∀ hash peerList, Holds final hash peerList → Sound peerList := by
  refine lists_preserved (fun _ _ peerList => Sound peerList) ?_ run
  intro past before event hash peerList _ moderate sound effect
  exact effect_sound effect fun hash peerList held => ⟨sound hash peerList held, moderate.small held⟩

def zeroHash : Hash := .replicate 20 0

def peerAt (i : Nat) : Peer :=
  ⟨#v[(i / 2 ^ 24).toUInt8, (i / 2 ^ 16).toUInt8, (i / 2 ^ 8).toUInt8, i.toUInt8], #v[0, 0], 0, 0⟩

def announceIn (minute : Int) (i : Nat) : Event := ⟨60 * minute, [], .announce .udp zeroHash (peerAt i) 2 []⟩

def announceAt (i : Nat) : Event := announceIn 0 i

/-- An announce or a stop for the torrent. -/
def Concerns (hash : Hash) (event : Event) : Bool :=
  match event.call with
  | .announce _ other _ _ _ | .stop _ other _ _ => other = hash
  | _ => false

/-- All buckets but that of the torrent are empty. -/
structure Only (hash : Hash) (tracker : Tracker) : Prop where
  housed : Housed tracker
  elsewhere : ∀ bucket, bucket ≠ bucketOfHash hash → tracker.allTorrents bucket = .empty

theorem only_initial (hash : Hash) : Only hash .initial := ⟨housed_initial, fun _ _ => rfl⟩

theorem Only.apply (only : Only hash tracker) (concerns : Concerns hash event) : Only hash (tracker.apply event) := by
  refine ⟨(apply_explained only.housed event).1, fun bucket other => ?_⟩
  rw [← only.elsewhere bucket other]
  cases call : event.call with
  | announce proto named peer amount random =>
    obtain rfl : named = hash := by simpa [Concerns, call] using concerns
    have cases := announce_cases call (only.housed.complete _)
    generalize tracker.apply event = after, tracker.served event = issued at cases ⊢
    cases cases <;> exact Function.update_of_ne other ..
  | stop proto named peer random =>
    obtain rfl : named = hash := by simpa [Concerns, call] using concerns
    obtain ⟨_, torrents, _, _, result⟩ := removePeer_cases tracker random proto named peer (only.housed.complete _)
    simp only [Tracker.apply, call, result]
    exact Function.update_of_ne other ..
  | _ => simp [Concerns, call] at concerns

def listsOf (hash : Hash) (tracker : Tracker) : List PeerList :=
  (tracker.allTorrents (bucketOfHash hash)).data.filterMap Torrent.peerList

theorem Only.lists (only : Only hash tracker) (kept : Keeps tracker peerList) : peerList ∈ listsOf hash tracker := by
  obtain ⟨bucket, named, member⟩ := kept
  by_cases here : bucket = bucketOfHash hash
  · subst here
    exact List.mem_filterMap.mpr ⟨_, member, rfl⟩
  · rw [only.elsewhere bucket here] at member
    cases member

/-- In a run in which no peer list ever reaches 2 ^ 31 peers, all of them have a
valid layout, sorted and placed buckets and exact counts. -/
theorem peer_lists_sound {events : List Event} {final : Tracker}
    (run : Run Tracker.Step Moderate .initial events final) (peerList : PeerList) (kept : Keeps final peerList) :
    Sound peerList ∧ peerList.seedCount ≤ peerList.peerCount := by
  obtain ⟨housed, sound⟩ := lists_sound run
  obtain ⟨hash, held⟩ := kept.holds housed
  exact ⟨sound hash peerList held, (sound hash peerList held).seedCount_le⟩

def visits : List Event := [announceIn 0 7, announceIn 0 3, announceIn 40 5, announceIn 44 7, announceIn 50 9]

/-- Peer 3 has expired when the last one comes, and peer 7 announces itself twice. -/
theorem peer_lists_sound_after_visits :
    ∃ peerList, Keeps (visits.foldl Tracker.apply .initial) peerList ∧
      peerList.peers.all = [{ peerAt 5 with time := 10 }, { peerAt 7 with time := 6 }, peerAt 9] ∧
      Sound peerList ∧ peerList.seedCount ≤ peerList.peerCount := by
  have small : Along (fun tracker event => Concerns zeroHash event ∧ ∀ peerList ∈ listsOf zeroHash tracker,
      peerList.peerCount < 2 ^ 31) Tracker.apply .initial visits := by decide +kernel
  have run : Run Tracker.Step Moderate .initial visits (visits.foldl Tracker.apply .initial) := by
    refine (Run.within (Only zeroHash) ?_ (only_initial _) small).1
    rintro tracker event only ⟨concerns, small⟩
    exact ⟨fun peerList kept => small peerList (only.lists kept), rfl, only.apply concerns⟩
  have kept : Keeps (visits.foldl Tracker.apply .initial) ⟨50, 0, 3, 0, ⟨.members
      [{ peerAt 5 with time := 10 }, { peerAt 7 with time := 6 }, peerAt 9], 4⟩⟩ := ⟨0, zeroHash, by decide +kernel⟩
  exact ⟨_, kept, rfl, peer_lists_sound run _ kept⟩

section Flood

def flaggedAt (flag : UInt8) (i : Nat) : Peer := { peerAt i with flag := flag }

def announceFlagged (flag : UInt8) (i : Nat) : Event := ⟨0, [], .announce .udp zeroHash (flaggedAt flag i) 2 []⟩

def floodOf (flag : UInt8) (n : Nat) : List Event := (List.range n).map (announceFlagged flag)

def flood (n : Nat) : List Event := floodOf 0 n

variable {flag : UInt8}

theorem peerAt_key (bound : i < 2 ^ 32) : (peerAt i).key = i * 2 ^ 16 := by
  simp only [Peer.key, Peer.addr, peerAt, bigEndian, Vector.toList_mk, List.cons_append, List.nil_append, List.foldl_cons,
    List.foldl_nil, Nat.toUInt8_eq, UInt8.toNat_ofNat']
  norm_num
  omega

theorem flaggedAt_key (flag : UInt8) (bound : i < 2 ^ 32) : (flaggedAt flag i).key = i * 2 ^ 16 := peerAt_key bound

theorem flagged_sorted (flag : UInt8) (bound : n ≤ 2 ^ 32) :
    StrictSorted Peer.key ((List.range n).map (flaggedAt flag)) := by
  refine List.pairwise_map.mpr (List.Pairwise.imp_of_mem ?_ List.pairwise_lt_range)
  intro i j first second less
  have left := List.mem_range.mp first
  have right := List.mem_range.mp second
  rw [flaggedAt_key flag (by omega), flaggedAt_key flag (by omega)]
  omega

theorem peers_sorted (bound : n ≤ 2 ^ 32) : StrictSorted Peer.key ((List.range n).map peerAt) :=
  flagged_sorted 0 bound

theorem announcePeer_opens {before after : List Peer}
    (plain : peerList.peers = ⟨.members (before ++ after), space⟩) (fits : (before ++ after).length ≤ space) (now : Int)
    {peer : Peer} (settled : fresh peer = peer) (missed : binarySearch peer.addr Peer.addr (before ++ after) = (before.length, 0)) :
    ∃ room, (before ++ peer :: after).length ≤ room ∧
      announcePeer [] now peerList peer =
        ({ base := now
           seedCount := if peer.seeding then peerList.seedCount + 1 else peerList.seedCount
           peerCount := peerList.peerCount + 1
           downCount := if peer.completed then incSize peerList.downCount else peerList.downCount
           peers := ⟨.members (before ++ peer :: after), room⟩ },
          some (if peer.completed then [.completed] else [])) := by
  obtain ⟨room, enough, opened⟩ := vectorFindOrInsert_opens fits missed
  refine ⟨room, enough, ?_⟩
  have same : { peer with time := 0, flag := sanitizeFlag peer.flag } = peer := settled
  simp only [announcePeer, vectorFindOrInsertPeer, plain, bucketFor_plain fits, opened, setBucketFor_plain fits,
    bucketFor_plain enough, setBucketFor_plain enough, if_true, same,
    List.set_append_right _ _ (le_refl before.length), Nat.sub_self, List.set_cons_zero]

def floodedList (flag : UInt8) (n room : Nat) : PeerList :=
  ⟨0, if (flaggedAt flag 0).seeding then n else 0, n, if (flaggedAt flag 0).completed then n else 0,
    ⟨.members ((List.range n).map (flaggedAt flag)), room⟩⟩

def Flooded (flag : UInt8) (n : Nat) (tracker : Tracker) : Prop :=
  ∃ space room, n ≤ room ∧
    tracker.allTorrents (bucketOfHash zeroHash) = ⟨[⟨zeroHash, some (floodedList flag n room)⟩], space⟩

theorem addPeer_single (base : peerList.base = 0)
    (single : tracker.allTorrents (bucketOfHash hash) = ⟨[⟨hash, some peerList⟩], space⟩) (proto : Proto) (peer : Peer)
    (amount : Nat) :
    addPeerToTorrentAndReturnPeers tracker [] 0 [] proto hash peer amount =
      (tracker.unlock (bucketOfHash hash) ⟨[⟨hash, some (announcePeer [] 0 peerList peer).1⟩], space⟩ 0,
        (announcePeer [] 0 peerList peer).2.map fun events => Served.mk (announcePeer [] 0 peerList peer).1 events
          (returnPeersForTorrent [] (announcePeer [] 0 peerList peer).1 amount proto)) := by
  have found : vectorFindOrInsert [] ⟨[⟨hash, some peerList⟩], space⟩ ⟨hash, none⟩ Torrent.bytes =
      ([], some (⟨[⟨hash, some peerList⟩], space⟩, 0, 1)) := by
    simp [vectorFindOrInsert, binarySearch, bisect, Torrent.bytes, memcmp_eq_zero, show toInt32 1 = 1 from rfl]
  have current : cleanSingleTorrent [] 0 peerList = ([], peerList, false) := by simp [cleanSingleTorrent, base]
  simp [addPeerToTorrentAndReturnPeers, single, found, current]

theorem apply_single (base : peerList.base = 0)
    (single : tracker.allTorrents (bucketOfHash zeroHash) = ⟨[⟨zeroHash, some peerList⟩], space⟩) (flag : UInt8) (i : Nat) :
    (tracker.apply (announceFlagged flag i)).allTorrents (bucketOfHash zeroHash) =
      ⟨[⟨zeroHash, some (announcePeer [] 0 peerList (flaggedAt flag i)).1⟩], space⟩ := by
  have step := addPeer_single base single .udp (flaggedAt flag i) 2
  simp only [Tracker.apply, announceFlagged, Event.now, gNowMinutes, Int.zero_tdiv, step, Tracker.unlock, Function.update_self]

theorem flagged_fresh (sanitary : sanitizeFlag flag = flag) (i : Nat) : fresh (flaggedAt flag i) = flaggedAt flag i := by
  simp only [fresh, flaggedAt, sanitary]
  rfl

theorem flooded_missed (bound : n < 2 ^ 32) :
    binarySearch (flaggedAt flag n).addr Peer.addr ((List.range n).map (flaggedAt flag)) = (n, 0) := by
  have below : ∀ peer ∈ (List.range n).map (flaggedAt flag), peer.key < (flaggedAt flag n).key := by
    intro peer member
    obtain ⟨i, inside, rfl⟩ := List.mem_map.mp member
    have less := List.mem_range.mp inside
    rw [flaggedAt_key flag (by omega), flaggedAt_key flag bound]
    omega
  have beyond := binarySearch_beyond (fun _ => by simp) (flagged_sorted flag bound.le) below
  rwa [List.length_map, List.length_range] at beyond

theorem flooded_announce {n room : Nat} (sanitary : sanitizeFlag flag = flag) (bound : n < 2 ^ 32) (fits : n ≤ room) :
    ∃ larger, n + 1 ≤ larger ∧ announcePeer [] 0 (floodedList flag n room) (flaggedAt flag n) =
      (floodedList flag (n + 1) larger, some (if (flaggedAt flag 0).completed then [.completed] else [])) := by
  obtain ⟨larger, enough, result⟩ := announcePeer_opens
    (show (floodedList flag n room).peers = ⟨.members ((List.range n).map (flaggedAt flag) ++ []), room⟩ by simp [floodedList])
    (by simpa using fits) 0 (flagged_fresh sanitary n) (by simpa using flooded_missed bound)
  refine ⟨larger, by simpa using enough, ?_⟩
  have seeding : (flaggedAt flag n).seeding = (flaggedAt flag 0).seeding := rfl
  have completed : (flaggedAt flag n).completed = (flaggedAt flag 0).completed := rfl
  have counted : incSize n = n + 1 := by
    rw [incSize, Nat.mod_eq_of_lt (by omega)]
  rw [result, seeding, completed]
  simp only [floodedList, List.range_succ, List.map_append, List.map_singleton]
  cases (flaggedAt flag 0).seeding <;> cases (flaggedAt flag 0).completed <;> simp [counted]

theorem initial_announce (peer : Peer) :
    (addPeerToTorrentAndReturnPeers .initial [] 0 [] .udp zeroHash peer 2).1.allTorrents (bucketOfHash zeroHash) =
      ⟨[⟨zeroHash, some (announcePeer [] 0 .zero peer).1⟩], 2⟩ := by
  have opened : vectorFindOrInsert [] OtVector.empty (⟨zeroHash, none⟩ : Torrent) Torrent.bytes =
      ([], some (⟨[⟨zeroHash, none⟩], 2⟩, 0, 0)) := by decide
  simp [addPeerToTorrentAndReturnPeers, Tracker.initial, opened, allocate, Tracker.unlock]

theorem flooded_one (sanitary : sanitizeFlag flag = flag) : Flooded flag 1 (Tracker.initial.apply (announceFlagged flag 0)) := by
  have vacant : floodedList flag 0 0 = .zero := by simp [floodedList, PeerList.zero]
  obtain ⟨larger, enough, result⟩ := flooded_announce sanitary (by norm_num) (le_refl 0)
  rw [vacant] at result
  refine ⟨2, larger, enough, ?_⟩
  have first := initial_announce (flaggedAt flag 0)
  rwa [result] at first

theorem flooded_next (sanitary : sanitizeFlag flag = flag) (bound : n < 2 ^ 32)
    (flooded : Flooded flag n tracker) : Flooded flag (n + 1) (tracker.apply (announceFlagged flag n)) := by
  obtain ⟨space, room, fits, single⟩ := flooded
  obtain ⟨larger, enough, result⟩ := flooded_announce sanitary bound fits
  exact ⟨space, larger, enough, by rw [apply_single rfl single, result]⟩

theorem flooded {n : Nat} (sanitary : sanitizeFlag flag = flag) (positive : 1 ≤ n) (bound : n ≤ 2 ^ 32) :
    Flooded flag n ((floodOf flag n).foldl Tracker.apply .initial) := by
  induction n, positive using Nat.le_induction with
  | base => exact flooded_one sanitary
  | succ n _ ih =>
    have step := flooded_next sanitary (by omega) (ih (by omega))
    rw [floodOf, List.range_succ, List.map_append, List.foldl_append]
    exact step

theorem flooded_again {n room : Nat} (sanitary : sanitizeFlag flag = flag) (positive : 0 < n) (truncated : toInt32 n = 0)
    (fits : n ≤ room) :
    ∃ before after larger, before ++ after = (List.range n).map (flaggedAt flag) ∧ flaggedAt flag (n / 2) ∈ after ∧
      (before ++ flaggedAt flag (n / 2) :: after).length ≤ larger ∧
      announcePeer [] 0 (floodedList flag n room) (flaggedAt flag (n / 2)) =
        ({ floodedList flag n room with
            seedCount := if (flaggedAt flag 0).seeding then n + 1 else 0
            peerCount := n + 1
            downCount := if (flaggedAt flag 0).completed then incSize n else 0
            peers := ⟨.members (before ++ flaggedAt flag (n / 2) :: after), larger⟩ },
          some (if (flaggedAt flag 0).completed then [.completed] else [])) := by
  obtain ⟨before, after, cut, missed⟩ := middle_missed (flaggedAt flag) Peer.addr positive truncated
  have all : (floodedList flag n room).peers = ⟨.members (before ++ flaggedAt flag (n / 2) :: after), room⟩ := by
    rw [floodedList, cut]
  obtain ⟨larger, enough, result⟩ := announcePeer_opens all (by rw [← cut]; simpa using fits) 0
    (flagged_fresh sanitary (n / 2)) missed
  refine ⟨before, flaggedAt flag (n / 2) :: after, larger, cut.symm, List.mem_cons_self, enough, ?_⟩
  have seeding : (flaggedAt flag (n / 2)).seeding = (flaggedAt flag 0).seeding := rfl
  have completed : (flaggedAt flag (n / 2)).completed = (flaggedAt flag 0).completed := rfl
  rw [result, seeding, completed]
  simp only [floodedList]
  cases (flaggedAt flag 0).seeding <;> cases (flaggedAt flag 0).completed <;> simp

private theorem flooded_twice (positive : 0 < n) (truncated : toInt32 n = 0) (flooded : Flooded 0 n tracker) :
    ∃ peerList, Keeps (tracker.apply (announceAt (n / 2))) peerList ∧ ¬ (peerList.peers.all.map Peer.addr).Nodup := by
  obtain ⟨space, room, fits, single⟩ := flooded
  obtain ⟨before, rest, larger, _, member, enough, result⟩ := @flooded_again 0 n room (by decide) positive truncated fits
  have after := apply_single rfl single 0 (n / 2)
  rw [show announceAt (n / 2) = announceFlagged 0 (n / 2) from rfl]
  refine ⟨_, ⟨_, zeroHash, by rw [after]; exact List.mem_singleton.mpr rfl⟩, ?_⟩
  rw [result, PeerVector.all, bucketList_plain enough]
  intro distinct
  simp only [List.flatMap_cons, List.flatMap_nil, List.append_nil, List.map_append, List.map_cons] at distinct
  exact (List.nodup_cons.mp (List.nodup_append.mp distinct).2.1).1 (List.mem_map_of_mem member)

/-- 2 ^ 32 peers announce themselves in the same minute, which leaves them in one
plain vector. The one in its middle announces itself again: it is stored twice. -/
theorem peer_stored_twice : ∃ final, Run Tracker.Step free .initial (flood (2 ^ 32) ++ [announceAt (2 ^ 31)]) final ∧
    ∃ peerList, Keeps final peerList ∧ ¬ Sound peerList := by
  obtain ⟨peerList, kept, repeated⟩ := flooded_twice (by norm_num) (by rfl) (@flooded 0 _ (by decide) (by norm_num) (le_refl _))
  rw [show (2 : Nat) ^ 32 / 2 = 2 ^ 31 by norm_num] at kept
  refine ⟨_, (run_foldl (flood (2 ^ 32)) .initial).snoc trivial rfl, peerList, kept, fun sound => repeated ?_⟩
  exact List.Nodup.of_map bigEndian (by rw [List.map_map]; exact sound.distinct)

end Flood

end BtServer.Proofs.TrackerInvariant

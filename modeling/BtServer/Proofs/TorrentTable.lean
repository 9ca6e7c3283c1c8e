import BtServer.Tracker
import BtServer.Proofs.VectorSearch

/-! What each operation of the tracker does to the torrents of one bucket. Every
operation looks one hash up and leaves at most its torrent different; only the
cleaner walks through all of them. -/

namespace BtServer.Proofs.TorrentTable
open Lib VectorSearch

variable {hash : Hash} {peerList : PeerList} {torrents old new : List Torrent}

def Complete (torrents : List Torrent) : Prop := ∀ torrent ∈ torrents, torrent.peerList.isSome

abbrev Sorted (torrents : List Torrent) : Prop := StrictSorted (rank Torrent.bytes) torrents

/-- The torrents of a bucket after an operation on `hash` that found one peer
list there, or none, and left another, or none. -/
inductive Edited (hash : Hash) (old : List Torrent) : Option PeerList → Option PeerList → List Torrent → Prop where
  | absent (missing : Sorted old → old.length < 2 ^ 32 → ∀ torrent ∈ old, torrent.hash ≠ hash) :
      Edited hash old none none old
  | inserted {before after : List Torrent} {left : PeerList} (split : old = before ++ after)
      (cut : Sorted old → old.length < 2 ^ 32 → Between (rank Torrent.bytes) before after (bigEndian hash.toList)) :
      Edited hash old none (some left) (before ++ ⟨hash, some left⟩ :: after)
  | replaced {before after : List Torrent} {found left : PeerList}
      (split : old = before ++ ⟨hash, some found⟩ :: after) :
      Edited hash old (some found) (some left) (before ++ ⟨hash, some left⟩ :: after)
  | removed {before after : List Torrent} {found : PeerList} (split : old = before ++ ⟨hash, some found⟩ :: after) :
      Edited hash old (some found) none (before ++ after)

theorem rank_eq_iff {left right : Torrent} : rank Torrent.bytes left = rank Torrent.bytes right ↔ left.hash = right.hash := by
  unfold rank Torrent.bytes
  rw [bigEndian_inj (by simp), Vector.toList_inj]

namespace Edited
variable {hash : Hash} {old new : List Torrent} {found left : Option PeerList}
variable (edited : Edited hash old found left new)
include edited

theorem members :
    ∀ torrent ∈ new, torrent ∈ old ∨ ∃ peerList, left = some peerList ∧ torrent = ⟨hash, some peerList⟩ := by
  intro torrent member
  cases edited with
  | absent missing => exact .inl member
  | inserted split cut =>
    rw [split]
    simp only [List.mem_append, List.mem_cons] at member ⊢
    rcases member with inside | rfl | inside
    · exact .inl (.inl inside)
    · exact .inr ⟨_, rfl, rfl⟩
    · exact .inl (.inr inside)
  | replaced split =>
    rw [split]
    simp only [List.mem_append, List.mem_cons] at member ⊢
    rcases member with inside | rfl | inside
    · exact .inl (.inl inside)
    · exact .inr ⟨_, rfl, rfl⟩
    · exact .inl (.inr (.inr inside))
  | removed split =>
    rw [split]
    simp only [List.mem_append, List.mem_cons] at member ⊢
    tauto

theorem found_mem (same : found = some peerList) :
    ⟨hash, some peerList⟩ ∈ old := by
  cases edited with
  | absent missing => cases same
  | inserted split cut => cases same
  | replaced split | removed split =>
    cases same
    simp [split]

theorem left_mem (same : left = some peerList) :
    ⟨hash, some peerList⟩ ∈ new := by
  cases edited with
  | absent missing | removed split => cases same
  | inserted split cut | replaced split =>
    cases same
    simp

theorem complete (all : Complete old) : Complete new := by
  intro torrent member
  rcases edited.members torrent member with inside | ⟨peerList, _, rfl⟩
  · exact all torrent inside
  · rfl

theorem sorted (sorted : Sorted old) (small : old.length < 2 ^ 32) : Sorted new := by
  cases edited with
  | absent missing => exact sorted
  | inserted split cut =>
    have between := cut sorted small
    subst split
    exact StrictSorted.insert sorted between
  | replaced split =>
    subst split
    exact sorted.replace rfl
  | removed split =>
    subst split
    exact sorted.remove

theorem length_le (kept : left.isSome → found.isSome) : new.length ≤ old.length := by
  cases edited with
  | absent missing => exact le_refl _
  | inserted split cut => cases kept rfl
  | replaced split => simp [split]
  | removed split => simp [split]

theorem length_le_succ : new.length ≤ old.length + 1 := by
  cases edited with
  | absent missing => exact Nat.le_succ _
  | inserted split cut | replaced split | removed split => simp [split, add_assoc]

end Edited

def stored (torrents : List Torrent) (hash : Hash) : Option PeerList :=
  (lookup Torrent.hash torrents hash).bind Torrent.peerList

theorem hashes_nodup (sorted : Sorted torrents) : (torrents.map Torrent.hash).Nodup :=
  List.pairwise_map.mpr (sorted.imp fun less same => ne_of_lt less (rank_eq_iff.mpr same))

theorem stored_eq_some (sorted : Sorted torrents) :
    stored torrents hash = some peerList ↔ ⟨hash, some peerList⟩ ∈ torrents := by
  simp only [stored, Option.bind_eq_some_iff, lookup_eq_some (hashes_nodup sorted)]
  constructor
  · rintro ⟨⟨_, _⟩, ⟨member, rfl⟩, rfl⟩
    exact member
  · intro member
    exact ⟨_, ⟨member, rfl⟩, rfl⟩

private theorem stored_mem_iff {others : List Torrent} (sorted : Sorted torrents) (sorted' : Sorted others) {hash' : Hash}
    (same : ∀ peerList, Torrent.mk hash (some peerList) ∈ torrents ↔ ⟨hash', some peerList⟩ ∈ others) :
    stored torrents hash = stored others hash' := by
  apply Option.ext
  intro peerList
  rw [stored_eq_some sorted, stored_eq_some sorted']
  exact same peerList

/-- On a sorted bucket the operation works on the torrent with the hash, leaves
there what it left, and keeps the peer lists of all other hashes. -/
theorem Edited.stored_eq {found left : Option PeerList}
    (edited : Edited hash old found left new) (sorted : Sorted old) (small : old.length < 2 ^ 32) :
    stored old hash = found ∧ stored new hash = left ∧ ∀ other, other ≠ hash → stored new other = stored old other := by
  have again := edited.sorted sorted small
  cases edited with
  | absent missing =>
    have nothing : stored old hash = none := by
      rw [stored, lookup_eq_none.mpr (missing sorted small)]
      rfl
    exact ⟨nothing, nothing, fun _ _ => rfl⟩
  | @inserted before after left split cut =>
    have between := cut sorted small
    subst split
    refine ⟨?_, (stored_eq_some again).mpr (by simp), ?_⟩
    · rw [stored, lookup_eq_none.mpr]
      · rfl
      · intro torrent member same
        exact between.absent torrent member (by unfold rank Torrent.bytes; rw [same])
    · intro other different
      refine stored_mem_iff again sorted fun peerList => ?_
      simp [different]
  | replaced split =>
    subst split
    refine ⟨(stored_eq_some sorted).mpr (by simp), (stored_eq_some again).mpr (by simp), ?_⟩
    intro other different
    refine stored_mem_iff again sorted fun peerList => ?_
    simp [different]
  | @removed before after found split =>
    subst split
    refine ⟨(stored_eq_some sorted).mpr (by simp), ?_, ?_⟩
    · rw [stored, lookup_eq_none.mpr]
      · rfl
      · intro torrent member same
        exact sorted.between.absent torrent member (rank_eq_iff.mpr same)
    · intro other different
      refine stored_mem_iff again sorted fun peerList => ?_
      simp [different]

theorem vectorRemoveTorrent_data (before after : List Torrent) (torrent : Torrent) (space : Nat) :
    (vectorRemoveTorrent ⟨before ++ torrent :: after, space⟩ before.length).data = before ++ after := by
  have erased : (before ++ torrent :: after).eraseIdx before.length = before ++ after := by
    rw [List.eraseIdx_append_of_length_le (le_refl _)]
    simp
  have occupied : ¬ before.length + (after.length + 1) = 0 := by omega
  simp only [vectorRemoveTorrent, OtVector.size, List.length_append, List.length_cons, if_neg occupied, erased]
  split <;> rfl

theorem set_here (before after : List Torrent) (old new : Torrent) :
    (before ++ old :: after).set before.length new = before ++ new :: after := by
  rw [List.set_append_right _ _ (le_refl _)]
  simp

theorem get_here (before after : List Torrent) (torrent : Torrent) :
    (before ++ torrent :: after)[before.length]? = some torrent := by simp

theorem found_torrent {before after : List Torrent} {torrent : Torrent} (complete : Complete old)
    (split : old = before ++ torrent :: after) (same : torrent.bytes = hash.toList) :
    ∃ peerList, torrent = ⟨hash, some peerList⟩ := by
  obtain ⟨peerList, has⟩ := Option.isSome_iff_exists.mp (complete torrent (by simp [split]))
  refine ⟨peerList, ?_⟩
  cases torrent with
  | mk name list =>
    have equal : name = hash := Vector.toList_inj.mp same
    have content : list = some peerList := has
    rw [equal, content]

structure Counted (old new : OtVector Torrent) (delta : Int) : Prop where
  size : (new.size : Int) = old.size + delta
  fits : old.size ≤ old.space → new.size ≤ new.space

namespace Counted
variable {old middle new torrents : OtVector Torrent} {first second : Int} {before after : List Torrent}

theorem refl (torrents : OtVector Torrent) : Counted torrents torrents 0 := ⟨by simp, id⟩

theorem trans (one : Counted old middle first) (two : Counted middle new second) : Counted old new (first + second) :=
  ⟨by rw [two.size, one.size, add_assoc], fun fits => two.fits (one.fits fits)⟩

theorem set (torrents : OtVector Torrent) (position : Nat) (torrent : Torrent) :
    Counted torrents ⟨torrents.data.set position torrent, torrents.space⟩ 0 :=
  ⟨by simp [OtVector.size], by simp [OtVector.size]⟩

theorem replace {found left : Torrent} (split : torrents.data = before ++ found :: after) :
    Counted torrents ⟨before ++ left :: after, torrents.space⟩ 0 := by
  rw [← set_here before after found, ← split]
  exact .set _ _ _

theorem remove {position : Nat} (inside : position < torrents.size) :
    Counted torrents (vectorRemoveTorrent torrents position) (-1) := by
  have length : (torrents.data.eraseIdx position).length = torrents.size - 1 :=
    List.length_eraseIdx_of_lt inside
  have occupied : torrents.size ≠ 0 := by omega
  simp only [vectorRemoveTorrent, if_neg occupied]
  split
  next few =>
    simp only [otVectorShrinkThresh, otVectorShrinkRatio, otVectorMinMembers] at few ⊢
    constructor
    · simp only [OtVector.size, length]
      simp only [OtVector.size] at inside
      omega
    · intro fits
      simp only [OtVector.size, length] at few fits ⊢
      omega
  next =>
    constructor
    · simp only [OtVector.size, length]
      simp only [OtVector.size] at inside
      omega
    · intro fits
      simp only [OtVector.size, length] at fits ⊢
      omega

theorem insert {record : Torrent} {space : Nat} (split : torrents.data = before ++ after)
    (opened : torrents.size ≤ torrents.space → torrents.size + 1 ≤ space) :
    Counted torrents ⟨before ++ record :: after, space⟩ 1 := by
  have length : (before ++ record :: after).length = torrents.size + 1 := by
    simp only [OtVector.size, split, List.length_append, List.length_cons, add_assoc]
  exact ⟨by simp [OtVector.size, length], fun fits => by simpa [OtVector.size, length] using opened fits⟩

end Counted

/-- The peer list an announce works on: a zeroed one, or the stored one after it
has been cleaned. -/
def entering (heap : Heap) (now : Int) : Option PeerList → PeerList
  | none => .zero
  | some peerList => (cleanSingleTorrent heap now peerList).2.1

inductive Announces (tracker : Tracker) (now : Int) (random : List Nat) (proto : Proto) (hash : Hash) (peer : Peer)
    (amount : Nat) : Tracker × Option Served → Prop where
  | failed {torrents : OtVector Torrent} (same : torrents.data = (tracker.allTorrents (bucketOfHash hash)).data)
      (counted : Counted (tracker.allTorrents (bucketOfHash hash)) torrents 0) :
      Announces tracker now random proto hash peer amount (tracker.unlock (bucketOfHash hash) torrents 0, none)
  | performed {torrents : OtVector Torrent} {delta : Int} (first second : Heap) (found : Option PeerList)
      (edited : Edited hash (tracker.allTorrents (bucketOfHash hash)).data found
        (some (announcePeer second now (entering first now found) peer).1) torrents.data)
      (counted : Counted (tracker.allTorrents (bucketOfHash hash)) torrents delta) :
      Announces tracker now random proto hash peer amount
        (tracker.unlock (bucketOfHash hash) torrents delta,
          (announcePeer second now (entering first now found) peer).2.map fun events =>
            ⟨(announcePeer second now (entering first now found) peer).1, events,
              returnPeersForTorrent random (announcePeer second now (entering first now found) peer).1 amount proto⟩)

theorem addPeer_cases (tracker : Tracker) (heap : Heap) (now : Int) (random : List Nat) (proto : Proto) (hash : Hash)
    (peer : Peer) (amount : Nat) (complete : Complete (tracker.allTorrents (bucketOfHash hash)).data) :
    Announces tracker now random proto hash peer amount
      (addPeerToTorrentAndReturnPeers tracker heap now random proto hash peer amount) := by
  rcases vectorFindOrInsert_cases heap (tracker.allTorrents (bucketOfHash hash)) ⟨hash, none⟩ Torrent.bytes
      (by simp [Torrent.bytes]) with
    ⟨before, torrent, after, exactmatch, split, same, matched, result⟩ | ⟨rest, result⟩ |
    ⟨before, after, space, rest, split, grown, opened, cut, result⟩
  · obtain ⟨peerList, rfl⟩ := found_torrent complete split same
    simp only [addPeerToTorrentAndReturnPeers, result, if_neg matched, split, get_here, Option.bind_some, set_here]
    exact .performed _ _ (some peerList) (.replaced split) (.replace split)
  · simp only [addPeerToTorrentAndReturnPeers, result]
    exact .failed rfl (.refl _)
  · have inserted : Counted _ ⟨before ++ ⟨hash, none⟩ :: after, space⟩ 1 := .insert split opened
    simp only [addPeerToTorrentAndReturnPeers, result, if_true]
    cases outcome : allocate rest with
    | mk success rest =>
      cases success with
      | false =>
        exact .failed (by rw [vectorRemoveTorrent_data, split]) (inserted.trans (.remove (by simp [OtVector.size])))
      | true => exact .performed [] _ none (by rw [set_here]; exact .inserted split cut) (inserted.trans (.set _ _ _))

theorem announce_cases {tracker : Tracker} {event : Event} {proto : Proto} {peer : Peer} {amount : Nat} {random : List Nat}
    (call : event.call = .announce proto hash peer amount random)
    (complete : Complete (tracker.allTorrents (bucketOfHash hash)).data) :
    Announces tracker event.now random proto hash peer amount (tracker.apply event, tracker.served event) := by
  simp only [Tracker.apply, Tracker.served, call]
  exact addPeer_cases tracker event.heap event.now random proto hash peer amount complete

theorem search_cases (torrents : List Torrent) (hash : Hash) (complete : Complete torrents) :
    (∃ before after peerList exactmatch, torrents = before ++ ⟨hash, some peerList⟩ :: after ∧ exactmatch ≠ 0 ∧
      binarySearch hash.toList Torrent.bytes torrents = (before.length, exactmatch)) ∨
    (∃ position, binarySearch hash.toList Torrent.bytes torrents = (position, 0) ∧
      (Sorted torrents → torrents.length < 2 ^ 32 → ∀ torrent ∈ torrents, torrent.hash ≠ hash)) := by
  rcases binarySearch_cases hash.toList Torrent.bytes torrents (by simp [Torrent.bytes]) with
    ⟨before, torrent, after, interval, split, same, positive, bound, searched⟩ | ⟨before, after, split, searched, cut⟩
  · obtain ⟨peerList, rfl⟩ := found_torrent complete split same
    by_cases truncated : toInt32 interval = 0
    · rw [truncated] at searched
      refine .inr ⟨_, searched, fun _ small => ?_⟩
      exact absurd truncated (toInt32_ne_zero positive (lt_of_le_of_lt bound small))
    · exact .inl ⟨before, after, peerList, _, split, truncated, searched⟩
  · refine .inr ⟨_, searched, fun sorted _ torrent member equal => ?_⟩
    rw [split] at member
    exact (cut sorted).absent torrent member (by unfold rank Torrent.bytes; rw [equal])

theorem removePeer_cases (tracker : Tracker) (random : List Nat) (proto : Proto) (hash : Hash) (peer : Peer)
    (complete : Complete (tracker.allTorrents (bucketOfHash hash)).data) :
    ∃ found torrents, Edited hash (tracker.allTorrents (bucketOfHash hash)).data found
        (found.map fun peerList => stopPeer peerList peer) torrents.data ∧
      Counted (tracker.allTorrents (bucketOfHash hash)) torrents 0 ∧
      removePeerFromTorrent tracker random proto hash peer = (tracker.unlock (bucketOfHash hash) torrents 0,
          stopReply random proto ((found.map fun peerList => stopPeer peerList peer).getD .zero)) := by
  rcases search_cases _ hash complete with
    ⟨before, after, peerList, exactmatch, split, matched, searched⟩ | ⟨position, searched, missing⟩
  · refine ⟨some peerList, ⟨_, (tracker.allTorrents (bucketOfHash hash)).space⟩, .replaced split, .replace split, ?_⟩
    rw [split] at searched
    simp only [removePeerFromTorrent, searched, if_neg matched, split, get_here, Option.bind_some, set_here]
    rfl
  · refine ⟨none, tracker.allTorrents (bucketOfHash hash), .absent missing, .refl _, ?_⟩
    simp only [removePeerFromTorrent, searched, if_true]
    rfl

theorem scrapeTorrent_cases (tracker : Tracker) (heap : Heap) (now : Int) (hash : Hash)
    (complete : Complete (tracker.allTorrents (bucketOfHash hash)).data) :
    ∃ found left torrents delta rest, Edited hash (tracker.allTorrents (bucketOfHash hash)).data found left torrents.data ∧
      Counted (tracker.allTorrents (bucketOfHash hash)) torrents delta ∧
      (∀ peerList, left = some peerList → ∃ old, found = some old ∧ (cleanSingleTorrent heap now old).2 = (peerList, false)) ∧
      scrapeTorrent tracker heap now hash = (tracker.unlock (bucketOfHash hash) torrents delta, rest, left) := by
  rcases search_cases _ hash complete with
    ⟨before, after, peerList, exactmatch, split, matched, searched⟩ | ⟨position, searched, missing⟩
  · have written : Counted _ ⟨before ++ ⟨hash, some (cleanSingleTorrent heap now peerList).2.1⟩ :: after, _⟩ 0 := .replace split
    rw [split] at searched
    simp only [scrapeTorrent, searched, if_neg matched, split, get_here, Option.bind_some, set_here]
    cases timed : (cleanSingleTorrent heap now peerList).2.2 with
    | true =>
      refine ⟨some peerList, none, _, _, _, ?_, written.trans (.remove (by simp [OtVector.size])), by simp, rfl⟩
      rw [vectorRemoveTorrent_data]
      exact .removed rfl
    | false =>
      refine ⟨some peerList, some (cleanSingleTorrent heap now peerList).2.1, ⟨_, _⟩, _, _, .replaced rfl, written, ?_, rfl⟩
      intro _ same
      exact ⟨peerList, rfl, by rw [← Option.some.inj same, ← timed]⟩
  · refine ⟨none, none, tracker.allTorrents (bucketOfHash hash), 0, heap, .absent missing, .refl _, by simp, ?_⟩
    simp only [scrapeTorrent, searched, if_true]

theorem addTorrentFromSavedState_cases (tracker : Tracker) (heap : Heap) (hash : Hash) (base : Int) (downCount : Nat) :
    ∃ torrents delta, Counted (tracker.allTorrents (bucketOfHash hash)) torrents delta ∧
      addTorrentFromSavedState tracker heap hash base downCount = tracker.unlock (bucketOfHash hash) torrents delta ∧
      (torrents.data = (tracker.allTorrents (bucketOfHash hash)).data ∨
        Edited hash (tracker.allTorrents (bucketOfHash hash)).data none
          (some { PeerList.zero with base := base, downCount := downCount }) torrents.data) := by
  rcases vectorFindOrInsert_cases heap (tracker.allTorrents (bucketOfHash hash)) ⟨hash, none⟩ Torrent.bytes
      (by simp [Torrent.bytes]) with
    ⟨before, torrent, after, exactmatch, split, same, matched, result⟩ | ⟨rest, result⟩ |
    ⟨before, after, space, rest, split, grown, opened, cut, result⟩
  · simp only [addTorrentFromSavedState, result, ne_eq, matched, not_false_eq_true, if_true]
    exact ⟨_, _, .refl _, rfl, .inl rfl⟩
  · simp only [addTorrentFromSavedState, result]
    exact ⟨_, _, .refl _, rfl, .inl rfl⟩
  · have inserted : Counted _ ⟨before ++ ⟨hash, none⟩ :: after, space⟩ 1 := .insert split opened
    simp only [addTorrentFromSavedState, result, ne_eq, not_true_eq_false, if_false]
    cases outcome : allocate rest with
    | mk success rest =>
      cases success with
      | false =>
        refine ⟨_, _, inserted.trans (.remove (by simp [OtVector.size])), rfl, .inl ?_⟩
        rw [vectorRemoveTorrent_data, split]
      | true => exact ⟨_, _, inserted.trans (.set _ _ _), rfl, .inr (by rw [set_here]; exact .inserted split cut)⟩

/-- What is left of a bucket that `clean_worker` has walked through: fewer torrents
in the same order, each of them cleaned. -/
structure Walked (now : Int) (old new : List Torrent) : Prop where
  hashes : (new.map Torrent.hash).Sublist (old.map Torrent.hash)
  members : ∀ torrent ∈ new, torrent ∈ old ∨ ∃ heap peerList, ⟨torrent.hash, some peerList⟩ ∈ old ∧
    torrent = ⟨torrent.hash, some (cleanSingleTorrent heap now peerList).2.1⟩ ∧
    (cleanSingleTorrent heap now peerList).2.2 = false

private theorem cleanTorrents_cases (now : Int) (fuel : Nat) (heap : Heap) (done rest : List Torrent) (space removed : Nat) :
    ∃ walked after count, cleanTorrents now fuel heap ⟨done ++ rest, space⟩ done.length removed = (⟨done ++ walked, after⟩, count) ∧
      Walked now rest walked := by
  induction fuel generalizing heap done rest space removed with
  | zero => exact ⟨rest, space, removed, rfl, .refl _, fun _ member => .inl member⟩
  | succ fuel ih =>
    cases rest with
    | nil =>
      refine ⟨[], space, removed, ?_, .refl _, by simp⟩
      simp [cleanTorrents]
    | cons torrent rest =>
      -- What the rest of the walk does to the torrents after this one.
      have later : ∀ heap first removed, ∃ walked after count,
          cleanTorrents now fuel heap ⟨done ++ first :: rest, space⟩ (done.length + 1) removed =
            (⟨done ++ first :: walked, after⟩, count) ∧ Walked now rest walked := by
        intro heap first removed
        obtain ⟨walked, after, count, result, kept⟩ := ih heap (done ++ [first]) rest space removed
        refine ⟨walked, after, count, ?_, kept⟩
        simpa using result
      rw [cleanTorrents]
      simp only [get_here]
      cases has : torrent.peerList with
      | none =>
        obtain ⟨walked, after, count, result, kept⟩ := later heap torrent removed
        refine ⟨torrent :: walked, after, count, by simpa [has] using result, by simpa using kept.hashes, ?_⟩
        intro other member
        rcases List.mem_cons.mp member with rfl | inside
        · exact .inl (by simp)
        · exact (kept.members other inside).imp (by simp_all) fun ⟨heap, peerList, old, rest⟩ =>
            ⟨heap, peerList, by simp [old], rest⟩
      | some peerList =>
        simp only [set_here]
        cases timed : (cleanSingleTorrent heap now peerList).2.2 with
        | true =>
          have erased := vectorRemoveTorrent_data done rest
            ⟨torrent.hash, some (cleanSingleTorrent heap now peerList).2.1⟩ space
          simp only [if_true]
          generalize vectorRemoveTorrent _ done.length = shrunk at erased ⊢
          obtain ⟨data, room⟩ := shrunk
          simp only at erased
          subst erased
          obtain ⟨walked, after, count, result, kept⟩ :=
            ih (cleanSingleTorrent heap now peerList).1 done rest room (removed + 1)
          refine ⟨walked, after, count, result, kept.hashes.trans (by simp), ?_⟩
          intro other member
          exact (kept.members other member).imp (by simp_all) fun ⟨heap, peerList, old, rest⟩ =>
            ⟨heap, peerList, by simp [old], rest⟩
        | false =>
          obtain ⟨walked, after, count, result, kept⟩ := later (cleanSingleTorrent heap now peerList).1
            ⟨torrent.hash, some (cleanSingleTorrent heap now peerList).2.1⟩ removed
          refine ⟨_, after, count, by simpa using result, by simpa using kept.hashes, ?_⟩
          intro other member
          rcases List.mem_cons.mp member with rfl | inside
          · refine .inr ⟨heap, peerList, ?_, rfl, timed⟩
            rw [← has]
            simp
          · exact (kept.members other inside).imp (by simp_all) fun ⟨heap, peerList, old, rest⟩ =>
              ⟨heap, peerList, by simp [old], rest⟩

theorem Walked.sorted {now : Int} (walked : Walked now old new) (sorted : Sorted old) : Sorted new := by
  have order : ∀ torrents : List Torrent,
      Sorted torrents ↔ (torrents.map Torrent.hash).Pairwise fun a b => bigEndian a.toList < bigEndian b.toList := by
    intro torrents
    rw [List.pairwise_map]
    rfl
  rw [order] at sorted ⊢
  exact sorted.sublist walked.hashes

theorem cleanWorker_cases (tracker : Tracker) (heap : Heap) (now : Int) (bucket : Nat) :
    ∃ torrents delta, cleanWorker tracker heap now bucket = tracker.unlock bucket torrents delta ∧
      Walked now (tracker.allTorrents bucket).data torrents.data := by
  obtain ⟨walked, after, count, result, kept⟩ := cleanTorrents_cases now (tracker.allTorrents bucket).size heap []
    (tracker.allTorrents bucket).data (tracker.allTorrents bucket).space 0
  refine ⟨⟨walked, after⟩, -count, ?_, kept⟩
  simp only [List.nil_append, List.length_nil] at result
  simp only [cleanWorker, result]

end BtServer.Proofs.TorrentTable

import BtServer.Proofs.PeerMapEdits
import BtServer.Proofs.TrackerInvariant

/-! The tracker as a map from hashes to peer maps. An announce and a stop edit the
map of one hash, and the layout of the peer list never shows. -/

namespace BtServer.Proofs.TrackerRefinement
open Lib PeerListShape PeerListEdits Cleaning PeerListInvariant PeerMapEdits TorrentTable TrackerSteps TrackerInvariant

variable {tracker : Tracker} {hash : Hash} {peer : Peer} {torrents : OtVector Torrent} {event : Event} {proto : Proto}
  {random : List Nat}

/-- Neither a peer list nor a bucket of torrents has reached 2 ^ 31 members. -/
structure Bounded (tracker : Tracker) (event : Event) : Prop where
  peers : Moderate tracker event
  torrents : ∀ bucket, (tracker.allTorrents bucket).size < 2 ^ 31

theorem only_bounded (only : Only hash tracker) (peers : ∀ peerList ∈ listsOf hash tracker, peerList.peerCount < 2 ^ 31)
    (torrents : (tracker.allTorrents (bucketOfHash hash)).size < 2 ^ 31) : Bounded tracker event := by
  refine ⟨fun peerList kept => peers peerList (only.lists kept), fun bucket => ?_⟩
  by_cases here : bucket = bucketOfHash hash
  · rwa [here]
  · rw [only.elsewhere bucket here]
    exact Nat.two_pow_pos 31

def Indexed (tracker : Tracker) : Prop := ∀ bucket, Sorted (tracker.allTorrents bucket).data

def Roomy (tracker : Tracker) : Prop := ∀ bucket, (tracker.allTorrents bucket).data.length < 2 ^ 32

private theorem indexed_unlock (indexed : Indexed tracker) {bucket : Nat}
    {delta : Int} (sorted : Sorted torrents.data) : Indexed (tracker.unlock bucket torrents delta) := by
  intro other
  rw [unlock_data]
  split
  · exact sorted
  · exact indexed other

section Indexing
variable (housed : Housed tracker) (indexed : Indexed tracker) (roomy : Roomy tracker)
include housed indexed roomy

theorem scrape_indexed (heap : Heap) (now : Int) (hash : Hash) :
    Indexed (scrapeTorrent tracker heap now hash).1 ∧ Roomy (scrapeTorrent tracker heap now hash).1 := by
  obtain ⟨found, left, torrents, delta, rest, edited, _, result, equal⟩ :=
    scrapeTorrent_cases tracker heap now hash (housed.complete _)
  have shorter : torrents.data.length ≤ (tracker.allTorrents (bucketOfHash hash)).data.length := by
    refine edited.length_le fun some => ?_
    obtain ⟨peerList, same⟩ := Option.isSome_iff_exists.mp some
    obtain ⟨old, found, _⟩ := result peerList same
    simp [found]
  rw [equal]
  refine ⟨indexed_unlock indexed (edited.sorted (indexed _) (roomy _)), fun other => ?_⟩
  rw [unlock_data]
  split
  next same => exact lt_of_le_of_lt shorter (roomy _)
  next => exact roomy other

private theorem scrapes_indexed (heap : Heap) (now : Int) (hashes : List Hash) :
    Indexed (scrapeTorrents now tracker heap hashes).1 := by
  induction hashes generalizing tracker heap with
  | nil => exact indexed
  | cons hash rest ih =>
    obtain ⟨again, room⟩ := scrape_indexed housed indexed roomy heap now hash
    exact ih (scrape_step housed heap now hash).1 again room _

theorem apply_indexed (event : Event) : Indexed (tracker.apply event) := by
  cases call : event.call with
  | announce proto hash peer amount random =>
    have cases := announce_cases call (housed.complete _)
    generalize tracker.apply event = after, tracker.served event = issued at cases ⊢
    cases cases with
    | failed same => exact indexed_unlock indexed (by rw [same]; exact indexed _)
    | performed first second found edited => exact indexed_unlock indexed (edited.sorted (indexed _) (roomy _))
  | stop proto hash peer random =>
    simp only [Tracker.apply, call]
    obtain ⟨found, torrents, edited, _, result⟩ := removePeer_cases tracker random proto hash peer (housed.complete _)
    rw [result]
    exact indexed_unlock indexed (edited.sorted (indexed _) (roomy _))
  | udpScrape hash =>
    rw [apply_udpScrape call]
    exact (scrape_indexed housed indexed roomy event.heap event.now hash).1
  | tcpScrape hashes =>
    simp only [Tracker.apply, call, returnTcpScrapeForTorrent]
    exact scrapes_indexed housed indexed roomy event.heap event.now hashes
  | savedState hash base downCount =>
    simp only [Tracker.apply, call]
    obtain ⟨torrents, delta, _, result, same | edited⟩ := addTorrentFromSavedState_cases tracker event.heap hash base downCount
    · rw [result]
      exact indexed_unlock indexed (by rw [same]; exact indexed _)
    · rw [result]
      exact indexed_unlock indexed (edited.sorted (indexed _) (roomy _))
  | clean bucket =>
    simp only [Tracker.apply, call]
    obtain ⟨torrents, delta, result, walked⟩ := cleanWorker_cases tracker event.heap event.now bucket
    rw [result]
    exact indexed_unlock indexed (walked.sorted (indexed bucket))

end Indexing

structure Tidy (tracker : Tracker) : Prop where
  housed : Housed tracker
  indexed : Indexed tracker
  sound : ∀ hash peerList, Holds tracker hash peerList → Sound peerList

theorem run_tidy {events : List Event} {final : Tracker} (run : Run Tracker.Step Bounded .initial events final) : Tidy final := by
  obtain ⟨housed, sound⟩ := lists_sound (run.weaken fun _ _ bounded => bounded.peers)
  have both : Housed final ∧ Indexed final := by
    refine run.invariant (fun tracker => Housed tracker ∧ Indexed tracker) ?_ ⟨housed_initial, fun bucket => .nil⟩
    rintro before event after ⟨housed, indexed⟩ bounded rfl
    have roomy : Roomy before := fun bucket => lt_trans (bounded.torrents bucket) (by norm_num)
    exact ⟨(apply_explained housed event).1, apply_indexed housed indexed roomy event⟩
  exact ⟨housed, both.2, sound⟩

theorem find_unlock {found left : Option PeerList}
    (edited : Edited hash (tracker.allTorrents (bucketOfHash hash)).data found left torrents.data) (delta : Int)
    (indexed : Indexed tracker) (small : (tracker.allTorrents (bucketOfHash hash)).size < 2 ^ 31) :
    tracker.find hash = found ∧ (tracker.unlock (bucketOfHash hash) torrents delta).find hash = left ∧
      ∀ other, other ≠ hash → (tracker.unlock (bucketOfHash hash) torrents delta).find other = tracker.find other := by
  obtain ⟨before, after, others⟩ := edited.stored_eq (indexed _) (lt_trans small (by norm_num))
  refine ⟨before, ?_, fun other different => ?_⟩
  · show stored _ hash = left
    rw [unlock_same]
    exact after
  · show stored _ other = stored _ other
    rw [unlock_data]
    split
    next same =>
      rw [same]
      exact others other different
    next => rfl

/-- Nobody is stored that should have expired without time passing. Only the
announcing peer itself may be, when its old record makes no difference. -/
def Clear (tracker : Tracker) (now : Int) (hash : Hash) (peer : Peer) : Prop :=
  ∀ peerList, tracker.find hash = some peerList → now = peerList.base → ∀ old ∈ peerList.peers.all,
    otPeerTimeout ≤ old.time.toNat → old.addr = peer.addr ∧ (old.completed → (fresh peer).completed)

private theorem expire_zero {map : PeerMap} {addr : Bytes} :
    map.expire 0 addr = match map addr with
      | none => none
      | some (flag, age) => if (age.toNat : Int) < otPeerTimeout then some (flag, age) else none := by
  unfold PeerMap.expire
  cases map addr with
  | none => rfl
  | some value =>
    have same : toByte (0 + value.2.toNat) = value.2 := by
      have bound := value.2.toNat_lt
      rw [toByte, zero_add, Int.emod_eq_of_lt (by omega) (by omega)]
      simp
    rw [zero_add] at same
    simp only [zero_add, same]

private theorem or_completed_eq (flag : UInt8) :
    flag ||| peerFlagCompleted = flag ↔ (flag &&& peerFlagCompleted != 0) = true := by
  have checked : ∀ flag : UInt8, flag ||| peerFlagCompleted = flag ↔ (flag &&& peerFlagCompleted != 0) = true :=
    forall_byte (by decide +kernel)
  exact checked flag

private theorem completedBit_old {old : Peer} :
    sanitizeFlag peer.flag ||| (old.flag &&& peerFlagCompleted) = sanitizeFlag peer.flag ↔
      (old.completed → (fresh peer).completed) := by
  rw [← renewed_flag]
  unfold renewed
  split
  next was =>
    have bit : sanitizeFlag peer.flag ||| peerFlagCompleted = sanitizeFlag peer.flag ↔ (fresh peer).completed :=
      or_completed_eq _
    exact ⟨fun equal _ => bit.mp equal, fun kept => bit.mpr (kept was)⟩
  next not => simp [not, fresh]

/-- An announce in the minute of the base leaves every other peer as it is. That
is what the map demands just when the store is clear. -/
private theorem same_minute {peerList : PeerList} (sound : Sound peerList)
    (found : tracker.find hash = some peerList) {now : Int} (same : now = peerList.base) :
    Function.update peerList.peers.toMap peer.addr
        (some (sanitizeFlag peer.flag ||| peerList.peers.toMap.completedBit peer.addr, 0)) =
      peerList.peers.toMap.announce 0 peer ↔ Clear tracker now hash peer := by
  constructor
  · intro equal list listed _ old member stale
    obtain rfl : peerList = list := Option.some.inj (found.symm.trans listed)
    have stored := toMap_of_mem sound member
    have expired : peerList.peers.toMap.expire 0 old.addr = none := by
      simp only [expire_zero, stored, if_neg (not_lt.mpr stale)]
    have here := congrFun equal old.addr
    by_cases itself : old.addr = peer.addr
    · refine ⟨itself, completedBit_old.mp ?_⟩
      rw [itself] at here stored expired
      simpa [PeerMap.announce, PeerMap.completedBit, stored, expired] using here
    · simp [PeerMap.announce, itself, stored, expired] at here
  · intro clear
    -- Outside the announced key the map cannot hold anybody stale.
    have fresh : ∀ addr, addr ≠ peer.addr → peerList.peers.toMap.expire 0 addr = peerList.peers.toMap addr := by
      intro addr other
      rw [expire_zero]
      cases value : peerList.peers.toMap addr with
      | none => rfl
      | some pair =>
        obtain ⟨flag, age⟩ := pair
        obtain ⟨old, member, rfl, rfl, rfl⟩ := (toMap_eq_some sound).mp value
        exact if_pos (not_le.mp fun stale => other (clear peerList found same old member stale).1)
    funext addr
    by_cases here : addr = peer.addr
    · subst here
      simp only [PeerMap.announce, Function.update_self, Option.some.injEq, Prod.mk.injEq, and_true]
      unfold PeerMap.completedBit
      rw [expire_zero]
      cases value : peerList.peers.toMap peer.addr with
      | none => rfl
      | some pair =>
        obtain ⟨flag, age⟩ := pair
        obtain ⟨old, member, _, rfl, rfl⟩ := (toMap_eq_some sound).mp value
        by_cases stale : (old.time.toNat : Int) < otPeerTimeout
        · simp [stale]
        · have kept := completedBit_old.mpr (clear peerList found same old member (not_lt.mp stale)).2
          simp [stale, kept]
    · simp only [PeerMap.announce, Function.update_of_ne here]
      exact (fresh addr here).symm

private theorem timedOut_eq (first second : Heap) (now : Int) (peerList : PeerList) :
    (cleanSingleTorrent first now peerList).2.2 = (cleanSingleTorrent second now peerList).2.2 := by
  simp only [cleanSingleTorrent]
  split
  · rfl
  split
  · rfl
  split <;> rfl

theorem announce_refines (tidy : Tidy tracker) (bounded : Bounded tracker event) {amount : Nat}
    (call : event.call = .announce proto hash peer amount random) {served : Served} (result : tracker.served event = some served)
    (stays : ∀ peerList, tracker.find hash = some peerList → (cleanSingleTorrent event.heap event.now peerList).2.2 = false) :
    ((tracker.apply event).toMap hash = (tracker.toMap hash).announce (tracker.elapsed event.now hash) peer ↔
      Clear tracker event.now hash peer) ∧
    ∀ other, other ≠ hash → (tracker.apply event).toMap other = tracker.toMap other := by
  have cases := announce_cases call (tidy.housed.complete _)
  generalize tracker.apply event = after, tracker.served event = issued at cases result ⊢
  cases cases with
  | failed same => cases result
  | @performed torrents delta first second found edited =>
    obtain ⟨events, issued, _⟩ := Option.map_eq_some_iff.mp result
    obtain ⟨before, after, others⟩ := find_unlock edited delta tidy.indexed (bounded.torrents _)
    refine ⟨?_, fun other different => by simp only [Tracker.toMap, others other different]⟩
    simp only [Tracker.toMap, after, before, Tracker.elapsed]
    have served : (announcePeer second event.now (entering first event.now found) peer).2.isSome := by simp [issued]
    cases found with
    | none =>
      have sound := sound_zero 0 0
      have announced := announcePeer_cases second event.now .zero peer sound.shaped
      refine ⟨fun _ peerList listed => absurd (before.symm.trans listed) (by simp), fun _ => ?_⟩
      rw [entering, announced_toMap announced served sound (by simp [PeerList.zero])]
      rfl
    | some peerList =>
      have held : Holds tracker hash peerList := edited.found_mem rfl
      have sound := tidy.sound hash peerList held
      have small := bounded.peers.small held
      by_cases same : event.now = peerList.base
      · have current : (cleanSingleTorrent first event.now peerList).2.1 = peerList := by simp [cleanSingleTorrent, same]
        rw [entering, current] at served ⊢
        have announced := announcePeer_cases second event.now peerList peer sound.shaped
        have minute : event.now - peerList.base = 0 := by omega
        dsimp only
        rw [announced_toMap announced served sound small, ← same_minute sound before same, minute]
      · have cleaned := cleanSingleTorrent_cases first event.now peerList sound.shaped
        have left := cleaned_sound cleaned sound small
        have announced := announcePeer_cases second event.now _ peer left.1.shaped
        refine ⟨fun _ list listed now => ?_, fun _ => ?_⟩
        · obtain rfl : peerList = list := Option.some.inj (before.symm.trans listed)
          exact absurd now same
        · rw [entering, announced_toMap announced served left.1 (lt_of_le_of_lt left.2 small),
            cleaned_toMap cleaned sound small (by rw [timedOut_eq first event.heap]; exact stays peerList before) (by omega)]
          rfl

theorem stop_refines (tidy : Tidy tracker) (bounded : Bounded tracker event) (call : event.call = .stop proto hash peer random) :
    (tracker.apply event).toMap hash = (tracker.toMap hash).stop peer ∧
    ∀ other, other ≠ hash → (tracker.apply event).toMap other = tracker.toMap other := by
  simp only [Tracker.apply, call]
  obtain ⟨found, torrents, edited, _, result⟩ := removePeer_cases tracker random proto hash peer (tidy.housed.complete _)
  rw [result]
  obtain ⟨before, after, others⟩ := find_unlock edited 0 tidy.indexed (bounded.torrents _)
  refine ⟨?_, fun other different => by simp only [Tracker.toMap, others other different]⟩
  simp only [Tracker.toMap, after, before]
  cases found with
  | none =>
    funext addr
    by_cases here : addr = peer.addr <;> simp [PeerMap.stop, PeerMap.empty, here]
  | some peerList =>
    have held : Holds tracker hash peerList := edited.found_mem rfl
    have sound := tidy.sound hash peerList held
    exact stopped_toMap (stopPeer_cases peerList peer sound.shaped) sound (bounded.peers.small held)

/-- In a run that stays within bounds, a stop deletes exactly its key and an
announce edits the map as it should exactly when the store is clear. Neither
touches another torrent. -/
theorem tracker_refines_map {events : List Event} {final : Tracker} (run : Run Tracker.Step Bounded .initial events final)
    {event : Event} (bounded : Bounded final event) :
    (∀ proto hash peer amount random served, event.call = .announce proto hash peer amount random →
      final.served event = some served →
      (∀ peerList, final.find hash = some peerList → (cleanSingleTorrent event.heap event.now peerList).2.2 = false) →
      ((final.apply event).toMap hash = (final.toMap hash).announce (final.elapsed event.now hash) peer ↔
        Clear final event.now hash peer) ∧
      ∀ other, other ≠ hash → (final.apply event).toMap other = final.toMap other) ∧
    (∀ proto hash peer random, event.call = .stop proto hash peer random →
      (final.apply event).toMap hash = (final.toMap hash).stop peer ∧
      ∀ other, other ≠ hash → (final.apply event).toMap other = final.toMap other) := by
  have tidy := run_tidy run
  exact ⟨fun _ _ _ _ _ _ call result stays => announce_refines tidy bounded call result stays,
    fun _ _ _ _ call => stop_refines tidy bounded call⟩

theorem tracker_refines_map_second : ((Tracker.initial.apply (announceIn 100 1)).apply (announceIn 110 2)).toMap zeroHash =
      ((Tracker.initial.apply (announceIn 100 1)).toMap zeroHash).announce 10 (peerAt 2) := by
  have only := only_initial zeroHash
  have first : Bounded .initial (announceIn 100 1) := only_bounded only (by decide) (by decide)
  have second : Bounded (Tracker.initial.apply (announceIn 100 1)) (announceIn 110 2) :=
    only_bounded (only.apply (by decide)) (by decide +kernel) (by decide +kernel)
  refine ((tracker_refines_map (.next first rfl (.done _)) second).1 .udp zeroHash (peerAt 2) 2 [] _ rfl rfl ?_).1.mpr ?_
  · intro peerList found
    cases found
    decide
  · intro peerList found now
    cases found
    exact absurd now (by decide)

/-- Three peers announce themselves, the second and the third a minute before the
first. The first then has the age 255 and is not dropped by the third announce. -/
theorem stale_peer_kept : ∃ final served, Run Tracker.Step free .initial [announceIn 100 1, announceIn 99 2] final ∧
    final.served (announceIn 99 3) = some served ∧
    (∀ peerList, final.find zeroHash = some peerList → (cleanSingleTorrent [] 99 peerList).2.2 = false) ∧
    (final.apply (announceIn 99 3)).toMap zeroHash (peerAt 1).addr = some (0, 255) ∧
    (final.toMap zeroHash).announce (final.elapsed 99 zeroHash) (peerAt 3) (peerAt 1).addr = none := by
  refine ⟨_, _, run_foldl _ _, rfl, ?_, ?_, ?_⟩
  · intro peerList found
    cases found
    decide
  · decide
  · decide

end BtServer.Proofs.TrackerRefinement

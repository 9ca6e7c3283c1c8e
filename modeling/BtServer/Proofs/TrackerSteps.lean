import BtServer.Proofs.TorrentTable

/-! One event of the tracker, seen from a single peer list: which peer list it
was before, and which of the operations made it what it is. -/

namespace BtServer.Proofs.TrackerSteps
open Lib TorrentTable

variable {tracker : Tracker} {torrents : OtVector Torrent} {bucket : Nat} {delta : Int} {hash : Hash} {event : Event}
  {found left : Option PeerList}

/-- Every torrent has a peer list and lies in the bucket of its hash. -/
structure Housed (tracker : Tracker) : Prop where
  complete : ∀ bucket, Complete (tracker.allTorrents bucket).data
  home : ∀ bucket, ∀ torrent ∈ (tracker.allTorrents bucket).data, bucketOfHash torrent.hash = bucket

def Holds (tracker : Tracker) (hash : Hash) (peerList : PeerList) : Prop :=
  ⟨hash, some peerList⟩ ∈ (tracker.allTorrents (bucketOfHash hash)).data

def Cleans (event : Event) (hash : Hash) : Prop :=
  match event.call with
  | .announce _ announced _ _ _ => announced = hash
  | .udpScrape scraped => scraped = hash
  | .tcpScrape scraped => hash ∈ scraped
  | .clean bucket => bucketOfHash hash = bucket
  | .stop .. | .savedState .. => False

/-- A call of `clean_single_torrent` after which the torrent stays. -/
def CleanedBy (now : Int) (old new : PeerList) : Prop := ∃ heap, (cleanSingleTorrent heap now old).2 = (new, false)

theorem cleanings_preserve {now : Int} (holds : PeerList → Prop)
    (pass : ∀ heap old, holds old → holds (cleanSingleTorrent heap now old).2.1) {old new : PeerList}
    (passes : Relation.TransGen (CleanedBy now) old new) (start : holds old) : holds new := by
  induction passes with
  | single first =>
    obtain ⟨heap, result⟩ := first
    have after := pass heap _ start
    rwa [result] at after
  | tail _ last ih =>
    obtain ⟨heap, result⟩ := last
    have after := pass heap _ ih
    rwa [result] at after

inductive Effect (tracker : Tracker) (event : Event) (hash : Hash) : PeerList → Prop where
  | kept {peerList : PeerList} (held : Holds tracker hash peerList) : Effect tracker event hash peerList
  | cleaned {old new : PeerList} (held : Holds tracker hash old) (cleans : Cleans event hash)
      (passes : Relation.TransGen (CleanedBy event.now) old new) : Effect tracker event hash new
  | created {proto : Proto} {peer : Peer} {amount : Nat} {random : List Nat}
      (call : event.call = .announce proto hash peer amount random) (heap : Heap) :
      Effect tracker event hash (announcePeer heap event.now .zero peer).1
  | announced {proto : Proto} {peer : Peer} {amount : Nat} {random : List Nat} {old : PeerList}
      (call : event.call = .announce proto hash peer amount random) (held : Holds tracker hash old) (first second : Heap) :
      Effect tracker event hash (announcePeer second event.now (cleanSingleTorrent first event.now old).2.1 peer).1
  | stopped {proto : Proto} {peer : Peer} {random : List Nat} {old : PeerList}
      (call : event.call = .stop proto hash peer random) (held : Holds tracker hash old) :
      Effect tracker event hash (stopPeer old peer)
  | restored {base : Int} {downCount : Nat} (call : event.call = .savedState hash base downCount) :
      Effect tracker event hash { PeerList.zero with base := base, downCount := downCount }

theorem housed_initial : Housed .initial :=
  ⟨fun _ _ member => by simp [Tracker.initial, OtVector.empty] at member,
    fun _ _ member => by simp [Tracker.initial, OtVector.empty] at member⟩

theorem unlock_data (tracker : Tracker) (bucket other : Nat) (torrents : OtVector Torrent) (delta : Int) :
    ((tracker.unlock bucket torrents delta).allTorrents other).data =
      if other = bucket then torrents.data else (tracker.allTorrents other).data := by
  simp only [Tracker.unlock, Function.update_apply]
  split <;> rfl

theorem unlock_same (tracker : Tracker) (bucket : Nat) (torrents : OtVector Torrent) (delta : Int) :
    ((tracker.unlock bucket torrents delta).allTorrents bucket).data = torrents.data := by
  rw [unlock_data, if_pos rfl]

/-- What is to be shown of an event: the torrents stay housed, and every peer list
comes from one before. -/
def Explained (tracker : Tracker) (event : Event) (after : Tracker) : Prop :=
  Housed after ∧ ∀ hash peerList, Holds after hash peerList → Effect tracker event hash peerList

private theorem housed_unlock (housed : Housed tracker)
    (complete : Complete torrents.data) (home : ∀ torrent ∈ torrents.data, bucketOfHash torrent.hash = bucket) :
    Housed (tracker.unlock bucket torrents delta) := by
  constructor
  · intro other
    rw [unlock_data]
    split
    · exact complete
    · exact housed.complete other
  · intro other torrent member
    rw [unlock_data] at member
    split at member
    next same => exact same ▸ home torrent member
    next => exact housed.home other torrent member

theorem housed_edited (housed : Housed tracker)
    (edited : Edited hash (tracker.allTorrents (bucketOfHash hash)).data found left torrents.data) :
    Housed (tracker.unlock (bucketOfHash hash) torrents delta) := by
  refine housed_unlock housed (edited.complete (housed.complete _)) fun torrent member => ?_
  rcases edited.members torrent member with inside | ⟨_, _, rfl⟩
  · exact housed.home _ torrent inside
  · rfl

theorem holds_unlock
    {peerList : PeerList} (held : Holds (tracker.unlock bucket torrents delta) hash peerList) :
    Holds tracker hash peerList ∨ bucketOfHash hash = bucket ∧ ⟨hash, some peerList⟩ ∈ torrents.data := by
  rw [Holds, unlock_data] at held
  split at held
  next same => exact .inr ⟨same, held⟩
  next => exact .inl held

section Explaining
variable (housed : Housed tracker)
include housed

private theorem explained_edited (edited : Edited hash (tracker.allTorrents (bucketOfHash hash)).data found left torrents.data)
    (effect : ∀ peerList, left = some peerList → Effect tracker event hash peerList) :
    Explained tracker event (tracker.unlock (bucketOfHash hash) torrents delta) := by
  refine ⟨housed_edited housed edited, fun other peerList held => ?_⟩
  rcases holds_unlock held with before | ⟨same, member⟩
  · exact .kept before
  · rcases edited.members _ member with inside | ⟨written, left, equal⟩
    · exact .kept (by rw [Holds, same]; exact inside)
    · cases equal
      exact effect _ left

theorem unlock_unchanged (same : torrents.data = (tracker.allTorrents bucket).data) (delta : Int) :
    Housed (tracker.unlock bucket torrents delta) ∧
      ∀ hash peerList, Holds (tracker.unlock bucket torrents delta) hash peerList → Holds tracker hash peerList := by
  refine ⟨housed_unlock housed (same ▸ housed.complete bucket) (same ▸ housed.home bucket), fun hash peerList held => ?_⟩
  rcases holds_unlock held with before | ⟨home, member⟩
  · exact before
  · rw [Holds, home, ← same]
    exact member

private theorem explained_same (same : torrents.data = (tracker.allTorrents bucket).data) :
    Explained tracker event (tracker.unlock bucket torrents delta) := by
  obtain ⟨kept, lists⟩ := unlock_unchanged housed same delta
  exact ⟨kept, fun hash peerList held => .kept (lists hash peerList held)⟩

theorem scrape_step (heap : Heap) (now : Int) (hash : Hash) :
    Housed (scrapeTorrent tracker heap now hash).1 ∧
    ∀ other peerList, Holds (scrapeTorrent tracker heap now hash).1 other peerList →
      Holds tracker other peerList ∨ other = hash ∧ ∃ old, Holds tracker hash old ∧ CleanedBy now old peerList := by
  obtain ⟨found, left, torrents, delta, rest, edited, _, result, equal⟩ :=
    scrapeTorrent_cases tracker heap now hash (housed.complete _)
  rw [equal]
  refine ⟨housed_edited housed edited, fun other peerList held => ?_⟩
  rcases holds_unlock held with before | ⟨same, member⟩
  · exact .inl before
  · rcases edited.members _ member with inside | ⟨written, left, equal⟩
    · exact .inl (by rw [Holds, same]; exact inside)
    · cases equal
      obtain ⟨old, found, cleaned⟩ := result _ left
      exact .inr ⟨rfl, old, edited.found_mem found, heap, cleaned⟩

private theorem scrapes (heap : Heap) (now : Int) (hashes : List Hash) :
    Housed (scrapeTorrents now tracker heap hashes).1 ∧
    ∀ other peerList, Holds (scrapeTorrents now tracker heap hashes).1 other peerList → Holds tracker other peerList ∨
      other ∈ hashes ∧ ∃ old, Holds tracker other old ∧ Relation.TransGen (CleanedBy now) old peerList := by
  induction hashes generalizing tracker heap with
  | nil => exact ⟨housed, fun _ _ held => .inl held⟩
  | cons hash rest ih =>
    obtain ⟨kept, first⟩ := scrape_step housed heap now hash
    obtain ⟨final, later⟩ := ih kept (scrapeTorrent tracker heap now hash).2.1
    simp only [scrapeTorrents]
    refine ⟨final, fun other peerList held => ?_⟩
    rcases later other peerList held with middle | ⟨inside, middle, held, passes⟩
    · rcases first other peerList middle with before | ⟨rfl, old, before, pass⟩
      · exact .inl before
      · exact .inr ⟨by simp, old, before, .single pass⟩
    · rcases first other middle held with before | ⟨rfl, old, before, pass⟩
      · exact .inr ⟨by simp [inside], middle, before, passes⟩
      · exact .inr ⟨by simp, old, before, .head pass passes⟩

private theorem explained_walk (call : event.call = .clean bucket) : Explained tracker event (cleanWorker tracker event.heap event.now bucket) := by
  obtain ⟨torrents, delta, result, walked⟩ := cleanWorker_cases tracker event.heap event.now bucket
  rw [result]
  constructor
  · refine housed_unlock housed ?_ ?_
    · intro torrent member
      rcases walked.members torrent member with inside | ⟨heap, peerList, _, equal, _⟩
      · exact housed.complete bucket torrent inside
      · rw [equal]
        rfl
    · intro torrent member
      obtain ⟨old, inside, same⟩ := List.mem_map.mp (walked.hashes.subset (List.mem_map_of_mem member))
      rw [← same]
      exact housed.home bucket old inside
  · intro hash peerList held
    rcases holds_unlock held with before | ⟨home, member⟩
    · exact .kept before
    · rcases walked.members _ member with inside | ⟨heap, old, inside, equal, stays⟩
      · exact .kept (by rw [Holds, home]; exact inside)
      · have cleaned : peerList = (cleanSingleTorrent heap event.now old).2.1 := by
          injection equal with _ list
          exact Option.some.inj list
        have held : Holds tracker hash old := by
          rw [Holds, home]
          exact inside
        refine .cleaned held ?_ (.single ⟨heap, ?_⟩)
        · simpa [Cleans, call] using home
        · rw [cleaned, ← stays]

end Explaining

theorem apply_udpScrape (call : event.call = .udpScrape hash) :
    tracker.apply event = (scrapeTorrent tracker event.heap event.now hash).1 := by
  simp only [Tracker.apply, call, returnUdpScrapeForTorrent]
  rcases scrapeTorrent tracker event.heap event.now hash with ⟨after, heap, _ | found⟩ <;> rfl

theorem apply_explained (housed : Housed tracker) (event : Event) :
    Explained tracker event (tracker.apply event) := by
  cases call : event.call with
  | announce proto hash peer amount random =>
    have cases := announce_cases call (housed.complete _)
    generalize tracker.apply event = after, tracker.served event = issued at cases ⊢
    cases cases with
    | failed same => exact explained_same housed same
    | performed first second found edited =>
      refine explained_edited housed edited fun peerList equal => ?_
      rw [← Option.some.inj equal]
      cases found with
      | none => exact .created call second
      | some old => exact .announced call (edited.found_mem rfl) first second
  | stop proto hash peer random =>
    simp only [Tracker.apply, call]
    obtain ⟨found, torrents, edited, _, result⟩ := removePeer_cases tracker random proto hash peer (housed.complete _)
    rw [result]
    refine explained_edited housed edited fun peerList equal => ?_
    obtain ⟨old, same, rfl⟩ := Option.map_eq_some_iff.mp equal
    exact .stopped call (edited.found_mem same)
  | udpScrape hash =>
    obtain ⟨kept, lists⟩ := scrape_step housed event.heap event.now hash
    rw [apply_udpScrape call]
    refine ⟨kept, fun other peerList held => ?_⟩
    rcases lists other peerList held with before | ⟨rfl, old, before, pass⟩
    · exact .kept before
    · exact .cleaned before (by simp [Cleans, call]) (.single pass)
  | tcpScrape hashes =>
    simp only [Tracker.apply, call, returnTcpScrapeForTorrent]
    obtain ⟨kept, lists⟩ := scrapes housed event.heap event.now hashes
    refine ⟨kept, fun other peerList held => ?_⟩
    rcases lists other peerList held with before | ⟨inside, old, before, passes⟩
    · exact .kept before
    · exact .cleaned before (by simpa [Cleans, call] using inside) passes
  | savedState hash base downCount =>
    simp only [Tracker.apply, call]
    obtain ⟨torrents, delta, _, result, same | edited⟩ := addTorrentFromSavedState_cases tracker event.heap hash base downCount
    · rw [result]
      exact explained_same housed same
    · rw [result]
      refine explained_edited housed edited fun peerList equal => ?_
      rw [← Option.some.inj equal]
      exact .restored call
  | clean bucket =>
    simp only [Tracker.apply, call]
    exact explained_walk housed call

/-- To keep a property of all stored peer lists, it is enough that each way an
event has of making a peer list gives one with the property. -/
theorem lists_preserved (holds : List Event → Hash → PeerList → Prop) {permits : Tracker → Event → Prop}
    (step : ∀ past before event hash peerList, Housed before → permits before event →
      (∀ hash peerList, Holds before hash peerList → holds past hash peerList) →
      Effect before event hash peerList → holds (past ++ [event]) hash peerList)
    {events : List Event} {final : Tracker} (run : Run Tracker.Step permits .initial events final) :
    Housed final ∧ ∀ hash peerList, Holds final hash peerList → holds events hash peerList := by
  refine run.history
    (fun past state => Housed state ∧ ∀ hash peerList, Holds state hash peerList → holds past hash peerList) ?_ ?_
  · intro past before event after both permitted moved
    obtain ⟨housed, lists⟩ := both
    have explained := apply_explained housed event
    rw [show before.apply event = after from moved] at explained
    exact ⟨explained.1, fun hash peerList held =>
      step past before event hash peerList housed permitted lists (explained.2 hash peerList held)⟩
  · exact ⟨housed_initial, fun hash peerList held => by simp [Holds, Tracker.initial, OtVector.empty] at held⟩

theorem run_foldl (events : List Event) (tracker : Tracker) :
    Run Tracker.Step free tracker events (events.foldl Tracker.apply tracker) := .foldl (fun _ _ _ => ⟨trivial, rfl⟩) tracker

end BtServer.Proofs.TrackerSteps

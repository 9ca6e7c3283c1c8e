import BtServer.Proofs.Completions
import BtServer.Proofs.PeerAges

/-! Which peers are still there. A peer that was refreshed less than `OT_PEER_TIMEOUT`
minutes ago stays in its torrent whatever else happens to the tracker, as long as it
does not stop. -/

namespace BtServer.Proofs.PeerStays
open Lib VectorSearch PeerListEdits PeerListInvariant Cleaning TorrentTable TrackerSteps TrackerInvariant PeerMapEdits
open TrackerRefinement Completions PeerAges

variable {peerList : PeerList} {result : PeerList × Option (List StatsEvent)} {torrents : OtVector Torrent}

section Lists
variable {peerList : PeerList} {peer : Peer} {addr : Bytes} {since before now : Int}

/-- The peer is in the list and was refreshed in the minute `since` or later. -/
def Kept (addr : Bytes) (since now : Int) (peerList : PeerList) : Prop :=
  peerList.base ≤ now ∧
    ∃ flag age, peerList.peers.toMap addr = some (flag, age) ∧ since ≤ peerList.base - (age.toNat : Int)

theorem Kept.later (kept : Kept addr since before peerList) (later : before ≤ now) : Kept addr since now peerList :=
  ⟨le_trans kept.1 later, kept.2⟩

theorem Kept.weaken {earlier : Int} (kept : Kept addr since now peerList) (le : earlier ≤ since) :
    Kept addr earlier now peerList := by
  obtain ⟨past, flag, age, stored, refreshed⟩ := kept
  exact ⟨past, flag, age, stored, le_trans le refreshed⟩

theorem peerCount_of_toMap (sound : Sound peerList) {flag age : UInt8} (stored : peerList.peers.toMap addr = some (flag, age)) :
    peerList.peerCount ≠ 0 := by
  obtain ⟨peer, member, -⟩ := (toMap_eq_some sound).mp stored
  have some := List.length_pos_of_mem member
  rw [sound.peerCount]
  omega

theorem cleaned_kept {result : PeerList × Bool} (cleaned : Cleaned now peerList result) (sound : Sound peerList)
    (small : peerList.peerCount < 2 ^ 31) (kept : Kept addr since now peerList) (recent : now < since + otPeerTimeout) :
    result.2 = false ∧ result.1.base = now ∧ Kept addr since now result.1 := by
  have cleaned' := cleaned
  obtain ⟨past, flag, age, stored, refreshed⟩ := kept
  have occupied := peerCount_of_toMap sound stored
  unfold otPeerTimeout at recent
  cases cleaned with
  | current same => exact ⟨rfl, (Int.sub_eq_zero.mp same).symm, past, flag, age, stored, refreshed⟩
  | late idle =>
    unfold otTorrentTimeout otTorrentTimeoutHours at idle
    omega
  | vacant idle empty => exact absurd empty occupied
  | @swept peers peerCount moved _ _ counted result =>
    have map := cleaned_toMap cleaned' sound small rfl moved
    have left := (cleaned_sound cleaned' sound small).1
    have young : now - peerList.base + (age.toNat : Int) < otPeerTimeout := by
      unfold otPeerTimeout
      omega
    have aged : peers.toMap addr = some (flag, toByte (now - peerList.base + age.toNat)) := by
      rw [show peers.toMap = _ from map, PeerMap.expire, stored]
      simp only [young, if_true]
    have some : peerCount ≠ 0 := peerCount_of_toMap left aged
    refine ⟨rfl, by simp [some], by simp [some], flag, _, aged, ?_⟩
    rw [toByte_toNat (by omega) (by omega)]
    simp only [some, ne_eq, not_false_eq_true, if_true]
    omega

theorem announced_kept (announced : Announced now peerList peer result)
    (sound : Sound peerList) (small : peerList.peerCount < 2 ^ 31) (kept : Kept addr since now peerList)
    (current : peerList.base = now) : Kept addr since now result.1 := by
  have base := announced.base
  obtain ⟨-, flag, age, stored, refreshed⟩ := kept
  by_cases served : result.2.isSome
  · have map := announced_toMap announced served sound small
    by_cases same : addr = peer.addr
    · refine ⟨by omega, _, 0, by rw [map, same, Function.update_self], ?_⟩
      have zero : (0 : UInt8).toNat = 0 := rfl
      omega
    · refine ⟨by omega, flag, age, ?_, by omega⟩
      rw [map, Function.update_of_ne same]
      exact stored
  · cases announced with
    | refused => exact ⟨le_refl _, flag, age, stored, by simpa [current] using refreshed⟩
    | inserted | renewed => exact absurd rfl served

theorem announced_fresh (announced : Announced now peerList peer result)
    (served : result.2.isSome) (sound : Sound peerList) (small : peerList.peerCount < 2 ^ 31) :
    Kept peer.addr now now result.1 := by
  have base := announced.base
  have map := announced_toMap announced served sound small
  have zero : (0 : UInt8).toNat = 0 := rfl
  exact ⟨by omega, _, 0, by rw [map, Function.update_self], by omega⟩

theorem stopped_kept {result : PeerList} (stopped : Stopped peerList peer result) (sound : Sound peerList)
    (small : peerList.peerCount < 2 ^ 31) (kept : Kept addr since now peerList) (other : addr ≠ peer.addr) :
    Kept addr since now result := by
  obtain ⟨past, flag, age, stored, refreshed⟩ := kept
  refine ⟨by rw [stopped.base]; exact past, flag, age, ?_, by rw [stopped.base]; exact refreshed⟩
  rw [stopped_toMap stopped sound small, PeerMap.stop, Function.update_of_ne other]
  exact stored

end Lists

section Tables
variable {tracker : Tracker} {hash : Hash} {now : Int} {holds : PeerList → Prop}

def Endures (now : Int) (holds : PeerList → Prop) : Prop :=
  ∀ heap peerList, holds peerList →
    (cleanSingleTorrent heap now peerList).2.2 = false ∧ holds (cleanSingleTorrent heap now peerList).2.1

private theorem vectorRemoveTorrent_erases (torrents : OtVector Torrent) (position : Nat) :
    (vectorRemoveTorrent torrents position).data = torrents.data.eraseIdx position := by
  unfold vectorRemoveTorrent
  split
  next empty => simp [List.eq_nil_of_length_eq_zero empty]
  · simp only
    split <;> rfl

theorem cleanTorrents_endures (endures : Endures now holds) (fuel : Nat) (heap : Heap) (torrents : OtVector Torrent)
    (toffs removed : Nat) (member : ⟨hash, some peerList⟩ ∈ torrents.data) (good : holds peerList) :
    ∃ new, holds new ∧ ⟨hash, some new⟩ ∈ (cleanTorrents now fuel heap torrents toffs removed).1.data := by
  induction fuel generalizing heap torrents toffs removed peerList with
  | zero => exact ⟨peerList, good, member⟩
  | succ fuel ih =>
    rw [cleanTorrents]
    cases here : torrents.data[toffs]? with
    | none => exact ⟨peerList, good, member⟩
    | some torrent =>
      simp only
      cases has : torrent.peerList with
      | none => exact ih _ _ _ _ member good
      | some list =>
        -- The torrent is the one at this place of the walk, or it is at another place.
        obtain ⟨index, inside⟩ := List.mem_iff_getElem?.mp member
        by_cases place : index = toffs
        · subst place
          obtain rfl : torrent = ⟨hash, some peerList⟩ := Option.some.inj (here.symm.trans inside)
          obtain rfl : peerList = list := Option.some.inj has
          obtain ⟨stays, again⟩ := endures heap peerList good
          simp only [stays, Bool.false_eq_true, if_false]
          refine ih _ _ _ _ ?_ again
          exact List.mem_set (List.getElem?_eq_some_iff.mp here).1 _
        · have kept : (torrents.data.set toffs ⟨torrent.hash, some (cleanSingleTorrent heap now list).2.1⟩)[index]? =
              some ⟨hash, some peerList⟩ := by
            rw [List.getElem?_set_ne (Ne.symm place)]
            exact inside
          simp only
          split
          · refine ih _ _ _ _ ?_ good
            rw [vectorRemoveTorrent_erases, List.mem_eraseIdx_iff_getElem?]
            exact ⟨index, place, kept⟩
          · exact ih _ _ _ _ (List.mem_iff_getElem?.mpr ⟨index, kept⟩) good

theorem find_same {bucket : Nat} (same : torrents.data = (tracker.allTorrents bucket).data)
    (delta : Int) (hash : Hash) : (tracker.unlock bucket torrents delta).find hash = tracker.find hash := by
  show stored _ hash = stored _ hash
  rw [unlock_data]
  split
  next here => rw [same, here]
  next => rfl

theorem find_edited {found left : Option PeerList}
    (edited : Edited hash (tracker.allTorrents (bucketOfHash hash)).data found left torrents.data) (indexed : Indexed tracker)
    (roomy : Roomy tracker) : tracker.find hash = found := (edited.stored_eq (indexed _) (roomy _)).1

theorem scrapeTorrent_left (housed : Housed tracker) (indexed : Indexed tracker) (roomy : Roomy tracker) {heap : Heap}
    (found : tracker.find hash = some peerList) (stays : (cleanSingleTorrent heap now peerList).2.2 = false) :
    (scrapeTorrent tracker heap now hash).2.2 = some (cleanSingleTorrent heap now peerList).2.1 := by
  rcases search_cases _ hash (housed.complete (bucketOfHash hash)) with
    ⟨before, after, list, exactmatch, split, matched, searched⟩ | ⟨position, searched, missing⟩
  · have edited : Edited hash (tracker.allTorrents (bucketOfHash hash)).data (some list) (some list)
        (tracker.allTorrents (bucketOfHash hash)).data := by
      nth_rewrite 2 [split]
      exact .replaced split
    have here := find_edited edited indexed roomy
    obtain rfl : peerList = list := Option.some.inj (found.symm.trans here)
    rw [split] at searched
    simp only [scrapeTorrent, searched, if_neg matched, split, get_here, Option.bind_some, stays, Bool.false_eq_true, if_false]
  · have absent := find_edited (Edited.absent missing) indexed roomy
    rw [found] at absent
    cases absent

theorem scrapeTorrent_endures (endures : Endures now holds) (housed : Housed tracker) (indexed : Indexed tracker)
    (roomy : Roomy tracker) (heap : Heap) (scraped : Hash) (found : tracker.find hash = some peerList) (good : holds peerList) :
    ∃ new, holds new ∧ (scrapeTorrent tracker heap now scraped).1.find hash = some new := by
  obtain ⟨was, left, torrents, delta, rest, edited, _, result, equal⟩ :=
    scrapeTorrent_cases tracker heap now scraped (housed.complete _)
  obtain ⟨-, after, others⟩ := edited.stored_eq (indexed _) (roomy _)
  by_cases same : hash = scraped
  · subst same
    obtain ⟨stays, again⟩ := endures heap peerList good
    have leaves := scrapeTorrent_left housed indexed roomy found stays
    rw [equal] at leaves ⊢
    refine ⟨_, again, ?_⟩
    show stored _ hash = _
    rw [unlock_same, after]
    exact leaves
  · rw [equal]
    refine ⟨peerList, good, ?_⟩
    rw [← found]
    show stored _ hash = stored _ hash
    rw [unlock_data]
    split
    next here => rw [others hash same, here]
    next => rfl

theorem scrapeTorrents_endures (endures : Endures now holds) (housed : Housed tracker) (indexed : Indexed tracker)
    (roomy : Roomy tracker) (heap : Heap) (scraped : List Hash)
    (found : tracker.find hash = some peerList) (good : holds peerList) :
    ∃ new, holds new ∧ (scrapeTorrents now tracker heap scraped).1.find hash = some new := by
  induction scraped generalizing tracker heap peerList with
  | nil => exact ⟨peerList, good, found⟩
  | cons first rest ih =>
    obtain ⟨again, room⟩ := scrape_indexed housed indexed roomy heap now first
    obtain ⟨new, better, found⟩ := scrapeTorrent_endures endures housed indexed roomy heap first found good
    exact ih (scrape_step housed heap now first).1 again room _ found better

theorem apply_endures {event : Event} (left : PeerList → Prop) (tidy : Tidy tracker) (bounded : Bounded tracker event)
    (found : tracker.find hash = some peerList) (good : holds peerList)
    (endures : Endures event.now holds) (weaker : ∀ list, holds list → left list)
    (announces : ∀ proto peer amount random first second, event.call = .announce proto hash peer amount random →
      left (announcePeer second event.now (cleanSingleTorrent first event.now peerList).2.1 peer).1)
    (stops : ∀ proto peer random, event.call = .stop proto hash peer random → left (stopPeer peerList peer)) :
    ∃ new, left new ∧ (tracker.apply event).find hash = some new := by
  have roomy : Roomy tracker := fun bucket => lt_trans (bounded.torrents bucket) (by norm_num)
  have again := tidy_apply tidy bounded
  cases call : event.call with
  | announce proto announced peer amount random =>
    have cases := announce_cases call (tidy.housed.complete _)
    generalize tracker.apply event = after, tracker.served event = issued at cases ⊢
    cases cases with
    | failed same => exact ⟨peerList, weaker _ good, by rw [find_same same]; exact found⟩
    | @performed torrents delta first second was edited =>
      obtain ⟨before, after, others⟩ := find_unlock edited delta tidy.indexed (bounded.torrents _)
      by_cases same : hash = announced
      · subst same
        obtain rfl : was = some peerList := before.symm.trans found
        exact ⟨_, announces _ _ _ _ first second call, after⟩
      · exact ⟨peerList, weaker _ good, by rw [others hash same]; exact found⟩
  | stop proto stopped peer random =>
    simp only [Tracker.apply, call]
    obtain ⟨was, torrents, edited, _, result⟩ := removePeer_cases tracker random proto stopped peer (tidy.housed.complete _)
    rw [result]
    obtain ⟨before, after, others⟩ := find_unlock edited 0 tidy.indexed (bounded.torrents _)
    by_cases same : hash = stopped
    · subst same
      obtain rfl : was = some peerList := before.symm.trans found
      exact ⟨_, stops _ _ _ call, after⟩
    · exact ⟨peerList, weaker _ good, by rw [others hash same]; exact found⟩
  | udpScrape scraped =>
    obtain ⟨new, better, inside⟩ :=
      scrapeTorrent_endures endures tidy.housed tidy.indexed roomy event.heap scraped found good
    exact ⟨new, weaker _ better, by rw [apply_udpScrape call]; exact inside⟩
  | tcpScrape scraped =>
    obtain ⟨new, better, inside⟩ :=
      scrapeTorrents_endures endures tidy.housed tidy.indexed roomy event.heap scraped found good
    exact ⟨new, weaker _ better, by simpa only [Tracker.apply, call, returnTcpScrapeForTorrent] using inside⟩
  | savedState restored base downCount =>
    simp only [Tracker.apply, call]
    obtain ⟨torrents, delta, _, result, same | edited⟩ :=
      addTorrentFromSavedState_cases tracker event.heap restored base downCount
    · exact ⟨peerList, weaker _ good, by rw [result, find_same same]; exact found⟩
    · obtain ⟨before, after, others⟩ := find_unlock edited delta tidy.indexed (bounded.torrents _)
      rw [result]
      refine ⟨peerList, weaker _ good, ?_⟩
      rw [others hash fun same => ?_]
      · exact found
      · subst same
        rw [found] at before
        cases before
  | clean bucket =>
    by_cases here : bucketOfHash hash = bucket
    · subst here
      obtain ⟨new, better, member⟩ := cleanTorrents_endures endures
        (tracker.allTorrents (bucketOfHash hash)).size event.heap _ 0 0 ((find_eq_some tidy).mp found) good
      refine ⟨new, weaker _ better, (find_eq_some again).mpr ?_⟩
      simp only [Tracker.apply, call, cleanWorker, Holds, unlock_same]
      exact member
    · refine ⟨peerList, weaker _ good, ?_⟩
      rw [← found]
      simp only [Tracker.apply, call, cleanWorker]
      show stored _ hash = stored _ hash
      rw [unlock_data, if_neg here]

end Tables

section Events
variable {tracker : Tracker} {event : Event} {hash : Hash} {addr : Bytes} {since before now : Int}

def Stays (tracker : Tracker) (hash : Hash) (addr : Bytes) (since now : Int) : Prop :=
  ∃ peerList, tracker.find hash = some peerList ∧ Kept addr since now peerList

theorem Stays.stored (stays : Stays tracker hash addr since now) : tracker.toMap hash addr ≠ none := by
  obtain ⟨peerList, found, -, flag, age, stored, -⟩ := stays
  simp [Tracker.toMap, found, stored]

theorem Stays.later (stays : Stays tracker hash addr since before) (later : before ≤ now) :
    Stays tracker hash addr since now := by
  obtain ⟨peerList, found, kept⟩ := stays
  exact ⟨peerList, found, kept.later later⟩

theorem stays_apply (tidy : Tidy tracker) (bounded : Bounded tracker event) (stays : Stays tracker hash addr since before)
    (later : before ≤ event.now) (recent : event.now < since + otPeerTimeout)
    (unstopped : ∀ proto peer random, event.call = .stop proto hash peer random → addr ≠ peer.addr) :
    Stays (tracker.apply event) hash addr since event.now := by
  obtain ⟨peerList, found, kept⟩ := stays
  have held := (find_eq_some tidy).mp found
  have sound := tidy.sound hash peerList held
  have small := bounded.peers.small held
  have kept := kept.later later
  have endures : Endures event.now fun list => Sound list ∧ list.peerCount < 2 ^ 31 ∧ Kept addr since event.now list := by
    intro heap list ⟨sound, small, kept⟩
    have cleaned := cleanSingleTorrent_cases heap event.now list sound.shaped
    obtain ⟨again, fewer⟩ := cleaned_sound cleaned sound small
    obtain ⟨stays, -, still⟩ := cleaned_kept cleaned sound small kept recent
    exact ⟨stays, again, lt_of_le_of_lt fewer small, still⟩
  have announces : ∀ proto peer amount random first second, event.call = .announce proto hash peer amount random →
      Kept addr since event.now (announcePeer second event.now (cleanSingleTorrent first event.now peerList).2.1 peer).1 := by
    intro proto peer amount random first second _
    have cleaned := cleanSingleTorrent_cases first event.now peerList sound.shaped
    obtain ⟨-, current, -⟩ := cleaned_kept cleaned sound small kept recent
    obtain ⟨-, sound, small, kept⟩ := endures first peerList ⟨sound, small, kept⟩
    exact announced_kept (announcePeer_cases second event.now _ peer sound.shaped) sound small kept current
  have stops : ∀ proto peer random, event.call = .stop proto hash peer random →
      Kept addr since event.now (stopPeer peerList peer) := by
    intro proto peer random call
    exact stopped_kept (stopPeer_cases peerList peer sound.shaped) sound small kept (unstopped _ _ _ call)
  obtain ⟨new, left, inside⟩ :=
    apply_endures _ tidy bounded found ⟨sound, small, kept⟩ endures (fun _ good => good.2.2) announces stops
  exact ⟨new, inside, left⟩

theorem stays_announce (tidy : Tidy tracker) (bounded : Bounded tracker event) {proto : Proto} {peer : Peer} {amount : Nat}
    {random : List Nat} (call : event.call = .announce proto hash peer amount random)
    (served : (tracker.served event).isSome) : Stays (tracker.apply event) hash peer.addr event.now event.now := by
  have cases := announce_cases call (tidy.housed.complete _)
  generalize tracker.apply event = after, tracker.served event = issued at cases served ⊢
  cases cases with
  | failed same => cases served
  | @performed torrents delta first second was edited =>
    obtain ⟨before, after, -⟩ := find_unlock edited delta tidy.indexed (bounded.torrents _)
    rw [← before] at after served
    obtain ⟨sound, small, -, -⟩ := entering_sound tidy bounded hash first
    refine ⟨_, after, ?_⟩
    refine announced_fresh (announcePeer_cases second event.now _ peer sound.shaped) ?_ sound small
    simpa using served

end Events

end BtServer.Proofs.PeerStays

import BtServer.Proofs.TrackerInvariant

/-! The age of a peer. The minute of its last announce is split between the base
of its torrent and its age byte. The byte stays below `OT_PEER_TIMEOUT` as long
as the clock is never set back behind such a minute. -/

namespace BtServer.Proofs.PeerAges
open Lib PeerListShape PeerListEdits Cleaning TorrentTable TrackerSteps TrackerInvariant

variable {peerList : PeerList} {now : Int} {peer : Peer} {tracker : Tracker} {event : Event}

structure Young (peerList : PeerList) : Prop where
  shaped : Shaped peerList.peers
  age : ∀ peer ∈ peerList.peers.all, (peer.time.toNat : Int) < otPeerTimeout

def Past (now : Int) (peerList : PeerList) : Prop := ∀ peer ∈ peerList.peers.all, peerList.base - peer.time.toNat ≤ now

/-- When an event cleans a torrent, its clock is not behind the last announce of
any of the torrent's peers. -/
def Timely (tracker : Tracker) (event : Event) : Prop :=
  ∀ hash peerList, Holds tracker hash peerList → Cleans event hash → Past event.now peerList

theorem swept_origin {peers : PeerVector} (swept : Swept (elapsed now peerList) peerList.peers peers) (member : peer ∈ peers.all) :
    ∃ old ∈ peerList.peers.all, now - peerList.base + old.time.toNat < otPeerTimeout ∧
      peer = aged (now - peerList.base) old := by
  obtain ⟨old, inside, young, rfl⟩ := mem_survivors.mp (swept.members peer member)
  have whole : elapsed now peerList = now - peerList.base := by
    unfold elapsed at young ⊢
    omega
  exact ⟨old, inside, whole ▸ young, by rw [whole]⟩

theorem cleaned_young {result : PeerList × Bool} (cleaned : Cleaned now peerList result)
    (young : Young peerList) (past : Past now peerList) : Young result.1 ∧ Past now result.1 := by
  have shaped := cleaned.shaped young.shaped
  cases cleaned with
  | current same => exact ⟨young, past⟩
  | late idle => exact ⟨young, past⟩
  | vacant idle empty => exact ⟨young, past⟩
  | @swept peers remaining moved recent occupied counted swept =>
    refine ⟨⟨shaped, fun peer member => ?_⟩, fun peer member => ?_⟩
    · obtain ⟨old, inside, bound, rfl⟩ := swept_origin swept member
      have before := past old inside
      rw [aged_time (by omega) bound]
      exact bound
    · show (if remaining ≠ 0 then now else now - otPeerTimeout) - (peer.time.toNat : Int) ≤ now
      unfold otPeerTimeout
      split <;> omega

theorem announced_young {result : PeerList × Option (List StatsEvent)}
    (announced : Announced now peerList peer result) (young : Young peerList) : Young result.1 := by
  refine ⟨announced.shaped young.shaped, fun other member => ?_⟩
  rcases announced.members other member with inside | ⟨_, zero⟩
  · exact young.age other inside
  · simp [zero, otPeerTimeout]

theorem young_zero (base : Int) (downCount : Nat) : Young { PeerList.zero with base := base, downCount := downCount } :=
  ⟨shaped_zero, fun peer member => by
    rw [show PeerVector.all _ = [] from rfl] at member
    simp at member⟩

theorem effect_young {hash : Hash} (timely : Timely tracker event) (effect : Effect tracker event hash peerList)
    (before : ∀ hash peerList, Holds tracker hash peerList → Young peerList) : Young peerList := by
  cases effect with
  | kept held => exact before _ _ held
  | cleaned held cleans passes =>
    refine (cleanings_preserve (fun new => Young new ∧ Past event.now new) ?_ passes ⟨before _ _ held, timely _ _ held cleans⟩).1
    rintro heap old ⟨young, past⟩
    exact cleaned_young (cleanSingleTorrent_cases heap event.now old young.shaped) young past
  | created call heap => exact announced_young (announcePeer_cases heap _ _ _ shaped_zero) (young_zero 0 0)
  | announced call held first second =>
    have young := before _ _ held
    have cleaned := (cleaned_young (cleanSingleTorrent_cases first event.now _ young.shaped) young
      (timely _ _ held (by simp [Cleans, call]))).1
    exact announced_young (announcePeer_cases second _ _ _ cleaned.shaped) cleaned
  | @stopped proto peer random old call held =>
    have young := before _ _ held
    have result := stopPeer_cases old peer young.shaped
    exact ⟨result.shaped young.shaped, fun other member => young.age other (result.members other member)⟩
  | restored call => exact young_zero _ _

theorem lists_young {events : List Event} {final : Tracker} (run : Run Tracker.Step Timely .initial events final) :
    Housed final ∧ ∀ hash peerList, Holds final hash peerList → Young peerList :=
  lists_preserved (fun _ _ peerList => Young peerList)
    (fun _ _ _ _ _ _ timely young effect => effect_young timely effect young) run

theorem served_cases (housed : Housed tracker) {served : Served} (result : tracker.served event = some served) :
    ∃ proto hash peer amount random found first second, event.call = .announce proto hash peer amount random ∧
      (∀ peerList, found = some peerList → Holds tracker hash peerList) ∧
      announcePeer second event.now (entering first event.now found) peer = (served.peerList, some served.events) ∧
      served.reply = returnPeersForTorrent random served.peerList amount proto ∧
      Holds (tracker.apply event) hash served.peerList := by
  cases call : event.call with
  | announce proto hash peer amount random =>
    have cases := announce_cases call (housed.complete _)
    generalize tracker.apply event = after, tracker.served event = issued at cases result ⊢
    cases cases with
    | failed same => cases result
    | @performed torrents delta first second found edited =>
      obtain ⟨events, issued, rfl⟩ := Option.map_eq_some_iff.mp result
      refine ⟨proto, hash, peer, amount, random, found, first, second, rfl, ?_, ?_, rfl, ?_⟩
      · intro peerList same
        exact edited.found_mem same
      · rw [← issued]
      · show _ ∈ _
        rw [unlock_same]
        exact edited.left_mem rfl
  | stop | udpScrape | tcpScrape | savedState | clean => simp [Tracker.served, call] at result

/-- In a run whose clock is never behind a stored peer, every age is in range, and
so is the index of every renewal counted by a next announce. -/
theorem ages_in_range {events : List Event} {final : Tracker} (run : Run Tracker.Step Timely .initial events final) :
    (∀ peerList, Keeps final peerList → ∀ peer ∈ peerList.peers.all, (peer.time.toNat : Int) < otPeerTimeout) ∧
    ∀ event served, Timely final event → final.served event = some served →
      ∀ index : Nat, .renew index ∈ served.events → (index : Int) < otPeerTimeout := by
  obtain ⟨housed, young⟩ := lists_young run
  constructor
  · intro peerList kept
    obtain ⟨hash, held⟩ := kept.holds housed
    exact (young hash peerList held).age
  · intro event served timely result index member
    obtain ⟨proto, hash, peer, amount, random, found, first, second, call, held, announce, _, _⟩ := served_cases housed result
    have entered : Young (entering first event.now found) := by
      cases found with
      | none => exact young_zero 0 0
      | some old =>
        have before := young _ _ (held old rfl)
        exact (cleaned_young (cleanSingleTorrent_cases first event.now old before.shaped) before
          (timely _ _ (held old rfl) (by simp [Cleans, call]))).1
    have announced := announcePeer_cases second event.now (entering first event.now found) peer entered.shaped
    rw [announce] at announced
    obtain ⟨old, inside, rfl⟩ := announced.renew rfl member
    exact entered.age old inside

theorem ages_in_range_renewed : ∃ served, (Tracker.initial.apply (announceIn 100 1)).served (announceIn 111 1) = some served ∧
      .renew 11 ∈ served.events ∧ ((11 : Nat) : Int) < otPeerTimeout := by
  have first : Timely .initial (announceIn 100 1) := by
    intro hash peerList held
    simp [Holds, Tracker.initial, OtVector.empty] at held
  have second : Timely (Tracker.initial.apply (announceIn 100 1)) (announceIn 111 1) := by
    intro hash peerList held cleans
    obtain rfl : zeroHash = hash := cleans
    have single : peerList = ⟨100, 0, 1, 0, ⟨.members [peerAt 1], 2⟩⟩ := by
      have member : _ ∈ [Torrent.mk zeroHash (some ⟨100, 0, 1, 0, ⟨.members [peerAt 1], 2⟩⟩)] := held
      simpa using member
    rw [single]
    unfold Past
    decide
  have range := ages_in_range (.next first rfl (.done _))
  exact ⟨_, rfl, by decide, range.2 _ _ second rfl 11 (by decide)⟩

/-- The clock is set back by a minute between two announces, which makes the age of
the first peer 255, and the peer announces itself again. -/
theorem renewal_past_histogram : ∃ final served, Run Tracker.Step free .initial [announceIn 100 1, announceIn 99 2] final ∧
      final.served (announceIn 99 1) = some served ∧ .renew 255 ∈ served.events ∧ ¬ (255 : Int) < otPeerTimeout := by
  refine ⟨_, _, run_foldl _ _, rfl, ?_, by decide⟩
  decide

end BtServer.Proofs.PeerAges

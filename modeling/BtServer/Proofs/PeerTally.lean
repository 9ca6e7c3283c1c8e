import BtServer.Proofs.TrackerSteps
import BtServer.Proofs.PeerListInvariant

/-! The counts of a peer list whose peers are distinct, and what is left of them when a request has cleaned it. A
redistribution of more peers than an `int` can count loses some, so the counts may then be too large. -/

namespace BtServer.Proofs.PeerTally
open Lib PeerListShape PeerListEdits Redistribution Cleaning PeerListInvariant TorrentTable TrackerSteps

structure Distinct (peerList : PeerList) : Prop where
  shaped : Shaped peerList.peers
  keys : (peerList.peers.all.map Peer.key).Nodup
  peerCount : peerList.peerCount = peerList.peers.all.length
  seedCount : peerList.seedCount = peerList.peers.all.countP Peer.seeding

theorem Sound.to_distinct {peerList : PeerList} (sound : Sound peerList) : Distinct peerList :=
  ⟨sound.shaped, sound.distinct, sound.peerCount, sound.seedCount⟩

theorem Distinct.bounded {peerList : PeerList} (distinct : Distinct peerList) : peerList.peerCount ≤ 2 ^ 48 := by
  have inside : peerList.peers.all.map Peer.key ⊆ List.range (2 ^ 48) := by
    intro key member
    obtain ⟨peer, _, rfl⟩ := List.mem_map.mp member
    have bound := bigEndian_lt peer.addr
    rw [peer.addr_length] at bound
    exact List.mem_range.mpr (lt_of_lt_of_eq bound (by norm_num))
  have length := (List.subperm_of_subset distinct.keys inside).length_le
  rwa [List.length_map, List.length_range, ← distinct.peerCount] at length

/-- What is left of the counts after some cleanings, each of which may have added to `seed_count` what an `int` cannot
count. -/
structure Tallied (cleanings : Nat) (peerList : PeerList) : Prop where
  shaped : Shaped peerList.peers
  seeders : peerList.peers.all.countP Peer.seeding ≤ peerList.seedCount
  bounded : peerList.seedCount ≤ 2 ^ 48 + cleanings * 2 ^ 31

theorem Distinct.tallied (distinct : Distinct peerList) : Tallied 0 peerList := by
  have bounded := distinct.bounded
  have seeders : peerList.peers.all.countP Peer.seeding ≤ peerList.peers.all.length := List.countP_le_length
  have peerCount := distinct.peerCount
  have seedCount := distinct.seedCount
  exact ⟨distinct.shaped, by omega, by omega⟩

section Cleaning
variable {now : Int} {old new : PeerList}

inductive Remains (now : Int) (old : PeerList) : PeerList → Prop where
  | same : Remains now old old
  | swept {new : PeerList} (shaped : Shaped new.peers)
      (fewer : new.peers.all.Subperm (survivors (elapsed now old) old.peers.all))
      (whole : (survivors (elapsed now old) old.peers.all).length < 2 ^ 32 →
        new.peers.all.Perm (survivors (elapsed now old) old.peers.all))
      (peerCount : new.peerCount = subSize old.peerCount (departed (elapsed now old) old.peers.all).length)
      (seedCount : new.seedCount = seedersLeft old.seedCount (removedSeeding (elapsed now old) old.peers.all)) :
      Remains now old new

theorem relaid_fewer {count : Nat} {before after : PeerVector} (relaid : Relaid count before after) :
    after.all.Subperm before.all ∧ (before.all.length < 2 ^ 32 → after.all.Perm before.all) := by
  refine ⟨relaid.contents.subperm.trans (moved_sublist before.bucketList).subperm, fun small => ?_⟩
  have each : ∀ vector ∈ before.bucketList, vector.size < 2 ^ 32 := by
    intro vector member
    have part : vector.data.length ≤ before.all.length := by
      rw [PeerVector.all, List.flatMap_def]
      exact (List.sublist_flatten_of_mem (List.mem_map_of_mem member)).length_le
    exact lt_of_le_of_lt part small
  have contents := relaid.contents
  rwa [moved_whole each] at contents

theorem cleanSingleTorrent_remains (heap : Heap) (now : Int) (shaped : Shaped old.peers) :
    Remains now old (cleanSingleTorrent heap now old).2.1 := by
  by_cases same : now - old.base = 0
  · simp only [cleanSingleTorrent, if_pos same]
    exact .same
  by_cases idle : otTorrentTimeout < now - old.base
  · simp only [cleanSingleTorrent, if_neg same, gt_iff_lt, if_pos idle]
    exact .same
  by_cases vacant : otPeerTimeout < now - old.base ∧ old.peerCount = 0
  · simp only [cleanSingleTorrent, if_neg same, gt_iff_lt, if_neg idle, if_pos vacant]
    exact .same
  obtain ⟨loop, done, result⟩ := cleanSingleTorrent_loop shaped same (not_lt.mp idle) vacant
  obtain ⟨rest, peers, settled, changed⟩ := settle_cases heap loop done.shaped
  have all : loop.peers.all = survivors (elapsed now old) old.peers.all := swept_all done.contents
  rw [result heap, settled]
  rcases changed with rfl | relaid
  · exact .swept done.shaped (by rw [← all]) (fun _ => by rw [← all]) done.peerCount done.seedCount
  · obtain ⟨fewer, whole⟩ := relaid_fewer relaid
    rw [all] at fewer whole
    exact .swept relaid.rearranged.shaped fewer whole done.peerCount done.seedCount

theorem Remains.tallied (remains : Remains now old new) {cleanings : Nat} (few : cleanings < 64) (tallied : Tallied cleanings old) :
    Tallied (cleanings + 1) new := by
  have bounded := tallied.bounded
  cases remains with
  | same => exact ⟨tallied.shaped, tallied.seeders, bounded.trans (by omega)⟩
  | swept shaped fewer whole peerCount seedCount =>
    have parts := survivors_seeders (elapsed now old) old.peers.all
    have seeders := tallied.seeders
    have left := fewer.countP_le Peer.seeding
    have count := @seedersLeft_int old.seedCount (removedSeeding (elapsed now old) old.peers.all) (by omega) (by omega)
    rw [← seedCount, Int.bmod_def] at count
    refine ⟨shaped, ?_, ?_⟩
    · split at count <;> omega
    · split at count <;> omega

/-- The counts are only too large for lists of more peers than an `int` can count. -/
def Whole (peerList : PeerList) : Prop := peerList.peerCount < 2 ^ 32 → peerList.peerCount = peerList.peers.all.length

theorem Remains.whole (remains : Remains now old new) (distinct : Distinct old) : Whole new := by
  intro few
  cases remains with
  | same => exact distinct.peerCount
  | swept shaped fewer whole peerCount seedCount =>
    have length := survivors_length (elapsed now old) old.peers.all
    have count := distinct.peerCount
    rw [subSize_eq (by omega)] at peerCount
    have contents := whole (by omega)
    rw [contents.length_eq]
    omega

theorem Remains.peerCount_le (remains : Remains now old new) (distinct : Distinct old) : new.peerCount ≤ old.peerCount := by
  cases remains with
  | same => exact le_refl _
  | swept shaped fewer whole peerCount seedCount =>
    have length := survivors_length (elapsed now old) old.peers.all
    have peers := distinct.peerCount
    rw [subSize_eq (by omega)] at peerCount
    omega

theorem announced_whole {peer : Peer} {result : PeerList × Option (List StatsEvent)} (announced : Announced now old peer result)
    (whole : Whole old) : Whole result.1 ∧ result.1.peerCount ≤ old.peerCount + 1 := by
  cases announced with
  | refused => exact ⟨whole, Nat.le_succ _⟩
  | inserted split index cut shaped edited =>
    refine ⟨fun few => ?_, le_refl _⟩
    have count := whole (lt_of_le_of_lt (Nat.le_succ _) few)
    rw [all_split split] at count
    rw [all_split edited]
    simp only [List.length_append, List.length_cons] at count ⊢
    omega
  | renewed split index same shaped edited =>
    refine ⟨fun few => ?_, Nat.le_succ _⟩
    have count := whole few
    rw [all_split split] at count
    rw [all_split edited]
    simpa only [List.length_append, List.length_cons] using count

theorem entering_whole (heap : Heap) (now : Int) {found : Option PeerList} (distinct : ∀ old, found = some old → Distinct old)
    {bound : Nat} (few : ∀ old, found = some old → old.peerCount ≤ bound) :
    Shaped (entering heap now found).peers ∧ Whole (entering heap now found) ∧ (entering heap now found).peerCount ≤ bound := by
  cases found with
  | none =>
    have sound := sound_zero 0 0
    exact ⟨sound.shaped, fun _ => sound.peerCount, Nat.zero_le _⟩
  | some old =>
    have tallied := (distinct old rfl).tallied
    have remains := cleanSingleTorrent_remains heap now tallied.shaped
    exact ⟨(remains.tallied (by norm_num) tallied).shaped, remains.whole (distinct old rfl),
      (remains.peerCount_le (distinct old rfl)).trans (few old rfl)⟩

end Cleaning

section Scrapes
variable {tracker : Tracker}

def AllTallied (cleanings : Nat) (tracker : Tracker) : Prop :=
  ∀ hash peerList, Holds tracker hash peerList → Tallied cleanings peerList

theorem scrapeTorrent_tallied (housed : Housed tracker) {cleanings : Nat} (few : cleanings < 64)
    (tallied : AllTallied cleanings tracker) (heap : Heap) (now : Int) (hash : Hash) :
    Housed (scrapeTorrent tracker heap now hash).1 ∧ AllTallied (cleanings + 1) (scrapeTorrent tracker heap now hash).1 ∧
      ∀ peerList, (scrapeTorrent tracker heap now hash).2.2 = some peerList → Tallied (cleanings + 1) peerList := by
  obtain ⟨kept, lists⟩ := scrape_step housed heap now hash
  have cleaned : ∀ {old new}, Holds tracker hash old → CleanedBy now old new → Tallied (cleanings + 1) new := by
    rintro old new held ⟨heap, result⟩
    have before := tallied hash old held
    have remains := cleanSingleTorrent_remains heap now before.shaped
    rw [result] at remains
    exact remains.tallied few before
  refine ⟨kept, fun other peerList held => ?_, fun peerList found => ?_⟩
  · rcases lists other peerList held with before | ⟨rfl, old, before, pass⟩
    · exact Remains.tallied (@Remains.same now peerList) few (tallied other peerList before)
    · exact cleaned before pass
  · obtain ⟨there, left, torrents, delta, rest, edited, _, result, equal⟩ := scrapeTorrent_cases tracker heap now hash (housed.complete _)
    rw [equal] at found
    obtain ⟨old, same, pass⟩ := result peerList found
    exact cleaned (edited.found_mem same) ⟨heap, pass⟩

end Scrapes

end BtServer.Proofs.PeerTally

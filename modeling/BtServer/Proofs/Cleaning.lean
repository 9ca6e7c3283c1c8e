import BtServer.Clean
import BtServer.Proofs.Redistribution

/-! `clean_single_torrent`: which peers a cleaning at a given minute lets go and
what becomes of the others. -/

namespace BtServer.Proofs.Cleaning
open Lib PeerListShape Redistribution

variable {timedout : Int} {peers : List Peer} {cleaned vectors : List (OtVector Peer)}

def expires (timedout : Int) (peer : Peer) : Bool := otPeerTimeout ≤ timedout + peer.time.toNat

def aged (timedout : Int) (peer : Peer) : Peer := { peer with time := toByte (timedout + peer.time.toNat) }

def survivors (timedout : Int) (peers : List Peer) : List Peer :=
  (peers.filter fun peer => !expires timedout peer).map (aged timedout)

def departed (timedout : Int) (peers : List Peer) : List Peer := peers.filter (expires timedout)

def removedSeeding (timedout : Int) (peers : List Peer) : Nat := (departed timedout peers).countP Peer.seeding

theorem toByte_toNat {time : Int} (nonnegative : 0 ≤ time) (bound : time < 256) : ((toByte time).toNat : Int) = time := by
  rw [toByte, UInt8.toNat_ofNat', Int.emod_eq_of_lt nonnegative bound]
  omega

theorem aged_time {peer : Peer} (nonnegative : 0 ≤ timedout + peer.time.toNat)
    (young : timedout + peer.time.toNat < otPeerTimeout) :
    ((aged timedout peer).time.toNat : Int) = timedout + peer.time.toNat := by
  unfold otPeerTimeout at young
  exact toByte_toNat nonnegative (by omega)

theorem mem_survivors {peer : Peer} : peer ∈ survivors timedout peers ↔
      ∃ old ∈ peers, timedout + old.time.toNat < otPeerTimeout ∧ aged timedout old = peer := by
  simp [survivors, expires, and_assoc]

theorem survivors_append (timedout : Int) (left right : List Peer) :
    survivors timedout (left ++ right) = survivors timedout left ++ survivors timedout right := by
  simp [survivors]

theorem departed_append (timedout : Int) (left right : List Peer) :
    departed timedout (left ++ right) = departed timedout left ++ departed timedout right := by
  simp [departed]

theorem removedSeeding_append (timedout : Int) (left right : List Peer) :
    removedSeeding timedout (left ++ right) = removedSeeding timedout left + removedSeeding timedout right := by
  rw [removedSeeding, departed_append, List.countP_append, removedSeeding, removedSeeding]

theorem survivors_sorted (sorted : StrictSorted Peer.key peers) :
    StrictSorted Peer.key (survivors timedout peers) :=
  List.pairwise_map.mpr (List.Pairwise.filter _ sorted)

theorem survivors_length (timedout : Int) (peers : List Peer) :
    (survivors timedout peers).length + (departed timedout peers).length = peers.length := by
  have parts := List.length_eq_length_filter_add (l := peers) (expires timedout)
  simp only [survivors, departed, List.length_map]
  omega

theorem survivors_seeders (timedout : Int) (peers : List Peer) :
    (survivors timedout peers).countP Peer.seeding + removedSeeding timedout peers = peers.countP Peer.seeding := by
  have seen : Peer.seeding ∘ aged timedout = Peer.seeding := rfl
  induction peers with
  | nil => simp [survivors, departed, removedSeeding]
  | cons peer rest ih =>
    simp only [survivors, removedSeeding, departed, List.countP_map, seen] at ih ⊢
    cases gone : expires timedout peer <;> simp only [gone, List.filter_cons, List.countP_cons, Bool.not_true, Bool.not_false,
      if_true, Bool.false_eq_true, if_false] <;> omega

/-- While a bucket is scanned, its array is what stays, then cells nobody reads any more, then the peers still
to be looked at. -/
private theorem increaseAges_eq (timedout : Int) (done rest : List Peer) :
    ∃ young old, rest = young ++ old ∧ (∀ peer ∈ young, expires timedout peer = false) ∧
      increaseAges timedout rest.length (done ++ rest) done.length =
        (done ++ young.map (aged timedout) ++ old, done.length + young.length) := by
  induction rest generalizing done with
  | nil => exact ⟨[], [], by simp, by simp, by simp [increaseAges]⟩
  | cons peer rest ih =>
    simp only [List.length_cons, increaseAges, List.getElem?_append_right (le_refl _), Nat.sub_self,
      List.getElem?_cons_zero]
    by_cases leaves : timedout + peer.time.toNat ≥ otPeerTimeout
    · exact ⟨[], peer :: rest, by simp, by simp, by simp [leaves]⟩
    · obtain ⟨young, old, split, stay, result⟩ := ih (done ++ [aged timedout peer])
      refine ⟨peer :: young, old, by simp [split], ?_, ?_⟩
      · intro other member
        rcases List.mem_cons.mp member with rfl | later
        · simpa [expires] using leaves
        · exact stay other later
      · have next : (done ++ peer :: rest).set done.length (setPeertime peer (timedout + peer.time.toNat)) =
            done ++ [aged timedout peer] ++ rest := by simp [setPeertime, aged]
        rw [if_neg leaves, next]
        simpa [Nat.add_assoc, Nat.add_comm 1] using result

private theorem increment_bmod (count : Int) : increment (count.bmod (2 ^ 32)) = (count + 1).bmod (2 ^ 32) := by
  simp [increment]

private theorem copied_over (kept gap rest : List Peer) (peer fresh : Peer) : ∃ between, between.length = gap.length ∧
      ((kept ++ gap ++ peer :: rest).set (kept.length + gap.length) fresh).set kept.length fresh =
        (kept ++ [fresh]) ++ between ++ rest := by
  have written : (kept ++ gap ++ peer :: rest).set (kept.length + gap.length) fresh = kept ++ gap ++ fresh :: rest := by
    rw [← List.length_append]
    simp
  rw [written]
  cases gap with
  | nil => exact ⟨[], rfl, by simp⟩
  | cons first others => exact ⟨others ++ [fresh], by simp, by simp⟩

private theorem copyPeers_eq (timedout : Int) (kept gap rest : List Peer) (removedSeeders : Int) :
    ∃ behind, copyPeers timedout rest.length (kept ++ gap ++ rest) kept.length (kept.length + gap.length)
        (removedSeeders.bmod (2 ^ 32)) =
      (kept ++ survivors timedout rest ++ behind, kept.length + (survivors timedout rest).length,
        kept.length + gap.length + rest.length, (removedSeeders + removedSeeding timedout rest).bmod (2 ^ 32)) := by
  induction rest generalizing kept gap removedSeeders with
  | nil => exact ⟨gap, by simp [copyPeers, survivors, departed, removedSeeding]⟩
  | cons peer rest ih =>
    have here : (kept ++ gap ++ peer :: rest)[kept.length + gap.length]? = some peer := by
      rw [← List.length_append]
      simp
    simp only [List.length_cons, copyPeers, here]
    by_cases stays : timedout + peer.time.toNat < otPeerTimeout
    · have young : expires timedout peer = false := by simpa [expires] using stays
      obtain ⟨between, same, next⟩ := copied_over kept gap rest peer (aged timedout peer)
      obtain ⟨behind, result⟩ := ih (kept ++ [aged timedout peer]) between removedSeeders
      have survivor : survivors timedout (peer :: rest) = aged timedout peer :: survivors timedout rest := by
        simp [survivors, young]
      have nobody : removedSeeding timedout (peer :: rest) = removedSeeding timedout rest := by
        simp [removedSeeding, departed, young]
      refine ⟨behind, ?_⟩
      rw [if_pos stays, survivor, nobody]
      change copyPeers timedout rest.length (((kept ++ gap ++ peer :: rest).set (kept.length + gap.length)
        (aged timedout peer)).set kept.length (aged timedout peer)) _ _ _ = _
      rw [next]
      simpa [same, Nat.add_assoc, Nat.add_comm, Nat.add_left_comm] using result
    · have old : expires timedout peer = true := by simpa [expires] using stays
      have survivor : survivors timedout (peer :: rest) = survivors timedout rest := by simp [survivors, old]
      obtain ⟨behind, result⟩ := ih kept (gap ++ [peer]) (if peer.seeding then removedSeeders + 1 else removedSeeders)
      refine ⟨behind, ?_⟩
      have counted : (if peer.seeding then increment (removedSeeders.bmod (2 ^ 32)) else removedSeeders.bmod (2 ^ 32)) =
          (if peer.seeding then removedSeeders + 1 else removedSeeders).bmod (2 ^ 32) := by
        split
        · exact increment_bmod removedSeeders
        · rfl
      have total : (if peer.seeding then removedSeeders + 1 else removedSeeders) + removedSeeding timedout rest =
          removedSeeders + removedSeeding timedout (peer :: rest) := by
        simp only [removedSeeding, departed, old, List.filter_cons_of_pos, List.countP_cons]
        split <;> push_cast <;> omega
      rw [if_neg stays, survivor, counted, ← total]
      simpa [Nat.add_assoc, Nat.add_comm, Nat.add_left_comm] using result

theorem cleanSingleBucket_eq (array : List Peer) (timedout removedSeeders : Int) :
    ∃ behind, cleanSingleBucket array timedout (removedSeeders.bmod (2 ^ 32)) =
      (survivors timedout array ++ behind, ((departed timedout array).length : Int),
        (removedSeeders + removedSeeding timedout array).bmod (2 ^ 32)) := by
  obtain ⟨young, old, split, stay, scanned⟩ := increaseAges_eq timedout [] array
  obtain ⟨behind, copied⟩ := copyPeers_eq timedout (young.map (aged timedout)) [] old removedSeeders
  have all : survivors timedout young = young.map (aged timedout) := by
    have unfiltered : young.filter (fun peer => !expires timedout peer) = young :=
      List.filter_eq_self.mpr fun peer member => by simp [stay peer member]
    rw [survivors, unfiltered]
  have none : departed timedout young = [] := List.filter_eq_nil_iff.mpr fun peer member => by simp [stay peer member]
  have lengths := survivors_length timedout old
  have rest : array.length - young.length = old.length := by simp [split]
  simp only [List.nil_append, List.length_nil, Nat.zero_add] at scanned
  simp only [List.append_nil, List.length_nil, Nat.add_zero, List.length_map] at copied
  refine ⟨behind, ?_⟩
  simp only [cleanSingleBucket, scanned, rest, copied]
  rw [split, survivors_append, departed_append, all, none, List.nil_append, removedSeeding, removedSeeding,
    departed_append, none, List.nil_append]
  refine Prod.ext rfl (Prod.ext ?_ rfl)
  dsimp only
  omega

private theorem cleanBuckets_cases (timedout : Int) (vectors : List (OtVector Peer)) (seeders : Int)
    (fits : ∀ vector ∈ vectors, Fits vector) :
    ∃ cleaned, cleanBuckets timedout vectors (seeders.bmod (2 ^ 32)) =
        (cleaned, (departed timedout (vectors.flatMap OtVector.data)).length,
          (seeders + removedSeeding timedout (vectors.flatMap OtVector.data)).bmod (2 ^ 32)) ∧
      cleaned.map OtVector.data = vectors.map (fun vector => survivors timedout vector.data) ∧
      ∀ vector ∈ cleaned, Fits vector := by
  induction vectors generalizing seeders with
  | nil => exact ⟨[], by simp [cleanBuckets, departed, removedSeeding], rfl, by simp⟩
  | cons vector rest ih =>
    obtain ⟨behind, bucket⟩ := cleanSingleBucket_eq vector.data timedout seeders
    obtain ⟨others, result, contents, room⟩ := ih (seeders + removedSeeding timedout vector.data)
      (fun other member => fits other (by simp [member]))
    have front : (survivors timedout vector.data ++ behind).take (vector.size - (departed timedout vector.data).length) =
        survivors timedout vector.data := by
      have parts := survivors_length timedout vector.data
      rw [List.take_append_of_le_length (by rw [OtVector.size]; omega), List.take_of_length_le (by rw [OtVector.size]; omega)]
    have smaller : Fits (⟨survivors timedout vector.data, vector.space⟩ : OtVector Peer) := by
      have parts := survivors_length timedout vector.data
      have before : vector.data.length ≤ vector.space := fits vector (by simp)
      simp only [Fits, OtVector.size]
      omega
    simp only [cleanBuckets, bucket, Int.toNat_natCast, front, result, List.flatMap_cons, departed_append, List.length_append,
      removedSeeding_append, Nat.cast_add, ← Int.add_assoc]
    refine ⟨_, rfl, ?_, ?_⟩
    · rw [List.map_cons, List.map_cons, contents]
      congr 1
      split
      · exact vectorFixupPeers_data _
      · rfl
    · intro other member
      rcases List.mem_cons.mp member with rfl | inside
      · split
        · exact vectorFixupPeers_fits smaller
        · exact smaller
      · exact room other inside

theorem swept_all
    (contents : cleaned.map OtVector.data = vectors.map fun vector => survivors timedout vector.data) :
    cleaned.flatMap OtVector.data = survivors timedout (vectors.flatMap OtVector.data) := by
  rw [List.flatMap_def, contents]
  clear contents
  induction vectors with
  | nil => simp [survivors]
  | cons vector rest ih => simp [survivors_append, ih]

theorem swept_ordered
    (contents : cleaned.map OtVector.data = vectors.map fun vector => survivors timedout vector.data)
    (ordered : Ordered vectors) : Ordered cleaned := by
  have length : cleaned.length = vectors.length := by simpa using congrArg List.length contents
  constructor
  · intro vector member
    have image : vector.data ∈ cleaned.map OtVector.data := List.mem_map_of_mem member
    rw [contents] at image
    obtain ⟨old, inside, same⟩ := List.mem_map.mp image
    rw [← same]
    exact survivors_sorted (ordered.sorted old inside)
  · intro i bucket found a inside
    rw [contents, List.getElem?_map, Option.map_eq_some_iff] at found
    obtain ⟨old, position, rfl⟩ := found
    obtain ⟨before, member, _, rfl⟩ := mem_survivors.mp inside
    rw [length]
    exact ordered.placed i old.data (by simp [position]) before member

/-- A sweep by `timedout` minutes followed by a redistribution or none. -/
structure Swept (timedout : Int) (old new : PeerVector) : Prop where
  shaped : Shaped new
  members : ∀ peer ∈ new.all, peer ∈ survivors timedout old.all
  length : new.all.length ≤ (survivors timedout old.all).length
  whole : Ordered old.bucketList → (∀ vector ∈ old.bucketList, vector.size < 2 ^ 32) →
    Ordered new.bucketList ∧ new.all.Perm (survivors timedout old.all)

private theorem swept_rearranged {old middle new : PeerVector}
    (contents : middle.bucketList.map OtVector.data = old.bucketList.map fun vector => survivors timedout vector.data)
    (rearranged : Rearranged middle new) : Swept timedout old new := by
  have all : middle.all = survivors timedout old.all := swept_all contents
  refine ⟨rearranged.shaped, ?_, ?_, ?_⟩
  · rw [← all]
    exact rearranged.members
  · rw [← all]
    exact rearranged.length
  · intro ordered small
    rw [← all]
    refine rearranged.whole (swept_ordered contents ordered) fun vector member => ?_
    have image : vector.data ∈ middle.bucketList.map OtVector.data := List.mem_map_of_mem member
    rw [contents] at image
    obtain ⟨before, inside, same⟩ := List.mem_map.mp image
    have parts := survivors_length timedout before.data
    have bound : before.data.length < 2 ^ 32 := small before inside
    have length := congrArg List.length same
    show vector.data.length < 2 ^ 32
    omega

/-- What is left of `seed_count` when the seeders that go are counted in an `int`. -/
def seedersLeft (seedCount removed : Nat) : Nat := subInt seedCount ((removed : Int).bmod (2 ^ 32))

theorem seedersLeft_int {seedCount removed : Nat} (enough : removed ≤ seedCount) (bound : seedCount < 2 ^ 63) :
    (seedersLeft seedCount removed : Int) = seedCount - (removed : Int).bmod (2 ^ 32) := by
  rw [seedersLeft, subInt, Int.bmod_def]
  split <;> omega

theorem seedersLeft_eq {seedCount removed : Nat} (few : removed < 2 ^ 31) (enough : removed ≤ seedCount)
    (bound : seedCount < 2 ^ 63) : seedersLeft seedCount removed = seedCount - removed := by
  have left := seedersLeft_int enough bound
  rw [Int.bmod_def] at left
  split at left <;> omega

theorem subInt_removed (seedCount removed : Nat) : subInt seedCount ((removed : Int).bmod (2 ^ 32)) = seedersLeft seedCount removed :=
  rfl

-- Unfolded, it would be evaluated by every comparison of a `seed_count`.
attribute [irreducible] seedersLeft

/-- The minutes a sweep adds: no peer can be older than `OT_PEER_TIMEOUT` anyway. -/
def elapsed (now : Int) (peerList : PeerList) : Int := min (now - peerList.base) otPeerTimeout

inductive Cleaned (now : Int) (peerList : PeerList) : PeerList × Bool → Prop where
  | current (same : now - peerList.base = 0) : Cleaned now peerList (peerList, false)
  | late (idle : otTorrentTimeout < now - peerList.base) : Cleaned now peerList (peerList, true)
  | vacant (idle : otPeerTimeout < now - peerList.base) (empty : peerList.peerCount = 0) :
      Cleaned now peerList (peerList, peerList.downCount = 0)
  | swept {peers : PeerVector} {peerCount : Nat} (moved : now - peerList.base ≠ 0)
      (recent : now - peerList.base ≤ otTorrentTimeout)
      (occupied : ¬ (otPeerTimeout < now - peerList.base ∧ peerList.peerCount = 0))
      (counted : peerCount = subSize peerList.peerCount (departed (elapsed now peerList) peerList.peers.all).length)
      (result : Swept (elapsed now peerList) peerList.peers peers) :
      Cleaned now peerList
        ({ peerList with
            base := if peerCount ≠ 0 then now else now - otPeerTimeout
            peerCount := peerCount
            seedCount := seedersLeft peerList.seedCount (removedSeeding (elapsed now peerList) peerList.peers.all)
            peers := peers }, false)

structure LoopDone (now : Int) (old loop : PeerList) : Prop where
  shaped : Shaped loop.peers
  contents : loop.peers.bucketList.map OtVector.data =
    old.peers.bucketList.map fun vector => survivors (elapsed now old) vector.data
  peerCount : loop.peerCount = subSize old.peerCount (departed (elapsed now old) old.peers.all).length
  seedCount : loop.seedCount = seedersLeft old.seedCount (removedSeeding (elapsed now old) old.peers.all)
  downCount : loop.downCount = old.downCount

def settle (heap : Heap) (loop : PeerList) : Heap × PeerList :=
  if loop.peerCount > otPeerBucketMincount ∨ loop.peers.hasBuckets then vectorRedistributeBuckets heap loop else (heap, loop)

theorem settle_cases (heap : Heap) (loop : PeerList) (shaped : Shaped loop.peers) :
    ∃ rest peers, settle heap loop = (rest, { loop with peers := peers }) ∧
      (peers = loop.peers ∨ Relaid (numBucketsNew loop.peerCount loop.peers.bucketList.length) loop.peers peers) := by
  rw [settle]
  split
  · exact vectorRedistributeBuckets_cases heap loop shaped
  · exact ⟨heap, loop.peers, rfl, .inl rfl⟩

theorem cleanSingleTorrent_loop {now : Int} {peerList : PeerList} (shaped : Shaped peerList.peers)
    (moved : now - peerList.base ≠ 0) (recent : now - peerList.base ≤ otTorrentTimeout)
    (occupied : ¬ (otPeerTimeout < now - peerList.base ∧ peerList.peerCount = 0)) :
    ∃ loop, LoopDone now peerList loop ∧ ∀ heap, cleanSingleTorrent heap now peerList =
      ((settle heap loop).1,
        { (settle heap loop).2 with
          base := if (settle heap loop).2.peerCount ≠ 0 then now else now - otPeerTimeout }, false) := by
  obtain ⟨cleaned, result, contents, fits⟩ :=
    cleanBuckets_cases (elapsed now peerList) peerList.peers.bucketList 0 shaped.fits
  obtain ⟨again, list⟩ := shaped.setBucketList (by simpa using congrArg List.length contents) fits
  refine ⟨{ peerList with
      peerCount := subSize peerList.peerCount (departed (elapsed now peerList) peerList.peers.all).length
      seedCount := seedersLeft peerList.seedCount (removedSeeding (elapsed now peerList) peerList.peers.all)
      peers := peerList.peers.setBucketList cleaned }, ⟨again, by rw [list, contents], rfl, rfl, rfl⟩, fun heap => ?_⟩
  have kept : ¬ now - peerList.base > otTorrentTimeout := by omega
  rw [elapsed, Int.zero_bmod, Int.zero_add] at result
  simp only [cleanSingleTorrent, if_neg moved, if_neg kept, if_neg occupied, result, settle, subInt_removed]
  rfl

theorem cleanSingleTorrent_cases (heap : Heap) (now : Int) (peerList : PeerList) (shaped : Shaped peerList.peers) :
    Cleaned now peerList (cleanSingleTorrent heap now peerList).2 := by
  by_cases same : now - peerList.base = 0
  · simp only [cleanSingleTorrent, if_pos same]
    exact .current same
  by_cases idle : otTorrentTimeout < now - peerList.base
  · simp only [cleanSingleTorrent, if_neg same, gt_iff_lt, if_pos idle]
    exact .late idle
  by_cases vacant : otPeerTimeout < now - peerList.base ∧ peerList.peerCount = 0
  · simp only [cleanSingleTorrent, if_neg same, gt_iff_lt, if_neg idle, if_pos vacant]
    exact .vacant vacant.1 vacant.2
  obtain ⟨loop, done, result⟩ := cleanSingleTorrent_loop shaped same (not_lt.mp idle) vacant
  obtain ⟨rest, peers, settled, changed⟩ := settle_cases heap loop done.shaped
  have rearranged : Rearranged loop.peers peers := by
    rcases changed with rfl | relaid
    · exact .same done.shaped
    · exact relaid.rearranged
  rw [result heap, settled]
  simp only [done.seedCount, done.downCount]
  exact .swept same (not_lt.mp idle) vacant done.peerCount (swept_rearranged done.contents rearranged)

namespace Cleaned
variable {now : Int} {peerList : PeerList} {result : PeerList × Bool}

theorem shaped (cleaned : Cleaned now peerList result) (before : Shaped peerList.peers) : Shaped result.1.peers := by
  cases cleaned with
  | current same => exact before
  | late idle => exact before
  | vacant idle empty => exact before
  | swept moved recent occupied counted swept => exact swept.shaped

theorem counted (cleaned : Cleaned now peerList result) (before : peerList.peers.all.length ≤ peerList.peerCount) :
    result.1.peers.all.length ≤ result.1.peerCount := by
  cases cleaned with
  | current same => exact before
  | late idle => exact before
  | vacant idle empty => exact before
  | @swept peers remaining moved recent occupied counted swept =>
    have parts := survivors_length (elapsed now peerList) peerList.peers.all
    have length := swept.length
    rw [subSize_eq (by omega)] at counted
    show peers.all.length ≤ remaining
    omega

end Cleaned

end BtServer.Proofs.Cleaning

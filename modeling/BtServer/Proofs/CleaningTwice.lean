import BtServer.Proofs.PeerAges
import BtServer.Proofs.PeerTally

/-! Cleaning a torrent twice. What survives depends on the minute of the last cleaning
only, not on how often the torrent was cleaned before, as long as a redistribution
does not cut off the number of peers it has to move and the cleanings count the
seeders they remove alike. -/

namespace BtServer.Proofs.CleaningTwice
open Lib PeerListShape Redistribution Cleaning PeerListInvariant PeerAges TrackerInvariant PeerTally

variable {peerList loop old : PeerList} {now timedout first second : Int} {left right : List Peer} {n : Nat}

def sweep (minutes : Int) (peers : List Peer) : List Peer :=
  if minutes = 0 then peers else survivors (min minutes otPeerTimeout) peers

theorem survivors_cons (timedout : Int) (peer : Peer) (peers : List Peer) : survivors timedout (peer :: peers) =
      if timedout + peer.time.toNat < otPeerTimeout then aged timedout peer :: survivors timedout peers
      else survivors timedout peers := by
  split
  next young => simp [survivors, expires, not_le.mpr young]
  next old => simp [survivors, expires, not_lt.mp old]

theorem sweep_nil (minutes : Int) : sweep minutes [] = [] := by
  unfold sweep
  split <;> rfl

theorem survivors_perm (perm : left.Perm right) :
    (survivors timedout left).Perm (survivors timedout right) := (perm.filter _).map _

theorem sweep_perm {minutes : Int} (perm : left.Perm right) :
    (sweep minutes left).Perm (sweep minutes right) := by
  unfold sweep
  split
  · exact perm
  · exact survivors_perm perm

private theorem aged_aged {peer : Peer} (nonnegative : 0 ≤ first) (young : first + peer.time.toNat < otPeerTimeout) :
    aged second (aged first peer) = aged (first + second) peer := by
  have time := aged_time (by omega) young
  unfold aged at time ⊢
  simp only [time]
  rw [show second + (first + (peer.time.toNat : Int)) = first + second + peer.time.toNat by ring]

/-- Two sweeps are one over the whole time: the cap at `OT_PEER_TIMEOUT` only concerns
peers that are gone. -/
theorem sweep_sweep (positive : 0 ≤ first) (later : 0 ≤ second) (peers : List Peer) :
    sweep second (sweep first peers) = sweep (first + second) peers := by
  unfold sweep
  by_cases one : first = 0
  · simp [one]
  by_cases two : second = 0
  · simp [two]
  rw [if_neg one, if_neg two, if_neg (by omega)]
  induction peers with
  | nil => rfl
  | cons peer rest ih =>
    simp only [survivors_cons]
    by_cases young : min first otPeerTimeout + peer.time.toNat < otPeerTimeout
    · have uncapped : min first otPeerTimeout = first := by omega
      rw [uncapped] at young ih ⊢
      have time := aged_time (by omega) young
      rw [if_pos young, survivors_cons, time, ih]
      by_cases stays : first + second + peer.time.toNat < otPeerTimeout
      · have short : min second otPeerTimeout = second := by omega
        have whole : min (first + second) otPeerTimeout = first + second := by omega
        rw [short, whole, if_pos (by omega), if_pos stays, aged_aged positive young]
      · rw [if_neg (by omega), if_neg (by omega)]
    · rw [if_neg young, if_neg (by omega), ih]

/-- A redistribution of these buckets would move all peers. There is none from 64
buckets while there are that many peers. -/
def Movable (peers : PeerVector) : Prop :=
  peers.bucketList.length = 64 ∨ ∀ vector ∈ peers.bucketList, vector.size < 2 ^ 32

theorem numBucketsNew_large {peerCount numBucketsOld : Nat} (large : 8192 < peerCount) :
    numBucketsNew peerCount numBucketsOld = 64 := by
  simp only [numBucketsNew]
  rw [if_neg (by omega), if_pos large]

theorem loop_all (done : LoopDone now old loop) :
    loop.peers.all = survivors (elapsed now old) old.peers.all := swept_all done.contents

/-- The list with the right number of seeders, which a cleaning need not keep. -/
def recounted (peerList : PeerList) : PeerList := { peerList with seedCount := peerList.peers.all.countP Peer.seeding }

theorem recounted_sound (sound : Sound peerList) : Sound (recounted peerList) :=
  ⟨sound.shaped, sound.sorted, sound.placed, sound.peerCount, rfl⟩

theorem loop_sound (done : LoopDone now old loop) (sound : Sound (recounted old)) : Sound (recounted loop) := by
  have all := loop_all done
  have parts := survivors_length (elapsed now old) old.peers.all
  have peerCount : old.peerCount = old.peers.all.length := sound.peerCount
  refine .of_ordered done.shaped (swept_ordered done.contents sound.ordered) ?_ rfl
  show loop.peerCount = loop.peers.all.length
  rw [done.peerCount, all, subSize_eq (by omega)]
  omega

theorem settle_sound (heap : Heap) (sound : Sound (recounted loop)) (movable : Movable loop.peers) :
    ∃ peers, (settle heap loop).2 = { loop with peers := peers } ∧ Sound (recounted (settle heap loop).2) ∧ Movable peers ∧
      peers.all.Perm loop.peers.all := by
  obtain ⟨rest, peers, settled, rfl | relaid⟩ := settle_cases heap loop sound.shaped
  · rw [settled]
    exact ⟨_, rfl, sound, movable, .refl _⟩
  · have few : loop.peers.bucketList.length = 64 → loop.peerCount ≤ 8192 := by
      intro many
      by_contra large
      exact relaid.different (by rw [numBucketsNew_large (not_le.mp large), many])
    have small : ∀ vector ∈ loop.peers.bucketList, vector.size < 2 ^ 32 := by
      rcases movable with many | small
      · exact sound.bucket_small (lt_of_le_of_lt (few many) (by norm_num))
      · exact small
    obtain ⟨ordered, contents⟩ := relaid.rearranged.whole sound.ordered small
    have again : Sound (recounted { loop with peers := peers }) := by
      refine .of_ordered relaid.rearranged.shaped ordered ?_ rfl
      show loop.peerCount = peers.all.length
      rw [contents.length_eq]
      exact sound.peerCount
    rw [settled]
    refine ⟨peers, rfl, again, ?_, contents⟩
    by_cases large : 8192 < loop.peerCount
    · exact .inl (by rw [relaid.length, numBucketsNew_large large])
    · exact .inr (again.bucket_small (lt_of_le_of_lt (not_lt.mp large) (by norm_num)))

/-- Of 64 buckets, or when in none of its buckets the peers of ages below 44 are too
many for an `int`. These are the most that survive any cleaning. -/
def Manageable (peerList : PeerList) : Prop :=
  peerList.peers.bucketList.length = 64 ∨ ∀ vector ∈ peerList.peers.bucketList, (survivors 1 vector.data).length < 2 ^ 32

theorem survivors_le (positive : 1 ≤ timedout) (peers : List Peer) :
    (survivors timedout peers).length ≤ (survivors 1 peers).length := by
  simp only [survivors, List.length_map, ← List.countP_eq_length_filter]
  refine List.countP_mono_left fun peer _ stays => ?_
  simp only [expires, Bool.not_eq_eq_eq_not, Bool.not_true, decide_eq_false_iff_not] at stays ⊢
  omega

theorem Movable.manageable (movable : Movable peerList.peers) : Manageable peerList := by
  rcases movable with many | small
  · exact .inl many
  · refine .inr fun vector member => ?_
    have parts := survivors_length 1 vector.data
    have size : vector.data.length < 2 ^ 32 := small vector member
    omega

theorem loop_movable (done : LoopDone now old loop) (later : 1 ≤ elapsed now old)
    (manageable : Manageable old) : Movable loop.peers := by
  have contents := done.contents
  rcases manageable with many | small
  · refine .inl ?_
    have length := congrArg List.length contents
    rw [List.length_map, List.length_map, many] at length
    exact length
  · refine .inr fun vector member => ?_
    have image : vector.data ∈ loop.peers.bucketList.map OtVector.data := List.mem_map_of_mem member
    rw [contents] at image
    obtain ⟨before, inside, same⟩ := List.mem_map.mp image
    rw [OtVector.size, ← same]
    exact lt_of_le_of_lt (survivors_le later _) (small before inside)

/-- The seeders among the peers that a cleaning after some minutes removes. -/
def leaving (minutes : Int) (peers : List Peer) : Nat :=
  if minutes = 0 then 0 else removedSeeding (min minutes otPeerTimeout) peers

theorem sweep_seeders (minutes : Int) (peers : List Peer) :
    (sweep minutes peers).countP Peer.seeding + leaving minutes peers = peers.countP Peer.seeding := by
  unfold sweep leaving
  split
  · rfl
  · exact survivors_seeders _ _

structure Sweeps (now : Int) (old new : PeerList) : Prop where
  sound : Sound (recounted new)
  manageable : Manageable new
  peers : new.peers.all.Perm (sweep (now - old.base) old.peers.all)
  seedCount : new.seedCount = seedersLeft old.seedCount (leaving (now - old.base) old.peers.all)
  downCount : new.downCount = old.downCount
  base : new.peerCount ≠ 0 → new.base = now

theorem seedersLeft_none {seedCount : Nat} (bound : seedCount < 2 ^ 63) : seedersLeft seedCount 0 = seedCount :=
  seedersLeft_eq (by norm_num) (Nat.zero_le _) bound

theorem clean_sweeps (heap : Heap) (sound : Sound (recounted peerList)) (bound : peerList.seedCount < 2 ^ 63)
    (manageable : Manageable peerList) (past : peerList.base ≤ now) (recent : now ≤ peerList.base + otTorrentTimeout) :
    Sweeps now peerList (cleanSingleTorrent heap now peerList).2.1 := by
  by_cases same : now - peerList.base = 0
  · have current : (cleanSingleTorrent heap now peerList).2.1 = peerList := by simp [cleanSingleTorrent, same]
    rw [current]
    refine ⟨sound, manageable, by rw [sweep, if_pos same], ?_, rfl, fun _ => by omega⟩
    rw [leaving, if_pos same, seedersLeft_none bound]
  by_cases vacant : otPeerTimeout < now - peerList.base ∧ peerList.peerCount = 0
  · have idle : ¬ now - peerList.base > otTorrentTimeout := by omega
    have kept : (cleanSingleTorrent heap now peerList).2.1 = peerList := by
      simp only [cleanSingleTorrent, if_neg same, if_neg idle, gt_iff_lt, if_pos vacant]
    have empty : peerList.peers.all = [] :=
      List.eq_nil_of_length_eq_zero ((show peerList.peerCount = _ from sound.peerCount) ▸ vacant.2)
    rw [kept]
    refine ⟨sound, manageable, ?_, ?_, rfl, fun occupied => absurd vacant.2 occupied⟩
    · rw [empty, sweep, if_neg same]
      exact .refl _
    · rw [empty, leaving, if_neg same]
      exact (seedersLeft_none bound).symm
  obtain ⟨loop, done, result⟩ := @cleanSingleTorrent_loop now peerList sound.shaped same (by omega) vacant
  have later : 1 ≤ elapsed now peerList := by
    unfold elapsed otPeerTimeout
    omega
  obtain ⟨peers, settled, again, movable, contents⟩ := settle_sound heap (loop_sound done sound) (loop_movable done later manageable)
  rw [result heap]
  rw [settled] at again ⊢
  refine ⟨?_, ?_, ?_, ?_, done.downCount, fun occupied => if_pos occupied⟩
  · exact ⟨again.shaped, again.sorted, again.placed, again.peerCount, rfl⟩
  · exact Movable.manageable movable
  · rw [sweep, if_neg same]
    rw [loop_all done] at contents
    exact contents
  · rw [leaving, if_neg same]
    exact done.seedCount

structure Alike (left right : PeerList) : Prop where
  peers : left.peers.all.Perm right.peers.all
  peerCount : left.peerCount = right.peerCount
  seedCount : left.seedCount = right.seedCount
  downCount : left.downCount = right.downCount

def CleansAlike (peerList : PeerList) : Prop :=
  ∀ (t₁ t₂ : Int) (first second once : Heap), peerList.base ≤ t₁ → t₁ ≤ t₂ → t₂ ≤ peerList.base + otTorrentTimeout →
    Alike (cleanSingleTorrent second t₂ (cleanSingleTorrent first t₁ peerList).2.1).2.1
      (cleanSingleTorrent once t₂ peerList).2.1

/-- The sum of two counts, each kept in an `int`, is one of an `int`. -/
def Adds (first second : Nat) : Prop :=
  -2 ^ 31 ≤ (first : Int).bmod (2 ^ 32) + (second : Int).bmod (2 ^ 32) ∧
    (first : Int).bmod (2 ^ 32) + (second : Int).bmod (2 ^ 32) < 2 ^ 31

theorem seedersLeft_twice {seedCount first second : Nat} (enough : first + second ≤ seedCount) (bound : seedCount ≤ 2 ^ 48) :
    seedersLeft (seedersLeft seedCount first) second = seedersLeft seedCount (first + second) ↔ Adds first second := by
  have once := @seedersLeft_int seedCount (first + second) enough (by omega)
  have before := @seedersLeft_int seedCount first (by omega) (by omega)
  have most : (first : Int).bmod (2 ^ 32) ≤ first ∧ -2 ^ 31 ≤ (first : Int).bmod (2 ^ 32) := by
    rw [Int.bmod_def]
    split <;> omega
  have after := @seedersLeft_int (seedersLeft seedCount first) second (by omega) (by omega)
  have sum : ((first + second : Nat) : Int).bmod (2 ^ 32) =
      ((first : Int).bmod (2 ^ 32) + (second : Int).bmod (2 ^ 32)).bmod (2 ^ 32) := by
    rw [Nat.cast_add, Int.bmod_add_bmod, Int.add_bmod_bmod]
  have fits : ∀ total : Int, total.bmod (2 ^ 32) = total ↔ -2 ^ 31 ≤ total ∧ total < 2 ^ 31 := by
    intro total
    rw [Int.bmod_def]
    split <;> omega
  rw [Adds, ← fits, ← sum]
  omega

/-- The seeders of at least this age. -/
def agedSeeders (age : Nat) (peers : List Peer) : Nat := peers.countP fun peer => peer.seeding && age ≤ peer.time.toNat

theorem leaving_aged {minutes : Int} (positive : 0 < minutes) (peers : List Peer) :
    leaving minutes peers = agedSeeders (otPeerTimeout - minutes).toNat peers := by
  rw [leaving, if_neg (by omega), removedSeeding, departed, List.countP_filter, agedSeeders]
  refine List.countP_congr fun peer _ => ?_
  simp only [expires, Bool.and_eq_true, decide_eq_true_eq, and_congr_right_iff]
  omega

/-- Wherever the ages of the seeders are cut, the older and the younger ones are counted alone as together. -/
def Counted (peerList : PeerList) : Prop := ∀ younger older, younger ≤ older → older < 45 →
  Adds (agedSeeders older peerList.peers.all) (agedSeeders younger peerList.peers.all - agedSeeders older peerList.peers.all)

theorem clean_vacant (heap : Heap) (now : Int) (sound : Sound (recounted peerList)) (bound : peerList.seedCount < 2 ^ 63)
    (vacant : peerList.peerCount = 0) :
    (cleanSingleTorrent heap now peerList).2.1.peers.all = [] ∧ (cleanSingleTorrent heap now peerList).2.1.peerCount = 0 ∧
      (cleanSingleTorrent heap now peerList).2.1.seedCount = peerList.seedCount ∧
      (cleanSingleTorrent heap now peerList).2.1.downCount = peerList.downCount := by
  have empty : peerList.peers.all = [] :=
    List.eq_nil_of_length_eq_zero ((show peerList.peerCount = _ from sound.peerCount) ▸ vacant)
  have cleaned := cleanSingleTorrent_cases heap now peerList sound.shaped
  generalize (cleanSingleTorrent heap now peerList).2 = result at cleaned
  cases cleaned with
  | current same => exact ⟨empty, vacant, rfl, rfl⟩
  | late idle => exact ⟨empty, vacant, rfl, rfl⟩
  | vacant idle none => exact ⟨empty, vacant, rfl, rfl⟩
  | swept moved recent occupied counted swept =>
    have length := swept.length
    rw [empty] at counted length
    refine ⟨List.eq_nil_of_length_eq_zero (Nat.le_zero.mp length), ?_, ?_, rfl⟩
    · rw [counted, vacant]
      rfl
    · rw [empty]
      exact seedersLeft_none bound

section Twice
variable {t₁ t₂ : Int} {twice once : PeerList}

/-- What two cleanings leave and what one leaves. -/
structure Twice (t₁ t₂ : Int) (peerList twice once : PeerList) : Prop where
  peers : twice.peers.all.Perm once.peers.all
  peerCount : twice.peerCount = once.peerCount
  downCount : twice.downCount = once.downCount
  seeders : ∃ others, leaving (t₁ - peerList.base) peerList.peers.all + others = leaving (t₂ - peerList.base) peerList.peers.all ∧
    twice.seedCount = seedersLeft (seedersLeft peerList.seedCount (leaving (t₁ - peerList.base) peerList.peers.all)) others ∧
    once.seedCount = seedersLeft peerList.seedCount (leaving (t₂ - peerList.base) peerList.peers.all)

theorem cleaned_twice (sound : Sound peerList) (manageable : Manageable peerList) (past : peerList.base ≤ t₁) (order : t₁ ≤ t₂)
    (recent : t₂ ≤ peerList.base + otTorrentTimeout) (first second once : Heap) :
    Twice t₁ t₂ peerList (cleanSingleTorrent second t₂ (cleanSingleTorrent first t₁ peerList).2.1).2.1
      (cleanSingleTorrent once t₂ peerList).2.1 := by
  have bounded := (Sound.to_distinct sound).bounded
  have seeding := sound.seedCount_le
  have direct := clean_sweeps once (recounted_sound sound) (by omega) manageable (past.trans order) recent
  have before := clean_sweeps first (recounted_sound sound) (by omega) manageable past (order.trans recent)
  generalize (cleanSingleTorrent first t₁ peerList).2.1 = middle at before ⊢
  have gone := sweep_seeders (t₁ - peerList.base) peerList.peers.all
  have total := sweep_seeders (t₂ - peerList.base) peerList.peers.all
  have counted := sound.seedCount
  have few : middle.seedCount < 2 ^ 63 := by
    have left := @seedersLeft_int peerList.seedCount (leaving (t₁ - peerList.base) peerList.peers.all) (by omega) (by omega)
    rw [← before.seedCount, Int.bmod_def] at left
    split at left <;> omega
  have whole := sweep_sweep (sub_nonneg.mpr past) (sub_nonneg.mpr order) peerList.peers.all
  rw [show t₁ - peerList.base + (t₂ - t₁) = t₂ - peerList.base by ring] at whole
  have once : (cleanSingleTorrent once t₂ peerList).2.1.peerCount = _ := direct.sound.peerCount
  by_cases vacant : middle.peerCount = 0
  · obtain ⟨nobody, peerCount, seedCount, downCount⟩ := clean_vacant second t₂ before.sound few vacant
    have empty : sweep (t₁ - peerList.base) peerList.peers.all = [] := by
      refine List.eq_nil_of_length_eq_zero ?_
      rw [← before.peers.length_eq, ← vacant]
      exact before.sound.peerCount.symm
    rw [empty, sweep_nil] at whole
    have perm := direct.peers
    rw [← whole] at perm total
    rw [empty] at gone
    refine ⟨by rw [nobody]; exact perm.symm, ?_, by rw [downCount, before.downCount, direct.downCount], 0, ?_, ?_, direct.seedCount⟩
    · rw [peerCount, once]
      exact perm.length_eq.symm
    · omega
    · rw [seedCount, ← before.seedCount, seedersLeft_none few]
  · have base := before.base vacant
    have after : Sweeps t₂ middle _ := clean_sweeps second before.sound few before.manageable (by omega) (by omega)
    have rest := sweep_seeders (t₂ - middle.base) middle.peers.all
    have peers := after.peers
    have swept := @sweep_perm _ _ (t₂ - middle.base) before.peers
    rw [base] at peers swept rest
    rw [whole] at swept
    have perm := peers.trans (swept.trans direct.peers.symm)
    refine ⟨perm, ?_, by rw [after.downCount, before.downCount, direct.downCount], leaving (t₂ - t₁) middle.peers.all, ?_, ?_,
      direct.seedCount⟩
    · rw [once]
      exact (show (cleanSingleTorrent second t₂ middle).2.1.peerCount = _ from after.sound.peerCount).trans perm.length_eq
    · rw [swept.countP_eq, before.peers.countP_eq] at rest
      omega
    · rw [after.seedCount, base, ← before.seedCount]

theorem Twice.alike_iff (cleaned : Twice t₁ t₂ peerList twice once) (sound : Sound peerList) :
    Alike twice once ↔ Adds (leaving (t₁ - peerList.base) peerList.peers.all)
      (leaving (t₂ - peerList.base) peerList.peers.all - leaving (t₁ - peerList.base) peerList.peers.all) := by
  have bounded := (Sound.to_distinct sound).bounded
  have seeding := sound.seedCount_le
  have counted := sound.seedCount
  obtain ⟨peers, peerCount, downCount, others, sum, two, one⟩ := cleaned
  have total := sweep_seeders (t₂ - peerList.base) peerList.peers.all
  have law := @seedersLeft_twice peerList.seedCount (leaving (t₁ - peerList.base) peerList.peers.all) others (by omega) (by omega)
  rw [← two, sum, ← one] at law
  rw [show leaving (t₂ - peerList.base) peerList.peers.all - leaving (t₁ - peerList.base) peerList.peers.all = others by omega, ← law]
  exact ⟨Alike.seedCount, fun same => ⟨peers, peerCount, same, downCount⟩⟩

theorem adds_zero (second : Nat) : Adds 0 second := by
  rw [Adds, Int.bmod_def (second : Int)]
  simp only [Nat.cast_zero, Int.zero_bmod]
  split <;> omega

theorem counted_iff : Counted peerList ↔ ∀ first second : Int, 0 ≤ first → first ≤ second → second ≤ otTorrentTimeout →
    Adds (leaving first peerList.peers.all) (leaving second peerList.peers.all - leaving first peerList.peers.all) := by
  have timeout : otPeerTimeout = 45 := rfl
  constructor
  · intro counted first second past order _
    by_cases now : first = 0
    · rw [now, leaving, if_pos rfl]
      exact adds_zero _
    · rw [leaving_aged (by omega), leaving_aged (by omega)]
      exact counted _ _ (by omega) (by omega)
  · intro adds younger older order young
    have law := adds (45 - older) (45 - younger) (by omega) (by omega) (by unfold otTorrentTimeout otTorrentTimeoutHours; omega)
    rw [leaving_aged (by omega), leaving_aged (by omega)] at law
    rwa [show (otPeerTimeout - (45 - (older : Int))).toNat = older by omega,
      show (otPeerTimeout - (45 - (younger : Int))).toNat = younger by omega] at law

end Twice

theorem unmanageable_differs (sound : Sound peerList) (unmanageable : ¬ Manageable peerList) :
    ¬ (cleanSingleTorrent [] (peerList.base + 1) peerList).2.1.peers.all.Perm
      (cleanSingleTorrent [false] (peerList.base + 1) peerList).2.1.peers.all := by
  simp only [Manageable, not_or, not_forall, not_lt] at unmanageable
  obtain ⟨several, old, inside, large⟩ := unmanageable
  obtain ⟨loop, done, result⟩ := @cleanSingleTorrent_loop (peerList.base + 1) peerList sound.shaped (by omega)
    (by unfold otTorrentTimeout otTorrentTimeoutHours; omega) (by unfold otPeerTimeout; omega)
  have minute : elapsed (peerList.base + 1) peerList = 1 := by
    unfold elapsed otPeerTimeout
    omega
  have contents := done.contents
  rw [minute] at contents
  have length : loop.peers.bucketList.length = peerList.peers.bucketList.length := by
    simpa using congrArg List.length contents
  obtain ⟨vector, member, same⟩ : ∃ vector ∈ loop.peers.bucketList, vector.data = survivors 1 old.data := by
    have image : survivors 1 old.data ∈ loop.peers.bucketList.map OtVector.data := by
      rw [contents]
      exact List.mem_map_of_mem inside
    exact List.mem_map.mp image
  have full : 2 ^ 32 ≤ vector.size := by
    rw [OtVector.size, same]
    exact large
  have shorter := moved_shorter member full
  have crowded : 8192 < loop.peerCount := by
    by_contra few
    have bound := (loop_sound done (recounted_sound sound)).bucket_small (show loop.peerCount < 2 ^ 32 by omega) vector member
    omega
  have different : numBucketsNew loop.peerCount loop.peers.bucketList.length ≠ loop.peers.bucketList.length := by
    rw [numBucketsNew_large crowded, length]
    exact Ne.symm several
  have settled : ∀ heap, settle heap loop = vectorRedistributeBuckets heap loop := by
    intro heap
    rw [settle, if_pos (.inl (by unfold otPeerBucketMincount; omega))]
  have failed : vectorRedistributeBuckets [false] loop = ([], loop) := by
    simp only [vectorRedistributeBuckets, if_neg different, allocate]
  have relaid := vectorRedistributeBuckets_relaid loop done.shaped different
  rw [result, result, settled, settled, failed]
  intro alike
  have lost := relaid.contents.length_eq
  rw [show _ = loop.peers.all.length from alike.length_eq] at lost
  rw [PeerVector.all] at lost
  omega

theorem manageable_alike (sound : Sound peerList) (manageable : Manageable peerList) :
    CleansAlike peerList ↔ Counted peerList := by
  rw [counted_iff]
  constructor
  · intro alike first second past order recent
    have law := alike (peerList.base + first) (peerList.base + second) [] [] [] (by omega) (by omega) (by omega)
    rw [(cleaned_twice sound manageable (by omega) (by omega) (by omega) [] [] []).alike_iff sound] at law
    simpa only [add_sub_cancel_left] using law
  · intro adds t₁ t₂ first second once past order recent
    rw [(cleaned_twice sound manageable past order recent first second once).alike_iff sound]
    exact adds _ _ (by omega) (by omega) (by omega)

theorem cleans_alike_iff {peerList : PeerList} (sound : Sound peerList) :
    CleansAlike peerList ↔ Manageable peerList ∧ Counted peerList := by
  have manageable : CleansAlike peerList → Manageable peerList := by
    intro alike
    by_contra unmanageable
    have law := (alike peerList.base (peerList.base + 1) [] [] [false] (le_refl _) (by omega)
      (by unfold otTorrentTimeout otTorrentTimeoutHours; omega)).peers
    have current : (cleanSingleTorrent [] peerList.base peerList).2.1 = peerList := by simp [cleanSingleTorrent]
    rw [current] at law
    exact unmanageable_differs sound unmanageable law
  constructor
  · intro alike
    exact ⟨manageable alike, (manageable_alike sound (manageable alike)).mp alike⟩
  · rintro ⟨manageable, counted⟩
    exact (manageable_alike sound manageable).mpr counted

def crowd (n : Nat) : PeerList := ⟨0, 0, n, 0, ⟨.members ((List.range n).map peerAt), n⟩⟩

theorem crowd_list (n : Nat) : (crowd n).peers.bucketList = [⟨(List.range n).map peerAt, n⟩] :=
  bucketList_plain (by simp)

theorem crowd_all (n : Nat) : (crowd n).peers.all = (List.range n).map peerAt := by
  rw [PeerVector.all, crowd_list, List.flatMap_singleton]

theorem crowd_sound (bound : n ≤ 2 ^ 32) : Sound (crowd n) := by
  refine .of_ordered (.plain (by simp)) ?_ (by rw [crowd_all]; simp [crowd]) ?_
  · rw [crowd_list]
    constructor
    · intro vector member
      rw [List.mem_singleton.mp member]
      exact peers_sorted bound
    · intro i bucket found peer member
      have first : i = 0 := by
        have inside := (List.getElem?_eq_some_iff.mp found).1
        simpa using inside
      simp [first]
  · rw [crowd_all]
    simp [crowd, peerAt, Peer.seeding, List.countP_map, Function.comp_def]

theorem crowd_counted (n : Nat) : Counted (crowd n) := by
  have nobody : ∀ age, agedSeeders age (crowd n).peers.all = 0 := by
    intro age
    rw [agedSeeders, crowd_all]
    simp [peerAt, Peer.seeding, List.countP_map, Function.comp_def]
  intro younger older _ _
  rw [nobody]
  exact adds_zero _

theorem crowd_cleans_alike : CleansAlike (crowd 3) := by
  refine (cleans_alike_iff (crowd_sound (by norm_num))).mpr ⟨.inr fun vector member => ?_, crowd_counted 3⟩
  rw [crowd_list, List.mem_singleton] at member
  rw [member]
  decide

private theorem crowd_departed (n : Nat) :
    departed timedout (crowd n).peers.all = if timedout < otPeerTimeout then [] else (crowd n).peers.all := by
  have ages : ∀ peer ∈ (crowd n).peers.all, expires timedout peer = !decide (timedout < otPeerTimeout) := by
    intro peer member
    rw [crowd_all] at member
    obtain ⟨i, _, rfl⟩ := List.mem_map.mp member
    have age : (peerAt i).time = 0 := rfl
    by_cases soon : timedout < otPeerTimeout
    · simp [expires, age, soon, not_le.mpr soon]
    · simp [expires, age, soon, not_lt.mp soon]
  unfold departed
  split
  next soon =>
    refine List.filter_eq_nil_iff.mpr fun peer member => ?_
    simp [ages peer member, soon]
  next late =>
    refine List.filter_eq_self.mpr fun peer member => ?_
    simp [ages peer member, late]

private theorem clean_peerCount (heap : Heap) (shaped : Shaped peerList.peers)
    (moved : now - peerList.base ≠ 0) (recent : now - peerList.base ≤ otPeerTimeout) :
    (cleanSingleTorrent heap now peerList).2.1.peerCount =
      subSize peerList.peerCount (departed (now - peerList.base) peerList.peers.all).length := by
  have whole : elapsed now peerList = now - peerList.base := min_eq_left recent
  obtain ⟨loop, done, result⟩ := cleanSingleTorrent_loop shaped moved
    (recent.trans (by decide)) (fun vacant => absurd vacant.1 (not_lt.mpr recent))
  obtain ⟨rest, peers, settled, _⟩ := settle_cases heap loop done.shaped
  rw [result, settled, ← whole]
  exact done.peerCount

private theorem crowd_lost (large : 8192 < n) (wraps : n % 2 ^ 32 = 0) :
    ∃ peers, (cleanSingleTorrent [] 1 (crowd n)).2.1 = ⟨1, 0, n, 0, peers⟩ ∧ Shaped peers ∧ peers.all = [] := by
  have base : (1 : Int) - (crowd n).base = 1 := rfl
  obtain ⟨loop, done, result⟩ := @cleanSingleTorrent_loop 1 (crowd n) (.plain (by simp)) (by rw [base]; decide)
    (by rw [base]; decide) (by rw [base]; exact fun vacant => absurd vacant.1 (by decide))
  have minute : elapsed 1 (crowd n) = 1 := rfl
  have nobody : departed 1 (crowd n).peers.all = [] := by rw [crowd_departed, if_pos (by decide)]
  have peerCount : loop.peerCount = n := by
    rw [done.peerCount, minute, nobody]
    exact subSize_eq (Nat.zero_le _)
  have seedCount : loop.seedCount = 0 := by
    rw [done.seedCount, minute, removedSeeding, nobody]
    exact seedersLeft_none (by norm_num [crowd])
  have contents := done.contents
  rw [crowd_list, minute, List.map_singleton] at contents
  obtain ⟨vector, single, survived⟩ := List.map_eq_singleton_iff.mp contents
  have size : vector.size = n := by
    have parts := survivors_length 1 (crowd n).peers.all
    rw [nobody, crowd_all] at parts
    rw [OtVector.size, survived]
    simpa using parts
  have unmoved : moved loop.peers.bucketList = [] := by
    rw [single, moved, List.flatMap_singleton, size, wraps, List.take_zero]
  have different : numBucketsNew loop.peerCount loop.peers.bucketList.length ≠ loop.peers.bucketList.length := by
    rw [peerCount, numBucketsNew_large large, single]
    simp
  have relaid := vectorRedistributeBuckets_relaid loop done.shaped different
  obtain ⟨rest, peers, redistributed, _⟩ := vectorRedistributeBuckets_cases [] loop done.shaped
  have settled : settle [] loop = (rest, { loop with peers := peers }) := by
    rw [settle, if_pos (.inl (by unfold otPeerBucketMincount; omega)), redistributed]
  rw [redistributed] at relaid
  refine ⟨peers, ?_, relaid.rearranged.shaped, (unmoved ▸ relaid.contents).eq_nil⟩
  rw [result, settled]
  have occupied : n ≠ 0 := by omega
  simp only [peerCount, seedCount, done.downCount, if_pos occupied]
  rfl

private theorem crowd_miscounted {n : Nat} (large : 8192 < n) (wraps : n % 2 ^ 32 = 0) :
    (cleanSingleTorrent [] 45 (cleanSingleTorrent [] 1 (crowd n)).2.1).2.1.peerCount = n ∧
    (cleanSingleTorrent [] 45 (crowd n)).2.1.peerCount = 0 := by
  constructor
  · obtain ⟨peers, result, shaped, nobody⟩ := crowd_lost large wraps
    rw [result, clean_peerCount [] shaped (by norm_num) (show (44 : Int) ≤ otPeerTimeout by decide), nobody]
    exact subSize_eq (Nat.zero_le _)
  · have base : (45 : Int) - (crowd n).base = 45 := rfl
    rw [clean_peerCount [] (.plain (by simp)) (by rw [base]; decide) (by rw [base]; decide), base, crowd_departed,
      if_neg (by decide), crowd_all, subSize_eq (by simp [crowd])]
    simp [crowd]

/-- 2 ^ 32 peers, cleaned after one minute and again at the 45th: they are gone, but all
of them are still counted. One cleaning at the 45th minute counts none. -/
theorem crowd_counted_twice :
    Sound (crowd (2 ^ 32)) ∧ (∀ peer ∈ (crowd (2 ^ 32)).peers.all, (peer.time.toNat : Int) < otPeerTimeout) ∧
    (cleanSingleTorrent [] 45 (cleanSingleTorrent [] 1 (crowd (2 ^ 32))).2.1).2.1.peerCount = 2 ^ 32 ∧
    (cleanSingleTorrent [] 45 (crowd (2 ^ 32))).2.1.peerCount = 0 ∧ ¬ CleansAlike (crowd (2 ^ 32)) := by
  obtain ⟨twice, once⟩ := @crowd_miscounted (2 ^ 32) (by norm_num) (by norm_num)
  refine ⟨crowd_sound (le_refl _), ?_, twice, once, fun alike => ?_⟩
  · intro peer member
    rw [crowd_all] at member
    obtain ⟨i, _, rfl⟩ := List.mem_map.mp member
    exact (by decide : ((0 : UInt8).toNat : Int) < otPeerTimeout)
  · have law := (alike 1 45 [] [] [] (by decide) (by decide) (by decide)).peerCount
    rw [twice, once] at law
    norm_num at law

end BtServer.Proofs.CleaningTwice

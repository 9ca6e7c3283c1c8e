import BtServer.Tracker
import BtServer.Proofs.PeerListShape

/-! What an announce and a stop can do to a peer list: one bucket is edited at
one position, or nothing is. The later proofs only use these two inversions. -/

namespace BtServer.Proofs.PeerListEdits
open Lib VectorSearch PeerListShape

def fresh (peer : Peer) : Peer := { peer with time := 0, flag := sanitizeFlag peer.flag }

def renewed (old peer : Peer) : Peer :=
  if old.completed then { fresh peer with flag := (fresh peer).flag ||| peerFlagCompleted } else fresh peer

@[simp] theorem fresh_addr (peer : Peer) : (fresh peer).addr = peer.addr := rfl

@[simp] theorem fresh_key (peer : Peer) : (fresh peer).key = peer.key := rfl

@[simp] theorem renewed_addr (old peer : Peer) : (renewed old peer).addr = peer.addr := by
  unfold renewed
  split <;> rfl

@[simp] theorem renewed_key (old peer : Peer) : (renewed old peer).key = peer.key := by
  unfold renewed
  split <;> rfl

@[simp] theorem fresh_time (peer : Peer) : (fresh peer).time = 0 := rfl

@[simp] theorem renewed_time (old peer : Peer) : (renewed old peer).time = 0 := by
  unfold renewed
  split <;> rfl

@[simp] theorem renewed_seeding (old peer : Peer) : (renewed old peer).seeding = (fresh peer).seeding := by
  unfold renewed
  split
  · have bits : ∀ flag : UInt8, (flag ||| peerFlagCompleted) &&& peerFlagSeeding = flag &&& peerFlagSeeding :=
      forall_byte (by decide +kernel)
    simp [Peer.seeding, bits]
  · rfl

/-- The slot of a peer after `vector_find_or_insert_peer`: the record found in it, or
a new one, and what the peer vector becomes when `new` is written to it. -/
inductive Slot (peers : PeerVector) (peer : Peer) : Option (PeerVector × Nat × Int) → Prop where
  | refused : Slot peers peer none
  | found {left right : List (OtVector Peer)} {before after : List Peer} {old : Peer} {space position : Nat} {exactmatch : Int}
      {opened : PeerVector} (split : peers.bucketList = left ++ ⟨before ++ old :: after, space⟩ :: right)
      (index : left.length = vectorHashPeer peer peers.bucketList.length) (same : old.addr = peer.addr)
      (matched : exactmatch ≠ 0) (read : (opened.bucketFor peer).data[position]? = some old)
      (write : ∀ new, ∃ written, opened.setBucketFor peer
          ⟨(opened.bucketFor peer).data.set position new, (opened.bucketFor peer).space⟩ = written ∧ Shaped written ∧
        written.bucketList = left ++ ⟨before ++ new :: after, space⟩ :: right) :
      Slot peers peer (some (opened, position, exactmatch))
  | fresh {left right : List (OtVector Peer)} {before after : List Peer} {space room position : Nat} {opened : PeerVector}
      (split : peers.bucketList = left ++ ⟨before ++ after, space⟩ :: right)
      (index : left.length = vectorHashPeer peer peers.bucketList.length)
      (cut : StrictSorted Peer.key (before ++ after) → (before ++ after).length < 2 ^ 32 →
        Between Peer.key before after peer.key)
      (write : ∀ new, ∃ written, opened.setBucketFor peer
          ⟨(opened.bucketFor peer).data.set position new, (opened.bucketFor peer).space⟩ = written ∧ Shaped written ∧
        written.bucketList = left ++ ⟨before ++ new :: after, room⟩ :: right) :
      Slot peers peer (some (opened, position, 0))

private theorem written_back {peers : PeerVector} {peer : Peer} (shaped : Shaped peers) {left right : List (OtVector Peer)}
    {old : OtVector Peer} {before after : List Peer} {record : Peer} {room : Nat} (split : peers.bucketList = left ++ old :: right)
    (index : left.length = vectorHashPeer peer peers.bucketList.length)
    (fits : Fits (⟨before ++ record :: after, room⟩ : OtVector Peer)) :
    (peers.setBucketFor peer ⟨before ++ record :: after, room⟩).bucketFor peer = ⟨before ++ record :: after, room⟩ ∧
    ∀ new, ∃ written, (peers.setBucketFor peer ⟨before ++ record :: after, room⟩).setBucketFor peer
        ⟨(before ++ record :: after).set before.length new, room⟩ = written ∧ Shaped written ∧
      written.bucketList = left ++ ⟨before ++ new :: after, room⟩ :: right := by
  obtain ⟨again, list⟩ := shaped.setBucketFor peer split index fits
  have place : left.length = vectorHashPeer peer
      (peers.setBucketFor peer ⟨before ++ record :: after, room⟩).bucketList.length := by simpa [list, split] using index
  refine ⟨again.bucketFor_eq peer list place, fun new => ⟨_, rfl, ?_⟩⟩
  rw [List.set_append_right _ _ (le_refl before.length), Nat.sub_self, List.set_cons_zero]
  exact again.setBucketFor peer list place (by simpa [Fits, OtVector.size] using fits)

theorem vectorFindOrInsertPeer_slot (heap : Heap) {peers : PeerVector} (shaped : Shaped peers) (peer : Peer) :
    Slot peers peer (vectorFindOrInsertPeer heap peers peer).2 := by
  obtain ⟨left, right, split, index⟩ := shaped.bucket_split peer
  have fits := shaped.fits (peers.bucketFor peer) (by simp [split])
  rcases vectorFindOrInsert_cases heap (peers.bucketFor peer) peer Peer.addr (by simp) with
    ⟨before, old, after, exactmatch, data, same, matched, result⟩ | ⟨rest, result⟩ |
    ⟨before, after, room, rest, data, grown, opened, cut, result⟩
  · have bucket : peers.bucketFor peer = ⟨before ++ old :: after, (peers.bucketFor peer).space⟩ := by
      rw [← data]
    generalize (peers.bucketFor peer).space = space at bucket
    rw [bucket] at split result fits
    obtain ⟨found, write⟩ := written_back shaped split index fits
    simp only [vectorFindOrInsertPeer, bucket, result]
    exact .found split index same matched (by simp [found]) (by simpa only [found] using write)
  · simp only [vectorFindOrInsertPeer, result]
    exact .refused
  · have bucket : peers.bucketFor peer = ⟨before ++ after, (peers.bucketFor peer).space⟩ := by
      rw [← data]
    generalize (peers.bucketFor peer).space = space at bucket
    rw [bucket] at split result fits opened cut
    have room_fits : Fits (⟨before ++ peer :: after, room⟩ : OtVector Peer) := by
      have enough := opened fits
      simp only [Fits, OtVector.size, List.length_append, List.length_cons] at enough ⊢
      omega
    obtain ⟨found, write⟩ := written_back shaped split index room_fits
    simp only [vectorFindOrInsertPeer, bucket, result]
    exact .fresh split index cut (by simpa only [found] using write)

inductive Announced (now : Int) (peerList : PeerList) (peer : Peer) : PeerList × Option (List StatsEvent) → Prop where
  | refused : Announced now peerList peer ({ peerList with base := now }, none)
  | inserted {left right : List (OtVector Peer)} {before after : List Peer} {space room : Nat} {peers : PeerVector}
      (split : peerList.peers.bucketList = left ++ ⟨before ++ after, space⟩ :: right)
      (index : left.length = vectorHashPeer peer peerList.peers.bucketList.length)
      (cut : StrictSorted Peer.key (before ++ after) → (before ++ after).length < 2 ^ 32 →
        Between Peer.key before after peer.key)
      (shaped : Shaped peers) (edited : peers.bucketList = left ++ ⟨before ++ fresh peer :: after, room⟩ :: right) :
      Announced now peerList peer
        ({ base := now
           peerCount := peerList.peerCount + 1
           downCount := if (fresh peer).completed then incSize peerList.downCount else peerList.downCount
           seedCount := if (fresh peer).seeding then peerList.seedCount + 1 else peerList.seedCount
           peers := peers },
          some (if (fresh peer).completed then [.completed] else []))
  | renewed {left right : List (OtVector Peer)} {before after : List Peer} {old : Peer} {space : Nat} {peers : PeerVector}
      (split : peerList.peers.bucketList = left ++ ⟨before ++ old :: after, space⟩ :: right)
      (index : left.length = vectorHashPeer peer peerList.peers.bucketList.length)
      (same : old.addr = peer.addr) (shaped : Shaped peers)
      (edited : peers.bucketList = left ++ ⟨before ++ renewed old peer :: after, space⟩ :: right) :
      Announced now peerList peer
        ({ base := now
           peerCount := peerList.peerCount
           downCount :=
             if !old.completed && (fresh peer).completed then incSize peerList.downCount else peerList.downCount
           seedCount :=
             if !old.seeding && (fresh peer).seeding then
               (if old.seeding && !(fresh peer).seeding then subSize peerList.seedCount 1 else peerList.seedCount) + 1
             else if old.seeding && !(fresh peer).seeding then subSize peerList.seedCount 1 else peerList.seedCount
           peers := peers },
          some (.renew old.time.toNat :: if !old.completed && (fresh peer).completed then [.completed] else []))

theorem announcePeer_cases (heap : Heap) (now : Int) (peerList : PeerList) (peer : Peer)
    (shaped : Shaped peerList.peers) : Announced now peerList peer (announcePeer heap now peerList peer) := by
  have slot := vectorFindOrInsertPeer_slot heap shaped peer
  rw [announcePeer]
  simp only
  generalize vectorFindOrInsertPeer heap peerList.peers peer = result at slot ⊢
  obtain ⟨rest, result⟩ := result
  cases slot with
  | refused => exact .refused
  | found split index same matched read write =>
    obtain ⟨written, stored, shaped, edited⟩ := write (renewed _ peer)
    simp only [if_neg matched, read]
    rw [← stored] at shaped edited
    exact .renewed split index same shaped edited
  | fresh split index cut write =>
    obtain ⟨written, stored, shaped, edited⟩ := write (fresh peer)
    simp only [if_true]
    rw [← stored] at shaped edited
    exact .inserted split index cut shaped edited

namespace Announced
variable {now : Int} {peerList : PeerList} {peer : Peer} {result : PeerList × Option (List StatsEvent)}
variable (announced : Announced now peerList peer result)
include announced

theorem shaped (before : Shaped peerList.peers) : Shaped result.1.peers := by
  cases announced with
  | refused => exact before
  | inserted split index cut shaped edited => exact shaped
  | renewed split index same shaped edited => exact shaped

theorem base : result.1.base = now := by
  cases announced <;> rfl

theorem members :
    ∀ other ∈ result.1.peers.all, other ∈ peerList.peers.all ∨ other.addr = peer.addr ∧ other.time = 0 := by
  intro other member
  cases announced with
  | refused => exact .inl member
  | inserted split index cut shaped edited =>
    by_cases new : other = fresh peer
    · exact .inr (new ▸ ⟨fresh_addr peer, fresh_time peer⟩)
    · rw [all_split edited] at member
      rw [all_split split]
      simp only [List.mem_append, List.mem_cons, new, false_or] at member ⊢
      exact .inl member
  | @renewed left right before after old space peers split index same shaped edited =>
    by_cases new : other = PeerListEdits.renewed old peer
    · exact .inr (new ▸ ⟨renewed_addr old peer, renewed_time old peer⟩)
    · rw [all_split edited] at member
      rw [all_split split]
      simp only [List.mem_append, List.mem_cons, new, false_or] at member ⊢
      tauto

theorem renew {events : List StatsEvent} (issued : result.2 = some events)
    {index : Nat} (member : .renew index ∈ events) : ∃ old ∈ peerList.peers.all, index = old.time.toNat := by
  cases announced with
  | refused => cases issued
  | inserted split place cut shaped edited =>
    cases issued
    split at member <;> simp at member
  | @renewed left right before after old space peers split place same shaped edited =>
    cases issued
    refine ⟨old, by simp [all_split split], ?_⟩
    rcases List.mem_cons.mp member with equal | other
    · exact StatsEvent.renew.inj equal
    · split at other <;> simp at other

theorem counted (before : peerList.peers.all.length ≤ peerList.peerCount) :
    result.1.peers.all.length ≤ result.1.peerCount := by
  cases announced with
  | refused => exact before
  | inserted split index cut shaped edited =>
    rw [all_split split] at before
    rw [all_split edited]
    simp only [List.length_append, List.length_cons] at before ⊢
    omega
  | renewed split index same shaped edited =>
    rw [all_split split] at before
    rw [all_split edited]
    simpa only [List.length_append, List.length_cons] using before

end Announced

inductive Stopped (peerList : PeerList) (peer : Peer) : PeerList → Prop where
  | absent
      (missing : ∀ left right vector, peerList.peers.bucketList = left ++ vector :: right →
        left.length = vectorHashPeer peer peerList.peers.bucketList.length →
        StrictSorted Peer.key vector.data → vector.size < 2 ^ 32 → ∀ a ∈ vector.data, a.addr ≠ peer.addr) :
      Stopped peerList peer peerList
  | removed {left right : List (OtVector Peer)} {before after : List Peer} {old : Peer} {space room : Nat}
      {peers : PeerVector}
      (split : peerList.peers.bucketList = left ++ ⟨before ++ old :: after, space⟩ :: right)
      (index : left.length = vectorHashPeer peer peerList.peers.bucketList.length)
      (same : old.addr = peer.addr) (shaped : Shaped peers)
      (edited : peers.bucketList = left ++ ⟨before ++ after, room⟩ :: right) :
      Stopped peerList peer
        { peerList with
          seedCount := if old.seeding then subSize peerList.seedCount 1 else peerList.seedCount
          peerCount := subSize peerList.peerCount 1
          peers := peers }

theorem stopPeer_cases (peerList : PeerList) (peer : Peer) (shaped : Shaped peerList.peers) :
    Stopped peerList peer (stopPeer peerList peer) := by
  obtain ⟨left, right, split, index⟩ := shaped.bucket_split peer
  have unchanged : vectorRemovePeer peerList.peers peer = (peerList.peers, 0) → stopPeer peerList peer = peerList := by
    intro same
    simp [stopPeer, same]
  -- Whatever cut is taken at the peer's bucket, the bucket is the same.
  have located : ∀ first last vector, peerList.peers.bucketList = first ++ vector :: last →
      first.length = vectorHashPeer peer peerList.peers.bucketList.length →
      vector = peerList.peers.bucketFor peer := by
    intro first last vector cut position
    exact (shaped.bucketFor_eq peer cut position).symm
  by_cases empty : peerList.peers.size = 0
  · rw [unchanged (by simp [vectorRemovePeer, empty])]
    refine .absent fun first last vector cut position _ _ a member => ?_
    cases seen : peerList.peers with
    | mk data space =>
      rw [seen] at empty shaped cut
      cases shaped with
      | plain fits =>
        rw [bucketList_plain fits] at cut
        have single := List.append_eq_singleton_iff.mp cut.symm
        simp only [PeerVector.size] at empty
        have nothing := List.eq_nil_of_length_eq_zero empty
        subst nothing
        rcases single with ⟨_, same⟩ | ⟨_, same⟩
        · cases same
          simp at member
        · cases same
      | bucketed count fits =>
        simp only [PeerVector.size] at empty
        omega
  · rcases binarySearch_cases peer.addr Peer.addr (peerList.peers.bucketFor peer).data (by simp) with
      ⟨before, old, after, interval, data, same, positive, bound, searched⟩ | ⟨before, after, data, searched, cut⟩
    · by_cases truncated : toInt32 interval = 0
      · rw [unchanged (by simp [vectorRemovePeer, empty, searched, truncated])]
        refine .absent fun first last vector split position _ small => ?_
        rw [located first last vector split position] at small
        exact absurd truncated (toInt32_ne_zero positive (lt_of_le_of_lt bound small))
      · have bucket : peerList.peers.bucketFor peer = ⟨before ++ old :: after, (peerList.peers.bucketFor peer).space⟩ := by
          rw [← data]
        generalize (peerList.peers.bucketFor peer).space = space at bucket
        have fits := shaped.fits (peerList.peers.bucketFor peer) (by simp [split])
        rw [bucket] at split searched fits
        have smaller : Fits (⟨before ++ after, space⟩ : OtVector Peer) := by
          simp only [Fits, OtVector.size, List.length_append, List.length_cons] at fits ⊢
          omega
        have room := vectorFixupPeers_fits smaller
        obtain ⟨shrunk, contents⟩ := vectorFixupPeers_eq ⟨before ++ after, space⟩
        rw [contents] at room
        obtain ⟨last, edited⟩ := shaped.setBucketFor peer split index room
        have erased : (before ++ old :: after).eraseIdx before.length = before ++ after := by
          rw [List.eraseIdx_append_of_length_le (le_refl _)]
          simp
        simp only [stopPeer, vectorRemovePeer, if_neg empty, bucket, searched, if_neg truncated, erased, contents,
          List.getElem?_append_right (le_refl before.length), Nat.sub_self, List.getElem?_cons_zero]
        have result := Stopped.removed split index same last edited
        cases seed : old.seeding <;> simpa [seed] using result
    · rw [unchanged (by simp [vectorRemovePeer, empty, searched])]
      refine .absent fun first last vector split position sorted small a member equal => ?_
      rw [located first last vector split position] at sorted member
      have between := cut sorted
      rw [data] at member
      exact between.absent a member (Peer.key_eq_iff.mpr equal)

namespace Stopped
variable {peerList result : PeerList} {peer : Peer}

theorem shaped (stopped : Stopped peerList peer result) (before : Shaped peerList.peers) : Shaped result.peers := by
  cases stopped with
  | absent missing => exact before
  | removed split index same shaped edited => exact shaped

theorem base (stopped : Stopped peerList peer result) : result.base = peerList.base := by
  cases stopped <;> rfl

theorem members (stopped : Stopped peerList peer result) : ∀ other ∈ result.peers.all, other ∈ peerList.peers.all := by
  intro other member
  cases stopped with
  | absent missing => exact member
  | removed split index same shaped edited =>
    rw [all_split edited] at member
    rw [all_split split]
    simp only [List.mem_append, List.mem_cons] at member ⊢
    tauto

theorem counted (stopped : Stopped peerList peer result) (before : peerList.peers.all.length ≤ peerList.peerCount) :
    result.peers.all.length ≤ result.peerCount := by
  cases stopped with
  | absent missing => exact before
  | removed split index same shaped edited =>
    rw [all_split split] at before
    rw [all_split edited]
    simp only [List.length_append, List.length_cons] at before ⊢
    rw [subSize_eq (by omega)]
    omega

end Stopped

end BtServer.Proofs.PeerListEdits

import BtServer.Proofs.PeerListShape

/-! Re-bucketing a peer list. Whatever the allocations do, the new buckets hold
no peer the old ones did not, and when no old bucket is too large for the `int`
that counts its peers down, they hold every one of them, sorted and placed. -/

namespace BtServer.Proofs.Redistribution
open Lib PeerListShape

variable {vectors : List (OtVector Peer)} {count : Nat} {peers : List Peer} {old : PeerVector}

structure Ordered (vectors : List (OtVector Peer)) : Prop where
  sorted : ∀ vector ∈ vectors, StrictSorted Peer.key vector.data
  placed : Placed (fun peer => vectorHashPeer peer vectors.length) (vectors.map OtVector.data)

theorem Ordered.nodup (ordered : Ordered vectors) :
    ((vectors.flatMap OtVector.data).map Peer.key).Nodup := by
  refine ordered.placed.nodup (fun a b same => vectorHashPeer_congr same _) ?_
  intro bucket member
  obtain ⟨vector, inside, rfl⟩ := List.mem_map.mp member
  exact (ordered.sorted vector inside).nodup

section Allocations
variable {heap middle rest : Heap}

def Used (heap rest : Heap) : Prop := ∃ asked, heap = asked ++ rest

def Failed (heap rest : Heap) : Prop := Used heap (false :: rest)

theorem Used.refl (heap : Heap) : Used heap heap := ⟨[], rfl⟩

theorem Used.trans (first : Used heap middle) (second : Used middle rest) : Used heap rest := by
  obtain ⟨asked, rfl⟩ := first
  obtain ⟨more, rfl⟩ := second
  exact ⟨asked ++ more, by simp⟩

theorem Used.failed (first : Used heap middle) (second : Failed middle rest) : Failed heap rest := first.trans second

theorem allocate_used (granted : allocate heap = (true, rest)) : Used heap rest := by
  cases heap with
  | nil =>
    cases granted
    exact .refl []
  | cons outcome later =>
    cases granted
    exact ⟨[true], rfl⟩

theorem allocate_failed (refused : allocate heap = (false, rest)) : Failed heap rest := by
  cases heap with
  | nil => cases refused
  | cons outcome later =>
    cases refused
    exact .refl _

theorem allocateEach_cases (heap : Heap) (count : Nat) :
    if (allocateEach heap count).1 then Used heap (allocateEach heap count).2
    else Failed heap (allocateEach heap count).2 := by
  induction count generalizing heap with
  | zero => exact .refl heap
  | succ count ih =>
    cases outcome : allocate heap with
    | mk success middle =>
      cases success with
      | false =>
        simp only [allocateEach, outcome, Bool.false_eq_true, if_false]
        exact allocate_failed outcome
      | true =>
        simp only [allocateEach, outcome]
        have first := allocate_used outcome
        have later := ih middle
        split at later
        next granted =>
          rw [if_pos granted]
          exact first.trans later
        next refused =>
          rw [if_neg refused]
          exact first.failed later

end Allocations

def Roomy (vectors : List (OtVector Peer)) : Prop := ∀ vector ∈ vectors, Fits vector ∧ 0 < vector.space

private theorem distributePeer_cases (heap : Heap) (vectors : List (OtVector Peer)) (peer : Peer)
    (positive : 0 < vectors.length) (roomy : Roomy vectors) :
    (∃ rest, distributePeer heap vectors peer = (rest, none) ∧ Failed heap rest) ∨
    (∃ rest left right data space room, Used heap rest ∧ vectors = left ++ ⟨data, space⟩ :: right ∧
      left.length = vectorHashPeer peer vectors.length ∧ data.length + 1 ≤ room ∧
      distributePeer heap vectors peer = (rest, some (left ++ ⟨data ++ [peer], room⟩ :: right))) := by
  have index : (if vectors.length > 1 then vectorHashPeer peer vectors.length else 0) = vectorHashPeer peer vectors.length := by
    split
    · rfl
    next single =>
      have one : vectors.length = 1 := by omega
      simp [one]
  have inside := vectorHashPeer_lt positive peer
  simp only [distributePeer, index, OtVector.size]
  generalize vectorHashPeer peer vectors.length = place at *
  have cut : vectors = vectors.take place ++ vectors[place] :: vectors.drop (place + 1) := by
    rw [List.getElem_cons_drop, List.take_append_drop]
  have dest : vectors.getD place .empty = vectors[place] := by
    rw [List.getD_eq_getElem?_getD, List.getElem?_eq_getElem inside, Option.getD_some]
  have written : ∀ vector, vectors.set place vector = vectors.take place ++ vector :: vectors.drop (place + 1) := by
    intro vector
    rw [List.set_eq_take_append_cons_drop, if_pos inside]
  obtain ⟨fits, spare⟩ := roomy vectors[place] (List.getElem_mem inside)
  have size : vectors[place].data.length ≤ vectors[place].space := fits
  have left : (vectors.take place).length = place := by simp [Nat.min_eq_left (le_of_lt inside)]
  simp only [dest, written]
  split
  next full =>
    cases outcome : allocate heap with
    | mk success rest =>
      cases success with
      | false => exact .inl ⟨rest, rfl, allocate_failed outcome⟩
      | true =>
        refine .inr ⟨rest, _, _, vectors[place].data, vectors[place].space, _, allocate_used outcome, cut, left, ?_, rfl⟩
        simp only [otVectorGrowRatio]
        omega
  next => exact .inr ⟨heap, _, _, vectors[place].data, vectors[place].space, _, .refl heap, cut, left, by omega, rfl⟩

structure Spread (count : Nat) (moved : List Peer) (vectors : List (OtVector Peer)) : Prop where
  length : vectors.length = count
  roomy : Roomy vectors
  members : (vectors.flatMap OtVector.data).Perm moved
  placed : Placed (fun peer => vectorHashPeer peer count) (vectors.map OtVector.data)

private theorem Spread.append {moved : List Peer} {left right : List (OtVector Peer)} {data : List Peer}
    {space room : Nat} {peer : Peer} (spread : Spread count moved (left ++ ⟨data, space⟩ :: right))
    (index : left.length = vectorHashPeer peer count) (enough : data.length + 1 ≤ room) :
    Spread count (moved ++ [peer]) (left ++ ⟨data ++ [peer], room⟩ :: right) := by
  obtain ⟨length, roomy, members, placed⟩ := spread
  refine ⟨by simpa using length, ?_, ?_, ?_⟩
  · intro vector member
    simp only [List.mem_append, List.mem_cons] at member
    rcases member with inside | rfl | inside
    · exact roomy vector (by simp [inside])
    · exact ⟨by simpa [Fits, OtVector.size] using enough, by show 0 < room; omega⟩
    · exact roomy vector (by simp [inside])
  · have grown : ((left ++ ⟨data ++ [peer], room⟩ :: right).flatMap OtVector.data).Perm
        (peer :: (left ++ ⟨data, space⟩ :: right).flatMap OtVector.data) := by
      simp only [List.flatMap_append, List.flatMap_cons, ← List.append_assoc]
      simp only [List.append_assoc, List.singleton_append]
      exact (List.Perm.append_left _ List.perm_middle).trans List.perm_middle
    exact grown.trans ((members.cons peer).trans (List.perm_append_singleton peer moved).symm)
  · simp only [List.map_append, List.map_cons] at placed ⊢
    refine placed.edit fun a inside => ?_
    rcases List.mem_append.mp inside with old | new
    · exact .inl old
    · exact .inr (by simp [List.mem_singleton.mp new, index])

private theorem distributePeers_cases (heap : Heap) (count : Nat) (positive : 0 < count) (moved rest : List Peer)
    (spread : Spread count moved vectors) :
    (∃ heap', distributePeers heap vectors rest = (heap', none) ∧ Failed heap heap') ∨
    (∃ heap' final, distributePeers heap vectors rest = (heap', some final) ∧ Spread count (moved ++ rest) final) := by
  induction rest generalizing heap moved vectors with
  | nil => exact .inr ⟨heap, vectors, rfl, by simpa using spread⟩
  | cons peer rest ih =>
    rcases distributePeer_cases heap vectors peer (spread.length ▸ positive) spread.roomy with
      ⟨left, result, failed⟩ | ⟨after, left, right, data, space, room, used, split, index, enough, result⟩
    · exact .inl ⟨left, by simp only [distributePeers, result], failed⟩
    · rw [spread.length] at index
      subst split
      simp only [distributePeers, result]
      rcases ih after (moved ++ [peer]) (spread.append index enough) with ⟨last, stopped, failed⟩ | done
      · exact .inl ⟨last, stopped, used.failed failed⟩
      · exact .inr (by simpa using done)

private theorem bucketSizeNew_pos (wanted fuel size : Nat) (positive : 0 < size) : 0 < bucketSizeNew wanted fuel size := by
  induction fuel generalizing size with
  | zero => simpa [bucketSizeNew] using positive
  | succ fuel ih =>
    rw [bucketSizeNew]
    split
    · exact ih _ (by simp only [otVectorGrowRatio]; omega)
    · exact positive

private theorem spread_replicate (count space : Nat) (positive : 0 < space) :
    Spread count [] (List.replicate count ⟨[], space⟩) := by
  refine ⟨by simp, ?_, ?_, ?_⟩
  · intro vector member
    rw [List.eq_of_mem_replicate member]
    exact ⟨by simp [Fits, OtVector.size], positive⟩
  · simp [List.flatMap_replicate]
  · intro i bucket found a inside
    rw [List.map_replicate, List.getElem?_replicate] at found
    split at found
    · rw [← Option.some.inj found] at inside
      simp at inside
    · simp at found

theorem qsortPeers_perm (peers : List Peer) : (qsortPeers peers).Perm peers := List.perm_insertionSort _ peers

theorem qsortPeers_sorted (distinct : (peers.map Peer.key).Nodup) :
    StrictSorted Peer.key (qsortPeers peers) := by
  have order : (fun left right : Peer => vectorComparePeer left right ≤ 0) = fun left right => left.key ≤ right.key := by
    funext left right
    have sign := memcmp_sign (show left.addr.length = right.addr.length by simp)
    apply propext
    unfold vectorComparePeer Peer.key
    omega
  unfold qsortPeers
  simp only [order]
  convert StrictSorted.of_insertionSort distinct

theorem numBucketsNew_range (peerCount numBucketsOld : Nat) (old : numBucketsOld = 1 ∨ numBucketsOld = 16 ∨ numBucketsOld = 64) :
    numBucketsNew peerCount numBucketsOld = 1 ∨ numBucketsNew peerCount numBucketsOld = 16 ∨
      numBucketsNew peerCount numBucketsOld = 64 := by
  unfold numBucketsNew
  split_ifs <;> omega

/-- What a redistribution may do to the peers of a list. -/
structure Rearranged (old new : PeerVector) : Prop where
  shaped : Shaped new
  members : ∀ peer ∈ new.all, peer ∈ old.all
  length : new.all.length ≤ old.all.length
  whole : Ordered old.bucketList → (∀ vector ∈ old.bucketList, vector.size < 2 ^ 32) →
    Ordered new.bucketList ∧ new.all.Perm old.all

theorem Rearranged.same {peers : PeerVector} (shaped : Shaped peers) : Rearranged peers peers :=
  ⟨shaped, fun _ member => member, le_refl _, fun ordered _ => ⟨ordered, .refl _⟩⟩

def moved (vectors : List (OtVector Peer)) : List Peer :=
  vectors.flatMap fun vector => vector.data.take (vector.size % 2 ^ 32)

theorem moved_sublist (vectors : List (OtVector Peer)) : (moved vectors).Sublist (vectors.flatMap OtVector.data) := by
  induction vectors with
  | nil => simp [moved]
  | cons vector rest ih =>
    simp only [moved, List.flatMap_cons] at ih ⊢
    exact (List.take_sublist _ _).append ih

theorem moved_whole (small : ∀ vector ∈ vectors, vector.size < 2 ^ 32) :
    moved vectors = vectors.flatMap OtVector.data := by
  simp only [moved]
  refine List.flatMap_congr fun vector member => ?_
  rw [Nat.mod_eq_of_lt (small vector member)]
  exact List.take_length

theorem moved_shorter {vector : OtVector Peer} (member : vector ∈ vectors)
    (large : 2 ^ 32 ≤ vector.size) : (moved vectors).length < (vectors.flatMap OtVector.data).length := by
  obtain ⟨left, right, rfl⟩ := List.append_of_mem member
  have before := (moved_sublist left).length_le
  have after := (moved_sublist right).length_le
  have cut : vector.size % 2 ^ 32 < vector.data.length := lt_of_lt_of_le (Nat.mod_lt _ (by norm_num)) large
  simp only [moved, List.flatMap_append, List.flatMap_cons, List.length_append, List.length_take] at before after ⊢
  omega

private def sortBucket (vector : OtVector Peer) : OtVector Peer := ⟨qsortPeers vector.data, vector.space⟩

private theorem sorted_perm (vectors : List (OtVector Peer)) :
    ((vectors.map sortBucket).flatMap OtVector.data).Perm (vectors.flatMap OtVector.data) := by
  induction vectors with
  | nil => simp
  | cons vector rest ih => simpa [sortBucket] using (qsortPeers_perm vector.data).append ih

private theorem Spread.ordered
    (spread : Spread count peers vectors) (distinct : (peers.map Peer.key).Nodup) : Ordered (vectors.map sortBucket) := by
  have unique := (spread.members.map Peer.key).nodup_iff.mpr distinct
  constructor
  · intro vector member
    obtain ⟨unsorted, inside, rfl⟩ := List.mem_map.mp member
    refine qsortPeers_sorted (List.Nodup.sublist (List.Sublist.map _ ?_) unique)
    rw [List.flatMap_def]
    exact List.sublist_flatten_of_mem (List.mem_map_of_mem inside)
  · intro i bucket found a inside
    simp only [List.map_map, List.getElem?_map, Option.map_eq_some_iff] at found
    obtain ⟨vector, position, rfl⟩ := found
    rw [List.length_map, spread.length]
    exact spread.placed i vector.data (by simp [position]) a ((qsortPeers_perm _).mem_iff.mp inside)

private theorem Spread.rearranged {new : PeerVector} (spread : Spread count (moved old.bucketList) vectors) (shaped : Shaped new)
    (list : new.bucketList = vectors.map sortBucket) : Rearranged old new := by
  have contents : new.all.Perm (moved old.bucketList) := by
    rw [PeerVector.all, list]
    exact (sorted_perm vectors).trans spread.members
  have fewer := moved_sublist old.bucketList
  refine ⟨shaped, fun peer member => fewer.subset (contents.mem_iff.mp member), ?_, ?_⟩
  · rw [contents.length_eq]
    exact fewer.length_le
  · intro ordered small
    rw [moved_whole small] at contents
    refine ⟨list ▸ spread.ordered ?_, contents⟩
    rw [moved_whole small]
    exact ordered.nodup

structure Relaid (count : Nat) (old new : PeerVector) : Prop where
  different : count ≠ old.bucketList.length
  rearranged : Rearranged old new
  length : new.bucketList.length = count
  contents : new.all.Perm (moved old.bucketList)

private def linked (count : Nat) (vectors : List (OtVector Peer)) : PeerVector :=
  if count > 1 then ⟨.buckets (vectors.map sortBucket), 0⟩
  else ⟨.members ((vectors.map sortBucket).getD 0 .empty).data, ((vectors.map sortBucket).getD 0 .empty).space⟩

private theorem Spread.linked
    (spread : Spread count (moved old.bucketList) vectors) (range : count = 1 ∨ count = 16 ∨ count = 64)
    (different : count ≠ old.bucketList.length) : Relaid count old (linked count vectors) := by
  have fits : ∀ vector ∈ vectors.map sortBucket, Fits vector := by
    intro vector member
    obtain ⟨unsorted, inside, rfl⟩ := List.mem_map.mp member
    simpa [Fits, OtVector.size, sortBucket, (qsortPeers_perm unsorted.data).length_eq] using (spread.roomy unsorted inside).1
  have both : Shaped (Redistribution.linked count vectors) ∧
      (Redistribution.linked count vectors).bucketList = vectors.map sortBucket := by
    rw [Redistribution.linked]
    split
    next several =>
      have lengths : (vectors.map sortBucket).length = 16 ∨ (vectors.map sortBucket).length = 64 := by
        rw [List.length_map, spread.length]
        omega
      exact ⟨.bucketed lengths fits, bucketList_bucketed lengths⟩
    next single =>
      have one : vectors.length = 1 := by
        rw [spread.length]
        omega
      obtain ⟨vector, rfl⟩ := List.length_eq_one_iff.mp one
      have fit : (qsortPeers vector.data).length ≤ vector.space := fits (sortBucket vector) (by simp)
      exact ⟨.plain fit, bucketList_plain fit⟩
  obtain ⟨shaped, list⟩ := both
  refine ⟨different, spread.rearranged shaped list, by rw [list, List.length_map, spread.length], ?_⟩
  rw [PeerVector.all, list]
  exact (sorted_perm vectors).trans spread.members

private theorem spread_start (peerCount count : Nat) :
    Spread count [] (List.replicate count ⟨[], bucketSizeNew (peerCount / count) (peerCount / count) otVectorMinMembers⟩) :=
  spread_replicate count _ (bucketSizeNew_pos _ _ _ (by simp [otVectorMinMembers]))

theorem vectorRedistributeBuckets_outcome (heap : Heap) (peerList : PeerList) (shaped : Shaped peerList.peers) :
    ∃ rest peers, vectorRedistributeBuckets heap peerList = (rest, { peerList with peers := peers }) ∧
      (peers = peerList.peers ∧
          (numBucketsNew peerList.peerCount peerList.peers.bucketList.length = peerList.peers.bucketList.length ∨
            Failed heap rest) ∨
        Relaid (numBucketsNew peerList.peerCount peerList.peers.bucketList.length) peerList.peers peers) := by
  have range := numBucketsNew_range peerList.peerCount _ shaped.length
  simp only [vectorRedistributeBuckets]
  generalize numBucketsNew peerList.peerCount peerList.peers.bucketList.length = count at *
  split
  next same => exact ⟨_, _, rfl, .inl ⟨rfl, .inl same⟩⟩
  next different =>
    cases outcome : allocate heap with
    | mk success middle =>
      cases success with
      | false => exact ⟨_, _, rfl, .inl ⟨rfl, .inr (allocate_failed outcome)⟩⟩
      | true =>
        have first := allocate_used outcome
        have second := allocateEach_cases middle count
        simp only []
        cases each : allocateEach middle count with
        | mk success last =>
          rw [each] at second
          cases success with
          | false => exact ⟨_, _, rfl, .inl ⟨rfl, .inr (first.failed second)⟩⟩
          | true =>
            simp only []
            rcases distributePeers_cases last count (by omega) [] (moved peerList.peers.bucketList)
              (spread_start peerList.peerCount count) with ⟨after, result, failed⟩ | ⟨after, vectors, result, spread⟩
            · rw [moved] at result
              simp only [result]
              exact ⟨_, _, rfl, .inl ⟨rfl, .inr (first.failed (Used.failed second failed))⟩⟩
            · rw [List.nil_append] at spread
              rw [moved] at result
              simp only [result]
              refine ⟨after, linked count vectors, ?_, .inr (spread.linked range different)⟩
              rw [linked]
              split <;> rfl

theorem vectorRedistributeBuckets_cases (heap : Heap) (peerList : PeerList) (shaped : Shaped peerList.peers) :
    ∃ rest peers, vectorRedistributeBuckets heap peerList = (rest, { peerList with peers := peers }) ∧
      (peers = peerList.peers ∨
        Relaid (numBucketsNew peerList.peerCount peerList.peers.bucketList.length) peerList.peers peers) := by
  obtain ⟨rest, peers, result, ⟨same, _⟩ | relaid⟩ := vectorRedistributeBuckets_outcome heap peerList shaped
  · exact ⟨rest, peers, result, .inl same⟩
  · exact ⟨rest, peers, result, .inr relaid⟩

private theorem allocateEach_nil (count : Nat) : allocateEach [] count = (true, []) := by
  induction count with
  | zero => rfl
  | succ count ih => simpa [allocateEach, allocate] using ih

private theorem distributePeers_nil (vectors : List (OtVector Peer)) (peers : List Peer) :
    ∃ final, distributePeers [] vectors peers = ([], some final) := by
  induction peers generalizing vectors with
  | nil => exact ⟨vectors, rfl⟩
  | cons peer rest ih =>
    have placed : ∃ next, distributePeer [] vectors peer = ([], some next) := by
      simp only [distributePeer, allocate]
      split_ifs <;> exact ⟨_, rfl⟩
    obtain ⟨next, result⟩ := placed
    simp only [distributePeers, result]
    exact ih next

theorem vectorRedistributeBuckets_relaid (peerList : PeerList) (shaped : Shaped peerList.peers)
    (different : numBucketsNew peerList.peerCount peerList.peers.bucketList.length ≠ peerList.peers.bucketList.length) :
    Relaid (numBucketsNew peerList.peerCount peerList.peers.bucketList.length) peerList.peers
      (vectorRedistributeBuckets [] peerList).2.peers := by
  have range := numBucketsNew_range peerList.peerCount _ shaped.length
  simp only [vectorRedistributeBuckets, if_neg different, allocate, allocateEach_nil]
  generalize numBucketsNew peerList.peerCount peerList.peers.bucketList.length = count at *
  obtain ⟨final, result⟩ := distributePeers_nil
    (List.replicate count ⟨[], bucketSizeNew (peerList.peerCount / count) (peerList.peerCount / count) otVectorMinMembers⟩)
    (moved peerList.peers.bucketList)
  rcases distributePeers_cases [] count (by omega) [] (moved peerList.peers.bucketList)
    (spread_start peerList.peerCount count) with ⟨after, failed, _⟩ | ⟨after, vectors, same, spread⟩
  · rw [result] at failed
    cases failed
  · rw [List.nil_append] at spread
    rw [moved] at same
    simp only [same]
    have relaid := spread.linked range different
    rw [linked] at relaid
    split at relaid
    next several =>
      simp only [if_pos several]
      exact relaid
    next single =>
      simp only [if_neg single]
      exact relaid

end BtServer.Proofs.Redistribution

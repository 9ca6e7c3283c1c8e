import BtServer.Lib.Rotation
import BtServer.Proofs.PeerListInvariant

/-! The peers named in a reply. `return_peers_selection` walks round the peers of all
buckets in steps whose sum never exceeds the number of peers, so it never comes to a
peer twice. -/

namespace BtServer.Proofs.PeerSelection
open Lib PeerListShape PeerListInvariant

variable {index amount offset : Nat} {peers : List Peer}

section Block

theorem put_all (peers : List Peer) (block : PeerBlock) : peers.foldl PeerBlock.put block =
      ⟨block.front ++ (peers.filter fun peer => !peer.seeding).map Peer.addr,
        ((peers.filter Peer.seeding).map Peer.addr).reverse ++ block.back, block.amount⟩ := by
  induction peers generalizing block with
  | nil => simp
  | cons peer rest ih =>
    rw [List.foldl_cons, ih]
    cases seeding : peer.seeding <;> simp [PeerBlock.put, seeding]

theorem entries_perm (peers : List Peer) (amount : Nat) :
    (peers.foldl PeerBlock.put (.empty amount)).entries.Perm (peers.map Peer.addr) := by
  rw [put_all]
  simp only [PeerBlock.empty, PeerBlock.entries, List.nil_append, List.append_nil]
  calc (peers.filter fun peer => !peer.seeding).map Peer.addr ++ ((peers.filter Peer.seeding).map Peer.addr).reverse
      _ |>.Perm ((peers.filter fun peer => !peer.seeding).map Peer.addr ++ (peers.filter Peer.seeding).map Peer.addr) :=
        (List.reverse_perm _).append_left _
      _ |>.Perm ((peers.filter Peer.seeding ++ peers.filter fun peer => !peer.seeding).map Peer.addr) := by
        rw [List.map_append]
        exact List.perm_append_comm
      _ |>.Perm (peers.map Peer.addr) := (List.filter_append_perm _ peers).map _

end Block

section Walk
variable {vectors : List (OtVector Peer)}

private theorem piece_at (inside : index < vectors.length) :
    (vectors.map OtVector.data)[index]? = some (vectors.getD index .empty).data := by
  simp [inside, List.getD_eq_getElem?_getD]

/-- `skip` is the number of empty buckets ahead. A turn either skips one of them or
makes the offset smaller, after which at most all other buckets are empty. -/
theorem seekBucket_ends {fuel skip : Nat} (inside : index < vectors.length) (ahead : skip < vectors.length)
    (occupied : 0 < (vectors.getD ((index + skip) % vectors.length) .empty).size) (enough : offset * vectors.length + skip < fuel) :
    ∃ found rest, seekBucket vectors fuel index offset = some (found, rest) ∧ found < vectors.length ∧
      rest < (vectors.getD found .empty).size ∧
      beginning (vectors.map OtVector.data) found + rest ≡ beginning (vectors.map OtVector.data) index + offset
        [MOD (vectors.map OtVector.data).flatten.length] := by
  induction fuel generalizing index offset skip with
  | zero => omega
  | succ fuel ih =>
    rw [seekBucket]
    by_cases beyond : offset ≥ (vectors.getD index .empty).size
    · rw [if_pos beyond]
      have turn := beginning_turn (piece_at inside) beyond
      rw [List.length_map] at turn
      have next : (index + 1) % vectors.length < vectors.length := Nat.mod_lt _ (by omega)
      suffices ∃ skip < vectors.length, 0 < (vectors.getD (((index + 1) % vectors.length + skip) % vectors.length) .empty).size ∧
          (offset - (vectors.getD index .empty).size) * vectors.length + skip < fuel by
        obtain ⟨skip, ahead, occupied, enough⟩ := this
        obtain ⟨found, rest, ends, bound, fits, place⟩ := ih next ahead occupied enough
        exact ⟨found, rest, ends, bound, fits, place.trans turn⟩
      rcases Nat.eq_zero_or_pos (vectors.getD index .empty).size with empty | some
      · have later : skip ≠ 0 := by
          rintro rfl
          rw [Nat.add_zero, Nat.mod_eq_of_lt inside] at occupied
          omega
        refine ⟨skip - 1, by omega, ?_, by rw [empty, Nat.sub_zero]; omega⟩
        rwa [Nat.mod_add_mod, show index + 1 + (skip - 1) = index + skip by omega]
      · refine ⟨vectors.length - 1, by omega, ?_, ?_⟩
        · rwa [Nat.mod_add_mod, show index + 1 + (vectors.length - 1) = index + vectors.length by omega, Nat.add_mod_right,
            Nat.mod_eq_of_lt inside]
        · have less : (offset - (vectors.getD index .empty).size) * vectors.length + vectors.length ≤ offset * vectors.length := by
            rw [← Nat.succ_mul]
            exact Nat.mul_le_mul_right _ (by omega)
          omega
    · rw [if_neg beyond]
      exact ⟨index, offset, rfl, inside, by omega, Nat.ModEq.refl _⟩

private theorem occupied_ahead (inside : index < vectors.length) (occupied : 0 < (vectors.flatMap OtVector.data).length) :
    ∃ skip < vectors.length, 0 < (vectors.getD ((index + skip) % vectors.length) .empty).size := by
  obtain ⟨peer, member⟩ := List.exists_mem_of_length_pos occupied
  obtain ⟨vector, stored, held⟩ := List.mem_flatMap.mp member
  obtain ⟨i, bound, rfl⟩ := List.getElem_of_mem stored
  refine ⟨(i + vectors.length - index) % vectors.length, Nat.mod_lt _ (by omega), ?_⟩
  rw [Nat.add_mod_mod, show index + (i + vectors.length - index) = i + vectors.length by omega, Nat.add_mod_right,
    Nat.mod_eq_of_lt bound, List.getD_eq_getElem?_getD, List.getElem?_eq_getElem bound]
  exact List.length_pos_of_mem held

theorem seekBucket_found {index offset : Nat} (inside : index < vectors.length)
    (occupied : 0 < (vectors.flatMap OtVector.data).length) :
    ∃ found rest peer, seekBucket vectors ((offset + 1) * vectors.length + 1) index offset = some (found, rest) ∧
      found < vectors.length ∧ (vectors.getD found .empty).data[rest]? = some peer ∧
      beginning (vectors.map OtVector.data) found + rest < (vectors.flatMap OtVector.data).length ∧
      beginning (vectors.map OtVector.data) found + rest ≡ beginning (vectors.map OtVector.data) index + offset
        [MOD (vectors.flatMap OtVector.data).length] ∧
      (vectors.flatMap OtVector.data)[beginning (vectors.map OtVector.data) found + rest]? = some peer := by
  obtain ⟨skip, ahead, here⟩ := occupied_ahead inside occupied
  have enough : offset * vectors.length + skip < (offset + 1) * vectors.length + 1 := by
    rw [Nat.succ_mul]
    omega
  obtain ⟨found, rest, ends, bound, fits, place⟩ := seekBucket_ends inside ahead here enough
  have peer := List.getElem?_eq_getElem fits
  have listed := (flatten_at (piece_at bound) fits).trans peer
  rw [← List.flatMap_def] at place listed
  exact ⟨found, rest, _, ends, bound, peer, (List.getElem?_eq_some_iff.mp listed).1, place, listed⟩

end Walk

section Steps
variable {shiftedStep shift : Nat}

theorem diff_pos (coarse : 2 ^ shift ≤ shiftedStep) (amount : Nat) :
    amount * shiftedStep / 2 ^ shift < (amount + 1) * shiftedStep / 2 ^ shift := by
  calc amount * shiftedStep / 2 ^ shift < amount * shiftedStep / 2 ^ shift + 1 := Nat.lt_succ_self _
    _ = (amount * shiftedStep + 2 ^ shift) / 2 ^ shift := (Nat.add_div_right _ (Nat.two_pow_pos shift)).symm
    _ ≤ (amount + 1) * shiftedStep / 2 ^ shift := by
      rw [Nat.succ_mul]
      exact Nat.div_le_div_right (Nat.add_le_add_left coarse _)

/-- The loop takes the peers at rising positions, the last of which is no further than
all ranges together reach. -/
theorem selectPeers_positions {vectors : List (OtVector Peer)} (coarse : 2 ^ shift ≤ shiftedStep)
    (occupied : 0 < (vectors.flatMap OtVector.data).length) (small : (vectors.flatMap OtVector.data).length < 2 ^ 30)
    (amount : Nat) (short : amount * shiftedStep / 2 ^ shift ≤ (vectors.flatMap OtVector.data).length)
    {first : Nat} (random : List Nat) (block : PeerBlock) (inside : index < vectors.length) (near : offset < 2 ^ 30)
    (place : beginning (vectors.map OtVector.data) index + offset ≡ first [MOD (vectors.flatMap OtVector.data).length]) :
    ∃ (positions : List Nat) (peers : List Peer), positions.length = amount ∧ positions.Pairwise (· < ·) ∧
      (∀ position ∈ positions, first < position ∧ position ≤ first + amount * shiftedStep / 2 ^ shift) ∧
      peers.map some = positions.map (fun position =>
        (vectors.flatMap OtVector.data)[position % (vectors.flatMap OtVector.data).length]?) ∧
      selectPeers vectors shiftedStep shift amount index offset random block = some (peers.foldl PeerBlock.put block) := by
  induction amount generalizing index offset first random block with
  | zero => exact ⟨[], [], rfl, .nil, fun _ member => absurd member List.not_mem_nil, rfl, rfl⟩
  | succ amount ih =>
    have rises := diff_pos coarse amount
    have before := Nat.zero_le (amount * shiftedStep / 2 ^ shift)
    obtain ⟨diff, total⟩ : ∃ diff, (amount + 1) * shiftedStep / 2 ^ shift = amount * shiftedStep / 2 ^ shift + diff :=
      ⟨_, (Nat.add_sub_cancel' (le_of_lt rises)).symm⟩
    have range : ((amount + 1) * shiftedStep / 2 ^ shift - amount * shiftedStep / 2 ^ shift) % 2 ^ 32 = diff := by
      rw [total, Nat.add_sub_cancel_left]
      exact Nat.mod_eq_of_lt (by omega)
    obtain ⟨value, rest, drawn⟩ : ∃ value rest, draw random = (value, rest) := ⟨_, _, rfl⟩
    have less : value % diff < diff := Nat.mod_lt _ (by omega)
    have moved : (offset + 1 + value % diff) % 2 ^ 32 = offset + 1 + value % diff := Nat.mod_eq_of_lt (by omega)
    obtain ⟨found, further, peer, sought, bound, stored, fits, arrived, listed⟩ :=
      @seekBucket_found vectors index (offset + 1 + value % diff) inside occupied
    have arrived : beginning (vectors.map OtVector.data) found + further ≡ first + (1 + value % diff)
        [MOD (vectors.flatMap OtVector.data).length] := by
      refine arrived.trans ?_
      rw [show offset + 1 + value % diff = offset + (1 + value % diff) by omega, ← Nat.add_assoc]
      exact place.add_right _
    obtain ⟨positions, peers, length, rising, window, named, selected⟩ :=
      ih (by omega) rest (block.put peer) bound (by omega) arrived
    refine ⟨(first + (1 + value % diff)) :: positions, peer :: peers, by simp [length], ?_, ?_, ?_, ?_⟩
    · exact List.pairwise_cons.mpr ⟨fun position member => (window position member).1, rising⟩
    · intro position member
      rcases List.mem_cons.mp member with rfl | later
      · omega
      · have between := window position later
        omega
    · rw [List.map_cons, List.map_cons, named, ← arrived, Nat.mod_eq_of_lt fits, listed]
    · simp only [selectPeers, range, drawn, moved]
      rw [if_neg (by omega), sought]
      simp only [stored]
      rw [selected]
      rfl

/-- The selection comes to its end if every range has a peer in it. -/
theorem selectPeers_isSome {vectors : List (OtVector Peer)} (occupied : 0 < (vectors.flatMap OtVector.data).length)
    (positive : 0 < amount) (fits : amount * shiftedStep < 2 ^ 32) (random : List Nat) (block : PeerBlock)
    (inside : index < vectors.length) :
    (selectPeers vectors shiftedStep shift amount index offset random block).isSome ↔ 2 ^ shift ≤ shiftedStep := by
  induction amount generalizing index offset random block with
  | zero => omega
  | succ amount ih =>
    have bound : (amount + 1) * shiftedStep / 2 ^ shift - amount * shiftedStep / 2 ^ shift < 2 ^ 32 :=
      lt_of_le_of_lt ((Nat.sub_le _ _).trans (Nat.div_le_self _ _)) fits
    simp only [selectPeers, Nat.mod_eq_of_lt bound]
    by_cases level : (amount + 1) * shiftedStep / 2 ^ shift - amount * shiftedStep / 2 ^ shift = 0
    · have fine : ¬ 2 ^ shift ≤ shiftedStep := fun coarse => by
        have rises := diff_pos coarse amount
        omega
      simp [level, fine]
    · obtain ⟨found, rest, peer, sought, within, stored, -⟩ := @seekBucket_found vectors index
        ((offset + 1 + (draw random).1 % ((amount + 1) * shiftedStep / 2 ^ shift - amount * shiftedStep / 2 ^ shift)) % 2 ^ 32)
        inside occupied
      rw [if_neg level, sought]
      simp only [stored]
      cases amount with
      | zero =>
        have coarse : 2 ^ shift ≤ shiftedStep := by
          by_contra fine
          simp [Nat.div_eq_of_lt (not_le.mp fine)] at level
        simp [selectPeers, coarse]
      | succ amount => exact ih (by omega) (lt_of_le_of_lt (Nat.mul_le_mul_right _ (Nat.le_succ _)) fits) _ _ within

theorem shiftPeerCount_ends {more fuel shiftedPc : Nat} (low : 2 ^ 29 ≤ shiftedPc % 2 ^ 30 * 2 ^ more)
    (high : shiftedPc % 2 ^ 30 * 2 ^ more < 2 ^ 30) (enough : more < fuel) (word : shiftedPc < 2 ^ 32) :
    shiftPeerCount fuel shiftedPc shift = some (shiftedPc * 2 ^ more % 2 ^ 32, shift + more) := by
  induction more generalizing fuel shiftedPc shift with
  | zero =>
    obtain ⟨fuel, rfl⟩ := Nat.exists_eq_succ_of_ne_zero (Nat.ne_zero_of_lt enough)
    have bit : shiftedPc / 2 ^ 29 % 2 = 1 := by omega
    rw [shiftPeerCount, if_pos bit, Nat.pow_zero, Nat.mul_one, Nat.mod_eq_of_lt word, Nat.add_zero]
  | succ more ih =>
    obtain ⟨fuel, rfl⟩ := Nat.exists_eq_succ_of_ne_zero (Nat.ne_zero_of_lt enough)
    rw [show 2 ^ (more + 1) = 2 * 2 ^ more from Nat.pow_succ', ← Nat.mul_assoc] at low high
    have below : shiftedPc % 2 ^ 30 < 2 ^ 29 := by
      have least := Nat.le_mul_of_pos_right (shiftedPc % 2 ^ 30 * 2) (Nat.two_pow_pos more)
      omega
    have bit : ¬ shiftedPc / 2 ^ 29 % 2 = 1 := by omega
    have next : shiftedPc * 2 % 2 ^ 32 % 2 ^ 30 = shiftedPc % 2 ^ 30 * 2 := by omega
    rw [shiftPeerCount, if_neg bit, ih (by rwa [next]) (by rwa [next]) (by omega) (Nat.mod_lt _ (by norm_num)),
      Nat.mod_mul_mod, Nat.mul_assoc, ← Nat.pow_succ', Nat.add_assoc, Nat.add_comm 1]

theorem shiftPeerCount_endless (fuel : Nat) {shiftedPc : Nat} (zero : shiftedPc % 2 ^ 30 = 0) :
    shiftPeerCount fuel shiftedPc shift = none := by
  induction fuel generalizing shiftedPc shift with
  | zero => rfl
  | succ fuel ih =>
    have bit : ¬ shiftedPc / 2 ^ 29 % 2 = 1 := by omega
    rw [shiftPeerCount, if_neg bit]
    exact ih (by omega)

theorem top_shifted {low : Nat} (some : low ≠ 0) (small : low < 2 ^ 30) :
    2 ^ 29 ≤ low * 2 ^ (29 - Nat.log2 low) ∧ low * 2 ^ (29 - Nat.log2 low) < 2 ^ 30 := by
  have top : Nat.log2 low < 30 := (Nat.log2_lt some).mpr small
  have least := Nat.mul_le_mul_right (2 ^ (29 - Nat.log2 low)) (Nat.log2_self_le some)
  have most := Nat.mul_lt_mul_of_pos_right (@Nat.lt_log2_self low) (Nat.two_pow_pos (29 - Nat.log2 low))
  rw [← Nat.pow_add] at least most
  rw [show Nat.log2 low + (29 - Nat.log2 low) = 29 by omega] at least
  rw [show Nat.log2 low + 1 + (29 - Nat.log2 low) = 30 by omega] at most
  exact ⟨least, most⟩

/-- The number of peers is shifted until its highest bit of the first thirty is bit 29. -/
theorem shiftPeerCount_eq {shiftedPc : Nat} (some : shiftedPc % 2 ^ 30 ≠ 0) (word : shiftedPc < 2 ^ 32) :
    shiftPeerCount 32 shiftedPc 0 = .some (shiftedPc * 2 ^ (29 - Nat.log2 (shiftedPc % 2 ^ 30)) % 2 ^ 32,
      29 - Nat.log2 (shiftedPc % 2 ^ 30)) := by
  obtain ⟨least, most⟩ := top_shifted some (Nat.mod_lt _ (by norm_num))
  rw [shiftPeerCount_ends least most (by omega) word, Nat.zero_add]

end Steps

section Replies
variable {peerList : PeerList}

structure Chosen (peerList : PeerList) (amount : Nat) (peers : List Peer) : Prop where
  length : peers.length = amount
  stored : ∀ peer ∈ peers, peer ∈ peerList.peers.all
  distinct : (peers.map Peer.addr).Nodup

theorem addrs_distinct (sound : Sound peerList) : (peerList.peers.all.map Peer.addr).Nodup :=
  List.pairwise_map.mpr ((List.pairwise_map.mp sound.distinct).imp fun differ same => differ (Peer.key_eq_iff.mpr same))

private theorem chosen_positions (sound : Sound peerList) {positions : List Nat}
    (different : (positions.map (· % peerList.peers.all.length)).Nodup)
    (named : peers.map some = positions.map fun position => peerList.peers.all[position % peerList.peers.all.length]?) :
    Chosen peerList positions.length peers := by
  have listed : ∀ peer ∈ peers, ∃ position ∈ positions,
      peerList.peers.all[position % peerList.peers.all.length]? = some peer := by
    intro peer member
    have inside : some peer ∈ peers.map some := List.mem_map_of_mem member
    rw [named] at inside
    exact List.mem_map.mp inside
  refine ⟨by simpa using congrArg List.length named, ?_, ?_⟩
  · intro peer member
    obtain ⟨position, -, found⟩ := listed peer member
    exact List.mem_of_getElem? found
  · have addrs : (peers.map Peer.addr).map some =
        positions.map fun position => (peerList.peers.all.map Peer.addr)[position % peerList.peers.all.length]? := by
      have mapped := congrArg (List.map (Option.map Peer.addr)) named
      simpa [Function.comp_def] using mapped
    refine List.Nodup.of_map some ?_
    rw [addrs]
    refine List.pairwise_map.mpr ((List.pairwise_map.mp different).imp_of_mem ?_)
    intro first second member _ differ same
    obtain ⟨peer, -, found⟩ : ∃ peer ∈ peers, peerList.peers.all[first % peerList.peers.all.length]? = some peer := by
      have inside : peerList.peers.all[first % peerList.peers.all.length]? ∈ peers.map some := by
        rw [named]
        exact List.mem_map_of_mem member
      obtain ⟨peer, held, same⟩ := List.mem_map.mp inside
      exact ⟨peer, held, same.symm⟩
    have bound := (List.getElem?_eq_some_iff.mp found).1
    exact differ ((List.getElem?_inj (by simpa using bound) (addrs_distinct sound)).mp same)

/-- What is left of the number of peers when its bits more than two above the highest of the first
thirty are lost. -/
def counted (peerCount : Nat) : Nat := peerCount % 2 ^ (Nat.log2 (peerCount % 2 ^ 30) + 3)

theorem returnPeersSelection_isSome (shaped : Shaped peerList.peers) (occupied : peerList.peers.all ≠ [])
    (positive : 0 < amount) (random : List Nat) : (returnPeersSelection random peerList amount).isSome ↔
      peerList.peerCount % 2 ^ 30 ≠ 0 ∧ amount ≤ counted peerList.peerCount := by
  have low : peerList.peerCount % 2 ^ 32 % 2 ^ 30 = peerList.peerCount % 2 ^ 30 := Nat.mod_mod_of_dvd _ (by norm_num)
  rw [returnPeersSelection]
  by_cases none : peerList.peerCount % 2 ^ 30 = 0
  · rw [shiftPeerCount_endless 32 (low.trans none)]
    exact iff_of_false nofun fun wanted => wanted.1 none
  have top : Nat.log2 (peerList.peerCount % 2 ^ 30) < 30 := (Nat.log2_lt none).mpr (Nat.mod_lt _ (by norm_num))
  rw [shiftPeerCount_eq (low.symm ▸ none) (Nat.mod_lt _ (by norm_num)), low, counted]
  generalize Nat.log2 (peerList.peerCount % 2 ^ 30) = highest at top ⊢
  have kept : peerList.peerCount % 2 ^ 32 * 2 ^ (29 - highest) % 2 ^ 32 =
      peerList.peerCount % 2 ^ (highest + 3) * 2 ^ (29 - highest) := by
    rw [Nat.mod_mul_mod, ← Nat.mul_mod_mul_right, ← Nat.pow_add, show highest + 3 + (29 - highest) = 32 by omega]
  rw [kept]
  have word : peerList.peerCount % 2 ^ (highest + 3) * 2 ^ (29 - highest) < 2 ^ 32 := kept ▸ Nat.mod_lt _ (by norm_num)
  have inside : 0 < peerList.peers.bucketList.length := by
    have lengths := shaped.length
    omega
  simp only
  rw [selectPeers_isSome (List.length_pos_of_ne_nil occupied) positive (lt_of_le_of_lt (Nat.mul_div_le _ _) word) _ _ inside,
    Nat.le_div_iff_mul_le positive, Nat.mul_comm, Nat.mul_le_mul_right_iff (Nat.two_pow_pos _)]
  exact (and_iff_right none).symm

/-- The selection ends whenever the peers are counted, whatever their order is. -/
theorem returnPeersSelection_positions (shaped : Shaped peerList.peers)
    (count : peerList.peerCount = (peerList.peers.bucketList.flatMap OtVector.data).length)
    (small : peerList.peerCount < 2 ^ 30) (positive : 0 < amount) (fewer : amount < peerList.peerCount) (random : List Nat) :
    ∃ (positions : List Nat) (peers : List Peer), positions.length = amount ∧
      (positions.map (· % peerList.peers.all.length)).Nodup ∧
      peers.map some = positions.map (fun position => peerList.peers.all[position % peerList.peers.all.length]?) ∧
      returnPeersSelection random peerList amount = some (peers.foldl PeerBlock.put (.empty amount)) := by
  have most := (top_shifted (by omega) small).2
  have shifted := @shiftPeerCount_eq peerList.peerCount (by omega) (by omega)
  rw [Nat.mod_eq_of_lt small, Nat.mod_eq_of_lt (by omega)] at shifted
  generalize 29 - Nat.log2 peerList.peerCount = shift at shifted
  obtain ⟨value, rest, drawn⟩ : ∃ value rest, draw random = (value, rest) := ⟨_, _, rfl⟩
  have coarse : 2 ^ shift ≤ peerList.peerCount * 2 ^ shift / amount := by
    rw [Nat.le_div_iff_mul_le positive, Nat.mul_comm]
    exact Nat.mul_le_mul_right _ (le_of_lt fewer)
  have short : amount * (peerList.peerCount * 2 ^ shift / amount) / 2 ^ shift ≤ peerList.peerCount := by
    refine le_trans (Nat.div_le_div_right (Nat.mul_div_le _ _)) ?_
    rw [Nat.mul_div_cancel _ (Nat.two_pow_pos shift)]
  have inside : 0 < peerList.peers.bucketList.length := by
    have lengths := shaped.length
    omega
  have start : value % peerList.peerCount < peerList.peerCount := Nat.mod_lt _ (by omega)
  obtain ⟨positions, peers, length, rising, window, named, selected⟩ :=
    selectPeers_positions coarse (by omega) (by omega) amount (by omega) rest (.empty amount) inside (by omega)
      (Nat.ModEq.refl (beginning (peerList.peers.bucketList.map OtVector.data) 0 + value % peerList.peerCount))
  refine ⟨positions, peers, length, ?_, named, ?_⟩
  · refine rising_distinct rising fun position member => ⟨(window position member).1, ?_⟩
    have high := (window position member).2
    rw [PeerVector.all, ← count]
    omega
  · rw [returnPeersSelection, Nat.mod_eq_of_lt (by omega), shifted]
    simp only [drawn]
    exact selected

theorem returnPeersSelection_chosen (sound : Sound peerList) (small : peerList.peerCount < 2 ^ 30)
    (positive : 0 < amount) (fewer : amount < peerList.peerCount) (random : List Nat) :
    ∃ peers, Chosen peerList amount peers ∧
      returnPeersSelection random peerList amount = some (peers.foldl PeerBlock.put (.empty amount)) := by
  obtain ⟨positions, peers, length, different, named, selected⟩ :=
    returnPeersSelection_positions sound.shaped sound.peerCount small positive fewer random
  exact ⟨peers, length ▸ chosen_positions sound different named, selected⟩

private theorem returned_chosen (sound : Sound peerList) (small : peerList.peerCount < 2 ^ 30) (random : List Nat)
    (most : amount ≤ peerList.peerCount) :
    ∃ peers, Chosen peerList amount peers ∧ (if amount = 0 then some (PeerBlock.empty 0)
        else if amount = peerList.peerCount then some (returnPeersAll peerList)
        else returnPeersSelection random peerList amount) = some (peers.foldl PeerBlock.put (.empty amount)) := by
  by_cases none : amount = 0
  · subst none
    exact ⟨[], ⟨rfl, by simp, .nil⟩, by simp⟩
  rw [if_neg none]
  by_cases all : amount = peerList.peerCount
  · subst all
    refine ⟨peerList.peers.all, ⟨sound.peerCount.symm, fun _ member => member, addrs_distinct sound⟩, ?_⟩
    rw [if_pos rfl, returnPeersAll]
  · rw [if_neg all]
    exact returnPeersSelection_chosen sound small (by omega) (by omega) random

private theorem entries_bytes (length : peers.length = amount) :
    (peers.foldl PeerBlock.put (.empty amount)).entries.flatten.length = otPeerCompareSize * amount := by
  have sizes : (peers.foldl PeerBlock.put (.empty amount)).entries.flatten.length = (peers.map Peer.addr).flatten.length :=
    (entries_perm peers amount).flatten.length_eq
  rw [sizes, List.length_flatten, List.map_map, ← length, otPeerCompareSize]
  simp [Function.comp_def, Nat.mul_comm]

theorem return_peers_chosen (sound : Sound peerList) (some : 0 < peerList.peerCount) (small : peerList.peerCount < 2 ^ 30)
    (random : List Nat) (amount : Nat) (proto : Proto) :
    ∃ reply, returnPeersForTorrent random peerList amount proto = .some reply ∧
      reply.peers.amount = min amount peerList.peerCount ∧
      reply.peers.entries.length = min amount peerList.peerCount ∧
      (∀ entry ∈ reply.peers.entries, entry.length = otPeerCompareSize) ∧
      reply.peers.entries.Nodup ∧
      (∀ entry ∈ reply.peers.front, ∃ peer ∈ peerList.peers.all, peer.seeding = false ∧ peer.addr = entry) ∧
      (∀ entry ∈ reply.peers.back, ∃ peer ∈ peerList.peers.all, peer.seeding = true ∧ peer.addr = entry) ∧
      (proto = .tcp → ∃ before,
        reply.header = before ++ ascii "5:peers" ++ decimal reply.peers.entries.flatten.length ++ ascii ":") := by
  obtain ⟨wanted, clipped⟩ : ∃ wanted, wanted = min amount peerList.peerCount := ⟨_, rfl⟩
  have cut : (if amount > peerList.peerCount then peerList.peerCount else amount) = wanted := by
    rw [clipped]
    split <;> omega
  obtain ⟨peers, chosen, block⟩ := returned_chosen sound small (draw random).2 (clipped ▸ Nat.min_le_right _ _ : wanted ≤ _)
  have listed := entries_perm peers wanted
  have shape := put_all peers (.empty wanted)
  simp only [returnPeersForTorrent, cut, block, Option.map_some, ← clipped]
  refine ⟨_, rfl, by rw [shape]; rfl, ?_, ?_, ?_, ?_, ?_, ?_⟩
  · rw [listed.length_eq, List.length_map, chosen.length]
  · intro entry member
    obtain ⟨peer, -, rfl⟩ := List.mem_map.mp (listed.mem_iff.mp member)
    exact peer.addr_length
  · exact listed.nodup_iff.mpr chosen.distinct
  · intro entry member
    rw [shape] at member
    simp only [PeerBlock.empty, List.nil_append, List.mem_map, List.mem_filter, Bool.not_eq_true'] at member
    obtain ⟨peer, ⟨held, leeching⟩, rfl⟩ := member
    exact ⟨peer, chosen.stored peer held, leeching, rfl⟩
  · intro entry member
    rw [shape] at member
    simp only [PeerBlock.empty, List.append_nil, List.mem_reverse, List.mem_map, List.mem_filter] at member
    obtain ⟨peer, ⟨held, seeding⟩, rfl⟩ := member
    exact ⟨peer, chosen.stored peer held, seeding, rfl⟩
  · rintro rfl
    have bytes : otPeerCompareSize * wanted < 2 ^ 63 := by
      rw [otPeerCompareSize, clipped]
      omega
    have word : ascii "e5:peers" = ascii "e" ++ ascii "5:peers" := rfl
    simp only [entries_bytes chosen.length, sizeDecimal_small bytes, word, ← List.append_assoc]
    exact ⟨_, rfl⟩

def withPeer (port flag : UInt8) (peerList : PeerList) : PeerList :=
  (announcePeer [] 0 peerList ⟨.replicate 4 10, .replicate 2 port, flag, 0⟩).1

def threePeers : PeerList := withPeer 3 0 (withPeer 2 peerFlagSeeding (withPeer 1 0 .zero))

private theorem threePeers_sound : Sound threePeers :=
  announcePeer_sound _ _ _ (announcePeer_sound _ _ _ (announcePeer_sound _ _ _ (sound_zero 0 0) (by decide)) (by decide)) (by decide)

theorem return_peers_chosen_two : ∃ reply, returnPeersForTorrent [0, 0] threePeers 2 .tcp = .some reply ∧
      reply.peers.front = [[10, 10, 10, 10, 3, 3]] ∧ reply.peers.back = [[10, 10, 10, 10, 2, 2]] ∧
      reply.peers.entries.Nodup := by
  obtain ⟨reply, returned, -, -, -, distinct, -⟩ :=
    return_peers_chosen threePeers_sound (by decide) (by decide) [0, 0] 2 .tcp
  have peers : (returnPeersForTorrent [0, 0] threePeers 2 .tcp).map Reply.peers =
      .some ⟨[[10, 10, 10, 10, 3, 3]], [[10, 10, 10, 10, 2, 2]], 2⟩ := by decide +kernel
  rw [returned, Option.map_some, Option.some.injEq] at peers
  exact ⟨reply, returned, by rw [peers], by rw [peers], distinct⟩

end Replies

end BtServer.Proofs.PeerSelection

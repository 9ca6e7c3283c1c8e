import BtServer.PeerMap
import BtServer.Proofs.PeerListInvariant

/-! The edits of a sound peer list are the edits of the map it stands for. -/

namespace BtServer.Proofs.PeerMapEdits
open Lib PeerListShape PeerListEdits Redistribution Cleaning PeerListInvariant

variable {peerList : PeerList} {peer : Peer} {addr : Bytes} {now : Int}

theorem addrs_nodup (sound : Sound peerList) : (peerList.peers.all.map Peer.addr).Nodup :=
  List.Nodup.of_map bigEndian (by rw [List.map_map]; exact sound.distinct)

theorem toMap_eq_some (sound : Sound peerList) {flag age : UInt8} :
    peerList.peers.toMap addr = some (flag, age) ↔
      ∃ peer ∈ peerList.peers.all, peer.addr = addr ∧ peer.flag = flag ∧ peer.time = age := by
  simp only [PeerVector.toMap, Option.map_eq_some_iff, lookup_eq_some (addrs_nodup sound), Prod.mk.injEq, and_assoc]

theorem toMap_of_mem (sound : Sound peerList) (member : peer ∈ peerList.peers.all) :
    peerList.peers.toMap peer.addr = some (peer.flag, peer.time) :=
  (toMap_eq_some sound).mpr ⟨peer, member, rfl, rfl, rfl⟩

theorem toMap_eq_none {peers : PeerVector} :
    peers.toMap addr = none ↔ ∀ peer ∈ peers.all, peer.addr ≠ addr := by
  rw [PeerVector.toMap, Option.map_eq_none_iff, lookup_eq_none]

private theorem toMap_congr {other : PeerList} (sound : Sound peerList) (sound' : Sound other)
    (same : ∀ peer : Peer, peer.addr = addr → (peer ∈ peerList.peers.all ↔ peer ∈ other.peers.all)) :
    peerList.peers.toMap addr = other.peers.toMap addr := by
  rw [PeerVector.toMap, PeerVector.toMap, lookup_congr (addrs_nodup sound) (addrs_nodup sound') same]

/-- Capping the minutes at `OT_PEER_TIMEOUT` makes no difference. -/
private theorem survivors_elapsed (now : Int) (peerList : PeerList) (peers : List Peer) :
    survivors (elapsed now peerList) peers = survivors (now - peerList.base) peers := by
  by_cases short : now - peerList.base ≤ otPeerTimeout
  · rw [elapsed, min_eq_left short]
  · have nothing : ∀ timedout, otPeerTimeout ≤ timedout → survivors timedout peers = [] := by
      intro timedout long
      simp only [survivors, List.map_eq_nil_iff, List.filter_eq_nil_iff]
      intro peer _
      simp only [expires, Bool.not_eq_true', Bool.not_eq_false, decide_eq_true_eq]
      omega
    rw [nothing _ (by unfold elapsed; omega), nothing _ (by omega)]

theorem cleaned_toMap {result : PeerList × Bool} (cleaned : Cleaned now peerList result)
    (sound : Sound peerList) (small : peerList.peerCount < 2 ^ 31) (stays : result.2 = false)
    (moved : now - peerList.base ≠ 0) : result.1.peers.toMap = peerList.peers.toMap.expire (now - peerList.base) := by
  have sound' := (cleaned_sound cleaned sound small).1
  cases cleaned with
  | current same => exact absurd same moved
  | late idle => cases stays
  | vacant idle empty =>
    have nothing : peerList.peers.all = [] := List.eq_nil_of_length_eq_zero (by rw [← sound.peerCount, empty])
    funext addr
    have absent : peerList.peers.toMap addr = none := toMap_eq_none.mpr (by simp [nothing])
    simp only [PeerMap.expire, absent]
  | @swept peers remaining _ recent occupied counted swept =>
    obtain ⟨_, contents⟩ := swept.whole sound.ordered (sound.bucket_small (small.trans (by norm_num)))
    rw [survivors_elapsed] at contents
    funext addr
    simp only [PeerMap.expire]
    cases before : peerList.peers.toMap addr with
    | none =>
      refine toMap_eq_none.mpr fun peer member => ?_
      obtain ⟨old, inside, _, rfl⟩ := mem_survivors.mp (contents.mem_iff.mp member)
      exact toMap_eq_none.mp before old inside
    | some value =>
      obtain ⟨flag, age⟩ := value
      obtain ⟨old, inside, rfl, rfl, rfl⟩ := (toMap_eq_some sound).mp before
      dsimp only
      split
      next young =>
        exact (toMap_eq_some sound').mpr
          ⟨aged (now - peerList.base) old, contents.mem_iff.mpr (mem_survivors.mpr ⟨old, inside, young, rfl⟩), rfl, rfl, rfl⟩
      next expired =>
        refine toMap_eq_none.mpr fun peer member same => ?_
        obtain ⟨other, inside', young, rfl⟩ := mem_survivors.mp (contents.mem_iff.mp member)
        have equal := (toMap_of_mem sound inside').symm.trans ((congrArg _ same).trans (toMap_of_mem sound inside))
        simp only [Option.some.injEq, Prod.mk.injEq] at equal
        rw [equal.2] at young
        exact expired young

private theorem or_completed (flag old : UInt8) :
    flag ||| (old &&& peerFlagCompleted) = if old &&& peerFlagCompleted != 0 then flag ||| peerFlagCompleted else flag := by
  have bit : ∀ old : UInt8, old &&& peerFlagCompleted = 0 ∨ old &&& peerFlagCompleted = peerFlagCompleted :=
    forall_byte (by decide +kernel)
  rcases bit old with zero | one
  · simp [zero]
  · simp [one, show peerFlagCompleted ≠ 0 by decide]

theorem renewed_flag (old peer : Peer) :
    (renewed old peer).flag = sanitizeFlag peer.flag ||| (old.flag &&& peerFlagCompleted) := by
  rw [or_completed]
  unfold renewed Peer.completed
  split <;> rfl

theorem apart (sound : Sound peerList) {left right : List (OtVector Peer)} {before after : List Peer} {edited : Peer} {space : Nat}
    (split : peerList.peers.bucketList = left ++ ⟨before ++ edited :: after, space⟩ :: right) :
    ∀ other ∈ left.flatMap OtVector.data ++ (before ++ after ++ right.flatMap OtVector.data), other.addr ≠ edited.addr := by
  have distinct := addrs_nodup sound
  rw [all_split split] at distinct
  have moved : (edited.addr ::
      (left.flatMap OtVector.data ++ (before ++ after ++ right.flatMap OtVector.data)).map Peer.addr).Nodup := by
    refine (List.Perm.nodup_iff ?_).mp distinct
    simp only [List.map_append, List.map_cons, List.append_assoc, List.cons_append]
    exact (List.Perm.append_left _ List.perm_middle).trans List.perm_middle
  intro other member same
  exact (List.nodup_cons.mp moved).1 (List.mem_map.mpr ⟨other, member, same⟩)

theorem announced_toMap {result : PeerList × Option (List StatsEvent)}
    (announced : Announced now peerList peer result) (served : result.2.isSome) (sound : Sound peerList)
    (small : peerList.peerCount < 2 ^ 31) :
    result.1.peers.toMap = Function.update peerList.peers.toMap peer.addr
      (some (sanitizeFlag peer.flag ||| peerList.peers.toMap.completedBit peer.addr, 0)) := by
  have sound' := announced_sound announced sound small
  funext addr
  cases announced with
  | refused => cases served
  | @inserted left right before after space room peers split index cut shaped edited =>
    simp only at sound' ⊢
    have absent : ∀ other ∈ peerList.peers.all, other.addr ≠ peer.addr := by
      intro other member
      rw [all_split split] at member
      exact apart sound' edited other member
    by_cases here : addr = peer.addr
    · subst here
      rw [Function.update_self]
      refine (toMap_eq_some sound').mpr ⟨fresh peer, by simp [all_split edited], fresh_addr peer, ?_, rfl⟩
      rw [PeerMap.completedBit, toMap_eq_none.mpr absent]
      simp [fresh]
    · rw [Function.update_of_ne here]
      refine toMap_congr sound' sound fun other same => ?_
      have different : other ≠ fresh peer := by
        rintro rfl
        exact here (same.symm.trans (fresh_addr peer))
      simp [all_split edited, all_split split, different]
  | @renewed left right before after old space peers split index same shaped edited =>
    simp only at sound' ⊢
    have stored := toMap_of_mem sound (show old ∈ peerList.peers.all by simp [all_split split])
    rw [same] at stored
    by_cases here : addr = peer.addr
    · subst here
      rw [Function.update_self]
      refine (toMap_eq_some sound').mpr
        ⟨PeerListEdits.renewed old peer, by simp [all_split edited], renewed_addr old peer, ?_, renewed_time old peer⟩
      rw [PeerMap.completedBit, stored, renewed_flag]
    · rw [Function.update_of_ne here]
      refine toMap_congr sound' sound fun other equal => ?_
      have new : other ≠ PeerListEdits.renewed old peer := by
        rintro rfl
        exact here (equal.symm.trans (renewed_addr old peer))
      have former : other ≠ old := by
        rintro rfl
        exact here (equal.symm.trans same)
      simp [all_split edited, all_split split, new, former]

private theorem stored_in_bucket (sound : Sound peerList) {other : Peer}
    (member : other ∈ peerList.peers.all) (same : other.addr = peer.addr) :
    ∃ left right vector, peerList.peers.bucketList = left ++ vector :: right ∧
      left.length = vectorHashPeer peer peerList.peers.bucketList.length ∧ other ∈ vector.data := by
  obtain ⟨vector, inside, stored⟩ := List.mem_flatMap.mp member
  obtain ⟨left, right, split⟩ := List.append_of_mem inside
  refine ⟨left, right, vector, split, ?_, stored⟩
  have place := sound.placed left.length vector (by simp [split]) other stored
  rw [← place]
  exact vectorHashPeer_congr (Peer.key_eq_iff.mpr same) _

theorem stopped_toMap {result : PeerList} (stopped : Stopped peerList peer result)
    (sound : Sound peerList) (small : peerList.peerCount < 2 ^ 31) :
    result.peers.toMap = peerList.peers.toMap.stop peer := by
  have sound' := stopped_sound stopped sound
  funext addr
  cases stopped with
  | absent missing =>
    by_cases here : addr = peer.addr
    · subst here
      rw [PeerMap.stop, Function.update_self]
      refine toMap_eq_none.mpr fun other member same => ?_
      obtain ⟨left, right, vector, split, index, stored⟩ := stored_in_bucket sound member same
      have listed : vector ∈ peerList.peers.bucketList := by simp [split]
      exact missing left right vector split index (sound.ordered.sorted vector listed)
        (sound.bucket_small (small.trans (by norm_num)) vector listed) other stored same
    · rw [PeerMap.stop, Function.update_of_ne here]
  | @removed left right before after old space room peers split index same shaped edited =>
    simp only at sound' ⊢
    by_cases here : addr = peer.addr
    · subst here
      rw [PeerMap.stop, Function.update_self]
      refine toMap_eq_none.mpr fun other member equal => ?_
      rw [all_split edited] at member
      exact apart sound split other member (equal.trans same.symm)
    · rw [PeerMap.stop, Function.update_of_ne here]
      refine toMap_congr sound' sound fun other equal => ?_
      have former : other ≠ old := by
        rintro rfl
        exact here (equal.symm.trans same)
      simp [all_split edited, all_split split, former]

end BtServer.Proofs.PeerMapEdits

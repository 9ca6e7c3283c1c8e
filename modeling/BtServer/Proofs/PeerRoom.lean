import BtServer.ReplyBuffer
import BtServer.Proofs.PeerSelection

/-! Peers in the reply buffer. They are written to the two ends of a room that is made for exactly as many of them,
so that the pointers meet and nothing else is touched. -/

namespace BtServer.Proofs.PeerRoom
open Lib Access ReplyBuffer

section Room
variable {written spare : Bytes} {amount left : Nat} {block : PeerBlock} {room : PeerRoom}

/-- The buffer behind `written`: the peers of a block at both ends of a room for `amount` peers with space for `left` more, and
`spare`. -/
inductive Holding (written spare : Bytes) (amount left : Nat) : PeerBlock → PeerRoom → Prop where
  | room {block : PeerBlock} (gap : Bytes) (size : gap.length = otPeerCompareSize * left)
      (whole : block.front.flatten.length + gap.length + block.back.flatten.length = otPeerCompareSize * amount) :
      Holding written spare amount left block
        ⟨(written ++ block.front.flatten) ++ (gap ++ (block.back.flatten ++ spare)), (written ++ block.front.flatten).length,
          (written ++ block.front.flatten).length + gap.length⟩

theorem Holding.start {gap : Bytes} (size : gap.length = otPeerCompareSize * amount) :
    Holding written spare amount amount (.empty amount)
      ⟨written ++ (gap ++ spare), written.length, written.length + otPeerCompareSize * amount⟩ := by
  have empty : Holding written spare amount amount (.empty amount) _ := .room gap size (by simpa [PeerBlock.empty] using size)
  rw [size] at empty
  simpa [PeerBlock.empty] using empty

theorem Holding.full (holding : Holding written spare amount 0 block room) :
    room.outbuf = written ++ block.entries.flatten ++ spare ∧ block.entries.flatten.length = otPeerCompareSize * amount := by
  obtain ⟨gap, size, whole⟩ := holding
  obtain rfl : gap = [] := by simpa using size
  constructor
  · simp [PeerBlock.entries]
  · rw [PeerBlock.entries, List.flatten_append, List.length_append]
    exact whole

theorem Holding.put (holding : Holding written spare amount (left + 1) block room) (peer : Peer) :
    ∃ after, room.put peer = .ok after ∧ Holding written spare amount left (block.put peer) after := by
  obtain ⟨gap, size, whole⟩ := holding
  have six : otPeerCompareSize = 6 := rfl
  have addr := peer.addr_length
  rw [six] at size
  cases seeding : peer.seeding with
  | true =>
    obtain ⟨free, slot, rfl, slotted⟩ : ∃ free slot, gap = free ++ slot ∧ slot.length = 6 := by
      refine ⟨gap.take (6 * left), gap.drop (6 * left), (List.take_append_drop _ _).symm, ?_⟩
      rw [List.length_drop]
      omega
    rw [List.length_append, slotted] at size whole
    have here : (written ++ block.front.flatten).length + (free ++ slot).length - 6 =
        ((written ++ block.front.flatten) ++ free).length := by
      simp only [List.length_append]
      omega
    have stored : (storeBlock ((written ++ block.front.flatten) ++ ((free ++ slot) ++ (block.back.flatten ++ spare)))
        ((written ++ block.front.flatten) ++ free).length peer.addr : Access Trap Bytes) =
          .ok (((written ++ block.front.flatten) ++ free) ++ (peer.addr ++ (block.back.flatten ++ spare))) := by
      have split : (written ++ block.front.flatten) ++ ((free ++ slot) ++ (block.back.flatten ++ spare)) =
          ((written ++ block.front.flatten) ++ free) ++ (slot ++ (block.back.flatten ++ spare)) := by
        simp only [List.append_assoc]
      rw [split]
      exact storeBlock_between rfl (by rw [slotted, peer.addr_length])
    have kept : ¬ (written ++ block.front.flatten).length + (free ++ slot).length < 6 := by
      simp only [List.length_append]
      omega
    have total : (block.put peer).front.flatten.length + free.length + (block.put peer).back.flatten.length =
        otPeerCompareSize * amount := by
      simp only [PeerBlock.put, seeding, if_true, List.flatten_cons, List.length_append]
      omega
    have holds : Holding written spare amount left (block.put peer) _ := .room free (by rw [six]; omega) total
    refine ⟨_, ?_, holds⟩
    simp only [PeerRoom.put, PeerBlock.put, seeding, if_true, six, if_neg kept, here, stored, bind, Except.bind]
    simp [List.append_assoc, Nat.add_assoc]
  | false =>
    obtain ⟨slot, free, rfl, slotted⟩ : ∃ slot free, gap = slot ++ free ∧ slot.length = 6 := by
      refine ⟨gap.take 6, gap.drop 6, (List.take_append_drop _ _).symm, ?_⟩
      rw [List.length_take]
      omega
    rw [List.length_append, slotted] at size whole
    have stored : (storeBlock ((written ++ block.front.flatten) ++ ((slot ++ free) ++ (block.back.flatten ++ spare)))
        (written ++ block.front.flatten).length peer.addr : Access Trap Bytes) =
          .ok ((written ++ block.front.flatten) ++ (peer.addr ++ (free ++ (block.back.flatten ++ spare)))) := by
      rw [List.append_assoc slot]
      exact storeBlock_between rfl (by rw [slotted, peer.addr_length])
    have total : (block.put peer).front.flatten.length + free.length + (block.put peer).back.flatten.length =
        otPeerCompareSize * amount := by
      simp only [PeerBlock.put, seeding, Bool.false_eq_true, if_false, List.flatten_append, List.flatten_cons, List.flatten_nil,
        List.length_append, List.length_nil]
      omega
    have holds : Holding written spare amount left (block.put peer) _ := .room free (by rw [six]; omega) total
    refine ⟨_, ?_, holds⟩
    simp only [PeerRoom.put, PeerBlock.put, seeding, Bool.false_eq_true, if_false, stored, bind, Except.bind, six]
    simp [slotted, List.append_assoc, Nat.add_assoc]

theorem Holding.putAll {peers : List Peer} (holding : Holding written spare amount peers.length block room) :
    ∃ after, peers.foldlM PeerRoom.put room = .ok after ∧ Holding written spare amount 0 (peers.foldl PeerBlock.put block) after := by
  induction peers generalizing block room with
  | nil => exact ⟨room, rfl, holding⟩
  | cons peer peers ih =>
    obtain ⟨middle, stored, held⟩ := holding.put peer
    obtain ⟨after, ran, holds⟩ := ih held
    refine ⟨after, ?_, holds⟩
    rw [List.foldlM_cons, stored]
    exact ran

end Room

section Selection
variable {written spare : Bytes} {vectors : List (OtVector Peer)} {shiftedStep shift : Nat}

theorem seekBucket_inside {fuel index offset : Nat} {found : Nat × Nat}
    (sought : seekBucket vectors fuel index offset = some found) : found.2 < (vectors.getD found.1 .empty).data.length := by
  induction fuel generalizing index offset with
  | zero => cases sought
  | succ fuel ih =>
    rw [seekBucket] at sought
    split at sought
    next => exact ih sought
    next inside =>
      cases sought
      exact not_le.mp inside

theorem selectPeers_follows {amount : Nat} (left : Nat) {index offset : Nat} {random : List Nat} {block : PeerBlock} {room : PeerRoom}
    (holding : Holding written spare amount left block room) :
    Follows (Holding written spare amount 0) (BtServer.selectPeers vectors shiftedStep shift left index offset random block)
      (ReplyBuffer.selectPeers vectors shiftedStep shift left index offset random room) := by
  induction left generalizing index offset random block room with
  | zero => exact .returns holding
  | succ left ih =>
    rw [BtServer.selectPeers, ReplyBuffer.selectPeers]
    dsimp only
    generalize ((left + 1) * shiftedStep / 2 ^ shift - left * shiftedStep / 2 ^ shift) % 2 ^ 32 = diff
    by_cases none : diff = 0
    · rw [if_pos none, if_pos none]
      exact .stops (by rintro ⟨⟩)
    · rw [if_neg none, if_neg none]
      generalize (offset + 1 + (draw random).1 % diff) % 2 ^ 32 = offset
      cases sought : seekBucket vectors ((offset + 1) * vectors.length + 1) index offset with
      | none => exact .stops (by rintro ⟨⟩)
      | some place =>
        obtain ⟨index, offset⟩ := place
        have inside := seekBucket_inside sought
        obtain ⟨after, stored, held⟩ := holding.put (vectors.getD index .empty).data[offset]
        simp only [List.getElem?_eq_getElem inside, fetch_inside inside, stored, bind, Except.bind]
        exact ih held

end Selection

section Filled
variable {written outbuf text : Bytes}

structure Filled (written outbuf : Bytes) : Prop where
  front : written <+: outbuf
  size : outbuf.length = gOutbufSize

theorem Filled.block (filled : Filled written outbuf) (room : written.length + text.length ≤ gOutbufSize) :
    ∃ after, (storeBlock outbuf written.length text : Access Trap Bytes) = .ok after ∧ Filled (written ++ text) after := by
  obtain ⟨⟨spare, rfl⟩, size⟩ := filled
  have split : spare = spare.take text.length ++ spare.drop text.length := (List.take_append_drop _ _).symm
  rw [List.length_append] at size
  have length : (spare.take text.length).length = text.length := by
    rw [List.length_take]
    omega
  refine ⟨written ++ (text ++ spare.drop text.length), ?_, ⟨spare.drop text.length, List.append_assoc _ _ _⟩, ?_⟩
  · rw [split]
    rw [storeBlock_between rfl length, List.take_append_drop]
  · simp only [List.length_append, List.length_drop]
    omega

theorem Filled.shorter (filled : Filled (written ++ text) outbuf) : Filled written outbuf :=
  ⟨(List.prefix_append written text).trans filled.front, filled.size⟩

theorem Filled.printed (filled : Filled written outbuf) (room : written.length + text.length < gOutbufSize) :
    ∃ after, sprintf outbuf written.length text = .ok (after, (written ++ text).length) ∧ Filled (written ++ text) after := by
  obtain ⟨after, stored, filled⟩ := @Filled.block _ _ (text ++ [0]) filled (by rw [List.length_append]; exact room)
  rw [← List.append_assoc] at filled
  refine ⟨after, ?_, filled.shorter⟩
  simp only [sprintf, stored, bind, Except.bind, List.length_append]

theorem Filled.ended (filled : Filled written outbuf) (value : UInt8) (room : written.length < gOutbufSize) :
    ∃ after, (store outbuf written.length value : Access Trap Bytes) = .ok after ∧ Filled (written ++ [value]) after := by
  obtain ⟨⟨spare, rfl⟩, size⟩ := filled
  rw [List.length_append] at size
  cases spare with
  | nil =>
    rw [List.length_nil] at size
    omega
  | cons old spare =>
    refine ⟨written ++ value :: spare, store_between rfl, ⟨spare, List.append_assoc _ _ _⟩, ?_⟩
    rw [List.length_append]
    exact size

theorem Filled.room (filled : Filled written outbuf) {amount : Nat}
    (room : written.length + otPeerCompareSize * amount ≤ gOutbufSize) :
    ∃ spare, (written.length + otPeerCompareSize * amount + spare.length = gOutbufSize) ∧
      Holding written spare amount amount (.empty amount) ⟨outbuf, written.length, written.length + otPeerCompareSize * amount⟩ := by
  obtain ⟨⟨behind, rfl⟩, size⟩ := filled
  rw [List.length_append] at size
  have length : (behind.take (otPeerCompareSize * amount)).length = otPeerCompareSize * amount := by
    rw [List.length_take]
    omega
  refine ⟨behind.drop (otPeerCompareSize * amount), ?_, ?_⟩
  · rw [List.length_drop]
    omega
  · have start := @Holding.start written (behind.drop (otPeerCompareSize * amount)) amount _ length
    rwa [List.take_append_drop] at start

theorem Filled.of_full {spare : Bytes} {amount : Nat} {block : PeerBlock} {room : PeerRoom}
    (holding : Holding written spare amount 0 block room)
    (size : written.length + otPeerCompareSize * amount + spare.length = gOutbufSize) :
    Filled (written ++ block.entries.flatten) room.outbuf := by
  obtain ⟨outbuf, length⟩ := holding.full
  rw [outbuf]
  refine ⟨List.prefix_append _ _, ?_⟩
  rw [List.length_append, List.length_append, length, size]

end Filled

section Announces
variable {front outbuf : Bytes} {random : List Nat} {peerList : PeerList} {amount : Nat}

/-- The buffer and the size of the reply when a body was written behind `front`. -/
inductive Wrote (front body : Bytes) : Bytes × Nat → Prop where
  | wrote {after : Bytes} (filled : Filled (front ++ body) after) : Wrote front body (after, body.length)

theorem interval_short (value : Nat) : otClientRequestIntervalRandom value < 10 ^ 4 := by
  have variation : value % otClientRequestVariation < otClientRequestVariation := Nat.mod_lt _ (by decide)
  simp only [otClientRequestIntervalRandom, otClientRequestInterval, otClientRequestVariation] at variation ⊢
  omega

theorem length_announceText {erval : Nat} (short : erval < 10 ^ 4) (peerList : PeerList) (amount : Nat) :
    (announceText peerList erval amount).length ≤ 180 := by
  have seeds := length_sizeDecimal_le peerList.seedCount
  have downs := length_sizeDecimal_le peerList.downCount
  have rest := length_sizeDecimal_le (subSize peerList.peerCount peerList.seedCount)
  have bytes := length_sizeDecimal_le (otPeerCompareSize * amount)
  have interval : (decimal erval).length ≤ 4 := length_decimal_le (by decide) short
  have least : (decimal (erval / 2)).length ≤ 4 := length_decimal_le (by decide) (by omega)
  have texts : (ascii "d8:completei").length = 12 ∧ (ascii "e10:downloadedi").length = 15 ∧ (ascii "e10:incompletei").length = 15 ∧
      (ascii "e8:intervali").length = 12 ∧ (ascii "e12:min intervali").length = 17 ∧ (ascii "e5:peers").length = 8 ∧
      (ascii ":").length = 1 := by
    decide
  simp only [announceText, List.length_append]
  omega

inductive Put (front : Bytes) (amount : Nat) (peers : PeerBlock) : Bytes × Nat → Prop where
  | put {after : Bytes} (filled : Filled (front ++ peers.entries.flatten) after)
      (length : peers.entries.flatten.length = otPeerCompareSize * amount) :
      Put front amount peers (after, (front ++ peers.entries.flatten).length)

theorem Put.of_full {spare : Bytes} {peers : PeerBlock} {room : PeerRoom} (held : Holding front spare amount 0 peers room)
    (size : front.length + otPeerCompareSize * amount + spare.length = gOutbufSize) :
    Put front amount peers (room.outbuf, front.length + otPeerCompareSize * amount) := by
  rw [← held.full.2, ← List.length_append]
  exact .put (Filled.of_full held size) held.full.2

theorem returnPeersAll_put (filled : Filled front outbuf) (whole : peerList.peerCount = peerList.peers.all.length)
    (room : front.length + otPeerCompareSize * peerList.peerCount ≤ gOutbufSize) :
    Follows (Put front peerList.peerCount) (some (BtServer.returnPeersAll peerList))
      (ReplyBuffer.returnPeersAll peerList outbuf front.length) := by
  obtain ⟨spare, size, holding⟩ := filled.room room
  rw [whole] at holding
  obtain ⟨after, ran, held⟩ := holding.putAll
  rw [← whole] at held ran
  rw [ReplyBuffer.returnPeersAll, ran]
  exact .returns (.of_full held size)

theorem returnPeersSelection_put (filled : Filled front outbuf) (room : front.length + otPeerCompareSize * amount ≤ gOutbufSize) :
    Follows (Put front amount) (BtServer.returnPeersSelection random peerList amount)
      (ReplyBuffer.returnPeersSelection random peerList amount outbuf front.length) := by
  obtain ⟨spare, size, holding⟩ := filled.room room
  rw [BtServer.returnPeersSelection, ReplyBuffer.returnPeersSelection]
  cases shiftPeerCount 32 (peerList.peerCount % 2 ^ 32) 0 with
  | none => exact .stops (by rintro ⟨⟩)
  | some shifted =>
    obtain ⟨shiftedPc, shift⟩ := shifted
    have follows := @selectPeers_follows front spare peerList.peers.bucketList (shiftedPc / amount) shift amount amount 0
      ((draw random).1 % peerList.peerCount) (draw random).2 _ _ holding
    dsimp only at follows ⊢
    generalize BtServer.selectPeers _ _ _ _ _ _ _ _ = selected at follows ⊢
    generalize ReplyBuffer.selectPeers _ _ _ _ _ _ _ _ = ran at follows ⊢
    cases follows with
    | stops other => exact .stops other
    | returns held => exact .returns (.of_full held size)

theorem peers_put {least : Nat} (filled : Filled front outbuf)
    (whole : least = peerList.peerCount → peerList.peerCount = peerList.peers.all.length)
    (room : front.length + otPeerCompareSize * least ≤ gOutbufSize) :
    Follows (Put front least) (if least = 0 then some (PeerBlock.empty 0)
        else if least = peerList.peerCount then some (BtServer.returnPeersAll peerList)
        else BtServer.returnPeersSelection random peerList least) (writePeers random peerList least outbuf front.length) := by
  rw [writePeers]
  by_cases none : least = 0
  · rw [if_pos none, if_pos none, none]
    have empty : front ++ (PeerBlock.empty 0).entries.flatten = front := List.append_nil front
    have put := @Put.put front 0 (.empty 0) outbuf (by rw [empty]; exact filled) rfl
    rw [empty] at put
    exact .returns put
  · rw [if_neg none, if_neg none]
    by_cases all : least = peerList.peerCount
    · rw [if_pos all, if_pos all]
      rw [all] at room ⊢
      exact returnPeersAll_put filled (whole all) room
    · rw [if_neg all, if_neg all]
      exact returnPeersSelection_put filled room

theorem returnPeersForTorrent_written (filled : Filled front outbuf) (start : front.length = successHttpHeaderLength)
    (few : amount ≤ 200) (whole : peerList.peerCount ≤ amount → peerList.peerCount = peerList.peers.all.length) :
    Follows (Wrote front) ((BtServer.returnPeersForTorrent random peerList amount .tcp).map Reply.bytes)
      (ReplyBuffer.returnPeersForTorrent random peerList amount outbuf front.length) := by
  have sizes : successHttpHeaderLength = 80 ∧ gOutbufSize = 8192 ∧ otPeerCompareSize = 6 := ⟨rfl, rfl, rfl⟩
  rw [BtServer.returnPeersForTorrent, ReplyBuffer.returnPeersForTorrent]
  dsimp only
  rw [← announceText]
  generalize chosen : (if amount > peerList.peerCount then peerList.peerCount else amount) = least
  have most : least ≤ 200 ∧ (least = peerList.peerCount → peerList.peerCount ≤ amount) := by
    split at chosen <;> omega
  have short := length_announceText (interval_short (draw random).1) peerList least
  generalize announceText peerList (otClientRequestIntervalRandom (draw random).1) least = text at short ⊢
  have peers : otPeerCompareSize * least ≤ 1200 := Nat.mul_le_mul_left 6 most.1
  obtain ⟨middle, printed, begun⟩ := @Filled.printed _ _ text filled (by omega)
  have length : (front ++ text).length = front.length + text.length := List.length_append
  have put := @peers_put _ _ (draw random).2 peerList least begun (fun all => whole (most.2 all)) (by omega)
  generalize (if least = 0 then some (PeerBlock.empty 0)
    else if least = peerList.peerCount then some (BtServer.returnPeersAll peerList)
    else BtServer.returnPeersSelection (draw random).2 peerList least) = block at put ⊢
  rw [printed, Access.ok_bind]
  dsimp only
  generalize writePeers (draw random).2 peerList least middle (front ++ text).length = ran at put ⊢
  cases put with
  | stops other => exact .stops other
  | @returns peers _ put =>
    obtain ⟨filled, size⟩ := put
    have inside : (front ++ text ++ peers.entries.flatten).length < gOutbufSize := by
      rw [List.length_append, size]
      omega
    obtain ⟨last, stored, filled⟩ := filled.ended 101 inside
    rw [Access.ok_bind]
    dsimp only
    rw [stored, Access.ok_bind]
    have letter : ascii "e" = [101] := by decide
    have body : front ++ text ++ peers.entries.flatten ++ [101] = front ++ (text ++ peers.entries.flatten ++ ascii "e") := by
      rw [letter]
      simp only [List.append_assoc]
    have count : (front ++ text ++ peers.entries.flatten).length + 1 - front.length =
        (text ++ peers.entries.flatten ++ ascii "e").length := by
      rw [letter]
      simp only [List.length_append, List.length_singleton]
      omega
    rw [body] at filled
    rw [count]
    exact .returns (.wrote filled)

end Announces

end BtServer.Proofs.PeerRoom

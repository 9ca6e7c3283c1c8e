import BtServer.UdpServer
import BtServer.Proofs.VectorSearch

/-! What a UDP packet is answered with. The handler looks at the buffer up to the
length it was given, and at the rest of a hash that has only begun; a failed
receive has no length of its own. -/

namespace BtServer.Proofs.UdpPackets
open Lib

section Ids
variable (rijndaelEncrypt128 : Vector UInt32 44 → Ip6 → Vector UInt32 4)

def connectionId (roundKey : Vector UInt32 44) (remoteip : Ip6) : Bytes :=
  let crypt := rijndaelEncrypt128 roundKey remoteip
  word (crypt.get 0 ^^^ crypt.get 1) ++ word (crypt.get 2 ^^^ crypt.get 3)

theorem udpMakeConnectionid_spec (keys : UdpKeys) (now : Int) (random : UInt32) (remoteip : Ip6) (age : Fin 2) :
    (udpMakeConnectionid rijndaelEncrypt128 keys now random remoteip age).1.rijndaelRoundKey = keys.rijndaelRoundKey ∧
    (udpMakeConnectionid rijndaelEncrypt128 keys now random remoteip age).2 =
      connectionId rijndaelEncrypt128 keys.rijndaelRoundKey remoteip := by
  by_cases due : now + 60 > keys.hourOfTheKey
  · simp [udpMakeConnectionid, connectionId, due, Vector.get]
  · simp [udpMakeConnectionid, connectionId, due, Vector.get]

theorem handle_spec (server : UdpServer) (turn : UdpTurn) :
    ∃ keys : UdpKeys, keys.rijndaelRoundKey = server.keys.rijndaelRoundKey ∧ server.handle rijndaelEncrypt128 turn =
        ((handleUdp6 turn.random
          (fun _ => connectionId rijndaelEncrypt128 server.keys.rijndaelRoundKey turn.remoteip) turn.remoteip turn.age
          (turn.received.fill (server.inbuf turn.worker)) turn.received.byteCount).serve
            turn.gNowSeconds turn.heaps server.tracker).map fun (sent, tracker) =>
          (⟨keys, Function.update server.inbuf turn.worker (turn.received.fill (server.inbuf turn.worker)), tracker⟩,
            sent) := by
  have first := udpMakeConnectionid_spec rijndaelEncrypt128 server.keys turn.now turn.keyRandom[0] turn.remoteip 0
  obtain ⟨⟨keys, current⟩, made⟩ : ∃ result,
    udpMakeConnectionid rijndaelEncrypt128 server.keys turn.now turn.keyRandom[0] turn.remoteip 0 = result := ⟨_, rfl⟩
  have second := udpMakeConnectionid_spec rijndaelEncrypt128 keys turn.now turn.keyRandom[1] turn.remoteip 1
  obtain ⟨⟨older, previous⟩, again⟩ : ∃ result,
    udpMakeConnectionid rijndaelEncrypt128 keys turn.now turn.keyRandom[1] turn.remoteip 1 = result := ⟨_, rfl⟩
  simp only [made, again] at first second
  obtain ⟨same, rfl⟩ := first
  obtain ⟨kept, rfl⟩ := second
  simp only [UdpServer.handle, made, again, same, ite_self, Option.map_eq_bind]
  split
  · exact ⟨server.keys, rfl, rfl⟩
  · split
    · exact ⟨older, kept.trans same, rfl⟩
    · exact ⟨keys, same, rfl⟩

end Ids

section Buffers
variable (inbuf bytes : Bytes) (remoteip : Ip6)

private theorem fill_packet : Received.fill inbuf (.packet bytes remoteip) =
      bytes.take gInbufSize ++ inbuf.drop (bytes.take gInbufSize).length := by
  simp only [Received.fill, overwrite, List.take_zero, List.nil_append, Nat.zero_add]

theorem fill_slice (start length : Nat) (inside : start + length ≤ bytes.length) (small : start + length ≤ gInbufSize) :
    ((Received.fill inbuf (.packet bytes remoteip)).drop start).take length = (bytes.drop start).take length := by
  have fits : start + length ≤ (bytes.take gInbufSize).length := by
    rw [List.length_take]
    omega
  rw [fill_packet, List.drop_append_of_le_length (by omega), List.take_append_of_le_length (by rw [List.length_drop]; omega),
    List.drop_take, List.take_take, Nat.min_eq_left (by omega)]

theorem fill_inside {i : Nat} (inside : i < bytes.length) (small : i < gInbufSize) :
    (Received.fill inbuf (.packet bytes remoteip)).getD i 0 = bytes.getD i 0 := by
  have fits : i < (bytes.take gInbufSize).length := by
    rw [List.length_take]
    omega
  simp only [fill_packet, List.getD_eq_getElem?_getD, List.getElem?_append_left fits, List.getElem?_take, if_pos small]

theorem fill_behind {i : Nat} (behind : bytes.length ≤ i) :
    (Received.fill inbuf (.packet bytes remoteip)).getD i 0 = inbuf.getD i 0 := by
  have short : (bytes.take gInbufSize).length ≤ i := by
    rw [List.length_take]
    omega
  simp only [fill_packet, List.getD_eq_getElem?_getD, List.getElem?_append_right short, List.getElem?_drop]
  rw [Nat.add_sub_cancel' short]

variable {bytes} (header : 16 ≤ bytes.length)
include header

theorem fill_header (i : Nat) (early : i ≤ 3) : inpacket (Received.fill inbuf (.packet bytes remoteip)) i = inpacket bytes i :=
  fill_slice _ _ _ _ _ (by omega) (by unfold gInbufSize; omega)

theorem fill_id : (Received.fill inbuf (.packet bytes remoteip)).take 8 = bytes.take 8 :=
  fill_slice inbuf bytes remoteip 0 8 (by omega) (by decide)

theorem byteCount_header : 16 ≤ (Received.packet bytes remoteip).byteCount := by
  rw [Received.byteCount, List.length_take]
  exact le_min (by decide) header

end Buffers

theorem serve_none {outcome : UdpOutcome} {gNowSeconds : Int} {heaps : Nat → Heap} {tracker left : Tracker} :
    outcome.serve gNowSeconds heaps tracker = some (none, left) ↔ outcome = .ignored ∧ tracker = left := by
  cases outcome with
  | ignored => simp [UdpOutcome.serve]
  | reply bytes => simp [UdpOutcome.serve]
  | calls header made =>
    simp only [UdpOutcome.serve, reduceCtorEq, false_and, iff_false]
    cases tracker.serve gNowSeconds heaps 0 made <;> simp

theorem handleUdp6_ignored (random : List Nat) (connid : Nat → Bytes) (remoteip : Ip6) (age : UInt8)
    (inbuf : Bytes) (byteCount : Nat) :
    handleUdp6 random connid remoteip age inbuf byteCount = .ignored ↔ byteCount < 16 ∨ bigEndian (inpacket inbuf 2) > 2 ∨
      bigEndian (inpacket inbuf 2) = 0 ∧
        (bigEndian (inpacket inbuf 0) ≠ 0x00000417 ∨ bigEndian (inpacket inbuf 1) ≠ 0x27101980) ∨
      bigEndian (inpacket inbuf 2) = 1 ∧ (inbuf.take 8 = connid 0 ∨ inbuf.take 8 = connid 1) ∧ byteCount < 98 := by
  unfold handleUdp6
  obtain ⟨action, known⟩ : ∃ action, bigEndian (inpacket inbuf 2) = action := ⟨_, rfl⟩
  simp only [known]
  by_cases short : byteCount < 16 ∨ action > 2
  · simp only [if_pos short, true_iff]
    tauto
  rw [if_neg short]
  obtain ⟨long, small⟩ := not_or.mp short
  have cases : action = 0 ∨ action = 1 ∨ action = 2 := by omega
  rcases cases with rfl | rfl | rfl
  · simp only [lt_irrefl, false_and, if_false, if_true]
    split
    · tauto
    · simp only [reduceCtorEq, false_iff]
      tauto
  · by_cases missed : inbuf.take 8 ≠ connid 0 ∧ inbuf.take 8 ≠ connid 1
    · simp [long, missed]
    · rw [if_neg (by simp only [missed, and_false, not_false_eq_true])]
      have valid : inbuf.take 8 = connid 0 ∨ inbuf.take 8 = connid 1 := by tauto
      by_cases tiny : byteCount < 98 <;> simp [long, valid, tiny]
  · split <;> simp [long]

def NoEffect (rijndaelEncrypt128 : Vector UInt32 44 → Ip6 → Vector UInt32 4) (server : UdpServer) (turn : UdpTurn) : Prop :=
  ∃ after, server.handle rijndaelEncrypt128 turn = some (after, none) ∧ after.tracker = server.tracker

/-- A failed receive has an effect unless what an earlier packet left in the buffer
is one that would be ignored at any length. -/
theorem failed_receive_iff (rijndaelEncrypt128 : Vector UInt32 44 → Ip6 → Vector UInt32 4) (server : UdpServer) (turn : UdpTurn) :
    NoEffect rijndaelEncrypt128 server { turn with received := .error } ↔
      bigEndian (inpacket (server.inbuf turn.worker) 2) > 2 ∨
      bigEndian (inpacket (server.inbuf turn.worker) 2) = 0 ∧
        (bigEndian (inpacket (server.inbuf turn.worker) 0) ≠ 0x00000417 ∨
          bigEndian (inpacket (server.inbuf turn.worker) 1) ≠ 0x27101980) := by
  obtain ⟨keys, _, handled⟩ := handle_spec rijndaelEncrypt128 server { turn with received := .error }
  have quiet : NoEffect rijndaelEncrypt128 server { turn with received := .error } ↔
      handleUdp6 turn.random
        (fun _ => connectionId rijndaelEncrypt128 server.keys.rijndaelRoundKey turn.unset) turn.unset turn.age
        (server.inbuf turn.worker) (2 ^ 64 - 1) = .ignored := by
    unfold NoEffect
    rw [handled]
    constructor
    · rintro ⟨after, result, kept⟩
      obtain ⟨⟨sent, tracker⟩, served, same⟩ := Option.map_eq_some_iff.mp result
      cases same
      exact (serve_none.mp served).1
    · intro ignored
      refine ⟨_, Option.map_eq_some_iff.mpr ⟨(none, server.tracker), serve_none.mpr ⟨ignored, rfl⟩, rfl⟩, rfl⟩
  rw [quiet, handleUdp6_ignored]
  simp

def stale : UdpServer := ⟨⟨Vector.replicate 44 0, Vector.replicate 2 0, 0⟩, fun _ => (List.replicate 8192 0).set 11 1, .initial⟩

def failing : UdpTurn := ⟨0, 0, .error, Vector.replicate 16 9, 0, Vector.replicate 2 0, [], fun _ => []⟩

private theorem stale_announced :
    (stale.handle (fun _ _ => Vector.replicate 4 0) failing).map (fun result => (result.1.tracker.torrentCount, result.2.isSome)) =
      some (1, true) := by
  decide +kernel

/-- The old announce is made once more, for whatever address is on the stack. -/
theorem failed_receive_announces : ¬ NoEffect (fun _ _ => Vector.replicate 4 0) stale failing ∧
    ∃ after reply, stale.handle (fun _ _ => Vector.replicate 4 0) failing = some (after, some reply) ∧
      stale.tracker.torrentCount = 0 ∧ after.tracker.torrentCount = 1 := by
  obtain ⟨⟨after, sent⟩, handled, counted⟩ := Option.map_eq_some_iff.mp stale_announced
  simp only [Prod.mk.injEq] at counted
  obtain ⟨reply, rfl⟩ := Option.isSome_iff_exists.mp counted.2
  refine ⟨?_, after, reply, handled, rfl, counted.1⟩
  rintro ⟨other, quiet, _⟩
  rw [handled] at quiet
  cases quiet

end BtServer.Proofs.UdpPackets

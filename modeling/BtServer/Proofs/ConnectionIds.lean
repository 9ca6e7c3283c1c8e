import BtServer.Proofs.UdpScrape

/-! Connection ids over runs of the UDP server. The key of the hour changes with every
packet, but it does not get into the id: an id stays good for as long as the server
runs. -/

namespace BtServer.Proofs.ConnectionIds
open Lib UdpPackets UdpScrape

section Ids
variable (rijndaelEncrypt128 : Vector UInt32 44 → Ip6 → Vector UInt32 4)

structure Connects (turn : UdpTurn) (remoteip : Ip6) (bytes : Bytes) : Prop where
  received : turn.received = .packet bytes remoteip
  header : 16 ≤ bytes.length
  action : bigEndian (inpacket bytes 2) = 0
  magic : bigEndian (inpacket bytes 0) = 0x00000417 ∧ bigEndian (inpacket bytes 1) = 0x27101980

structure Issues (before : UdpServer) (turn : UdpTurn) (after : UdpServer) (remoteip : Ip6) (id : Bytes) : Prop where
  connects : ∃ bytes, Connects turn remoteip bytes ∧
    before.handle rijndaelEncrypt128 turn = some (after, some (htonl 0 ++ inpacket bytes 3 ++ id))

structure Presents (turn : UdpTurn) (remoteip : Ip6) (id bytes : Bytes) : Prop where
  received : turn.received = .packet bytes remoteip
  header : 16 ≤ bytes.length
  action : bigEndian (inpacket bytes 2) = 1 ∨ bigEndian (inpacket bytes 2) = 2
  id : bytes.take 8 = id

def refusal (bytes : Bytes) : Bytes := htonl 3 ++ inpacket bytes 3 ++ ascii "Connection ID missmatch." ++ [0]

def Accepted (server : UdpServer) (turn : UdpTurn) (bytes : Bytes) : Prop :=
  ∀ after, server.handle rijndaelEncrypt128 turn ≠ some (after, some (refusal bytes))

/-- What is asked of an id that was issued at minute `issued` when it is presented. -/
def Expires (issued : Int) (server : UdpServer) (turn : UdpTurn) (bytes : Bytes) : Prop :=
  (turn.now ≤ issued + 60 → Accepted rijndaelEncrypt128 server turn bytes) ∧
  (turn.now > issued + 120 → ¬ Accepted rijndaelEncrypt128 server turn bytes)

theorem Connects.served {turn : UdpTurn} {remoteip : Ip6} {bytes : Bytes} (connects : Connects turn remoteip bytes)
    (server : UdpServer) :
    ∃ after, server.handle rijndaelEncrypt128 turn = some (after, some (htonl 0 ++ inpacket bytes 3 ++
        connectionId rijndaelEncrypt128 server.keys.rijndaelRoundKey remoteip)) := by
  have sender : turn.remoteip = remoteip := by rw [UdpTurn.remoteip, connects.received, Received.sender]
  have slice := fill_header (server.inbuf turn.worker) remoteip connects.header
  have long := Nat.not_lt.mpr (byteCount_header remoteip connects.header)
  obtain ⟨keys, _, handled⟩ := handle_spec rijndaelEncrypt128 server turn
  rw [sender, connects.received] at handled
  unfold handleUdp6 at handled
  rw [slice 0 (by decide), slice 1 (by decide), slice 2 (by decide), slice 3 (by decide), connects.action,
    if_neg (by omega), if_neg (by simp), if_pos rfl, if_neg (by simp [connects.magic])] at handled
  exact ⟨_, handled⟩

variable {rijndaelEncrypt128}

theorem handle_roundKey {before after : UdpServer} {turn : UdpTurn} {sent : Option Bytes}
    (handled : before.handle rijndaelEncrypt128 turn = some (after, sent)) :
    after.keys.rijndaelRoundKey = before.keys.rijndaelRoundKey := by
  obtain ⟨keys, kept, result⟩ := handle_spec rijndaelEncrypt128 before turn
  rw [handled] at result
  obtain ⟨_, _, same⟩ := Option.map_eq_some_iff.mp result.symm
  cases same
  exact kept

theorem run_roundKey {first last : UdpServer} {turns : List UdpTurn}
    (run : Run (UdpServer.Step rijndaelEncrypt128) free first turns last) :
    last.keys.rijndaelRoundKey = first.keys.rijndaelRoundKey := by
  refine run.invariant (fun server => server.keys.rijndaelRoundKey = first.keys.rijndaelRoundKey) ?_ rfl
  intro before turn after kept _ moved
  obtain ⟨sent, handled⟩ := moved
  exact (handle_roundKey handled).trans kept

theorem Presents.accepted {turn : UdpTurn} {remoteip : Ip6} {id bytes : Bytes} (presents : Presents turn remoteip id bytes)
    {server : UdpServer} (made : id = connectionId rijndaelEncrypt128 server.keys.rijndaelRoundKey remoteip) :
    Accepted rijndaelEncrypt128 server turn bytes := by
  intro after refused
  have sender : turn.remoteip = remoteip := by rw [UdpTurn.remoteip, presents.received, Received.sender]
  have slice := fill_header (server.inbuf turn.worker) remoteip presents.header
  have valid := (fill_id (server.inbuf turn.worker) remoteip presents.header).trans (presents.id.trans made)
  have long := byteCount_header remoteip presents.header
  obtain ⟨keys, _, handled⟩ := handle_spec rijndaelEncrypt128 server turn
  rw [refused, sender, presents.received] at handled
  obtain ⟨⟨sent, tracker⟩, served, same⟩ := Option.map_eq_some_iff.mp handled.symm
  cases same
  rcases presents.action with announce | scrape
  · have action := (congrArg bigEndian (slice 2 (by decide))).trans announce
    unfold handleUdp6 at served
    rw [action, valid, if_neg (by omega), if_neg (by simp), if_neg (by decide), if_pos rfl, slice 3 (by decide)] at served
    split at served
    · cases served
    · obtain ⟨⟨answers, left⟩, _, result⟩ := Option.bind_eq_some_iff.mp served
      cases result
  · have action := (congrArg bigEndian (slice 2 (by decide))).trans scrape
    rw [handleUdp6_scrape _ _ _ _ long action valid, slice 3 (by decide)] at served
    obtain ⟨⟨answers, left⟩, _, result⟩ := Option.bind_eq_some_iff.mp served
    cases result

/-- An id that was issued is good at every later minute, so it expires as it should
exactly when nobody presents it later than two hours after it was issued. -/
theorem expires_iff {before first last : UdpServer} {issuing presenting : UdpTurn} {turns : List UdpTurn} {remoteip : Ip6}
    {id bytes : Bytes} (issues : Issues rijndaelEncrypt128 before issuing first remoteip id)
    (run : Run (UdpServer.Step rijndaelEncrypt128) free first turns last) (presents : Presents presenting remoteip id bytes) :
    Expires rijndaelEncrypt128 issuing.now last presenting bytes ↔ presenting.now ≤ issuing.now + 120 := by
  obtain ⟨request, connects, answered⟩ := issues.connects
  obtain ⟨after, served⟩ := connects.served rijndaelEncrypt128 before
  have reply := answered.symm.trans served
  simp only [Option.some.injEq, Prod.mk.injEq, List.append_cancel_left_eq] at reply
  have made : id = connectionId rijndaelEncrypt128 last.keys.rijndaelRoundKey remoteip := by
    rw [run_roundKey run, handle_roundKey answered]
    exact reply.2
  have good := presents.accepted made
  constructor
  · intro expires
    by_contra late
    exact expires.2 (by omega) good
  · intro early
    exact ⟨fun _ => good, fun late => absurd late (by omega)⟩

theorem run_connects (server : UdpServer) (turns : List UdpTurn)
    (connects : ∀ turn ∈ turns, ∃ remoteip bytes, Connects turn remoteip bytes) :
    ∃ last, Run (UdpServer.Step rijndaelEncrypt128) free server turns last := by
  induction turns generalizing server with
  | nil => exact ⟨server, .done server⟩
  | cons turn rest ih =>
    obtain ⟨remoteip, bytes, connect⟩ := connects turn (by simp)
    obtain ⟨after, served⟩ := connect.served rijndaelEncrypt128 server
    obtain ⟨last, run⟩ := ih after fun other member => connects other (by simp [member])
    exact ⟨last, .next trivial ⟨_, served⟩ run⟩

end Ids

section Folding

def wordAt (text : Ip6) (i : Nat) : UInt32 := UInt32.ofNat (littleEndian ((text.toList.drop i).take 4))

def halves (_ : Vector UInt32 44) (text : Ip6) : Vector UInt32 4 := #v[wordAt text 0, 0, wordAt text 12, 0]

def mapped (ip : Vector UInt8 4) : Ip6 :=
  #v[0, 0, 0, 0, 0, 0, 0, 0, 0, 0, 255, 255, ip.toList.getD 0 0, ip.toList.getD 1 0, ip.toList.getD 2 0, ip.toList.getD 3 0]

end Folding

section Runs

def client : Ip6 := mapped #v[10, 0, 0, 1]

def fresh : UdpServer := ⟨zeroKeys, fun _ => List.replicate gInbufSize 0, .initial⟩

def packetAt (minute : Nat) (bytes : Bytes) : UdpTurn :=
  ⟨0, 60 * minute, .packet bytes client, client, 0, #v[UInt32.ofNat (2 * minute + 1), UInt32.ofNat (2 * minute + 2)], [], fun _ => []⟩

def connectBytes : Bytes := [0, 0, 4, 0x17, 0x27, 0x10, 0x19, 0x80, 0, 0, 0, 0, 0, 0, 0, 0]

def clientId : Bytes := connectionId halves zeroKeys.rijndaelRoundKey client

def presentBytes : Bytes := clientId ++ [0, 0, 0, 2, 0, 0, 0, 0]

private theorem connectAt (minute : Nat) : Connects (packetAt minute connectBytes) client connectBytes :=
  ⟨rfl, by decide, by decide, by decide, by decide⟩

private theorem presentAt (minute : Nat) : Presents (packetAt minute presentBytes) client clientId presentBytes :=
  ⟨rfl, by decide, .inr (by decide), by decide⟩

private theorem issued : ∃ first, Issues halves fresh (packetAt 0 connectBytes) first client clientId ∧
      first.keys.rijndaelRoundKey = zeroKeys.rijndaelRoundKey := by
  obtain ⟨first, served⟩ := (connectAt 0).served halves fresh
  exact ⟨first, ⟨connectBytes, connectAt 0, served⟩, handle_roundKey served⟩

private theorem run_packets (first : UdpServer) (minutes : List Nat) :
    ∃ last, Run (UdpServer.Step halves) free first (minutes.map fun minute => packetAt minute connectBytes) last := by
  apply run_connects
  intro turn member
  obtain ⟨minute, _, rfl⟩ := List.mem_map.mp member
  exact ⟨client, connectBytes, connectAt minute⟩

/-- Two packets later, of which the second is in the next hour. -/
theorem expires_within_hours : ∃ first last, Issues halves fresh (packetAt 0 connectBytes) first client clientId ∧
      Run (UdpServer.Step halves) free first ([30, 70].map fun minute => packetAt minute connectBytes) last ∧
      Expires halves (packetAt 0 connectBytes).now last (packetAt 110 presentBytes) presentBytes := by
  obtain ⟨first, issues, _⟩ := issued
  obtain ⟨last, run⟩ := run_packets first [30, 70]
  exact ⟨first, last, issues, run, (expires_iff issues run (presentAt 110)).mpr (by decide)⟩

/-- With a packet every hour, and a new key with each of them, an id is accepted three
hours after it was issued. -/
theorem id_never_expires : ∃ first last, Issues halves fresh (packetAt 0 connectBytes) first client clientId ∧
      Run (UdpServer.Step halves) free first ([60, 120, 180].map fun minute => packetAt minute connectBytes) last ∧
      Presents (packetAt 181 presentBytes) client clientId presentBytes ∧
      ([0, 60, 120, 180, 181].flatMap fun minute => (packetAt minute []).keyRandom.toList).Nodup ∧
      ¬ Expires halves (packetAt 0 connectBytes).now last (packetAt 181 presentBytes) presentBytes := by
  obtain ⟨first, issues, kept⟩ := issued
  obtain ⟨last, run⟩ := run_packets first [60, 120, 180]
  refine ⟨first, last, issues, run, presentAt 181, by decide, ?_⟩
  intro expires
  refine expires.2 (by decide) ((presentAt 181).accepted ?_)
  rw [run_roundKey run, kept]
  rfl

end Runs

end BtServer.Proofs.ConnectionIds

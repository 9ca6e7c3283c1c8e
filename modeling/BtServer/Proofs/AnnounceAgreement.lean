import BtServer.Proofs.AnnounceQuery
import BtServer.Proofs.AnnounceRecord

/-! The two ways to announce. A request and a packet that carry the same values leave
the same state behind, except that a multiple of 2^32 bytes left makes a seeder of
the peer over HTTP. -/

namespace BtServer.Proofs.AnnounceAgreement
open Lib QueryScan AnnounceRecord AnnounceQuery

variable {announcement : Announcement} {connid : Nat → Bytes} {inbuf : Bytes} {byteCount : Nat}

def eventOf (number : Nat) : Option AnnounceEvent :=
  if number = 1 then some .completed else if number = 3 then some .stopped else none

structure InPacket (announcement : Announcement) (connid : Nat → Bytes) (inbuf : Bytes) (byteCount : Nat) : Prop where
  whole : 98 ≤ byteCount
  received : byteCount ≤ inbuf.length
  connected : inbuf.take 8 = connid 0 ∨ inbuf.take 8 = connid 1
  action : bigEndian ((inbuf.drop 8).take 4) = 1
  hash : (inbuf.drop 16).take 20 = announcement.hash.toList
  left : bigEndian ((inbuf.drop 64).take 8) = announcement.left.toNat
  event : eventOf (bigEndian ((inbuf.drop 80).take 4)) = announcement.event
  port : bigEndian ((inbuf.drop 96).take 2) = announcement.port.toNat

private theorem word_split (inbuf : Bytes) : (inbuf.drop 64).take 8 = inpacket inbuf 16 ++ inpacket inbuf 17 := by
  have halves := List.take_add (l := inbuf.drop 64) (i := 4) (j := 4)
  simpa only [inpacket, List.drop_drop] using halves

private theorem left_eq_zero
    (carried : InPacket announcement connid inbuf byteCount) :
    littleEndian (inpacket inbuf 16) ||| littleEndian (inpacket inbuf 17) = 0 ↔ announcement.left = 0 := by
  have number := carried.left
  rw [word_split] at number
  rw [Nat.or_eq_zero_iff, littleEndian_eq_zero, littleEndian_eq_zero, ← List.forall_mem_append, ← bigEndian_eq_zero, number]
  exact UInt64.toNat_inj (b := 0)

private theorem port_bytes
    (carried : InPacket announcement connid inbuf byteCount) :
    #v[inbuf.getD 96 0, inbuf.getD 97 0] = announcement.portBytes := by
  have length : 98 ≤ inbuf.length := carried.whole.trans carried.received
  have bytes : (inbuf.drop 96).take 2 = [inbuf.getD 96 0, inbuf.getD 97 0] := by
    rw [List.drop_eq_getElem_cons (by omega), List.drop_eq_getElem_cons (by omega)]
    simp only [List.take_succ_cons, List.take_zero]
    simp [List.getElem?_eq_getElem (by omega : 96 < inbuf.length), List.getElem?_eq_getElem (by omega : 97 < inbuf.length)]
  have number := carried.port
  rw [bytes] at number
  have low := (inbuf.getD 97 0).toNat_lt
  simp only [bigEndian, List.foldl_cons, List.foldl_nil] at number
  have parts : announcement.port.toNat / 256 = (inbuf.getD 96 0).toNat ∧
      announcement.port.toNat % 256 = (inbuf.getD 97 0).toNat := by omega
  simp [Announcement.portBytes, parts]

private theorem eventFlag_eq (number : Nat) :
    (if number = 1 then peerFlagCompleted else if number = 3 then peerFlagStopped else 0) =
      (eventOf number).elim 0 AnnounceEvent.flag := by
  unfold eventOf
  split
  next => rfl
  next => split <;> rfl

theorem udp_call
    (carried : InPacket announcement connid inbuf byteCount) (random : List Nat) (remoteip : Ip6) (age : UInt8) :
    ∃ header numwant, handleUdp6 random connid remoteip age inbuf byteCount =
      .calls header [announceCall .udp random announcement.hash
        ⟨otSetip remoteip, announcement.portBytes, announcement.flag (announcement.left = 0), age⟩ numwant] := by
  have action : bigEndian (inpacket inbuf 2) = 1 := carried.action
  have long : ¬ byteCount < 16 ∧ ¬ byteCount < 98 := ⟨by have := carried.whole; omega, by have := carried.whole; omega⟩
  have connected : ¬ (inbuf.take 8 ≠ connid 0 ∧ inbuf.take 8 ≠ connid 1) := by
    rcases carried.connected with valid | valid <;> simp [valid]
  have event : (eventOf (bigEndian (inpacket inbuf 20))).elim 0 AnnounceEvent.flag = announcement.eventFlag :=
    congrArg (·.elim 0 AnnounceEvent.flag) carried.event
  have flag : (if announcement.left = 0 then announcement.eventFlag ||| peerFlagSeeding else announcement.eventFlag) =
      announcement.flag (announcement.left = 0) := by
    by_cases complete : announcement.left = 0 <;> simp [Announcement.flag, complete, UInt8.or_comm]
  refine ⟨htonl 1 ++ inpacket inbuf 3,
    if bigEndian (inpacket inbuf 23) > 200 then 200 else bigEndian (inpacket inbuf 23), ?_⟩
  rw [← flag, ← event, ← port_bytes carried, ← hashAt_toList carried.hash]
  simp only [← left_eq_zero carried, ← eventFlag_eq]
  simp [handleUdp6, action, long, connected, udpAnnounce]

private theorem initial_seedCount (proto : Proto) (random : List Nat) (hash : Hash) (peer : Peer) (numwant : Nat)
    (stays : peer.flag &&& peerFlagStopped = 0) :
    ((Tracker.initial.apply ⟨0, [], announceCall proto random hash peer numwant⟩).allTorrents (bucketOfHash hash)).data.map
        (fun torrent => torrent.peerList.map PeerList.seedCount) =
      [some (if sanitizeFlag peer.flag &&& peerFlagSeeding ≠ 0 then 1 else 0)] := by
  simp [Tracker.apply, announceCall, stays, addPeerToTorrentAndReturnPeers, Tracker.initial, vectorFindOrInsert,
    binarySearch, bisect, allocate, announcePeer, vectorFindOrInsertPeer, Tracker.unlock, OtVector.empty, OtVector.size, PeerList.zero,
    PeerVector.bucketFor, PeerVector.bucketList, PeerVector.setBucketFor, PeerVector.setBucketList, PeerVector.hasBuckets, PeerVector.size,
    PeerVector.bucketIndex, Peer.seeding]

private theorem flag_stopped (announcement : Announcement) (complete : Bool) :
    announcement.flag complete &&& peerFlagStopped ≠ 0 ↔ announcement.event = some .stopped := by
  have bits : ∀ event : Option AnnounceEvent, ((if complete then peerFlagSeeding else 0) |||
      event.elim 0 AnnounceEvent.flag) &&& peerFlagStopped ≠ 0 ↔ event = some .stopped := by
    rintro (_ | _ | _) <;> cases complete <;> decide
  exact bits announcement.event

private theorem flag_seeding (announcement : Announcement) (complete : Bool) :
    announcement.flag complete &&& peerFlagSeeding ≠ 0 ↔ complete = true := by
  have bits : ∀ event : Option AnnounceEvent, ((if complete then peerFlagSeeding else 0) |||
      event.elim 0 AnnounceEvent.flag) &&& peerFlagSeeding ≠ 0 ↔ complete = true := by
    rintro (_ | _ | _) <;> cases complete <;> decide
  exact bits announcement.event

private theorem sanitizeFlag_seeding : ∀ flag : UInt8, sanitizeFlag flag &&& peerFlagSeeding = flag &&& peerFlagSeeding :=
  forall_byte (by decide +kernel)

private theorem scanned_left
    (exact' : announcement.left = 0 ∨ ¬ 2 ^ 32 ∣ announcement.left.toNat) :
    decide (2 ^ 32 ∣ announcement.left.toNat) = decide (announcement.left = 0) := by
  rcases exact' with zero | indivisible
  · simp [zero]
  · have nonzero : announcement.left ≠ 0 := fun zero => indivisible (by simp [zero])
    rw [decide_eq_false indivisible, decide_eq_false nonzero]

section Agreement
variable {announcement : Announcement} {request : Bytes} {connid : Nat → Bytes} {inbuf : Bytes} {byteCount : Nat}

variable (http : announcement.InRequest request) (udp : InPacket announcement connid inbuf byteCount) (source : Ip6)
  (literals : Literals) (redirecturl : Bool) (statsPath : Bytes)
include http udp source literals redirecturl statsPath

private theorem states_same (exact' : announcement.event = some .stopped ∨ announcement.left = 0 ∨ ¬ 2 ^ 32 ∣ announcement.left.toNat)
    (tracker : Tracker) (gNowSeconds : Int) (heap : Heap) (random random' : List Nat) (age age' : UInt8) :
    (httpHandleRequest literals redirecturl statsPath random source age request).apply gNowSeconds heap tracker =
      (handleUdp6 random' connid source age' inbuf byteCount).apply gNowSeconds (fun _ => heap) tracker := by
  obtain ⟨numwant, made⟩ := http_call http literals redirecturl statsPath random source age
  obtain ⟨header, numwant', made'⟩ := udp_call udp random' source age'
  rw [made, made']
  refine apply_announceCall tracker heap random random' .tcp .udp announcement.hash
    ⟨otSetip source, announcement.portBytes, announcement.flag (announcement.left = 0), age'⟩ age gNowSeconds numwant numwant'
    (announcement.flag (2 ^ 32 ∣ announcement.left.toNat)) ?_
  rcases exact' with stopped | read
  · exact .inr ⟨(flag_stopped _ _).mpr stopped, (flag_stopped _ _).mpr stopped⟩
  · exact .inl (congrArg announcement.flag (scanned_left read))

private theorem states_differ (stays : announcement.event ≠ some .stopped) (something : announcement.left ≠ 0)
    (wraps : 2 ^ 32 ∣ announcement.left.toNat) :
    (httpHandleRequest literals redirecturl statsPath [] source 0 request).apply 0 [] .initial ≠
      (handleUdp6 [] connid source 0 inbuf byteCount).apply 0 (fun _ => []) .initial := by
  intro same
  obtain ⟨numwant, made⟩ := http_call http literals redirecturl statsPath [] source 0
  obtain ⟨header, numwant', made'⟩ := udp_call udp [] source 0
  have stay : ∀ complete, announcement.flag complete &&& peerFlagStopped = 0 := fun complete => by
    simpa using mt (flag_stopped announcement complete).mp stays
  rw [made, made'] at same
  have counts := congrArg (fun tracker : Tracker => (tracker.allTorrents (bucketOfHash announcement.hash)).data.map
    fun torrent => torrent.peerList.map PeerList.seedCount) same
  have first := initial_seedCount .tcp [] announcement.hash
    ⟨otSetip source, announcement.portBytes, announcement.flag (2 ^ 32 ∣ announcement.left.toNat), 0⟩ numwant (stay _)
  have second := initial_seedCount .udp [] announcement.hash
    ⟨otSetip source, announcement.portBytes, announcement.flag (announcement.left = 0), 0⟩ numwant' (stay _)
  have counted := (first.symm.trans counts).trans second
  simp only [sanitizeFlag_seeding, flag_seeding, decide_eq_true_eq, wraps, something] at counted
  simp at counted

end Agreement

theorem announces_agree_iff {announcement : Announcement} {request : Bytes} {connid : Nat → Bytes}
    {inbuf : Bytes} {byteCount : Nat} (http : announcement.InRequest request)
    (udp : InPacket announcement connid inbuf byteCount) (source : Ip6) (literals : Literals) (redirecturl : Bool)
    (statsPath : Bytes) :
    ((∀ (tracker : Tracker) (gNowSeconds : Int) (heap : Heap) (random random' : List Nat) (age age' : UInt8),
        (httpHandleRequest literals redirecturl statsPath random source age request).apply gNowSeconds heap tracker =
          (handleUdp6 random' connid source age' inbuf byteCount).apply gNowSeconds (fun _ => heap) tracker) ↔
      announcement.event = some .stopped ∨ announcement.left = 0 ∨ ¬ 2 ^ 32 ∣ announcement.left.toNat) ∧
    (announcement.event ≠ some .stopped → announcement.left = 0 ∨ ¬ 2 ^ 32 ∣ announcement.left.toNat →
      ∀ (random : List Nat) (age : UInt8), (∃ peer numwant, httpHandleRequest literals redirecturl statsPath random source age request =
            .call (.announce .tcp announcement.hash peer numwant random) ∧ (peer.seeding ↔ announcement.left = 0)) ∧
        (∃ header peer numwant, handleUdp6 random connid source age inbuf byteCount =
            .calls header [.announce .udp announcement.hash peer numwant random] ∧
            (peer.seeding ↔ announcement.left = 0))) := by
  refine ⟨⟨fun agree => ?_, states_same http udp source literals redirecturl statsPath⟩, fun stays read random age => ?_⟩
  · by_contra wraps
    simp only [not_or, not_not] at wraps
    exact states_differ http udp source literals redirecturl statsPath wraps.1 wraps.2.1 wraps.2.2 (agree .initial 0 [] [] [] 0 0)
  · have stay : ∀ complete, ¬ announcement.flag complete &&& peerFlagStopped ≠ 0 := fun complete =>
      mt (flag_stopped announcement complete).mp stays
    have seeding : ∀ complete age, (Peer.seeding ⟨otSetip source, announcement.portBytes, announcement.flag complete, age⟩ = true ↔
        complete = true) := fun complete age => by simpa [Peer.seeding] using flag_seeding announcement complete
    obtain ⟨numwant, made⟩ := http_call http literals redirecturl statsPath random source age
    obtain ⟨header, numwant', made'⟩ := udp_call udp random source age
    simp only [announceCall, if_neg (stay _)] at made made'
    refine ⟨⟨_, numwant, made, ?_⟩, ⟨header, _, numwant', made', ?_⟩⟩
    · rw [seeding, scanned_left read, decide_eq_true_eq]
    · rw [seeding, decide_eq_true_eq]

section Sample

private theorem encodes_plain {flag : ScanFlag} (text : Bytes) (plain : ∀ c ∈ text, flag.accepts c = true ∧ c ≠ 37) :
    Encodes flag text text := by
  induction text with
  | nil => exact .nil
  | cons c text ih =>
    have here := plain c (by simp)
    exact .plain here.1 here.2 (ih fun c held => plain c (by simp [held]))

def plainParam (name value : Bytes) (named : ∀ c ∈ name, ScanFlag.param.accepts c = true ∧ c ≠ 37)
    (valued : ∀ c ∈ value, ScanFlag.value.accepts c = true ∧ c ≠ 37) : Param :=
  ⟨name, value, name, value, encodes_plain name named, encodes_plain value valued⟩

private theorem decimal_plain (n : Nat) : ∀ c ∈ decimal n, ScanFlag.value.accepts c = true ∧ c ≠ 37 := by
  have digit : ∀ c : UInt8, 48 ≤ c ∧ c ≤ 57 → ScanFlag.value.accepts c = true ∧ c ≠ 37 := forall_byte (by decide +kernel)
  exact fun c held => digit c (decimal_digits n c held)

def sample (left : UInt64) : Announcement := ⟨Vector.replicate 20 65, 6881, left, none⟩

def sampleParams (left : UInt64) : List Param :=
  [plainParam (ascii "info_hash") (List.replicate 20 65) (by decide +kernel) (by decide +kernel),
    plainParam (ascii "port") (decimal 6881) (by decide +kernel) (decimal_plain _),
    plainParam (ascii "left") (decimal left.toNat) (by decide +kernel) (decimal_plain _)]

def sampleRequest (left : UInt64) : Bytes :=
  ascii "GET /" ++ (ascii "announce" ++ 63 :: (queryText (sampleParams left) ++ 32 :: ascii "HTTP/1.0\r\n\r\n"))

/-- The connection id, the action and a transaction id, the hash, the peer id and what
was downloaded, what is left, what was uploaded, and the event, the address, a key and
the number of peers wanted before the port. -/
def samplePacket (left : UInt64) : Bytes :=
  List.replicate 8 0 ++ htonl 1 ++ htonl 0 ++ List.replicate 20 65 ++ List.replicate 28 0 ++
    (toLittleEndian 8 left.toNat).reverse ++ List.replicate 8 0 ++ List.replicate 16 0 ++ [26, 225]

theorem sample_inRequest (left : UInt64) : (sample left).InRequest (sampleRequest left) := by
  have names : keyOf keywordsAnnounce (ascii "info_hash") = some .infoHash ∧
      keyOf keywordsAnnounce (ascii "port") = some .port ∧ keyOf keywordsAnnounce (ascii "left") = some .left := by decide
  have values : ∀ key, valuesOf key (sampleParams left) = match key with
      | .infoHash => [List.replicate 20 65]
      | .port => [decimal 6881]
      | .left => [decimal left.toNat]
      | _ => [] := by
    intro key
    cases key <;> simp [sampleParams, valuesOf_cons, plainParam, names] <;> rfl
  have plain : ∀ param ∈ sampleParams left, param.Plain := by
    have zero : 0 ∉ ascii "info_hash" ∧ 0 ∉ ascii "port" ∧ 0 ∉ ascii "left" := by decide
    simp [sampleParams, plainParam, Param.Plain, names, zero]
  refine .mk (encodes_plain _ (by decide +kernel)) (by decide +kernel) ⟨?_, ?_, ?_, ?_, ⟨?_, ?_, ?_⟩, plain⟩
    (.inr (.inr (.inr rfl))) _
  all_goals simp [values, eventsOf, sample]

theorem sample_inPacket (left : UInt64) : InPacket (sample left) (fun _ => List.replicate 8 0) (samplePacket left) 98 where
  whole := Nat.le_refl _
  received := by simp [samplePacket, htonl]
  connected := .inl rfl
  action := rfl
  hash := rfl
  left := by
    have bytes : ((samplePacket left).drop 64).take 8 = (toLittleEndian 8 left.toNat).reverse := rfl
    rw [bytes, bigEndian_reverse, littleEndian_toLittleEndian]
    exact Nat.mod_eq_of_lt left.toNat_lt
  event := rfl
  port := rfl

theorem announces_agree_one_byte_left : (sample 1).InRequest (sampleRequest 1) ∧
    InPacket (sample 1) (fun _ => List.replicate 8 0) (samplePacket 1) 98 ∧
    (httpHandleRequest (fun _ _ => 0) false [] [] (Vector.replicate 16 1) 0 (sampleRequest 1)).apply 0 [] .initial =
      (handleUdp6 [] (fun _ => List.replicate 8 0) (Vector.replicate 16 1) 0 (samplePacket 1) 98).apply 0
        (fun _ => []) .initial :=
  ⟨sample_inRequest 1, sample_inPacket 1,
    (announces_agree_iff (sample_inRequest 1) (sample_inPacket 1) (Vector.replicate 16 1) (fun _ _ => 0) false []).1.mpr
      (.inr (.inr (by decide))) .initial 0 [] [] [] 0 0⟩

/-- With 4294967296 bytes left the peer is a seeder over HTTP and none over UDP. -/
theorem four_gibibytes_left_seed : (sample 4294967296).InRequest (sampleRequest 4294967296) ∧
    InPacket (sample 4294967296) (fun _ => List.replicate 8 0) (samplePacket 4294967296) 98 ∧
    (((httpHandleRequest (fun _ _ => 0) false [] [] (Vector.replicate 16 1) 0 (sampleRequest 4294967296)).apply 0 [] .initial).allTorrents
      (bucketOfHash (Vector.replicate 20 65))).data.map (fun torrent => torrent.peerList.map PeerList.seedCount) =
      [some 1] ∧
    (((handleUdp6 [] (fun _ => List.replicate 8 0) (Vector.replicate 16 1) 0 (samplePacket 4294967296) 98).apply 0
      (fun _ => []) .initial).allTorrents (bucketOfHash (Vector.replicate 20 65))).data.map
      (fun torrent => torrent.peerList.map PeerList.seedCount) = [some 0] := by
  obtain ⟨numwant, made⟩ := http_call (sample_inRequest 4294967296) (fun _ _ => 0) false [] [] (Vector.replicate 16 1) 0
  obtain ⟨header, numwant', made'⟩ := udp_call (sample_inPacket 4294967296) [] (Vector.replicate 16 1) 0
  have wraps : decide (2 ^ 32 ∣ (sample 4294967296).left.toNat) = true := by decide
  have something : decide ((sample 4294967296).left = 0) = false := by decide
  have stays : ∀ complete, (sample 4294967296).flag complete &&& peerFlagStopped = 0 := by decide
  have seeds : ∀ complete, (if sanitizeFlag ((sample 4294967296).flag complete) &&& peerFlagSeeding ≠ 0 then 1 else 0) =
      complete.toNat := by decide
  have counted := fun complete proto numwant => (initial_seedCount proto [] (Vector.replicate 20 65)
    ⟨otSetip (Vector.replicate 16 1), (sample 4294967296).portBytes, (sample 4294967296).flag complete, 0⟩ numwant
    (stays complete)).trans (congrArg (fun count => [some count]) (seeds complete))
  rw [wraps] at made
  rw [something] at made'
  refine ⟨sample_inRequest _, sample_inPacket _, ?_, ?_⟩
  · rw [made]
    exact counted true .tcp numwant
  · rw [made']
    exact counted false .udp numwant'

end Sample

end BtServer.Proofs.AnnounceAgreement

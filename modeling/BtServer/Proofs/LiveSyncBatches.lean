import BtServer.LiveSync

/-! Batching in the live sync loses nothing: what is read back from the packets sent and
what still waits in `g_outbuf` are the records told, in order. -/

namespace BtServer.Proofs.LiveSyncBatches
open Lib

section Records
variable {ipSize : Nat}

@[simp] theorem bytes_length (record : SyncRecord ipSize) : record.bytes.length = livesyncRecordSize ipSize := by
  simp [SyncRecord.bytes, livesyncRecordSize]

theorem header_length (gTrackerId : Vector UInt8 4) : (livesyncHeader gTrackerId).length = livesyncHeaderSize := by
  simp [livesyncHeader, htonl, livesyncHeaderSize]

theorem readRecord_between (before after : Bytes) (record : SyncRecord ipSize) :
    readRecord ipSize (before ++ record.bytes ++ after) before.length = record := by
  have hash := readBytes_between before (record.peer.toList ++ after) record.hash
  have peer := readBytes_between (before ++ record.hash.toList) after record.peer
  simp only [List.length_append, Vector.length_toList, List.append_assoc] at hash peer
  rw [readRecord, SyncRecord.bytes]
  simp only [List.append_assoc, hash, peer]

theorem peersyncRecords_eq (records : List (SyncRecord ipSize)) (before : Bytes) {fuel : Nat} (enough : records.length < fuel) :
    peersyncRecords ipSize (before ++ records.flatMap SyncRecord.bytes) fuel before.length = records := by
  induction records generalizing before fuel with
  | nil =>
    obtain ⟨fuel, rfl⟩ := Nat.exists_eq_succ_of_ne_zero (by omega : fuel ≠ 0)
    rw [peersyncRecords, if_neg (by simp [livesyncRecordSize])]
  | cons record rest ih =>
    obtain ⟨fuel, rfl⟩ := Nat.exists_eq_succ_of_ne_zero (by omega : fuel ≠ 0)
    have further := @ih (before ++ record.bytes) fuel (by simpa using enough)
    rw [List.length_append, bytes_length] at further
    rw [peersyncRecords, List.flatMap_cons, ← List.append_assoc, readRecord_between, further, if_pos]
    simp only [List.length_append, bytes_length]
    omega

theorem livesyncHandlePeersync_eq (gTrackerId : Vector UInt8 4) (records : List (SyncRecord ipSize)) :
    livesyncHandlePeersync ipSize (livesyncHeader gTrackerId ++ records.flatMap SyncRecord.bytes) = records := by
  have long : records.length < (livesyncHeader gTrackerId ++ records.flatMap SyncRecord.bytes).length := by
    have bytes : records.length ≤ (records.flatMap SyncRecord.bytes).length := by
      rw [List.length_flatMap]
      simp only [bytes_length, List.map_const', List.sum_replicate, smul_eq_mul]
      exact Nat.le_mul_of_pos_right _ (by simp [livesyncRecordSize])
    rw [List.length_append, header_length, livesyncHeaderSize]
    omega
  have loop := peersyncRecords_eq records (livesyncHeader gTrackerId) long
  rwa [header_length] at loop

end Records

section Batches
variable {ipSize : Nat} {gTrackerId : Vector UInt8 4}

structure Waiting (gTrackerId : Vector UInt8 4) (sync : LiveSync) (pending : List (SyncRecord ipSize)) : Prop where
  buffer : sync.gOutbuf = livesyncHeader gTrackerId ++ pending.flatMap SyncRecord.bytes
  room : sync.gOutbuf.length < livesyncOutgoingBuffsizePeers - livesyncRecordSize ipSize

structure Carries (gTrackerId : Vector UInt8 4) (packet : Bytes) (records : List (SyncRecord ipSize)) : Prop where
  bytes : packet = livesyncHeader gTrackerId ++ records.flatMap SyncRecord.bytes
  fits : packet.length ≤ livesyncOutgoingBuffsizePeers

theorem waiting_init (small : ipSize ≤ 16) (start : Int) :
    Waiting gTrackerId (livesyncInit gTrackerId start) ([] : List (SyncRecord ipSize)) := by
  refine ⟨by simp [livesyncInit], ?_⟩
  simp only [livesyncInit, header_length, livesyncHeaderSize, livesyncOutgoingBuffsizePeers, livesyncRecordSize, otPeerSize]
  omega

theorem issue_waiting {sync : LiveSync} {records : List (SyncRecord ipSize)} (small : ipSize ≤ 16)
    (buffer : sync.gOutbuf = livesyncHeader gTrackerId ++ records.flatMap SyncRecord.bytes) (gNowSeconds : Int) :
    Waiting gTrackerId (livesyncIssuePeersync sync gNowSeconds).1 ([] : List (SyncRecord ipSize)) := by
  have left : (livesyncIssuePeersync sync gNowSeconds).1 = livesyncInit gTrackerId gNowSeconds := by
    rw [livesyncIssuePeersync, buffer, ← header_length gTrackerId, List.take_left]
    rfl
  rw [left]
  exact waiting_init small gNowSeconds

inductive Batched (gTrackerId : Vector UInt8 4) (records : List (SyncRecord ipSize)) : LiveSync × Option Bytes → Prop where
  | kept {sync : LiveSync} (waiting : Waiting gTrackerId sync records) : Batched gTrackerId records (sync, none)
  | sent {sync : LiveSync} {packet : Bytes} (carries : Carries gTrackerId packet records)
      (waiting : Waiting gTrackerId sync ([] : List (SyncRecord ipSize))) : Batched gTrackerId records (sync, some packet)

theorem livesyncTell_batched {sync : LiveSync} {pending : List (SyncRecord ipSize)} (small : ipSize ≤ 16)
    (waiting : Waiting gTrackerId sync pending) (gNowSeconds : Int) (record : SyncRecord ipSize) :
    Batched gTrackerId (pending ++ [record]) (livesyncTell sync gNowSeconds record) := by
  have buffer : sync.gOutbuf ++ record.bytes = livesyncHeader gTrackerId ++ (pending ++ [record]).flatMap SyncRecord.bytes := by
    rw [waiting.buffer]
    simp
  have room := waiting.room
  rw [livesyncTell]
  simp only
  split
  · refine .sent ⟨buffer, ?_⟩ (issue_waiting small buffer gNowSeconds)
    simp only [livesyncIssuePeersync, List.length_append, bytes_length]
    omega
  next below => exact .kept ⟨buffer, Nat.lt_of_not_le below⟩

theorem livesyncTicker_batched {sync : LiveSync} {pending : List (SyncRecord ipSize)} (small : ipSize ≤ 16)
    (waiting : Waiting gTrackerId sync pending) (gNowSeconds : Int) :
    Batched gTrackerId pending (livesyncTicker sync gNowSeconds) := by
  rw [livesyncTicker]
  split
  · refine .sent ⟨waiting.buffer, ?_⟩ (issue_waiting small waiting.buffer gNowSeconds)
    have room := waiting.room
    show sync.gOutbuf.length ≤ _
    omega
  · exact .kept waiting

structure Accounted (gTrackerId : Vector UInt8 4) (told : List (SyncRecord ipSize)) (wire : LiveWire) : Prop where
  fits : ∀ packet ∈ wire.sent, packet.length ≤ livesyncOutgoingBuffsizePeers
  header : ∀ packet ∈ wire.sent, livesyncHeader gTrackerId <+: packet
  waiting : ∃ pending, Waiting gTrackerId wire.sync pending ∧
    wire.sent.flatMap (livesyncHandlePeersync ipSize) ++ pending = told

theorem Accounted.batched {told more : List (SyncRecord ipSize)} {wire : LiveWire} {result : LiveSync × Option Bytes}
    {pending : List (SyncRecord ipSize)} (ok : Accounted gTrackerId told wire)
    (all : wire.sent.flatMap (livesyncHandlePeersync ipSize) ++ pending = told)
    (batched : Batched gTrackerId (pending ++ more) result) :
    Accounted gTrackerId (told ++ more) ⟨result.1, wire.sent ++ result.2.toList⟩ := by
  cases batched with
  | kept waiting =>
    refine ⟨by simpa using ok.fits, by simpa using ok.header, _, waiting, ?_⟩
    simp [← all]
  | sent carries waiting =>
    refine ⟨?_, ?_, [], waiting, ?_⟩
    · intro packet member
      rcases List.mem_append.mp member with before | new
      · exact ok.fits packet before
      · cases List.mem_singleton.mp new
        exact carries.fits
    · intro packet member
      rcases List.mem_append.mp member with before | new
      · exact ok.header packet before
      · cases List.mem_singleton.mp new
        exact ⟨_, carries.bytes.symm⟩
    · have read := livesyncHandlePeersync_eq gTrackerId (pending ++ more)
      rw [← carries.bytes] at read
      simp [read, ← all]

theorem Accounted.next {told : List (SyncRecord ipSize)} {wire : LiveWire} (small : ipSize ≤ 16)
    (ok : Accounted gTrackerId told wire) (call : LiveCall ipSize) :
    Accounted gTrackerId (told ++ call.told.toList) (wire.next call) := by
  obtain ⟨pending, waiting, all⟩ := ok.waiting
  cases call with
  | tell gNowSeconds record => exact ok.batched all (livesyncTell_batched small waiting gNowSeconds record)
  | ticker gNowSeconds =>
    have batched := livesyncTicker_batched small waiting gNowSeconds
    rw [← List.append_nil pending] at batched
    exact ok.batched all batched

theorem run_accounted (small : ipSize ≤ 16) (gTrackerId : Vector UInt8 4) (start : Int) (calls : List (LiveCall ipSize)) :
    Accounted gTrackerId (calls.filterMap LiveCall.told) (.run gTrackerId start calls) := by
  have further : ∀ (calls : List (LiveCall ipSize)) (told : List (SyncRecord ipSize)) (wire : LiveWire), Accounted gTrackerId told wire →
      Accounted gTrackerId (told ++ calls.filterMap LiveCall.told) (calls.foldl LiveWire.next wire) := by
    intro calls
    induction calls with
    | nil => intro told wire ok; simpa using ok
    | cons call rest ih =>
      intro told wire ok
      have later := ih _ _ (ok.next small call)
      cases call <;> simpa [List.filterMap_cons, LiveCall.told] using later
  have start : Accounted gTrackerId ([] : List (SyncRecord ipSize)) ⟨livesyncInit gTrackerId start, []⟩ :=
    ⟨by simp, by simp, [], waiting_init small start, rfl⟩
  simpa [LiveWire.run] using further calls [] _ start

/-- For peers with IPv4 and with IPv6 addresses. -/
theorem live_sync_batches_all (gTrackerId : Vector UInt8 4) (start : Int) (sizes : ipSize = 4 ∨ ipSize = 16)
    (calls : List (LiveCall ipSize)) :
    let wire := LiveWire.run gTrackerId start calls
    wire.sync.gOutbuf.length ≤ livesyncOutgoingBuffsizePeers ∧
    (∀ packet ∈ wire.sent, packet.length ≤ livesyncOutgoingBuffsizePeers ∧
      gTrackerId.toList ++ htonl otSyncPeer <+: packet) ∧
    ∃ pending : List (SyncRecord ipSize),
      wire.sync.gOutbuf = gTrackerId.toList ++ htonl otSyncPeer ++ pending.flatMap SyncRecord.bytes ∧
      wire.sent.flatMap (livesyncHandlePeersync ipSize) ++ pending = calls.filterMap LiveCall.told := by
  have ok := run_accounted (by omega) gTrackerId start calls
  obtain ⟨pending, waiting, all⟩ := ok.waiting
  refine ⟨?_, fun packet member => ⟨ok.fits packet member, ok.header packet member⟩, pending, waiting.buffer, all⟩
  have room := waiting.room
  omega

def toldAt (second : Int) (i : UInt8) : LiveCall 4 := .tell second ⟨.replicate 20 7, .replicate 8 i⟩

/-- The ticker sends two records when more than 15 seconds have passed; the third waits. -/
theorem live_sync_batches_three :
    let wire := LiveWire.run (.replicate 4 9) 0 [toldAt 1 1, toldAt 9 2, .ticker 15, .ticker 16, toldAt 17 3]
    wire.sent.map List.length = [64] ∧ wire.sync.gOutbuf.length = 36 ∧
      ∃ pending : List (SyncRecord 4), wire.sent.flatMap (livesyncHandlePeersync 4) ++ pending =
        [⟨.replicate 20 7, .replicate 8 1⟩, ⟨.replicate 20 7, .replicate 8 2⟩, ⟨.replicate 20 7, .replicate 8 3⟩] := by
  intro wire
  obtain ⟨-, -, pending, -, all⟩ :=
    live_sync_batches_all (.replicate 4 9) 0 (.inl rfl) [toldAt 1 1, toldAt 9 2, .ticker 15, .ticker 16, toldAt 17 3]
  exact ⟨by decide, by decide, pending, all⟩

end Batches

end BtServer.Proofs.LiveSyncBatches

import BtServer.Proofs.UdpPackets

/-! Replies to UDP scrapes. The loop makes a record for every hash that has begun in
the packet, so the last hash may end with what the buffer held before. -/

namespace BtServer.Proofs.UdpScrape
open Lib UdpPackets

section Hashes
variable (inbuf bytes : Bytes) (remoteip : Ip6)

def hashes (buffer : Bytes) (count : Nat) : List Hash := (List.range count).map fun i => hashAt buffer (16 + 20 * i)

theorem hashes_fill (count : Nat) (inside : 16 + 20 * count ≤ bytes.length) (small : count ≤ 75) :
    hashes (Received.fill inbuf (.packet bytes remoteip)) count = hashes bytes count := by
  apply List.map_congr_left
  intro i member
  have before := List.mem_range.mp member
  unfold hashAt
  congr 1
  funext j
  exact fill_inside inbuf bytes remoteip (by omega) (by unfold gInbufSize; omega)

end Hashes

theorem handleUdp6_scrape (random : List Nat) (connid : Nat → Bytes) (remoteip : Ip6) (age : UInt8)
    {inbuf : Bytes} {byteCount : Nat} (header : 16 ≤ byteCount) (action : bigEndian (inpacket inbuf 2) = 2)
    (valid : inbuf.take 8 = connid 0) :
    handleUdp6 random connid remoteip age inbuf byteCount =
      .calls (htonl 2 ++ inpacket inbuf 3) ((hashes inbuf (min 75 ((byteCount - 16 + 19) / 20))).map .udpScrape) := by
  unfold handleUdp6 hashes
  rw [action, valid, if_neg (by omega), if_neg (by simp), if_neg (by decide), if_neg (by decide), List.map_map]
  rfl

section Records
variable (gNowSeconds : Int) (heaps : Nat → Heap)

theorem record_length (tracker : Tracker) (heap : Heap) (now : Int) (hash : Hash) :
    (returnUdpScrapeForTorrent tracker heap now hash).2.length = 12 := by
  unfold returnUdpScrapeForTorrent
  split
  · rfl
  · simp [htonl]

theorem serve_scrapes (tracker : Tracker) (made : Nat) (wanted : List Hash) :
    ∃ records left, tracker.serve gNowSeconds heaps made (wanted.map .udpScrape) = some (records, left) ∧
      records.length = 12 * wanted.length := by
  induction wanted generalizing tracker made with
  | nil => exact ⟨[], tracker, rfl, rfl⟩
  | cons hash rest ih =>
    obtain ⟨records, left, served, size⟩ := ih (tracker.apply ⟨gNowSeconds, heaps made, .udpScrape hash⟩) (made + 1)
    refine ⟨(returnUdpScrapeForTorrent tracker (heaps made) (gNowMinutes gNowSeconds) hash).2 ++ records, left, ?_, ?_⟩
    · simp [Tracker.serve, served, Tracker.answer, Event.now]
    · rw [List.length_append, record_length, size, List.length_cons]
      omega

end Records

section Scraping
variable (rijndaelEncrypt128 : Vector UInt32 44 → Ip6 → Vector UInt32 4)

/-- A scrape packet with a connection id that is valid for its sender. -/
structure ScrapePacket (keys : UdpKeys) (remoteip : Ip6) (bytes : Bytes) : Prop where
  header : 16 ≤ bytes.length
  action : bigEndian (inpacket bytes 2) = 2
  valid : bytes.take 8 = connectionId rijndaelEncrypt128 keys.rijndaelRoundKey remoteip

def Sized (inbuf : Nat → Bytes) : Prop := ∀ worker, (inbuf worker).length = gInbufSize

def answered (server : UdpServer) (turn : UdpTurn) (bytes : Bytes) (remoteip : Ip6) :
    Option (Option Bytes × Tracker) :=
  (server.handle rijndaelEncrypt128 { turn with received := .packet bytes remoteip }).map fun (after, sent) =>
    (sent, after.tracker)

def scrapeReply (tracker : Tracker) (turn : UdpTurn) (bytes : Bytes) (wanted : List Hash) :
    Option (Option Bytes × Tracker) :=
  (tracker.serve turn.gNowSeconds turn.heaps 0 (wanted.map .udpScrape)).map fun (records, left) =>
    (some (htonl 2 ++ inpacket bytes 3 ++ records), left)

def completeHashes (bytes : Bytes) : List Hash := hashes bytes (min 75 ((bytes.length - 16) / 20))

variable {rijndaelEncrypt128} {keys : UdpKeys} {remoteip : Ip6} {bytes : Bytes}

theorem ScrapePacket.answered_eq (packet : ScrapePacket rijndaelEncrypt128 keys remoteip bytes) (inbuf : Nat → Bytes)
    (tracker : Tracker) (turn : UdpTurn) :
    answered rijndaelEncrypt128 ⟨keys, inbuf, tracker⟩ turn bytes remoteip = scrapeReply tracker turn bytes
        (hashes (Received.fill (inbuf turn.worker) (.packet bytes remoteip)) (min 75 ((bytes.length - 16 + 19) / 20))) := by
  have header := packet.header
  have room : gInbufSize = 8192 := rfl
  have count : min 75 (((bytes.take gInbufSize).length - 16 + 19) / 20) = min 75 ((bytes.length - 16 + 19) / 20) := by
    rw [List.length_take]
    omega
  obtain ⟨after, _, handled⟩ := handle_spec rijndaelEncrypt128 ⟨keys, inbuf, tracker⟩
    { turn with received := .packet bytes remoteip }
  have scraped := handleUdp6_scrape turn.random
    (fun _ => connectionId rijndaelEncrypt128 keys.rijndaelRoundKey remoteip) remoteip turn.age
    (byteCount_header remoteip header)
    ((congrArg bigEndian (fill_header (inbuf turn.worker) remoteip header 2 (by decide))).trans packet.action)
    ((fill_id (inbuf turn.worker) remoteip header).trans packet.valid)
  rw [Received.byteCount, count, fill_header _ _ header 3 (by decide)] at scraped
  simp only [answered, handled, UdpTurn.remoteip, Received.sender, Received.byteCount, scraped, UdpOutcome.serve, scrapeReply]
  cases tracker.serve turn.gNowSeconds turn.heaps 0 _ <;> rfl

def downloaded (base : Int) : PeerList := { PeerList.zero with base := base, downCount := 1 }

def lone (hash : Hash) (base : Int) : Tracker :=
  ⟨Function.update (fun _ => .empty) (bucketOfHash hash) ⟨[⟨hash, some (downloaded base)⟩], 2⟩, 1⟩

private theorem clean_downloaded (base : Int) (heap : Heap) :
    cleanSingleTorrent heap base (downloaded base) = (heap, downloaded base, false) := by
  simp [cleanSingleTorrent, downloaded]

private theorem lone_unlock (hash : Hash) (base : Int) (bucket : Nat) :
    (lone hash base).unlock bucket ((lone hash base).allTorrents bucket) 0 = lone hash base := by
  simp only [Tracker.unlock, Function.update_eq_self]
  rfl

theorem scrape_lone (hash other : Hash) (base : Int) (heap : Heap) :
    returnUdpScrapeForTorrent (lone hash base) heap base other =
      (lone hash base, if other = hash then htonl 0 ++ htonl 1 ++ htonl 0 else List.replicate 12 0) := by
  have members (bucket : Nat) (torrent : Torrent) (member : torrent ∈ ((lone hash base).allTorrents bucket).data) :
      torrent.hash = hash := by
    simp only [lone, Function.update_apply] at member
    split at member
    · cases List.mem_singleton.mp member
      rfl
    · cases member
  by_cases same : other = hash
  · subst same
    have table : (lone other base).allTorrents (bucketOfHash other) = ⟨[⟨other, some (downloaded base)⟩], 2⟩ := by
      simp [lone]
    have searched : binarySearch other.toList Torrent.bytes [⟨other, some (downloaded base)⟩] = (0, 1) := by
      simp [binarySearch, bisect, Torrent.bytes, (memcmp_eq_zero rfl).mpr, toInt32]
    have unlocked := lone_unlock other base (bucketOfHash other)
    rw [table] at unlocked
    simp only [returnUdpScrapeForTorrent, scrapeTorrent, table, searched, one_ne_zero, if_false, List.getElem?_cons_zero,
      Option.bind_some, clean_downloaded, List.set_cons_zero, unlocked, Bool.false_eq_true, if_true]
    rfl
  · have searched : (binarySearch other.toList Torrent.bytes ((lone hash base).allTorrents (bucketOfHash other)).data).2 = 0 := by
      rcases VectorSearch.binarySearch_cases other.toList Torrent.bytes
          ((lone hash base).allTorrents (bucketOfHash other)).data (by simp [Torrent.bytes]) with
        ⟨before, found, after, interval, split, equal, _⟩ | ⟨before, after, _, search, _⟩
      · have held := members (bucketOfHash other) found (by simp [split])
        exact absurd ((Vector.toList_inj.mp equal).symm.trans held) same
      · rw [search]
    simp [returnUdpScrapeForTorrent, scrapeTorrent, searched, lone_unlock, same]

theorem serve_lone (hash : Hash) (base gNowSeconds : Int) (minute : gNowMinutes gNowSeconds = base) (heaps : Nat → Heap) (made : Nat)
    (wanted : List Hash) :
    (lone hash base).serve gNowSeconds heaps made (wanted.map .udpScrape) =
      some ((wanted.map fun other => if other = hash then htonl 0 ++ htonl 1 ++ htonl 0 else List.replicate 12 0).flatten,
        lone hash base) := by
  induction wanted generalizing made with
  | nil => rfl
  | cons other rest ih =>
    have scraped := scrape_lone hash other base (heaps made)
    simp [Tracker.serve, Tracker.answer, Tracker.apply, Event.now, minute, scraped, ih]

variable (packet : ScrapePacket rijndaelEncrypt128 keys remoteip bytes)
include packet

theorem ScrapePacket.answered_whole (whole : 20 ∣ bytes.length - 16 ∨ 1516 ≤ bytes.length) (inbuf : Nat → Bytes) (tracker : Tracker) (turn : UdpTurn) :
    answered rijndaelEncrypt128 ⟨keys, inbuf, tracker⟩ turn bytes remoteip =
      scrapeReply tracker turn bytes (completeHashes bytes) := by
  have header := packet.header
  have count : min 75 ((bytes.length - 16 + 19) / 20) = min 75 ((bytes.length - 16) / 20) := by omega
  rw [packet.answered_eq, count, hashes_fill _ _ _ _ (by omega) (by omega), completeHashes]

theorem ScrapePacket.answered_cut (cut : ¬ (20 ∣ bytes.length - 16 ∨ 1516 ≤ bytes.length)) (inbuf : Nat → Bytes) (tracker : Tracker) (turn : UdpTurn) :
    answered rijndaelEncrypt128 ⟨keys, inbuf, tracker⟩ turn bytes remoteip ≠
      scrapeReply tracker turn bytes (completeHashes bytes) := by
  have header := packet.header
  intro same
  rw [packet.answered_eq] at same
  obtain ⟨records, left, served, size⟩ := serve_scrapes turn.gNowSeconds turn.heaps tracker 0
    (hashes (Received.fill (inbuf turn.worker) (.packet bytes remoteip)) (min 75 ((bytes.length - 16 + 19) / 20)))
  obtain ⟨records', left', served', size'⟩ := serve_scrapes turn.gNowSeconds turn.heaps tracker 0 (completeHashes bytes)
  simp only [scrapeReply, served, served', Option.map_some, Option.some.injEq, Prod.mk.injEq, List.append_cancel_left_eq] at same
  rw [same.1, size'] at size
  simp only [completeHashes, hashes, List.length_map, List.length_range] at size
  omega

theorem ScrapePacket.leaks (cut : ¬ (20 ∣ bytes.length - 16 ∨ 1516 ≤ bytes.length)) :
    ¬ ∀ (turn : UdpTurn) (tracker : Tracker) (inbuf inbuf' : Nat → Bytes), Sized inbuf → Sized inbuf' →
      answered rijndaelEncrypt128 ⟨keys, inbuf', tracker⟩ turn bytes remoteip =
        answered rijndaelEncrypt128 ⟨keys, inbuf, tracker⟩ turn bytes remoteip := by
  have header := packet.header
  obtain ⟨count, complete⟩ : ∃ count, (bytes.length - 16) / 20 = count := ⟨_, rfl⟩
  have begun : min 75 ((bytes.length - 16 + 19) / 20) = count + 1 := by omega
  have last (value : UInt8) : hashes (Received.fill (List.replicate gInbufSize value) (.packet bytes remoteip)) (count + 1) =
        hashes bytes count ++ [hashAt (Received.fill (List.replicate gInbufSize value) (.packet bytes remoteip)) (16 + 20 * count)] := by
    have front := hashes_fill (List.replicate gInbufSize value) bytes remoteip count (by omega) (by omega)
    rw [← front, hashes, hashes, List.range_succ, List.map_append, List.map_singleton]
  -- The last byte of the last hash is one the packet does not have.
  have differs : hashAt (Received.fill (List.replicate gInbufSize 1) (.packet bytes remoteip)) (16 + 20 * count) ≠
      hashAt (Received.fill (List.replicate gInbufSize 0) (.packet bytes remoteip)) (16 + 20 * count) := by
    intro same
    have byte := congrArg (fun hash : Hash => hash[19]) same
    have small : 16 + 20 * count + 19 < gInbufSize := by unfold gInbufSize; omega
    simp only [hashAt, Vector.getElem_ofFn] at byte
    rw [fill_behind _ _ _ (by omega), fill_behind _ _ _ (by omega)] at byte
    simp [List.getD_eq_getElem?_getD, small] at byte
  obtain ⟨target, stored⟩ : ∃ target,
    hashAt (Received.fill (List.replicate gInbufSize 0) (.packet bytes remoteip)) (16 + 20 * count) = target := ⟨_, rfl⟩
  intro same
  have both := same ⟨0, 0, .error, remoteip, 0, Vector.replicate 2 0, [], fun _ => []⟩ (lone target 0)
    (fun _ => List.replicate gInbufSize 0) (fun _ => List.replicate gInbufSize 1) (by simp [Sized]) (by simp [Sized])
  rw [packet.answered_eq, packet.answered_eq, begun, last, last, stored, scrapeReply, scrapeReply,
    serve_lone target 0 0 rfl, serve_lone target 0 0 rfl] at both
  rw [stored] at differs
  simp [differs, htonl] at both

/-- The reply and the store depend on the packet alone exactly when no hash is cut off
within the first 75; the reply then has a record for each hash. -/
theorem scrape_reply_iff :
    (∀ (turn : UdpTurn) (tracker : Tracker) (inbuf inbuf' : Nat → Bytes),
      (answered rijndaelEncrypt128 ⟨keys, inbuf, tracker⟩ turn bytes remoteip =
          scrapeReply tracker turn bytes (completeHashes bytes) ∧
        answered rijndaelEncrypt128 ⟨keys, inbuf', tracker⟩ turn bytes remoteip =
          answered rijndaelEncrypt128 ⟨keys, inbuf, tracker⟩ turn bytes remoteip) ↔
        20 ∣ bytes.length - 16 ∨ 1516 ≤ bytes.length) ∧
    ((∀ (turn : UdpTurn) (tracker : Tracker) (inbuf inbuf' : Nat → Bytes), Sized inbuf → Sized inbuf' →
      answered rijndaelEncrypt128 ⟨keys, inbuf', tracker⟩ turn bytes remoteip =
        answered rijndaelEncrypt128 ⟨keys, inbuf, tracker⟩ turn bytes remoteip) ↔
      20 ∣ bytes.length - 16 ∨ 1516 ≤ bytes.length) := by
  have header := packet.header
  by_cases whole : 20 ∣ bytes.length - 16 ∨ 1516 ≤ bytes.length
  · have faithful := packet.answered_whole whole
    simp only [whole, iff_true]
    refine ⟨?_, ?_⟩
    · intro turn tracker inbuf inbuf'
      exact ⟨faithful inbuf tracker turn, (faithful inbuf' tracker turn).trans (faithful inbuf tracker turn).symm⟩
    · intro turn tracker inbuf inbuf' _ _
      exact (faithful inbuf' tracker turn).trans (faithful inbuf tracker turn).symm
  · simp only [whole, iff_false]
    refine ⟨?_, ?_⟩
    · intro turn tracker inbuf inbuf' both
      exact packet.answered_cut whole inbuf tracker turn both.1
    · exact packet.leaks whole

end Scraping

section Runs

def noCipher (_ : Vector UInt32 44) (_ : Ip6) : Vector UInt32 4 := Vector.replicate 4 0

def zeroKeys : UdpKeys := ⟨Vector.replicate 44 0, Vector.replicate 2 0, 0⟩

def scraping : UdpTurn := ⟨0, 0, .error, Vector.replicate 16 0, 0, Vector.replicate 2 0, [], fun _ => []⟩

def scrapeBytes (count : Nat) : Bytes := List.replicate 11 0 ++ [2] ++ List.replicate (4 + count) 0

private theorem scrapeBytes_packet (count : Nat) :
    ScrapePacket noCipher zeroKeys (Vector.replicate 16 0) (scrapeBytes count) := by
  refine ⟨by simp [scrapeBytes], ?_, ?_⟩
  · rw [scrapeBytes, List.replicate_add, ← List.append_assoc]
    rfl
  · rw [scrapeBytes, List.append_assoc]
    rfl

theorem scrape_reply_one_hash : ScrapePacket noCipher zeroKeys (Vector.replicate 16 0) (scrapeBytes 20) ∧
    answered noCipher ⟨zeroKeys, fun _ => List.replicate gInbufSize 1, .initial⟩ scraping (scrapeBytes 20) (Vector.replicate 16 0) =
      scrapeReply .initial scraping (scrapeBytes 20) (completeHashes (scrapeBytes 20)) :=
  ⟨scrapeBytes_packet 20, (((scrape_reply_iff (scrapeBytes_packet 20)).1 scraping .initial
    (fun _ => List.replicate gInbufSize 1) (fun _ => [])).mpr (.inl (by decide))).1⟩

/-- A packet with one byte of a hash asks for no torrent, and is told about one that
another client asked for before. -/
theorem cut_scrape_leaks :
    ScrapePacket noCipher zeroKeys (Vector.replicate 16 0) (scrapeBytes 1) ∧ completeHashes (scrapeBytes 1) = [] ∧
    (answered noCipher ⟨zeroKeys, fun _ => List.replicate gInbufSize 0, lone (Vector.replicate 20 0) 0⟩ scraping
        (scrapeBytes 1) (Vector.replicate 16 0)).map Prod.fst =
      some (some [0, 0, 0, 2, 0, 0, 0, 0, 0, 0, 0, 0, 0, 0, 0, 1, 0, 0, 0, 0]) ∧
    (answered noCipher ⟨zeroKeys, fun _ => List.replicate gInbufSize 1, lone (Vector.replicate 20 0) 0⟩ scraping
        (scrapeBytes 1) (Vector.replicate 16 0)).map Prod.fst =
      some (some [0, 0, 0, 2, 0, 0, 0, 0, 0, 0, 0, 0, 0, 0, 0, 0, 0, 0, 0, 0]) := by
  refine ⟨scrapeBytes_packet 1, rfl, ?_, ?_⟩
  · decide +kernel
  · decide +kernel

end Runs

end BtServer.Proofs.UdpScrape

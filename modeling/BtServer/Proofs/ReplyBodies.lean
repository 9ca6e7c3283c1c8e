import BtServer.Proofs.PeerRoom
import BtServer.Proofs.PeerTally

/-! The handlers of HTTP requests write into the work buffer what they answer, behind the space for a header. An
announce takes the most space for its peers, a scrape for its entries, and both fit. -/

namespace BtServer.Proofs.ReplyBodies
open Lib Access ReplyBuffer PeerRoom PeerTally PeerListShape PeerListEdits PeerListInvariant PeerSelection TorrentTable TrackerSteps

variable {event : Event} {peerList : PeerList} {hash : Hash} {peer : Peer} {random : List Nat}

section Scrapes
variable {front outbuf : Bytes} {tracker : Tracker}

def entry (hash : Hash) (peerList : PeerList) : Bytes := ascii "20:" ++ hash.toList ++ scrapeText peerList

theorem length_entry {cleanings : Nat} (few : cleanings ≤ 64) (tallied : Tallied cleanings peerList) (hash : Hash) :
    (entry hash peerList).length ≤ 126 := by
  have bounded := tallied.bounded
  have seeds : (sizeDecimal peerList.seedCount).length ≤ 15 := by
    rw [sizeDecimal_small (by omega)]
    exact length_decimal_le (by norm_num) (by omega)
  have downs := length_sizeDecimal_le peerList.downCount
  have rest := length_sizeDecimal_le (subSize peerList.peerCount peerList.seedCount)
  have texts : (ascii "20:").length = 3 ∧ (ascii "d8:completei").length = 12 ∧ (ascii "e10:downloadedi").length = 15 ∧
      (ascii "e10:incompletei").length = 15 ∧ (ascii "ee").length = 2 := by
    decide
  have twenty : hash.toList.length = 20 := by simp
  simp only [entry, scrapeText, List.length_append]
  omega

theorem entry_written {peerList : PeerList} {hash : Hash} (filled : Filled front outbuf)
    (room : front.length + (entry hash peerList).length < gOutbufSize) :
    ∃ first second after, (storeBlock outbuf front.length (ascii "20:") : Access Trap Bytes) = .ok first ∧
      (storeBlock first (front.length + 3) hash.toList : Access Trap Bytes) = .ok second ∧
      sprintf second (front.length + 3 + 20) (scrapeText peerList) = .ok (after, (front ++ entry hash peerList).length) ∧
      Filled (front ++ entry hash peerList) after := by
  have three : (ascii "20:").length = 3 := by decide
  have twenty : hash.toList.length = 20 := by simp
  simp only [entry, List.length_append, three, twenty] at room
  obtain ⟨first, stored, begun⟩ := @Filled.block _ _ (ascii "20:") filled (by omega)
  obtain ⟨second, copied, more⟩ := @Filled.block _ _ hash.toList begun (by simp only [List.length_append]; omega)
  obtain ⟨after, printed, done⟩ := @Filled.printed _ _ (scrapeText peerList) more (by simp only [List.length_append]; omega)
  have split : front ++ ascii "20:" ++ hash.toList ++ scrapeText peerList = front ++ entry hash peerList := by
    simp only [entry, List.append_assoc]
  rw [List.length_append, three] at copied
  rw [List.length_append, List.length_append, three, twenty] at printed
  rw [split] at printed done
  exact ⟨first, second, after, stored, copied, printed, done⟩

theorem scrapeTorrents_written (now : Int) (hashes : List Hash) {heap : Heap} (housed : Housed tracker) {cleanings : Nat}
    (tallied : AllTallied cleanings tracker) (few : cleanings + hashes.length ≤ 64) (filled : Filled front outbuf)
    (room : front.length + 126 * hashes.length < gOutbufSize) :
    ∃ entries after, entries.length ≤ 126 * hashes.length ∧ Filled (front ++ entries) after ∧
      BtServer.scrapeTorrents now tracker heap hashes = ((BtServer.scrapeTorrents now tracker heap hashes).1, entries) ∧
      ReplyBuffer.scrapeTorrents now tracker heap hashes outbuf front.length =
        .ok ((BtServer.scrapeTorrents now tracker heap hashes).1, after, (front ++ entries).length) := by
  induction hashes generalizing tracker heap front outbuf cleanings with
  | nil =>
    refine ⟨[], outbuf, Nat.zero_le _, ?_, rfl, ?_⟩
    · rw [List.append_nil]
      exact filled
    · rw [List.append_nil]
      rfl
  | cons hash rest ih =>
    rw [List.length_cons] at room few
    obtain ⟨kept, still, found⟩ := scrapeTorrent_tallied housed (by omega) tallied heap now hash
    rw [ReplyBuffer.scrapeTorrents]
    simp only [BtServer.scrapeTorrents, List.length_cons]
    generalize scrapeTorrent tracker heap now hash = scraped at kept still found ⊢
    obtain ⟨middle, left, list⟩ := scraped
    dsimp only at kept still found ⊢
    cases list with
    | none =>
      obtain ⟨entries, after, length, done, made, ran⟩ := @ih _ _ _ left kept _ still (by omega) filled (by omega)
      refine ⟨entries, after, by omega, done, ?_, ran⟩
      rw [made]
      rfl
    | some peerList =>
      have short := length_entry (by omega) (found peerList rfl) hash
      obtain ⟨first, second, third, stored, copied, printed, begun⟩ := @entry_written _ _ peerList hash filled (by omega)
      obtain ⟨entries, after, length, done, made, ran⟩ :=
        @ih _ _ _ left kept _ still (by omega) begun (by rw [List.length_append]; omega)
      rw [List.append_assoc] at done ran
      refine ⟨entry hash peerList ++ entries, after, ?_, done, ?_, ?_⟩
      · rw [List.length_append]
        omega
      · rw [made]
        simp only [entry, scrapeText, List.append_assoc]
      · dsimp only
        rw [stored, Access.ok_bind, copied, Access.ok_bind, printed, Access.ok_bind]
        exact ran

theorem returnTcpScrape_written (now : Int) {hashes : List Hash} {heap : Heap} (housed : Housed tracker)
    (tallied : AllTallied 0 tracker) (filled : Filled front outbuf) (start : front.length = successHttpHeaderLength)
    (few : hashes.length ≤ otMaxmultiscrapeCount) :
    ∃ after, Filled (front ++ (BtServer.returnTcpScrapeForTorrent tracker heap now hashes).2) after ∧
      ReplyBuffer.returnTcpScrapeForTorrent tracker heap now hashes outbuf front.length =
        .ok ((BtServer.returnTcpScrapeForTorrent tracker heap now hashes).1, after,
          (BtServer.returnTcpScrapeForTorrent tracker heap now hashes).2.length) := by
  have sizes : successHttpHeaderLength = 80 ∧ gOutbufSize = 8192 ∧ otMaxmultiscrapeCount = 64 := ⟨rfl, rfl, rfl⟩
  have texts : (ascii "d5:filesd").length = 9 ∧ (ascii "ee").length = 2 := by decide
  obtain ⟨first, printed, begun⟩ := @Filled.printed _ _ (ascii "d5:filesd") filled (by omega)
  obtain ⟨entries, second, length, more, made, ran⟩ :=
    @scrapeTorrents_written _ _ _ now hashes heap housed 0 tallied (by omega) begun (by rw [List.length_append]; omega)
  obtain ⟨after, stored, done⟩ :=
    @Filled.block _ _ (ascii "ee") more (by rw [List.length_append, List.length_append]; omega)
  have body : front ++ ascii "d5:filesd" ++ entries ++ ascii "ee" = front ++ (ascii "d5:filesd" ++ entries ++ ascii "ee") := by
    simp only [List.append_assoc]
  have count : (front ++ ascii "d5:filesd" ++ entries).length + 2 - front.length =
      (ascii "d5:filesd" ++ entries ++ ascii "ee").length := by
    simp only [List.length_append]
    omega
  rw [body] at done
  rw [BtServer.returnTcpScrapeForTorrent, made]
  refine ⟨after, done, ?_⟩
  rw [ReplyBuffer.returnTcpScrapeForTorrent, printed, Access.ok_bind]
  dsimp only
  rw [ran, Access.ok_bind]
  dsimp only
  rw [stored, Access.ok_bind, count]

end Scrapes

section Calls
variable {front outbuf : Bytes} {tracker : Tracker}

inductive Permitted : Call → Prop where
  | announce {hash : Hash} {peer : Peer} {amount : Nat} {random : List Nat} (few : amount ≤ 200) :
      Permitted (.announce .tcp hash peer amount random)
  | stop {hash : Hash} {peer : Peer} {random : List Nat} : Permitted (.stop .tcp hash peer random)
  | scrape {hashes : List Hash} (few : hashes.length ≤ otMaxmultiscrapeCount) : Permitted (.tcpScrape hashes)

/-- What a handler leaves: the store of its call and the answer behind `front`. -/
def Handled (front : Bytes) (after : Tracker) (body : Bytes) (result : Tracker × Bytes × Nat) : Prop :=
  result.1 = after ∧ Wrote front body result.2

theorem length_stopReply (random : List Nat) (peerList : PeerList) : (stopReply random .tcp peerList).length ≤ 180 := by
  have short := interval_short (draw random).1
  have seeds := length_sizeDecimal_le peerList.seedCount
  have rest := length_sizeDecimal_le (subSize peerList.peerCount peerList.seedCount)
  have interval := length_decimal_le (by decide) short
  have least : (decimal (otClientRequestIntervalRandom (draw random).1 / 2)).length ≤ 4 := length_decimal_le (by decide) (by omega)
  have texts : (ascii "d8:completei").length = 12 ∧ (ascii "e10:incompletei").length = 15 ∧ (ascii "e8:intervali").length = 12 ∧
      (ascii "e12:min intervali").length = 17 ∧ (ascii "e5:peers0:e").length = 11 := by
    decide
  simp only [stopReply, List.length_append]
  omega

theorem Handled.wrote {after : Tracker} {body : Bytes} (filled : Filled (front ++ body) outbuf) :
    Follows (Handled front after) (some body) (.ok (after, outbuf, body.length) : Access Trap _) :=
  .returns ⟨rfl, .wrote filled⟩

theorem Handled.nothing {after : Tracker} (filled : Filled front outbuf) :
    Follows (Handled front after) (some []) (.ok (after, outbuf, 0) : Access Trap _) :=
  Handled.wrote (by rw [List.append_nil]; exact filled)

section Handlers
variable (filled : Filled front outbuf) (start : front.length = successHttpHeaderLength)
include filled start

theorem printed_handled (after : Tracker) {text : Bytes} (short : text.length ≤ 180) :
    Follows (Handled front after) (some text) (do
      let (outbuf, r) ← sprintf outbuf front.length text
      .ok (after, outbuf, r - front.length)) := by
  have sizes : successHttpHeaderLength = 80 ∧ gOutbufSize = 8192 := ⟨rfl, rfl⟩
  obtain ⟨written, printed, done⟩ := @Filled.printed _ _ text filled (by omega)
  rw [printed, Access.ok_bind]
  dsimp only
  rw [List.length_append, Nat.add_sub_cancel_left]
  exact Handled.wrote done

theorem announce_handled {amount : Nat}
    (call : event.call = .announce .tcp hash peer amount random) (few : amount ≤ 200) (housed : Housed tracker)
    (distinct : ∀ peerList, Holds tracker hash peerList → Distinct peerList) :
    Follows (Handled front (tracker.apply event)) (tracker.answer event) (handleCall event tracker outbuf front.length) := by
  have outcome := addPeer_cases tracker event.heap event.now random .tcp hash peer amount (housed.complete _)
  simp only [Tracker.apply, Tracker.answer, handleCall, call]
  generalize addPeerToTorrentAndReturnPeers tracker event.heap event.now random .tcp hash peer amount = ran at outcome ⊢
  cases outcome with
  | failed same => exact Handled.nothing filled
  | performed first second found edited =>
    have entered := entering_whole first event.now (fun old same => distinct old (edited.found_mem same))
      (fun old same => (distinct old (edited.found_mem same)).bounded)
    have whole := (announced_whole (announcePeer_cases second event.now _ peer entered.1) entered.2.1).1
    cases issued : (announcePeer second event.now (entering first event.now found) peer).2 with
    | none => exact Handled.nothing filled
    | some events =>
      simp only [Option.map_some]
      generalize (announcePeer second event.now (entering first event.now found) peer).1 = peerList at whole ⊢
      have written := @returnPeersForTorrent_written _ _ random peerList amount filled start few
        (fun most => whole (lt_of_le_of_lt (most.trans few) (by norm_num)))
      generalize (BtServer.returnPeersForTorrent random peerList amount .tcp).map Reply.bytes = body at written ⊢
      generalize ReplyBuffer.returnPeersForTorrent random peerList amount outbuf front.length = ran at written ⊢
      cases written with
      | stops other => exact .stops other
      | returns wrote => exact .returns ⟨rfl, wrote⟩

theorem stop_handled (call : event.call = .stop .tcp hash peer random) (housed : Housed tracker) :
    Follows (Handled front (tracker.apply event)) (tracker.answer event) (handleCall event tracker outbuf front.length) := by
  obtain ⟨found, torrents, edited, _, removed⟩ := removePeer_cases tracker random .tcp hash peer (housed.complete _)
  simp only [Tracker.apply, Tracker.answer, handleCall, call, removed]
  exact printed_handled filled start _ (length_stopReply random _)

theorem handleCall_handled (permitted : Permitted event.call) (housed : Housed tracker)
    (distinct : ∀ hash peerList, Holds tracker hash peerList → Distinct peerList) :
    Follows (Handled front (tracker.apply event)) (tracker.answer event) (handleCall event tracker outbuf front.length) := by
  cases call : event.call with
  | announce proto hash peer amount random =>
    rw [call] at permitted
    cases permitted with
    | announce few => exact announce_handled filled start call few housed (distinct hash)
  | stop proto hash peer random =>
    rw [call] at permitted
    cases permitted with
    | stop => exact stop_handled filled start call housed
  | tcpScrape hashes =>
    rw [call] at permitted
    cases permitted with
    | scrape few =>
      obtain ⟨after, done, ran⟩ := @returnTcpScrape_written _ _ _ event.now hashes event.heap housed
        (fun hash peerList held => (distinct hash peerList held).tallied) filled start few
      simp only [Tracker.apply, Tracker.answer, handleCall, call, ran]
      exact Handled.wrote done
  | udpScrape hash => exact absurd permitted (by rw [call]; rintro ⟨⟩)
  | savedState hash base downCount => exact absurd permitted (by rw [call]; rintro ⟨⟩)
  | clean bucket => exact absurd permitted (by rw [call]; rintro ⟨⟩)

theorem forgetHash_handled :
    Follows (Handled front tracker) (some (ascii forgotHash)) (forgetHash tracker outbuf front.length) :=
  printed_handled filled start tracker (by decide)

end Handlers

/-- As many of the peers of a torrent can be named: none or all of them, or no more than the selection counts. -/
def Selectable (peerCount amount : Nat) : Prop :=
  amount = 0 ∨ peerCount ≤ amount ∨ peerCount % 2 ^ 30 ≠ 0 ∧ amount ≤ counted peerCount

theorem selectable_few {peerCount : Nat} (few : peerCount < 2 ^ 30) (amount : Nat) : Selectable peerCount amount := by
  by_cases more : peerCount ≤ amount
  · exact .inr (.inl more)
  have whole : counted peerCount = peerCount := by
    rw [counted, Nat.mod_eq_of_lt few]
    exact Nat.mod_eq_of_lt (Nat.lt_log2_self.trans (Nat.pow_lt_pow_right (by decide) (by omega)))
  exact .inr (.inr ⟨by omega, by omega⟩)

theorem returnPeersForTorrent_isSome (shaped : Shaped peerList.peers) (occupied : peerList.peers.all ≠ []) (random : List Nat)
    (amount : Nat) (proto : Proto) :
    (BtServer.returnPeersForTorrent random peerList amount proto).isSome ↔ Selectable peerList.peerCount amount := by
  simp only [BtServer.returnPeersForTorrent, Option.isSome_map]
  by_cases more : peerList.peerCount ≤ amount
  · rw [show (if amount > peerList.peerCount then peerList.peerCount else amount) = peerList.peerCount by split <;> omega]
    split <;> simp [Selectable, more]
  have cut : (if amount > peerList.peerCount then peerList.peerCount else amount) = amount := if_neg (by omega)
  rw [cut]
  by_cases none : amount = 0
  · simp [Selectable, none]
  rw [if_neg none, if_neg (by omega), returnPeersSelection_isSome shaped occupied (by omega)]
  simp only [Selectable, none, more, false_or]

theorem announced_occupied {now : Int} {old : PeerList} {result : PeerList × Option (List StatsEvent)}
    (announced : Announced now old peer result) (issued : result.2 ≠ none) : result.1.peers.all ≠ [] := by
  cases announced with
  | refused => exact absurd rfl issued
  | inserted split index cut shaped edited => simp [all_split edited]
  | renewed split index same shaped edited => simp [all_split edited]

/-- An announce that is performed leaves the torrent with peers that can be named as the reply asks for it. -/
def Repliable (tracker : Tracker) (event : Event) : Prop :=
  ∀ proto hash peer amount random served, event.call = .announce proto hash peer amount random →
    tracker.served event = some served → Selectable served.peerList.peerCount amount

variable (housed : Housed tracker) (distinct : ∀ hash peerList, Holds tracker hash peerList → Distinct peerList)
include housed distinct

theorem answer_isSome_iff :
    (tracker.answer event).isSome ↔ Repliable tracker event := by
  cases call : event.call with
  | announce proto hash peer amount random =>
    have outcome := announce_cases call (housed.complete _)
    have only : Repliable tracker event ↔ ∀ served, tracker.served event = some served →
        Selectable served.peerList.peerCount amount := by
      refine ⟨fun all served => all _ _ _ _ _ served call, ?_⟩
      rintro wanted _ _ _ _ _ served same
      cases call.symm.trans same
      exact wanted served
    rw [only]
    have answered : tracker.answer event =
        (tracker.served event).elim (some []) fun served => served.reply.map Reply.bytes := by
      simp only [Tracker.answer, Tracker.served, call]
      cases (addPeerToTorrentAndReturnPeers tracker event.heap event.now random proto hash peer amount).2 <;> rfl
    rw [answered]
    generalize tracker.apply event = after, tracker.served event = issued at outcome ⊢
    cases outcome with
    | failed same => simp
    | performed first second found edited =>
      obtain ⟨shaped, -, -⟩ := entering_whole first event.now (fun old same => distinct hash old (edited.found_mem same))
        (fun old same => (distinct hash old (edited.found_mem same)).bounded)
      have announced := announcePeer_cases second event.now _ peer shaped
      generalize announcePeer second event.now (entering first event.now found) peer = result at announced ⊢
      have kept := announced.shaped shaped
      cases issued : result.2 with
      | none => simp
      | some events =>
        have occupied := announced_occupied announced (by simp [issued])
        simpa using returnPeersForTorrent_isSome kept occupied random amount proto
  | _ => simp [Tracker.answer, Repliable, call]

theorem repliable_few (few : ∀ hash peerList, Holds tracker hash peerList → peerList.peerCount ≤ 2 ^ 30 - 2) (event : Event) :
    Repliable tracker event := by
  intro proto hash peer amount random served call result
  have outcome := announce_cases call (housed.complete _)
  generalize tracker.apply event = after, tracker.served event = issued at outcome result
  cases outcome with
  | failed same => cases result
  | performed first second found edited =>
    obtain ⟨events, issued, rfl⟩ := Option.map_eq_some_iff.mp result
    obtain ⟨shaped, whole, most⟩ := entering_whole first event.now (fun old same => distinct hash old (edited.found_mem same))
      (fun old same => few hash old (edited.found_mem same))
    have count := (announced_whole (announcePeer_cases second event.now _ peer shaped) whole).2
    exact selectable_few (lt_of_le_of_lt count (by omega)) amount

end Calls

end BtServer.Proofs.ReplyBodies

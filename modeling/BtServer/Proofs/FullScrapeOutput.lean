import BtServer.FullScrape
import BtServer.Proofs.BucketThreads
import BtServer.Proofs.TrackerRefinement

/-! The output of a full scrape. No entry is longer than the space behind the watermark, so every write stays in its block and
the blocks put together are the entries of the torrents found under the locks, in the order of the table. -/

namespace BtServer.Proofs.FullScrapeOutput
open Lib VectorSearch PeerListShape TorrentTable TrackerSteps TrackerRefinement

variable {mode : ScrapeMode} {n k : Nat} {seen : List (List Torrent)}

def entryText (mode : ScrapeMode) (torrent : Torrent) : Bytes :=
  (scrapeEntry mode torrent.hash (torrent.peerList.getD .zero)).flatMap ScrapeWrite.text

def header : ScrapeMode → Bytes
  | .fullscrape => ascii "d5:filesd"
  | _ => []

def trailer : ScrapeMode → Bytes
  | .fullscrape => ascii "ee"
  | _ => []

/-- `fmt_urlencoded` writes at most three characters for a byte. -/
def Fitting : ScrapeMode → Prop
  | .tpbUrlencoded fmtUrlencoded => ∀ bytes, (fmtUrlencoded bytes).length ≤ 3 * bytes.length
  | _ => True

section Entries

theorem length_toHex (bytes : Bytes) : (toHex bytes).length = 2 * bytes.length := by
  simp [toHex, Nat.mul_comm]

private theorem length_timeDecimal_le (time : Int) : (timeDecimal time).length ≤ 21 := by
  apply length_signedDecimal_le
  have low := @Int.le_bmod time (2 ^ 64) (by decide)
  have high := @Int.bmod_lt time (2 ^ 64) (by decide)
  omega

theorem entry_short (fitting : Fitting mode) (hash : Hash) (peerList : PeerList) :
    ((scrapeEntry mode hash peerList).flatMap ScrapeWrite.text).length + 1 ≤ otScrapeMaxentrylen := by
  have seeds := length_sizeDecimal_le peerList.seedCount
  have downs := length_sizeDecimal_le peerList.downCount
  have leechers := length_sizeDecimal_le (subSize peerList.peerCount peerList.seedCount)
  have base := length_timeDecimal_le peerList.base
  have hex : (toHex hash.toList).length = 40 := by simp [length_toHex]
  have htonls : ∀ n, (htonl n).length = 4 := fun n => rfl
  have texts : (ascii "d8:completei").length = 12 ∧ (ascii "e10:downloadedi").length = 15 ∧ (ascii "e10:incompletei").length = 15 ∧
      (ascii "ee").length = 2 ∧ (ascii "2").length = 1 ∧ (ascii "0").length = 1 ∧ (ascii ":").length = 1 ∧ (ascii "\n").length = 1 := by
    decide
  cases mode with
  | tpbUrlencoded fmtUrlencoded =>
    have encoded := fitting hash.toList
    rw [Vector.length_toList] at encoded
    simp only [scrapeEntry, memcpyWrite, sprintfWrite, otScrapeMaxentrylen, List.flatMap_cons, List.flatMap_nil, List.length_append,
      List.length_nil]
    omega
  | _ =>
    simp only [scrapeEntry, memcpyWrite, sprintfWrite, otScrapeMaxentrylen, List.flatMap_cons, List.flatMap_nil, List.length_append,
      List.length_nil, Vector.length_toList, hex, htonls]
    omega

theorem terminator_le {hash : Hash} {peerList : PeerList} :
    ∀ write ∈ scrapeEntry mode hash peerList, write.terminator ≤ 1 := by
  cases mode <;> simp [scrapeEntry, memcpyWrite, sprintfWrite]

end Entries

section Blocks

structure Ready (out : ScrapeOut) (text : Bytes) : Prop where
  heap : out.heap = []
  mapped : out.last.mapped = otScrapeChunkSize
  iovLen : out.last.iovLen = otScrapeChunkSize
  re : out.re = otScrapeChunkSize - otScrapeMaxentrylen
  room : out.r < out.re
  filled : ∀ entry ∈ out.filled, entry.content = some entry.bytes
  text : out.filled.flatMap IoVec.bytes ++ out.last.bytes = text

def ScrapeOut.extended (out : ScrapeOut) (text : Bytes) : ScrapeOut :=
  { out with last := { out.last with bytes := out.last.bytes ++ text } }

theorem performWrites_fits {out : ScrapeOut} {writes : List ScrapeWrite} (small : ∀ write ∈ writes, write.terminator ≤ 1)
    (fits : out.r + (writes.flatMap ScrapeWrite.text).length + 1 ≤ out.last.mapped) :
    performWrites out writes = .ok (ScrapeOut.extended out (writes.flatMap ScrapeWrite.text)) := by
  induction writes generalizing out with
  | nil => simp [performWrites, ScrapeOut.extended]
  | cons write rest ih =>
    rw [List.forall_mem_cons] at small
    simp only [List.flatMap_cons, List.length_append] at fits
    have inside : out.r + write.text.length + write.terminator ≤ out.last.mapped := by
      have most := small.1
      omega
    have later : (ScrapeOut.extended out write.text).r + (rest.flatMap ScrapeWrite.text).length + 1 ≤
        (ScrapeOut.extended out write.text).last.mapped := by
      simp only [ScrapeOut.extended, ScrapeOut.r, List.length_append] at fits ⊢
      omega
    rw [performWrites, performWrite, if_pos inside]
    exact (ih small.2 later).trans (by simp [ScrapeOut.extended])

theorem iovecFixlast_keeps {k : Nat} {last : IoVec} (mapped : last.mapped = otScrapeChunkSize)
    (iovLen : last.iovLen = otScrapeChunkSize) (short : last.bytes.length < otScrapeChunkSize) :
    ∃ fixed, iovecFixlast (2 ^ k) last = .ok fixed ∧ fixed.bytes = last.bytes ∧ fixed.content = some last.bytes := by
  have written : last.bytes.length < (1 + last.bytes.length / 2 ^ k) * 2 ^ k := by
    apply (Nat.div_lt_iff_lt_mul (by positivity)).mp
    omega
  have read : ∀ room, last.bytes.length ≤ room → (IoVec.mk room last.bytes last.bytes.length).content = some last.bytes := by
    intro room enough
    simp [IoVec.content, enough]
  rw [iovecFixlast, iovLen, mapped]
  split
  next fewer =>
    have less : (1 + last.bytes.length / 2 ^ k) * 2 ^ k ≤ otScrapeChunkSize := by
      by_cases page : k ≤ 19
      · have pages : otScrapeChunkSize = 2 ^ (19 - k) * 2 ^ k := by
          rw [← pow_add, Nat.sub_add_cancel page]
          rfl
        rw [pages] at short ⊢
        have count := (Nat.div_lt_iff_lt_mul (by positivity)).mpr short
        exact Nat.mul_le_mul_right _ (by omega)
      · have large : otScrapeChunkSize < 2 ^ k :=
          lt_of_lt_of_le (by decide : otScrapeChunkSize < 2 ^ 20) (Nat.pow_le_pow_right (by decide) (by omega))
        rw [Nat.div_eq_of_lt large, Nat.div_eq_of_lt (short.trans large)] at fewer
        exact absurd rfl fewer
    rw [if_neg (not_lt.mpr less), Nat.min_eq_right less]
    exact ⟨_, rfl, rfl, read _ written.le⟩
  next => exact ⟨_, rfl, rfl, read _ (mapped ▸ short.le)⟩

theorem mapM_content {iovector : List IoVec} (read : ∀ entry ∈ iovector, entry.content = some entry.bytes) :
    iovector.mapM IoVec.content = some (iovector.map IoVec.bytes) := by
  induction iovector with
  | nil => rfl
  | cons entry rest ih =>
    rw [List.forall_mem_cons] at read
    simp [List.mapM_cons, read.1, ih read.2]

theorem makeRoom_ready {k : Nat} {out : ScrapeOut} {text entry : Bytes} (ready : Ready out text)
    (short : entry.length + 1 ≤ otScrapeMaxentrylen) :
    ∃ next, makeRoom (2 ^ k) 2 (ScrapeOut.extended out entry) = .ok next ∧ Ready next (text ++ entry) := by
  obtain ⟨heap, mapped, iovLen, re, room, filled, written⟩ := ready
  have whole : out.filled.flatMap IoVec.bytes ++ (out.last.bytes ++ entry) = text ++ entry := by
    rw [← List.append_assoc, written]
  rw [makeRoom]
  split
  next full =>
    have inside : (out.last.bytes ++ entry).length < otScrapeChunkSize := by
      rw [re] at room
      simp only [ScrapeOut.r, List.length_append, otScrapeChunkSize, otScrapeMaxentrylen] at room short ⊢
      omega
    obtain ⟨fixed, trimmed, kept, read⟩ :=
      @iovecFixlast_keeps k { out.last with bytes := out.last.bytes ++ entry } mapped iovLen inside
    have increased : fullscrapeIncrease (2 ^ k) (ScrapeOut.extended out entry) =
        .ok ⟨out.filled ++ [fixed], ⟨otScrapeChunkSize, [], otScrapeChunkSize⟩, otScrapeChunkSize - otScrapeMaxentrylen, []⟩ := by
      simp [fullscrapeIncrease, ScrapeOut.extended, trimmed, iovecIncrease, heap, allocate]
    rw [increased]
    refine ⟨_, rfl, rfl, rfl, rfl, rfl, (by decide : 0 < otScrapeChunkSize - otScrapeMaxentrylen), ?_, ?_⟩
    · intro other member
      rcases List.mem_append.mp member with before | added
      · exact filled other before
      · rw [List.mem_singleton.mp added, kept]
        exact read
    · simpa [kept] using whole
  next small =>
    exact ⟨_, rfl, heap, mapped, iovLen, re, by simpa using small, filled, whole⟩

theorem scrapeBucket_ready {k : Nat} {mode : ScrapeMode} (fitting : Fitting mode) {torrents : List Torrent}
    (complete : Complete torrents) {out : ScrapeOut} {text : Bytes} (ready : Ready out text) :
    ∃ next, scrapeBucket (2 ^ k) mode out torrents = .ok next ∧ Ready next (text ++ torrents.flatMap (entryText mode)) := by
  induction torrents generalizing out text with
  | nil => exact ⟨out, rfl, by simpa using ready⟩
  | cons torrent rest ih =>
    obtain ⟨peerList, has⟩ := Option.isSome_iff_exists.mp (complete torrent (by simp))
    have short := entry_short fitting torrent.hash peerList
    have fits : out.r + ((scrapeEntry mode torrent.hash peerList).flatMap ScrapeWrite.text).length + 1 ≤ out.last.mapped := by
      have room := ready.room
      rw [ready.re] at room
      rw [ready.mapped]
      simp only [otScrapeChunkSize, otScrapeMaxentrylen] at room short ⊢
      omega
    obtain ⟨middle, made, again⟩ := @makeRoom_ready k _ _ _ ready short
    obtain ⟨next, scraped, final⟩ := ih (fun other member => complete other (by simp [member])) again
    refine ⟨next, ?_, ?_⟩
    · rw [scrapeBucket, has]
      simp only [performWrites_fits terminator_le fits, made, scraped]
    · have entry : entryText mode torrent = (scrapeEntry mode torrent.hash peerList).flatMap ScrapeWrite.text := by
        rw [entryText, has, Option.getD_some]
      rw [List.flatMap_cons, entry, ← List.append_assoc]
      exact final

theorem scrapeBegin_ready (mode : ScrapeMode) : ∃ out, scrapeBegin mode [] = .ok out ∧ Ready out (header mode) := by
  cases mode with
  | fullscrape => exact ⟨_, rfl, rfl, rfl, rfl, rfl, by decide, by simp, rfl⟩
  | _ => exact ⟨_, rfl, rfl, rfl, rfl, rfl, by decide, by simp, rfl⟩

theorem scrapeEnd_ready {k : Nat} (mode : ScrapeMode) {out : ScrapeOut} {text : Bytes} (ready : Ready out text) :
    ∃ iovector, scrapeEnd (2 ^ k) mode out = .ok iovector ∧ (∀ entry ∈ iovector, entry.content = some entry.bytes) ∧
      iovector.flatMap IoVec.bytes = text ++ trailer mode := by
  have ends : (trailer mode).length ≤ 2 := by
    cases mode with
    | fullscrape => decide
    | _ => exact Nat.zero_le _
  have room := ready.room
  rw [ready.re] at room
  have inside : (out.last.bytes ++ trailer mode).length < otScrapeChunkSize := by
    simp only [ScrapeOut.r, List.length_append, otScrapeChunkSize, otScrapeMaxentrylen] at room ⊢
    omega
  obtain ⟨fixed, trimmed, kept, read⟩ :=
    @iovecFixlast_keeps k { out.last with bytes := out.last.bytes ++ trailer mode } ready.mapped ready.iovLen inside
  have ended : writeTrailer mode out = .ok (ScrapeOut.extended out (trailer mode)) := by
    cases mode with
    | fullscrape =>
      have fits : out.r + (sprintfWrite (ascii "ee")).text.length + (sprintfWrite (ascii "ee")).terminator ≤ out.last.mapped := by
        have lengths : (sprintfWrite (ascii "ee")).text.length = 2 ∧ (sprintfWrite (ascii "ee")).terminator = 1 := by decide
        rw [lengths.1, lengths.2, ready.mapped]
        simp only [otScrapeChunkSize, otScrapeMaxentrylen] at room ⊢
        omega
      rw [writeTrailer, performWrite, if_pos fits]
      rfl
    | _ => simp [writeTrailer, trailer, ScrapeOut.extended]
  refine ⟨out.filled ++ [fixed], ?_, ?_, ?_⟩
  · rw [scrapeEnd, ended]
    simp only [ScrapeOut.extended, trimmed]
  · intro entry member
    rcases List.mem_append.mp member with before | added
    · exact ready.filled entry before
    · rw [List.mem_singleton.mp added, kept]
      exact read
  · rw [List.flatMap_append, List.flatMap_singleton, kept, ← ready.text, List.append_assoc]

end Blocks

section Order

theorem bucketOfHash_eq (hash : Hash) : bucketOfHash hash = bigEndian hash.toList / 2 ^ 150 := by
  have taken := bigEndian_take hash.toList 4
  rw [Vector.length_toList] at taken
  rw [bucketOfHash, ← taken, Nat.div_div_eq_div_mul]
  norm_num [otBucketCountShift, otBucketCountBits]

theorem bucketOfHash_ascending {first second : Torrent} (less : bucketOfHash first.hash < bucketOfHash second.hash) :
    rank Torrent.bytes first < rank Torrent.bytes second := by
  rw [bucketOfHash_eq, bucketOfHash_eq] at less
  by_contra more
  exact absurd less (not_lt.mpr (Nat.div_le_div_right (not_lt.mp more)))

theorem flatten_sorted {buckets : List (List Torrent)} (placed : Placed (fun torrent => bucketOfHash torrent.hash) buckets)
    (sorted : ∀ bucket ∈ buckets, Sorted bucket) : Sorted buckets.flatten :=
  placed.sorted (fun _ _ => bucketOfHash_ascending) sorted

end Order

section Runs

structure Found (seen : List (List Torrent)) : Prop where
  placed : Placed (fun torrent => bucketOfHash torrent.hash) seen
  sorted : ∀ bucket ∈ seen, Sorted bucket

def Written (mode : ScrapeMode) (seen : List (List Torrent)) : ScrapeWorker → Prop
  | .idle heap => heap = [] ∧ seen = []
  | .visiting bucket out =>
    bucket ≤ otBucketCount ∧ seen.length = bucket ∧ Ready out (header mode ++ seen.flatten.flatMap (entryText mode))
  | .returned iovector =>
    seen.length = otBucketCount ∧ (∀ entry ∈ iovector, entry.content = some entry.bytes) ∧
      iovector.flatMap IoVec.bytes = header mode ++ seen.flatten.flatMap (entryText mode) ++ trailer mode
  | .faulted => False

structure Scraped (mode : ScrapeMode) (state : Scraping) : Prop where
  housed : Housed state.tracker
  indexed : Indexed state.tracker
  found : Found state.seen
  written : Written mode state.seen state.worker

theorem found_snoc {bucket : List Torrent} (found : Found seen)
    (home : ∀ torrent ∈ bucket, bucketOfHash torrent.hash = seen.length) (sorted : Sorted bucket) : Found (seen ++ [bucket]) := by
  constructor
  · intro i visited here torrent inside
    rcases Nat.lt_or_ge i seen.length with earlier | last
    · rw [List.getElem?_append_left earlier] at here
      exact found.placed i visited here torrent inside
    · have bound := (List.getElem?_eq_some_iff.mp here).1
      rw [List.length_append, List.length_singleton] at bound
      obtain rfl : i = seen.length := by omega
      rw [List.getElem?_concat_length, Option.some.injEq] at here
      subst here
      exact home torrent inside
  · intro visited member
    rcases List.mem_append.mp member with before | added
    · exact found.sorted visited before
    · rw [List.mem_singleton.mp added]
      exact sorted

theorem worker_written (fitting : Fitting mode) {torrents : Nat → List Torrent}
    (complete : ∀ bucket, Complete (torrents bucket)) {worker : ScrapeWorker} (written : Written mode seen worker) :
    Written mode (seen ++ worker.finds torrents) (worker.next (2 ^ k) mode torrents true) := by
  cases worker with
  | idle heap =>
    obtain ⟨rfl, rfl⟩ := written
    obtain ⟨out, begun, ready⟩ := scrapeBegin_ready mode
    simp only [ScrapeWorker.finds, ScrapeWorker.next, begun]
    exact ⟨Nat.zero_le _, rfl, by simpa using ready⟩
  | visiting bucket out =>
    obtain ⟨bound, count, ready⟩ := written
    by_cases inside : bucket < otBucketCount
    · obtain ⟨next, scraped, again⟩ := @scrapeBucket_ready k _ fitting _ (complete bucket) _ _ ready
      simp only [ScrapeWorker.finds, ScrapeWorker.next, inside, if_true, scraped]
      refine ⟨inside, by simp [count], ?_⟩
      rw [List.flatten_append, List.flatMap_append, ← List.append_assoc]
      simpa using again
    · obtain ⟨iovector, ended, read, text⟩ := @scrapeEnd_ready k mode _ _ ready
      simp only [ScrapeWorker.finds, ScrapeWorker.next, inside, if_false, ended, List.append_nil]
      exact ⟨by omega, read, text⟩
  | returned iovector => simpa [ScrapeWorker.finds, ScrapeWorker.next] using written
  | faulted => exact written.elim

/-- The tracker keeps running, and no bucket has reached 2 ^ 32 torrents. -/
structure Permitted (state : Scraping) (event : ScrapeEvent) : Prop where
  roomy : Roomy state.tracker
  running : event ≠ .worker false

theorem scraped_next (fitting : Fitting mode) {state : Scraping} {event : ScrapeEvent}
    (scraped : Scraped mode state) (permitted : Permitted state event) : Scraped mode (state.next (2 ^ k) mode event) := by
  obtain ⟨housed, indexed, found, written⟩ := scraped
  cases event with
  | tracker event =>
    exact ⟨(apply_explained housed event).1, apply_indexed housed indexed permitted.roomy event, found, written⟩
  | worker running =>
    obtain rfl : running = true := by simpa using permitted.running
    have complete : ∀ bucket, Complete (state.torrents bucket) := housed.complete
    refine ⟨housed, indexed, ?_, worker_written fitting complete written⟩
    rw [Scraping.next]
    cases worker : state.worker with
    | visiting bucket out =>
      simp only [worker, Written] at written
      simp only [ScrapeWorker.finds]
      split
      next inside =>
        refine found_snoc found ?_ (indexed bucket)
        rw [written.2.1]
        exact housed.home bucket
      next => simpa using found
    | _ => simpa [worker, ScrapeWorker.finds] using found

theorem scraped_run {k : Nat} {mode : ScrapeMode} (fitting : Fitting mode) {events : List ScrapeEvent} {final : Scraping}
    (run : Run (Scraping.Step (2 ^ k) mode) Permitted (.initial []) events final) : Scraped mode final := by
  refine run.invariant (Scraped mode) ?_ ?_
  · rintro before event after scraped permitted rfl
    exact scraped_next fitting scraped permitted
  · exact ⟨housed_initial, fun bucket => .nil, ⟨by simp [Placed, Scraping.initial], by simp [Scraping.initial]⟩, rfl, rfl⟩

variable {k : Nat} {mode : ScrapeMode}

/-- The worker alone, on torrents that do not change. -/
theorem run_alone (fitting : Fitting mode) {permits : Scraping → ScrapeEvent → Prop} {tracker : Tracker} (housed : Housed tracker)
    (permitted : ∀ worker seen, permits ⟨tracker, worker, seen⟩ (.worker true)) :
    ∃ iovector, Run (Scraping.Step (2 ^ k) mode) permits ⟨tracker, .idle [], []⟩ (List.replicate (otBucketCount + 2) (.worker true))
        ⟨tracker, .returned iovector, (List.range otBucketCount).map fun bucket => (tracker.allTorrents bucket).data⟩ ∧
      (∀ entry ∈ iovector, entry.content = some entry.bytes) ∧ iovector.flatMap IoVec.bytes = header mode ++
        ((List.range otBucketCount).map fun bucket => (tracker.allTorrents bucket).data).flatten.flatMap (entryText mode) ++
          trailer mode := by
  have moved : ∀ {worker next : ScrapeWorker} {seen found : List (List Torrent)},
      worker.next (2 ^ k) mode (fun bucket => (tracker.allTorrents bucket).data) true = next →
      seen ++ worker.finds (fun bucket => (tracker.allTorrents bucket).data) = found →
      Scraping.Step (2 ^ k) mode ⟨tracker, worker, seen⟩ (.worker true) ⟨tracker, next, found⟩ := by
    rintro worker next seen found rfl rfl
    rfl
  have visits : ∀ count ≤ otBucketCount, ∃ out,
      Run (Scraping.Step (2 ^ k) mode) permits ⟨tracker, .idle [], []⟩ (List.replicate (count + 1) (.worker true))
        ⟨tracker, .visiting count out, (List.range count).map fun bucket => (tracker.allTorrents bucket).data⟩ ∧
      Ready out (header mode ++
        ((List.range count).map fun bucket => (tracker.allTorrents bucket).data).flatten.flatMap (entryText mode)) := by
    intro count bound
    induction count with
    | zero =>
      obtain ⟨out, begun, ready⟩ := scrapeBegin_ready mode
      refine ⟨out, .next (permitted _ _) (moved ?_ rfl) (.done _), by simpa using ready⟩
      rw [ScrapeWorker.next, begun]
    | succ count ih =>
      obtain ⟨out, run, ready⟩ := ih (by omega)
      obtain ⟨next, scraped, again⟩ := @scrapeBucket_ready k _ fitting _ (housed.complete count) _ _ ready
      have inside : count < otBucketCount := bound
      rw [List.replicate_succ', List.range_succ, List.map_append, List.flatten_append, List.flatMap_append, ← List.append_assoc]
      refine ⟨next, run.snoc (permitted _ _) (moved ?_ ?_), by simpa using again⟩
      · simp only [ScrapeWorker.next, inside, if_true, scraped]
      · simp only [ScrapeWorker.finds, inside, if_true, List.map_singleton]
  obtain ⟨out, run, ready⟩ := visits _ (le_refl _)
  obtain ⟨iovector, ended, read, text⟩ := @scrapeEnd_ready k mode _ _ ready
  rw [List.replicate_succ']
  refine ⟨iovector, run.snoc (permitted _ _) (moved ?_ ?_), read, text⟩
  · simp only [ScrapeWorker.next, lt_irrefl, if_false, ended]
  · simp only [ScrapeWorker.finds, lt_irrefl, if_false, List.append_nil]

theorem run_worker {pageSize count : Nat} {state final : Scraping}
    (run : Run (Scraping.Step pageSize mode) free state (List.replicate count (.worker true)) final) :
    final.worker = (ScrapeWorker.next pageSize mode state.torrents true)^[count] state.worker := by
  induction count generalizing state with
  | zero =>
    cases run
    rfl
  | succ count ih =>
    cases run with
    | next _ moved rest =>
      cases moved
      exact ih rest

theorem fullscrapeMake_text (fitting : Fitting mode) {tracker : Tracker} (housed : Housed tracker) :
    ∃ iovector, fullscrapeMake (2 ^ k) mode [] (fun bucket => (tracker.allTorrents bucket).data) = .returned iovector ∧
      (∀ entry ∈ iovector, entry.content = some entry.bytes) ∧ iovector.flatMap IoVec.bytes = header mode ++
        ((List.range otBucketCount).map fun bucket => (tracker.allTorrents bucket).data).flatten.flatMap (entryText mode) ++
          trailer mode := by
  obtain ⟨iovector, run, read, text⟩ := @run_alone k _ fitting free _ housed fun _ _ => trivial
  exact ⟨iovector, (run_worker run).symm, read, text⟩

end Runs

def dictionaryEntry (hash : Hash) (complete downloaded incomplete : Nat) : Bytes :=
  ascii "20:" ++ hash.toList ++ ascii "d8:completei" ++ decimal complete ++ ascii "e10:downloadedi" ++ decimal downloaded ++
    ascii "e10:incompletei" ++ decimal incomplete ++ ascii "ee"

theorem entryText_fullscrape {hash : Hash} {peerList : PeerList} (seeds : peerList.seedCount ≤ peerList.peerCount)
    (peers : peerList.peerCount < 2 ^ 63) (downs : peerList.downCount < 2 ^ 63) :
    entryText .fullscrape ⟨hash, some peerList⟩ =
      dictionaryEntry hash peerList.seedCount peerList.downCount (peerList.peerCount - peerList.seedCount) := by
  have texts : ascii "2" ++ (ascii "0" ++ ascii ":") = ascii "20:" := by decide
  simp only [entryText, Option.getD_some, scrapeEntry, memcpyWrite, sprintfWrite, List.flatMap_cons, List.flatMap_nil, List.append_nil,
    dictionaryEntry, subSize_eq seeds, sizeDecimal_small downs, sizeDecimal_small (lt_of_le_of_lt seeds peers),
    sizeDecimal_small (lt_of_le_of_lt (Nat.sub_le _ _) peers), ← texts, List.append_assoc]

/-- In every interleaving no write leaves its block, each part of `fullscrape_make` is followed by the
next one, and what is returned is the dictionary of the torrents found under the locks, in ascending order. -/
theorem full_scrape_output {k : Nat} {events : List ScrapeEvent} {final : Scraping}
    (run : Run (Scraping.Step (2 ^ k) .fullscrape) Permitted (.initial []) events final) :
    final.worker ≠ .faulted ∧
    (∀ bucket out, final.worker = .visiting bucket out → final.seen.length = bucket ∧
      ((bucket < otBucketCount ∧ ∃ out, (final.next (2 ^ k) .fullscrape (.worker true)).worker = .visiting (bucket + 1) out) ∨
        (bucket = otBucketCount ∧ ∃ iovector, (final.next (2 ^ k) .fullscrape (.worker true)).worker = .returned iovector))) ∧
    (∀ iovector, final.worker = .returned iovector → final.seen.length = otBucketCount ∧
      (∃ contents, iovector.mapM IoVec.content = some contents ∧
        contents.flatten = ascii "d5:filesd" ++ final.seen.flatten.flatMap (entryText .fullscrape) ++ ascii "ee") ∧
      StrictSorted (fun torrent : Torrent => bigEndian torrent.hash.toList) final.seen.flatten) ∧
    (∀ hash peerList, peerList.seedCount ≤ peerList.peerCount → peerList.peerCount < 2 ^ 63 → peerList.downCount < 2 ^ 63 →
      entryText .fullscrape ⟨hash, some peerList⟩ =
        dictionaryEntry hash peerList.seedCount peerList.downCount (peerList.peerCount - peerList.seedCount)) := by
  obtain ⟨housed, indexed, found, written⟩ := @scraped_run k .fullscrape trivial _ _ run
  refine ⟨?_, ?_, ?_, fun hash peerList => entryText_fullscrape⟩
  · intro faulted
    rwa [faulted] at written
  · intro bucket out worker
    rw [worker] at written
    obtain ⟨bound, count, ready⟩ := written
    refine ⟨count, ?_⟩
    rcases Nat.lt_or_eq_of_le bound with inside | rfl
    · have complete : Complete (final.torrents bucket) := housed.complete bucket
      obtain ⟨next, scraped, _⟩ := @scrapeBucket_ready k .fullscrape trivial _ complete _ _ ready
      refine .inl ⟨inside, next, ?_⟩
      simp only [Scraping.next, worker, ScrapeWorker.next, inside, if_true, scraped]
    · obtain ⟨iovector, ended, _⟩ := @scrapeEnd_ready k .fullscrape _ _ ready
      refine .inr ⟨rfl, iovector, ?_⟩
      simp only [Scraping.next, worker, ScrapeWorker.next, lt_irrefl, if_false, ended]
  · intro iovector worker
    rw [worker] at written
    obtain ⟨count, read, text⟩ := written
    refine ⟨count, ⟨iovector.map IoVec.bytes, ?_, ?_⟩, flatten_sorted found.placed found.sorted⟩
    · exact mapM_content read
    · rw [← List.flatMap_def]
      exact text

private theorem flatten_first {buckets : Nat → List Torrent} (others : ∀ i, i ≠ 0 → buckets i = []) (n : Nat) :
    ((List.range (n + 1)).map buckets).flatten = buckets 0 := by
  induction n with
  | zero => simp
  | succ n ih =>
    rw [List.range_succ, List.map_append, List.flatten_append, ih, List.map_singleton, others (n + 1) (by omega)]
    simp

open TrackerInvariant in
/-- One peer announces itself, then the worker runs. -/
theorem full_scrape_output_one : ∃ final iovector contents, Run (Scraping.Step (2 ^ 12) .fullscrape) Permitted (.initial [])
      (.tracker (announceAt 7) :: List.replicate (otBucketCount + 2) (.worker true)) final ∧
    final.worker = .returned iovector ∧ iovector.mapM IoVec.content = some contents ∧
    contents.flatten = ascii "d5:filesd" ++ dictionaryEntry zeroHash 0 0 1 ++ ascii "ee" := by
  have only : Only zeroHash (Tracker.initial.apply (announceAt 7)) := (only_initial _).apply (by decide)
  have others : ∀ bucket ≠ 0, ((Tracker.initial.apply (announceAt 7)).allTorrents bucket).data = [] :=
    fun bucket other => congrArg OtVector.data (only.elsewhere bucket other)
  have roomy : Roomy (Tracker.initial.apply (announceAt 7)) := by
    intro bucket
    by_cases first : bucket = 0
    · subst first
      decide +kernel
    · rw [others bucket first]
      exact Nat.two_pow_pos 32
  have empty : Roomy .initial := fun bucket => Nat.two_pow_pos 32
  obtain ⟨iovector, alone, _⟩ := @run_alone 12 .fullscrape trivial Permitted _ only.housed fun _ _ => ⟨roomy, by simp⟩
  have permitted : Permitted (.initial []) (.tracker (announceAt 7)) := ⟨empty, by simp⟩
  have run := Run.next permitted (rfl : Scraping.Step (2 ^ 12) .fullscrape _ _ _) alone
  obtain ⟨_, ⟨contents, read, text⟩, _⟩ := (full_scrape_output run).2.2.1 iovector rfl
  refine ⟨_, iovector, contents, run, rfl, read, text.trans ?_⟩
  have entry := @entryText_fullscrape zeroHash ⟨0, 0, 1, 0, ⟨.members [peerAt 7], 2⟩⟩ (by decide) (by decide) (by decide)
  rw [show otBucketCount = 1023 + 1 from rfl, flatten_first others 1023]
  exact congrArg (ascii "d5:filesd" ++ · ++ ascii "ee") ((List.flatMap_singleton _ _).trans entry)

section Flood
open BucketThreads TrackerInvariant

def saved (i : Nat) : Event := ⟨0, [], .savedState (hashFrom i) 0 0⟩

private theorem restored (bound : n ≤ 2 ^ 32) :
    ∃ room, n ≤ room ∧ (((List.range n).map saved).foldl Tracker.apply .initial).allTorrents 0 =
      ⟨(List.range n).map torrentFrom, room⟩ := by
  induction n with
  | zero => exact ⟨0, le_refl _, rfl⟩
  | succ n ih =>
    obtain ⟨room, fits, vector⟩ := ih (by omega)
    obtain ⟨again, enough, appended⟩ := savedState_next bound fits vector
    refine ⟨again, enough, ?_⟩
    nth_rewrite 1 [List.range_succ]
    rw [List.map_append, List.foldl_append]
    exact appended

def announceHash (i : Nat) : Event := ⟨0, [], .announce .udp (hashFrom i) (peerAt 0) 0 []⟩

private theorem announced_twice {room : Nat} {tracker : Tracker} (positive : 0 < n) (truncated : toInt32 n = 0) (fits : n ≤ room)
    (vector : tracker.allTorrents 0 = ⟨(List.range n).map torrentFrom, room⟩) :
    ¬ Sorted ((tracker.apply (announceHash (n / 2))).allTorrents 0).data := by
  obtain ⟨before, after, cut, missed⟩ := middle_missed torrentFrom Torrent.bytes positive truncated
  rw [cut] at vector
  have enough : (before ++ torrentFrom (n / 2) :: after).length ≤ room := by
    rw [← cut]
    simpa using fits
  obtain ⟨again, _, opened⟩ := vectorFindOrInsert_opens enough
    (show binarySearch (Torrent.bytes ⟨hashFrom (n / 2), none⟩) Torrent.bytes _ = (before.length, 0) from missed)
  have stored : ((tracker.apply (announceHash (n / 2))).allTorrents 0).data =
      before ++ ⟨hashFrom (n / 2), some (announcePeer [] 0 .zero (peerAt 0)).1⟩ :: torrentFrom (n / 2) :: after := by
    simp [Tracker.apply, announceHash, addPeerToTorrentAndReturnPeers, hashFrom_bucket, vector, opened, allocate, Tracker.unlock,
      Event.now, gNowMinutes]
  rw [stored]
  exact twice_unsorted rfl

private theorem scraped_unsorted (positive : 0 < n) (truncated : toInt32 n = 0) (bound : n ≤ 2 ^ 32) :
    ∃ final iovector, Run (Scraping.Step (2 ^ 12) .fullscrape) free (.initial [])
      (((List.range n).map saved ++ [announceHash (n / 2)]).map .tracker ++ List.replicate (otBucketCount + 2) (.worker true)) final ∧
      final.worker = .returned iovector ∧
      ¬ StrictSorted (fun torrent : Torrent => bigEndian torrent.hash.toList) final.seen.flatten := by
  obtain ⟨room, fits, vector⟩ := restored bound
  have unsorted := announced_twice positive truncated fits vector
  generalize listed : (List.range n).map saved ++ [announceHash (n / 2)] = events
  have last : (((List.range n).map saved).foldl Tracker.apply .initial).apply (announceHash (n / 2)) =
      events.foldl Tracker.apply .initial := by
    rw [← listed, List.foldl_append]
    rfl
  rw [last] at unsorted
  have housed : Housed (events.foldl Tracker.apply .initial) := by
    refine (run_foldl events .initial).invariant Housed ?_ housed_initial
    rintro before event after housed - rfl
    exact (apply_explained housed event).1
  obtain ⟨iovector, alone, _⟩ := @run_alone 12 .fullscrape trivial free _ housed fun _ _ => trivial
  have idle : (events.map ScrapeEvent.tracker).foldl (Scraping.next (2 ^ 12) .fullscrape) (.initial []) =
      ⟨events.foldl Tracker.apply .initial, .idle [], []⟩ := by
    rw [List.foldl_map]
    exact List.foldl_hom (fun tracker => Scraping.mk tracker (.idle []) []) fun _ _ => rfl
  rw [← idle] at alone
  have run := (Run.foldl (fun _ _ _ => ⟨trivial, rfl⟩) _).trans alone
  refine ⟨_, iovector, run, rfl, fun sorted => unsorted ?_⟩
  have member : ((events.foldl Tracker.apply .initial).allTorrents 0).data ∈
      (List.range otBucketCount).map fun bucket => ((events.foldl Tracker.apply .initial).allTorrents bucket).data :=
    List.mem_map_of_mem (List.mem_range.mpr (Nat.two_pow_pos otBucketCountBits))
  simp only [StrictSorted] at sorted
  have ordered := sorted.sublist (List.sublist_flatten_of_mem member)
  exact ordered

/-- A tracker that was started with 2 ^ 32 torrents in its first bucket gets an announce for the one in the
middle: the full scrape lists that one twice. -/
theorem full_scrape_unsorted : ∃ final iovector, Run (Scraping.Step (2 ^ 12) .fullscrape) free (.initial [])
      (((List.range (2 ^ 32)).map saved ++ [announceHash (2 ^ 31)]).map .tracker ++
        List.replicate (otBucketCount + 2) (.worker true)) final ∧
      final.worker = .returned iovector ∧
      ¬ StrictSorted (fun torrent : Torrent => bigEndian torrent.hash.toList) final.seen.flatten := by
  rw [show (2 : Nat) ^ 31 = 2 ^ 32 / 2 by norm_num]
  exact scraped_unsorted (by norm_num) (by rfl) (le_refl _)

end Flood

end BtServer.Proofs.FullScrapeOutput

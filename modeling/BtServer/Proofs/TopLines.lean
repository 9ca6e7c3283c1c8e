import BtServer.TopTorrents
import BtServer.Proofs.TrackerInvariant

/-! What `stats_top_txt` prints. The counts are those seen under the locks. The hashes are read later, through pointers into the
vectors: they are right as long as no torrent that was passed is moved before they are printed. -/

namespace BtServer.Proofs.TopLines
open Lib

variable {pointer : TorrentPointer} {val : Nat} {lines : List TopLine} {done : List Torrent} {others : Nat → Nat}
  {state first last : TopStats} {rest : List TopRecord} {permits : TopStats → TopEvent → Prop}

section Ranking
variable {count : Torrent → Nat} {amount : Nat} {seen : List (List Torrent)} {blocks : Nat → Nat} {top : List TopRecord}

def Points (count : Torrent → Nat) (seen : List (List Torrent)) (blocks : Nat → Nat) (pointer : TorrentPointer) (val : Nat) : Prop :=
  blocks pointer.bucket = pointer.block ∧ ∃ visited torrent, seen[pointer.bucket]? = some visited ∧
    visited[pointer.position]? = some torrent ∧ count torrent = val

/-- An array after the torrents that were seen: their largest counts, and where they were found. -/
structure Ranked (count : Torrent → Nat) (amount : Nat) (seen : List (List Torrent)) (blocks : Nat → Nat) (top : List TopRecord) :
    Prop where
  length : top.length = min amount 100
  sorted : (top.map TopRecord.val).Pairwise (· ≥ ·)
  keys : top.map TopRecord.val =
    ((seen.flatten.map count).foldl (fun sorted value => insertDesc value sorted) (List.replicate (min amount 100) 0)).take
      (min amount 100)
  marked : ∀ record ∈ top, record.torrent.isSome = decide (0 < record.val)
  points : ∀ record ∈ top, ∀ pointer, record.torrent = some pointer → Points count seen blocks pointer record.val

theorem ranked_zero (count : Torrent → Nat) (amount : Nat) (blocks : Nat → Nat) : Ranked count amount [] blocks (topZero amount) := by
  have zero : ∀ record ∈ topZero amount, record = ⟨0, none⟩ := fun record member => List.eq_of_mem_replicate member
  refine ⟨by simp [topZero], by simp [topZero, List.pairwise_replicate], by simp [topZero], ?_, ?_⟩
  · intro record member
    rw [zero record member]
    rfl
  · intro record member pointer set
    rw [zero record member] at set
    cases set

theorem points_opened (points : Points count seen blocks pointer val) (later : List Torrent) :
    Points count (seen ++ [later]) blocks pointer val := by
  obtain ⟨block, visited, torrent, here, place, counted⟩ := points
  refine ⟨block, visited, torrent, ?_, place, counted⟩
  rw [List.getElem?_append_left (List.getElem?_eq_some_iff.mp here).1]
  exact here

theorem points_extended
    (points : Points count (seen ++ [done]) blocks pointer val) (torrent : Torrent) :
    Points count (seen ++ [done ++ [torrent]]) blocks pointer val := by
  obtain ⟨block, visited, found, here, place, counted⟩ := points
  by_cases last : pointer.bucket = seen.length
  · rw [last, List.getElem?_concat_length, Option.some.injEq] at here
    subst here
    refine ⟨block, done ++ [torrent], found, by rw [last, List.getElem?_concat_length], ?_, counted⟩
    rw [List.getElem?_append_left (List.getElem?_eq_some_iff.mp place).1]
    exact place
  · have bound := (List.getElem?_eq_some_iff.mp here).1
    have earlier : pointer.bucket < seen.length := by
      rw [List.length_append, List.length_singleton] at bound
      omega
    rw [List.getElem?_append_left earlier] at here
    exact points_opened ⟨block, visited, found, here, place, counted⟩ _

theorem ranked_opened (ranked : Ranked count amount seen blocks top) : Ranked count amount (seen ++ [[]]) blocks top := by
  obtain ⟨length, sorted, keys, marked, points⟩ := ranked
  refine ⟨length, sorted, by simpa using keys, marked, ?_⟩
  intro record member pointer set
  exact points_opened (points record member pointer set) []

theorem ranked_offer (ranked : Ranked count amount (seen ++ [done]) blocks top) (torrent : Torrent) :
    Ranked count amount (seen ++ [done ++ [torrent]]) blocks
      (offer TopRecord.val top ⟨count torrent, some ⟨seen.length, done.length, blocks seen.length⟩⟩) := by
  obtain ⟨length, sorted, keys, marked, points⟩ := ranked
  have flat : (seen ++ [done ++ [torrent]]).flatten = (seen ++ [done]).flatten ++ [torrent] := by simp
  refine ⟨(length_offer sorted _).trans length, offer_sorted sorted _, ?_, ?_, ?_⟩
  · rw [offer_keys sorted, keys, flat, List.map_append, List.foldl_append, length, take_insertDesc]
    rfl
  · intro record member
    by_cases zero : count torrent = 0
    · rw [offer_positive sorted zero] at member
      exact marked record member
    · rcases offer_mem member with old | rfl
      · exact marked record old
      · simp only [Option.isSome_some]
        exact (decide_eq_true (Nat.pos_of_ne_zero zero)).symm
  · intro record member pointer set
    rcases offer_mem member with old | rfl
    · exact points_extended (points record old pointer set) torrent
    · cases set
      exact ⟨rfl, done ++ [torrent], torrent, by simp, by simp, rfl⟩

theorem ranked_scan {done rest : List Torrent} (ranked : Ranked count amount (seen ++ [done]) blocks top) :
    Ranked count amount (seen ++ [done ++ rest]) blocks (scanTop count seen.length (blocks seen.length) done.length rest top) := by
  induction rest generalizing done top with
  | nil => simpa [scanTop] using ranked
  | cons torrent rest ih =>
    have later := ih (ranked_offer ranked torrent)
    rw [List.length_append, List.length_singleton, List.append_assoc] at later
    exact later

variable (ranked : Ranked count amount seen blocks top)
include ranked

theorem ranked_visited (torrents : List Torrent) :
    Ranked count amount (seen ++ [torrents]) blocks (scanTop count seen.length (blocks seen.length) 0 torrents top) := by
  have scanned := @ranked_scan count amount seen blocks top [] torrents (ranked_opened ranked)
  rwa [List.nil_append, List.length_nil] at scanned

theorem ranked_blocks (same : ∀ bucket < seen.length, others bucket = blocks bucket) : Ranked count amount seen others top := by
  obtain ⟨length, sorted, keys, marked, points⟩ := ranked
  refine ⟨length, sorted, keys, marked, ?_⟩
  intro record member pointer set
  obtain ⟨block, visited, torrent, here, rest⟩ := points record member pointer set
  refine ⟨?_, visited, torrent, here, rest⟩
  rw [same _ (List.getElem?_eq_some_iff.mp here).1]
  exact block

def largest (count : Torrent → Nat) (amount : Nat) (seen : List (List Torrent)) : List Nat :=
  ((seen.flatten.map count).insertionSort (· ≥ ·)).take (min amount 100)

theorem ranked_counts :
    (top.filter fun record => record.torrent.isSome).map TopRecord.val = (largest count amount seen).filter (0 < ·) := by
  obtain ⟨_, _, keys, marked, _⟩ := ranked
  have positive : (top.filter fun record => record.torrent.isSome).map TopRecord.val = (top.map TopRecord.val).filter (0 < ·) := by
    rw [List.filter_map, List.filter_congr marked]
    rfl
  rw [positive, keys, foldl_insertDesc, List.take_append, List.filter_append, List.take_replicate, largest]
  simp

end Ranking

section Printing
variable {count : Torrent → Nat} {amount : Nat} {seen : List (List Torrent)} {blocks : Nat → Nat}

/-- A line names a torrent that was seen with the count it gives. -/
def Right (count : Torrent → Nat) (seen : List (List Torrent)) (line : TopLine) : Prop :=
  ∃ torrent ∈ seen.flatten, line.hash = some torrent.hash ∧ count torrent = line.val

def Printed (count : Torrent → Nat) (amount : Nat) (seen : List (List Torrent)) (blocks : Nat → Nat) (rest : List TopRecord)
    (lines : List TopLine) : Prop :=
  ∃ done, Ranked count amount seen blocks (done ++ rest) ∧
    lines.map TopLine.val = (done.filter fun record => record.torrent.isSome).map TopRecord.val ∧ ∀ line ∈ lines, Right count seen line

/-- The places of the torrents that were seen still have their hashes. -/
def Unmoved (state : TopStats) : Prop :=
  ∀ bucket visited, state.seen[bucket]? = some visited →
    visited.map Torrent.hash <+: (state.tracker.allTorrents bucket).data.map Torrent.hash

theorem hashAt_unmoved (unmoved : Unmoved state) (points : Points count state.seen state.blocks pointer val) :
    ∃ torrent ∈ state.seen.flatten, state.hashAt pointer = some torrent.hash ∧ count torrent = val := by
  obtain ⟨block, visited, torrent, here, place, counted⟩ := points
  have inside : torrent ∈ state.seen.flatten :=
    List.mem_flatten.mpr ⟨visited, List.mem_of_getElem? here, List.mem_of_getElem? place⟩
  refine ⟨torrent, inside, ?_, counted⟩
  obtain ⟨rest, split⟩ := unmoved _ _ here
  have bound : pointer.position < (visited.map Torrent.hash).length := by
    rw [List.length_map]
    exact (List.getElem?_eq_some_iff.mp place).1
  rw [TopStats.hashAt, if_pos block, ← List.getElem?_map, ← split, List.getElem?_append_left bound, List.getElem?_map, place]
  rfl

theorem printed_line (unmoved : Unmoved state) {record : TopRecord}
    (printed : Printed count amount state.seen state.blocks (record :: rest) lines) :
    Printed count amount state.seen state.blocks rest (lines ++ state.line record) := by
  obtain ⟨done, ranked, vals, right⟩ := printed
  refine ⟨done ++ [record], by simpa using ranked, ?_, ?_⟩
  · rw [List.map_append, List.filter_append, List.map_append, vals, TopStats.line]
    cases set : record.torrent <;> simp [set]
  · intro line member
    rcases List.mem_append.mp member with before | added
    · exact right line before
    · rw [TopStats.line] at added
      cases set : record.torrent with
      | none => simp [set] at added
      | some pointer =>
        simp only [set, List.mem_singleton] at added
        subst added
        exact hashAt_unmoved unmoved (ranked.points record (by simp) pointer set)

theorem printed_blocks
    (printed : Printed count amount seen blocks rest lines) (same : ∀ bucket < seen.length, others bucket = blocks bucket) :
    Printed count amount seen others rest lines := by
  obtain ⟨done, ranked, vals, right⟩ := printed
  exact ⟨done, ranked_blocks ranked same, vals, right⟩

end Printing

section Runs
variable {amount : Nat} {state : TopStats}

def Progress (amount : Nat) (seen : List (List Torrent)) (blocks : Nat → Nat) : TopWorker → Prop
  | .scanning bucket peers seeds => seen.length = bucket ∧ bucket ≤ otBucketCount ∧
    Ranked Torrent.peerCount amount seen blocks peers ∧ Ranked Torrent.seedCount amount seen blocks seeds
  | .printing peers seeds reply => seen.length = otBucketCount ∧
    Printed Torrent.peerCount amount seen blocks peers reply.peers ∧ Printed Torrent.seedCount amount seen blocks seeds reply.seeds
  | .returned (some reply) => seen.length = otBucketCount ∧
    Printed Torrent.peerCount amount seen blocks [] reply.peers ∧ Printed Torrent.seedCount amount seen blocks [] reply.seeds
  | .returned none => True

structure Sane (amount : Nat) (state : TopStats) : Prop where
  unmoved : Unmoved state
  progress : Progress amount state.seen state.blocks state.worker

/-- The torrents of a vector stay in their places, and the vector in its block. New ones come behind them. -/
def Kept (before after : OtVector Torrent) : Prop :=
  before.data.map Torrent.hash <+: after.data.map Torrent.hash ∧ after.space = before.space

/-- Nothing moves in the buckets that have been visited. -/
def Permitted (state : TopStats) : TopEvent → Prop
  | .tracker event =>
    ∀ bucket < state.seen.length, Kept (state.tracker.allTorrents bucket) ((state.tracker.apply event).allTorrents bucket)
  | .worker _ => True

theorem sane_tracker {event : Event} (sane : Sane amount state) (permitted : Permitted state (.tracker event)) :
    Sane amount (state.next (.tracker event)) := by
  obtain ⟨unmoved, progress⟩ := sane
  have same : ∀ bucket < state.seen.length, (state.next (.tracker event)).blocks bucket = state.blocks bucket := by
    intro bucket visited
    simp only [TopStats.next, if_pos (permitted bucket visited).2]
  refine ⟨?_, ?_⟩
  · intro bucket visited here
    exact (unmoved bucket visited here).trans (permitted bucket (List.getElem?_eq_some_iff.mp here).1).1
  · have seen : (state.next (.tracker event)).seen = state.seen := rfl
    have worker : (state.next (.tracker event)).worker = state.worker := rfl
    rw [seen, worker]
    cases phase : state.worker with
    | scanning bucket peers seeds =>
      simp only [phase, Progress] at progress ⊢
      exact ⟨progress.1, progress.2.1, ranked_blocks progress.2.2.1 same, ranked_blocks progress.2.2.2 same⟩
    | printing peers seeds reply =>
      simp only [phase, Progress] at progress ⊢
      exact ⟨progress.1, printed_blocks progress.2.1 same, printed_blocks progress.2.2 same⟩
    | returned reply =>
      cases reply with
      | none => trivial
      | some reply =>
        simp only [phase, Progress] at progress ⊢
        exact ⟨progress.1, printed_blocks progress.2.1 same, printed_blocks progress.2.2 same⟩

theorem sane_work (sane : Sane amount state) (running : Bool) : Sane amount (state.work running) := by
  obtain ⟨unmoved, progress⟩ := sane
  have stays : ∀ {worker : TopWorker}, Progress amount state.seen state.blocks worker → Sane amount { state with worker := worker } :=
    fun progress => ⟨unmoved, progress⟩
  rw [TopStats.work]
  cases phase : state.worker with
  | scanning bucket peers seeds =>
    simp only [phase, Progress] at progress
    obtain ⟨visits, bound, byPeers, bySeeds⟩ := progress
    simp only
    split
    next inside =>
      subst visits
      refine ⟨?_, ?_⟩
      · intro bucket visited here
        rcases Nat.lt_or_ge bucket state.seen.length with earlier | last
        · rw [List.getElem?_append_left earlier] at here
          exact unmoved bucket visited here
        · have most := (List.getElem?_eq_some_iff.mp here).1
          rw [List.length_append, List.length_singleton] at most
          obtain rfl : bucket = state.seen.length := by omega
          rw [List.getElem?_concat_length, Option.some.injEq] at here
          subst here
          exact List.prefix_refl _
      · cases running with
        | false => trivial
        | true =>
          refine ⟨by simp, inside, ranked_visited byPeers _, ranked_visited bySeeds _⟩
    next outside => exact stays ⟨by omega, ⟨[], byPeers, rfl, by simp⟩, ⟨[], bySeeds, rfl, by simp⟩⟩
  | printing peers seeds reply =>
    simp only [phase, Progress] at progress
    obtain ⟨visits, byPeers, bySeeds⟩ := progress
    cases peers with
    | cons record peers => exact stays ⟨visits, printed_line unmoved byPeers, bySeeds⟩
    | nil =>
      cases seeds with
      | cons record seeds => exact stays ⟨visits, byPeers, printed_line unmoved bySeeds⟩
      | nil => exact stays ⟨visits, byPeers, bySeeds⟩
  | returned reply =>
    exact ⟨unmoved, progress⟩

theorem sane_run {events : List TopEvent} {final : TopStats} (run : Run TopStats.Step Permitted (.initial amount) events final) :
    Sane amount final := by
  refine run.invariant (Sane amount) ?_ ?_
  · rintro before event after sane permitted rfl
    cases event with
    | tracker event => exact sane_tracker sane permitted
    | worker running => exact sane_work sane running
  · refine ⟨by simp [Unmoved, TopStats.initial], rfl, Nat.zero_le _, ranked_zero _ _ _, ranked_zero _ _ _⟩

end Runs

/-- What is right about the lines for one of the counts: each names a torrent that was seen with its count,
and the counts are the largest ones that were seen, except that zeros are left out. -/
def LinesRight (count : Torrent → Nat) (amount : Nat) (seen : List (List Torrent)) (lines : List TopLine) : Prop :=
  (∀ line ∈ lines, Right count seen line) ∧ lines.map TopLine.val = (largest count amount seen).filter (0 < ·) ∧
  (lines.map TopLine.val = largest count amount seen ↔ ∀ value ∈ largest count amount seen, 0 < value)

private theorem lines_right {count : Torrent → Nat} {amount : Nat} {seen : List (List Torrent)} {blocks : Nat → Nat}
    (printed : Printed count amount seen blocks [] lines) : LinesRight count amount seen lines := by
  obtain ⟨done, ranked, vals, right⟩ := printed
  rw [List.append_nil] at ranked
  rw [ranked_counts ranked] at vals
  refine ⟨right, vals, ?_⟩
  rw [vals, List.filter_eq_self]
  simp

private theorem seen_alone {works : List Bool} (run : Run TopStats.Step permits first (works.map .worker) last)
    (fresh : ∀ bucket visited, first.seen[bucket]? = some visited → visited = (first.tracker.allTorrents bucket).data)
    (phase : ∀ bucket peers seeds, first.worker = .scanning bucket peers seeds → first.seen.length = bucket) :
    ∀ bucket visited, last.seen[bucket]? = some visited → visited = (last.tracker.allTorrents bucket).data := by
  induction works generalizing first with
  | nil =>
    cases run
    exact fresh
  | cons running rest ih =>
    cases run with
    | next permitted moved later =>
      subst moved
      refine ih later ?_ ?_
      · simp only [TopStats.next, TopStats.work]
        split
        next bucket peers seeds scanning =>
          split
          next =>
            intro other visited here
            rcases Nat.lt_or_ge other first.seen.length with earlier | last
            · rw [List.getElem?_append_left earlier] at here
              exact fresh other visited here
            · have most := (List.getElem?_eq_some_iff.mp here).1
              rw [List.length_append, List.length_singleton] at most
              obtain rfl : other = first.seen.length := by omega
              rw [List.getElem?_concat_length, Option.some.injEq] at here
              rw [← here, phase _ _ _ scanning]
          next => exact fresh
        all_goals exact fresh
      · simp only [TopStats.next, TopStats.work]
        split
        next bucket peers seeds scanning =>
          have visits := phase _ _ _ scanning
          split
          next =>
            intro other _ _ now
            cases running with
            | false => cases now
            | true =>
              cases now
              simp [visits]
          next =>
            intro _ _ _ now
            cases now
        case h_5 => exact phase
        all_goals
          intro _ _ _ now
          cases now

private theorem seen_before {prepared : List Event}
    (run : Run TopStats.Step permits first (prepared.map .tracker) last) : last.seen = first.seen ∧ last.worker = first.worker := by
  induction prepared generalizing first with
  | nil =>
    cases run
    exact ⟨rfl, rfl⟩
  | cons event rest ih =>
    cases run with
    | next permitted moved later =>
      subst moved
      have same := ih later
      exact same

/-- In every run in which the torrents that were passed stay in their places, the reply is right. If
nothing else happens from the first lock on, the torrents that were seen are those of the tracker. -/
theorem top_lines_right {amount : Nat} {events : List TopEvent} {final : TopStats} {reply : TopReply}
    (run : Run TopStats.Step Permitted (.initial amount) events final) (returned : final.worker = .returned (some reply)) :
    LinesRight Torrent.peerCount amount final.seen reply.peers ∧ LinesRight Torrent.seedCount amount final.seen reply.seeds ∧
    final.seen.length = otBucketCount ∧
    ∀ (prepared : List Event) (works : List Bool), events = prepared.map .tracker ++ works.map .worker →
      final.seen = (List.range otBucketCount).map fun bucket => (final.tracker.allTorrents bucket).data := by
  have progress := (sane_run run).progress
  rw [returned] at progress
  refine ⟨lines_right progress.2.1, lines_right progress.2.2, progress.1, ?_⟩
  rintro prepared works rfl
  obtain ⟨middle, first, second⟩ := run.split
  obtain ⟨seen, worker⟩ := seen_before first
  have fresh := seen_alone second (by simp [seen, TopStats.initial]) (by
    intro bucket peers seeds scanning
    rw [worker] at scanning
    cases scanning
    simp [seen, TopStats.initial])
  apply List.ext_getElem (by simpa using progress.1)
  intro bucket bound _
  rw [fresh bucket _ (List.getElem?_eq_getElem bound)]
  simp

section Examples
open TorrentTable TrackerSteps TrackerInvariant

def oneHash : Hash := Vector.ofFn fun k => if k.val = 19 then 1 else 0

def announcing (hash : Hash) (i : Nat) : TopEvent := .tracker ⟨0, [], .announce .udp hash (peerAt i) 2 []⟩

private theorem foldl_workers (count : Nat) (state : TopStats) :
    (List.replicate count (.worker true)).foldl TopStats.next state = (fun state => state.work true)^[count] state := by
  induction count generalizing state with
  | zero => rfl
  | succ count ih => exact ih _

private theorem work_empty {state : TopStats} {bucket : Nat} {peers seeds : List TopRecord}
    (empty : ∀ other, bucket ≤ other → (state.tracker.allTorrents other).data = []) (count : Nat)
    (bound : bucket + count ≤ otBucketCount) :
    (fun state : TopStats => state.work true)^[count] { state with worker := .scanning bucket peers seeds } =
      { state with worker := .scanning (bucket + count) peers seeds, seen := state.seen ++ List.replicate count [] } := by
  induction count with
  | zero => simp
  | succ count ih =>
    have inside : bucket + count < otBucketCount := bound
    rw [Function.iterate_succ_apply', ih (by omega)]
    simp [TopStats.work, inside, empty (bucket + count) (by omega), scanTop, List.replicate_succ', add_assoc]

private theorem work_rest {state : TopStats} {record : TopRecord} (worker : state.worker = .scanning 1 [record] [⟨0, none⟩])
    (empty : ∀ other, 1 ≤ other → (state.tracker.allTorrents other).data = []) :
    (List.replicate (otBucketCount + 3) (.worker true)).foldl TopStats.next state =
      { state with
        worker := .returned (some ⟨state.line record, []⟩)
        seen := state.seen ++ List.replicate (otBucketCount - 1) [] } := by
  have scanned := @work_empty state 1 [record] [⟨0, none⟩] empty (otBucketCount - 1) (le_refl _)
  rw [← worker] at scanned
  rw [foldl_workers, show otBucketCount + 3 = 4 + (otBucketCount - 1) from rfl, Function.iterate_add_apply, scanned]
  simp [Function.iterate_succ, TopStats.work, TopStats.line, TopStats.hashAt, show 1 + (otBucketCount - 1) = otBucketCount from rfl]

private theorem announce_elsewhere {tracker : Tracker} (housed : Housed tracker) {hash : Hash} {i : Nat} {bucket : Nat}
    (other : bucket ≠ bucketOfHash hash) :
    ((tracker.apply ⟨0, [], .announce .udp hash (peerAt i) 2 []⟩).allTorrents bucket).data = (tracker.allTorrents bucket).data := by
  have cases := @announce_cases hash tracker ⟨0, [], .announce .udp hash (peerAt i) 2 []⟩ _ _ _ _ rfl (housed.complete _)
  generalize tracker.apply _ = after, tracker.served _ = issued at cases ⊢
  cases cases with
  | failed same => rw [unlock_data, if_neg other]
  | performed first second found edited => rw [unlock_data, if_neg other]

def found : TopStats := ((TopStats.initial 1).next (announcing zeroHash 7)).next (.worker true)

theorem top_lines_right_one : ∃ final, Run TopStats.Step Permitted (.initial 1)
        (announcing zeroHash 7 :: .worker true :: List.replicate (otBucketCount + 3) (.worker true)) final ∧
      final.worker = .returned (some ⟨[⟨1, some zeroHash⟩], []⟩) ∧
      LinesRight Torrent.peerCount 1 final.seen [⟨1, some zeroHash⟩] := by
  have nothing : Permitted (.initial 1) (announcing zeroHash 7) := fun _ visited => absurd visited (Nat.not_lt_zero _)
  have empty : ∀ other, 1 ≤ other → (found.tracker.allTorrents other).data = [] :=
    fun other later => announce_elsewhere housed_initial (show other ≠ 0 by omega)
  have rest := @work_rest found ⟨1, some ⟨0, 0, 1⟩⟩ (by rfl) empty
  have later : Run TopStats.Step Permitted found (List.replicate (otBucketCount + 3) (.worker true)) _ :=
    .foldl (fun _ event member => ⟨by rw [List.eq_of_mem_replicate member]; trivial, rfl⟩) found
  rw [rest] at later
  have visit : Permitted ((TopStats.initial 1).next (announcing zeroHash 7)) (.worker true) := trivial
  have run := Run.next nothing rfl (Run.next visit rfl later)
  have line : found.line ⟨1, some ⟨0, 0, 1⟩⟩ = [⟨1, some zeroHash⟩] := by rfl
  rw [line] at run
  exact ⟨_, run, rfl, (top_lines_right run rfl).1⟩

def shifting : List TopEvent := [announcing oneHash 7, announcing oneHash 8, .worker true, announcing zeroHash 7]

def shifted : TopStats := shifting.foldl TopStats.next (.initial 1)

def unpeopled : List TopEvent := [.tracker ⟨0, [], .savedState zeroHash 0 0⟩, .worker true]

private theorem shifted_rest : (List.replicate (otBucketCount + 3) (.worker true)).foldl TopStats.next shifted =
    { shifted with
      worker := .returned (some ⟨[⟨2, some zeroHash⟩], []⟩)
      seen := shifted.seen ++ List.replicate (otBucketCount - 1) [] } := by
  have once := (apply_explained housed_initial ⟨0, [], .announce .udp oneHash (peerAt 7) 2 []⟩).1
  have twice := (apply_explained once ⟨0, [], .announce .udp oneHash (peerAt 8) 2 []⟩).1
  have empty : ∀ other, 1 ≤ other → (shifted.tracker.allTorrents other).data = [] := by
    intro other later
    have elsewhere : other ≠ 0 := by omega
    exact (announce_elsewhere twice elsewhere).trans
      ((announce_elsewhere once elsewhere).trans (announce_elsewhere housed_initial elsewhere))
  exact @work_rest shifted ⟨2, some ⟨0, 0, 1⟩⟩ (by rfl) empty

/-- The two peers are printed with `zeroHash`, which never had more than one; and the only count there is, zero,
is not printed although there is room for it. -/
theorem top_lines_wrong :
    (∃ final, Run TopStats.Step free (.initial 1) (shifting ++ List.replicate (otBucketCount + 3) (.worker true)) final ∧
      final.worker = .returned (some ⟨[⟨2, some zeroHash⟩], []⟩) ∧ ¬ LinesRight Torrent.peerCount 1 final.seen [⟨2, some zeroHash⟩]) ∧
    (∃ final, Run TopStats.Step free (.initial 1) (unpeopled ++ List.replicate (otBucketCount + 3) (.worker true)) final ∧
      final.worker = .returned (some ⟨[], []⟩) ∧ largest Torrent.peerCount 1 final.seen = [0]) := by
  constructor
  · refine ⟨_, .foldl (fun _ _ _ => ⟨trivial, rfl⟩) _, ?_⟩
    rw [List.foldl_append, ← shifted, shifted_rest]
    refine ⟨rfl, ?_⟩
    rintro ⟨right, _⟩
    obtain ⟨torrent, inside, named, _⟩ := right _ (List.mem_singleton_self _)
    have others : ∀ torrent ∈ shifted.seen.flatten, torrent.hash ≠ zeroHash := by decide +kernel
    simp only [List.flatten_append, List.flatten_replicate_nil, List.append_nil] at inside
    exact others torrent inside (Option.some.inj named).symm
  · have empty : ∀ other, 1 ≤ other → ((unpeopled.foldl TopStats.next (.initial 1)).tracker.allTorrents other).data = [] :=
      fun other later => (unlock_data _ _ _ _ _).trans (if_neg (show other ≠ 0 by omega))
    refine ⟨_, .foldl (fun _ _ _ => ⟨trivial, rfl⟩) _, ?_⟩
    rw [List.foldl_append, @work_rest (unpeopled.foldl TopStats.next (.initial 1)) ⟨0, none⟩ (by rfl) empty]
    refine ⟨rfl, ?_⟩
    simp only [largest, List.flatten_append, List.flatten_replicate_nil, List.append_nil]
    decide +kernel

end Examples

end BtServer.Proofs.TopLines

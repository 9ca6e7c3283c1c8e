import BtServer.Proofs.BucketWork

/-! The torrent table under every interleaving of the threads. What a thread has done
but not yet counted is in its delta, so the count and the deltas together are always
the number of torrents. -/

namespace BtServer.Proofs.BucketThreads
open Lib VectorSearch TorrentTable TrackerSteps BucketWork

variable {tracker : Tracker} {n bucket i count room : Nat} {state final : Threads} {torrents : OtVector Torrent}
  {old new other : Thread} {locklist : List Nat} {delta : Int} {events : List ThreadEvent}
  {before after : List Torrent}

def held : Thread → Option Nat
  | .outside _ => none
  | .inside operation _ _ => some operation.bucket

def debt : Thread → Int
  | .outside _ => 0
  | .inside _ phase _ => owed phase

def Following (tracker : Tracker) : Thread → Prop
  | .outside _ => True
  | .inside operation phase _ => Recorded (tracker.allTorrents operation.bucket).data phase

def tally (tracker : Tracker) : Nat := ∑ bucket ∈ Finset.range otBucketCount, (tracker.allTorrents bucket).size

structure Kept (state : Threads) : Prop where
  orderly : ∀ bucket, Orderly bucket (state.tracker.allTorrents bucket)
  locks : state.bucketLocklist.Perm (state.threads.filterMap held)
  exclusive : state.bucketLocklist.Nodup
  following : ∀ thread ∈ state.threads, Following state.tracker thread
  count : state.tracker.torrentCount + (state.threads.map debt).sum ≡ tally state.tracker [ZMOD 2 ^ 64]
  bounded : state.tracker.torrentCount < 2 ^ 64
  room : ∀ bucket, (state.tracker.allTorrents bucket).size ≤ 2 ^ 31

inductive Act (tracker : Tracker) (locklist : List Nat) : Thread → Tracker → List Nat → Thread → Prop where
  | called (todo : List Operation) : Act tracker locklist (.outside []) tracker locklist (.outside todo)
  | locked {operation : Operation} {todo : List Operation} (free : operation.bucket ∉ locklist) :
      Act tracker locklist (.outside (operation :: todo)) tracker (locklist ++ [operation.bucket])
        (.inside operation (operation.begin (tracker.allTorrents operation.bucket)) todo)
  | worked {operation : Operation} {phase : Phase} {todo : List Operation} (heap : Heap) (now : Int) :
      Act tracker locklist (.inside operation phase todo) (operation.work tracker heap now phase).1 locklist
        (.inside operation (operation.work tracker heap now phase).2 todo)
  | unlocked {operation : Operation} {delta : Int} {todo : List Operation} :
      Act tracker locklist (.inside operation (.finished delta) todo)
        (tracker.unlock operation.bucket (tracker.allTorrents operation.bucket) delta)
        (locklist.erase operation.bucket) (.outside todo)

inductive Moved (state : Threads) : Threads → Prop where
  | stays : Moved state state
  | acts {before after : List Thread} {old new : Thread} {tracker : Tracker} {locklist : List Nat}
      (split : state.threads = before ++ old :: after)
      (act : Act state.tracker state.bucketLocklist old tracker locklist new) :
      Moved state ⟨tracker, locklist, before ++ new :: after⟩

private theorem acts_at
    (here : state.threads[i]? = some old) (act : Act state.tracker state.bucketLocklist old tracker locklist new) :
    Moved state ⟨tracker, locklist, state.threads.set i new⟩ := by
  obtain ⟨before, after, split, rfl⟩ := split_at here
  rw [split, List.set_append_right _ _ (le_refl _), Nat.sub_self, List.set_cons_zero]
  exact .acts split act

theorem next_moved (state : Threads) (event : ThreadEvent) : Moved state (state.next event) := by
  cases event with
  | call i call =>
    simp only [Threads.next]
    split
    next here => exact acts_at here (.called _)
    next => exact .stays
  | lock i =>
    simp only [Threads.next]
    split
    next operation todo here =>
      split
      next => exact .stays
      next checked =>
        have free : operation.bucket ∉ state.bucketLocklist := by
          intro taken
          simp [bucketCheck, taken] at checked
        exact acts_at here (.locked free)
    next => exact .stays
  | work i gNowSeconds heap =>
    simp only [Threads.next]
    split
    next operation phase todo here => exact acts_at here (.worked heap _)
    next => exact .stays
  | unlock i =>
    simp only [Threads.next]
    split
    next operation delta todo here => exact acts_at here .unlocked
    next => exact .stays

/-- No bucket has reached 2 ^ 31 torrents when the event comes. -/
def Small (state : Threads) (_ : ThreadEvent) : Prop := ∀ bucket, (state.tracker.allTorrents bucket).size < 2 ^ 31

theorem bucketOfHash_lt (hash : Hash) : bucketOfHash hash < otBucketCount := by
  have bound := bigEndian_lt (hash.toList.take 4)
  rw [List.length_take_of_le (by simp)] at bound
  simp only [bucketOfHash, otBucketCount, otBucketCountShift, otBucketCountBits]
  omega

private theorem nowhere (orderly : Orderly bucket torrents) (outside : otBucketCount ≤ bucket) : torrents.size = 0 := by
  refine List.length_eq_zero_iff.mpr (List.eq_nil_iff_forall_not_mem.mpr fun torrent member => ?_)
  have home := orderly.home torrent member
  have bound := bucketOfHash_lt torrent.hash
  omega

private theorem tally_update {result : Tracker} (vectors : result.allTorrents = Function.update tracker.allTorrents bucket torrents)
    (before : Orderly bucket (tracker.allTorrents bucket)) (after : Orderly bucket torrents)
    (counted : Counted (tracker.allTorrents bucket) torrents delta) : (tally result : Int) = tally tracker + delta := by
  have size := counted.size
  have same : ∀ buckets : Finset Nat, bucket ∉ buckets →
      ∑ other ∈ buckets, (Function.update tracker.allTorrents bucket torrents other).size =
        ∑ other ∈ buckets, (tracker.allTorrents other).size := by
    intro buckets excluded
    refine Finset.sum_congr rfl fun other member => ?_
    rw [Function.update_of_ne]
    rintro rfl
    exact excluded member
  unfold tally
  rw [vectors]
  by_cases inside : bucket ∈ Finset.range otBucketCount
  · rw [← Finset.add_sum_erase _ _ inside, ← Finset.add_sum_erase _ _ inside, same _ (Finset.notMem_erase _ _),
      Function.update_self]
    omega
  · have outside : otBucketCount ≤ bucket := by simpa using inside
    rw [nowhere before outside, nowhere after outside] at size
    rw [same _ inside]
    omega

section Acts
variable {tracker result : Tracker} {locklist locked : List Nat} {before after : List Thread} {old new : Thread}

theorem Act.locks (act : Act tracker locklist old result locked new)
    (locks : locklist.Perm ((before ++ old :: after).filterMap held)) :
    locked.Perm ((before ++ new :: after).filterMap held) := by
  simp only [List.filterMap_append, List.filterMap_cons] at locks ⊢
  cases act with
  | called | worked => exact locks
  | locked free => exact ((locks.append_right _).trans (List.perm_append_singleton _ _)).trans List.perm_middle.symm
  | unlocked => exact ((locks.trans List.perm_middle).erase _).trans (by simp [held])

theorem Act.exclusive (act : Act tracker locklist old result locked new) (exclusive : locklist.Nodup) : locked.Nodup := by
  cases act with
  | called | worked => exact exclusive
  | locked free => exact (List.perm_append_singleton _ _).nodup_iff.mpr (List.nodup_cons.mpr ⟨free, exclusive⟩)
  | unlocked => exact exclusive.erase _

theorem alone (exclusive : ((before ++ old :: after).filterMap held).Nodup) (inside : held old = some bucket)
    (member : other ∈ before ++ after) : held other ≠ some bucket := by
  intro same
  simp only [List.filterMap_append, List.filterMap_cons, inside] at exclusive
  have distinct := List.perm_middle.nodup_iff.mp exclusive
  rw [← List.filterMap_append] at distinct
  exact (List.nodup_cons.mp distinct).1 (List.mem_filterMap.mpr ⟨other, member, same⟩)

/-- What an act does to the vectors, to the count and to what it still owes it. -/
structure Effect (tracker result : Tracker) (old new : Thread) (bucket : Nat) (torrents : OtVector Torrent) (delta : Int) :
    Prop where
  vectors : result.allTorrents = Function.update tracker.allTorrents bucket torrents
  reworked : Reworked bucket (tracker.allTorrents bucket) torrents delta
  balance : result.torrentCount + debt new ≡ tracker.torrentCount + debt old + delta [ZMOD 2 ^ 64]
  bounded : tracker.torrentCount < 2 ^ 64 → result.torrentCount < 2 ^ 64
  foreign : held old = some bucket ∨ torrents = tracker.allTorrents bucket
  own : Following tracker old → Following result new

private theorem Effect.still (same : result.allTorrents = tracker.allTorrents)
    (balance : result.torrentCount + debt new ≡ tracker.torrentCount + debt old [ZMOD 2 ^ 64])
    (bounded : tracker.torrentCount < 2 ^ 64 → result.torrentCount < 2 ^ 64) (own : Following tracker old → Following result new) :
    Effect tracker result old new 0 (tracker.allTorrents 0) 0 :=
  ⟨by simp [same], .refl _ _, by simpa only [add_zero] using balance, bounded, .inr rfl, own⟩

theorem Effect.follows
    (effect : Effect tracker result old new bucket torrents delta)
    (exclusive : ((before ++ old :: after).filterMap held).Nodup) (member : other ∈ before ++ after)
    (following : Following tracker other) : Following result other := by
  cases other with
  | outside => trivial
  | inside operation phase todo =>
    rcases effect.foreign with inside | same
    · have elsewhere : operation.bucket ≠ bucket := fun same => alone exclusive inside member (by rw [held, same])
      simpa only [Following, effect.vectors, Function.update_of_ne elsewhere] using following
    · simpa only [Following, effect.vectors, same, Function.update_eq_self] using following

theorem Act.effect (act : Act tracker locklist old result locked new)
    (orderly : ∀ bucket, Orderly bucket (tracker.allTorrents bucket)) :
    ∃ bucket torrents delta, Effect tracker result old new bucket torrents delta := by
  cases act with
  | called => exact ⟨_, _, _, .still rfl rfl id fun _ => trivial⟩
  | @locked operation todo free =>
    cases operation with
    | clean bucket => exact ⟨_, _, _, .still rfl rfl id fun _ => .begin _⟩
    | announce | stop | scrape | savedState => exact ⟨_, _, _, .still rfl rfl id fun _ => trivial⟩
  | @worked operation phase todo heap now =>
    have worked := work_cases tracker heap now operation phase (orderly _).complete
    obtain ⟨torrents, delta, result, reworked, same⟩ := worked.reworks (orderly _)
    refine ⟨operation.bucket, torrents, delta, by rw [result]; rfl, reworked, ?_, ?_, .inl rfl, worked.records⟩
    · rw [result]
      simp only [written, debt, Int.ModEq] at same ⊢
      omega
    · rw [result]
      exact id
  | unlocked =>
    refine ⟨_, _, _, .still (by simp [Tracker.unlock]) ?_ (fun _ => ?_) fun _ => trivial⟩
    · simp only [Tracker.unlock, debt, owed, Int.ModEq]
      omega
    · simp only [Tracker.unlock]
      omega

end Acts

theorem Kept.act {before after : List Thread}
    (kept : Kept state) (small : ∀ bucket, (state.tracker.allTorrents bucket).size < 2 ^ 31)
    (split : state.threads = before ++ old :: after) (act : Act state.tracker state.bucketLocklist old tracker locklist new) :
    Kept ⟨tracker, locklist, before ++ new :: after⟩ := by
  obtain ⟨bucket, torrents, delta, effect⟩ := act.effect kept.orderly
  have exclusive : ((before ++ old :: after).filterMap held).Nodup := split ▸ kept.locks.nodup_iff.mp kept.exclusive
  have again := effect.reworked.orderly (kept.orderly bucket) (lt_trans (small bucket) (by norm_num))
  have vectors : ∀ other, tracker.allTorrents other = if other = bucket then torrents else state.tracker.allTorrents other := by
    intro other
    rw [effect.vectors, Function.update_apply]
  have others : ∀ thread ∈ before ++ after, Following tracker thread := by
    intro thread member
    refine effect.follows exclusive member (kept.following thread ?_)
    rw [split]
    exact ((List.sublist_cons_self old after).append_left before).subset member
  refine ⟨fun other => ?_, act.locks (split ▸ kept.locks), act.exclusive kept.exclusive, ?_, ?_, effect.bounded kept.bounded,
    fun other => ?_⟩
  · rw [vectors]
    split
    next same => exact same ▸ again
    next => exact kept.orderly other
  · intro thread member
    rcases List.mem_append.mp member with inside | inside
    · exact others thread (List.mem_append_left _ inside)
    · rcases List.mem_cons.mp inside with rfl | inside
      · exact effect.own (kept.following old (by simp [split]))
      · exact others thread (List.mem_append_right _ inside)
  · have count := kept.count
    have balance := effect.balance
    have tallied := tally_update effect.vectors (kept.orderly bucket) again effect.reworked.counted
    simp only [split, List.map_append, List.map_cons, List.sum_append, List.sum_cons, tallied, Int.ModEq] at count balance ⊢
    omega
  · rw [vectors]
    have bound := effect.reworked.size_le
    split
    next => exact bound.trans (small bucket)
    next => exact kept.room other

theorem kept_initial (count : Nat) : Kept (.initial count) := by
  have outside : ∀ thread ∈ (Threads.initial count).threads, thread = .outside [] := fun thread => List.eq_of_mem_replicate
  refine ⟨fun _ => ⟨.nil, nofun, nofun, le_refl _⟩, ?_, .nil, ?_, ?_, ?_, ?_⟩
  · simp [Threads.initial, List.filterMap_replicate, held]
  · intro thread member
    rw [outside thread member]
    trivial
  · simp [Threads.initial, Tracker.initial, tally, OtVector.empty, OtVector.size, debt]
  · simp [Threads.initial, Tracker.initial]
  · simp [Threads.initial, Tracker.initial, OtVector.empty, OtVector.size]

theorem run_kept
    (run : Run Threads.Step Small (.initial count) events final) : Kept final := by
  refine run.invariant Kept ?_ (kept_initial count)
  rintro before event after kept small rfl
  have moved := next_moved before event
  generalize before.next event = after at moved
  cases moved with
  | stays => exact kept
  | acts split act => exact kept.act small split act

theorem Kept.settled (kept : Kept state) (unlocked : state.bucketLocklist = []) :
    state.tracker.torrentCount = tally state.tracker := by
  have nobody : ∀ thread ∈ state.threads, debt thread = 0 := by
    intro thread member
    cases thread with
    | outside => rfl
    | inside operation phase todo =>
      have locked : operation.bucket ∈ state.bucketLocklist :=
        kept.locks.mem_iff.mpr (List.mem_filterMap.mpr ⟨_, member, rfl⟩)
      rw [unlocked] at locked
      cases locked
  have none : (state.threads.map debt).sum = 0 := List.sum_eq_zero (by simpa using nobody)
  have bound : tally state.tracker ≤ ∑ bucket ∈ Finset.range otBucketCount, 2 ^ 31 :=
    Finset.sum_le_sum fun bucket _ => kept.room bucket
  have bounded := kept.bounded
  have count := kept.count
  simp only [Finset.sum_const, Finset.card_range, otBucketCount, otBucketCountBits, smul_eq_mul, none, Int.ModEq] at bound count
  omega

/-- In a run in which no bucket ever reaches 2 ^ 31 torrents, the table is in order and
counted whenever no bucket is locked. And every cleaning pass calls
`clean_single_torrent` once on each torrent it began with, in order; at its end the
torrents are what the calls left, without those for which they returned 1. -/
theorem torrent_table_kept {count : Nat} {events : List ThreadEvent} {final : Threads}
    (run : Run Threads.Step Small (.initial count) events final) :
    (final.bucketLocklist = [] → (∀ bucket < otBucketCount, Orderly bucket (final.tracker.allTorrents bucket)) ∧
      final.tracker.torrentCount = ∑ bucket ∈ Finset.range otBucketCount, (final.tracker.allTorrents bucket).size) ∧
    ∀ bucket began toffs calls todo, .inside (.clean bucket) (.cleaning began toffs calls) todo ∈ final.threads →
      CleaningPass (final.tracker.allTorrents bucket).data began toffs calls ∧
      ((final.tracker.allTorrents bucket).size ≤ toffs → calls.map CleanCall.found = began ∧
        (final.tracker.allTorrents bucket).data = (calls.filter fun call => !call.timedOut).map CleanCall.left) := by
  have kept := run_kept run
  refine ⟨fun unlocked => ⟨fun bucket _ => kept.orderly bucket, kept.settled unlocked⟩, ?_⟩
  intro bucket began toffs calls todo member
  have pass : CleaningPass (final.tracker.allTorrents bucket).data began toffs calls := kept.following _ member
  exact ⟨pass, pass.done⟩

theorem Kept.size_le (kept : Kept state) (event : ThreadEvent) (bucket : Nat) :
    ((state.next event).tracker.allTorrents bucket).size ≤ (state.tracker.allTorrents bucket).size + 1 := by
  have moved := next_moved state event
  generalize state.next event = result at moved
  cases moved with
  | stays => exact Nat.le_succ _
  | acts split act =>
    obtain ⟨changed, torrents, delta, effect⟩ := act.effect kept.orderly
    rw [effect.vectors, Function.update_apply]
    split
    next same => exact same ▸ effect.reworked.size_le
    next => exact Nat.le_succ _

theorem run_small
    (run : Run Threads.Step free (.initial count) events final) (short : events.length ≤ 2 ^ 31) :
    Run Threads.Step Small (.initial count) events final := by
  refine (run.history (fun past state => past.length ≤ 2 ^ 31 → Run Threads.Step Small (.initial count) past state ∧
    ∀ bucket, (state.tracker.allTorrents bucket).size ≤ past.length) ?_ ?_ short).1
  · rintro past before event after ih - rfl short
    rw [List.length_append, List.length_singleton] at short ⊢
    obtain ⟨run, sizes⟩ := ih (by omega)
    have small : Small before event := fun bucket => by have size := sizes bucket; omega
    exact ⟨run.snoc small rfl, fun bucket => ((run_kept run).size_le event bucket).trans (Nat.succ_le_succ (sizes bucket))⟩
  · exact fun _ => ⟨.done _, fun _ => le_refl _⟩

def hashFrom (i : Nat) : Hash := Vector.ofFn fun k => if k.val < 16 then 0 else (i / 256 ^ (19 - k.val)).toUInt8

def adding (hash : Hash) : List ThreadEvent := [.call 0 (.savedState hash 0 0), .lock 0, .work 0 0 [], .unlock 0]

def addingAndCleaning : List ThreadEvent :=
  [.call 1 (.clean 0), .call 0 (.savedState (hashFrom 7) 0 0), .lock 0, .lock 1, .work 0 0 [], .unlock 0, .lock 1,
    .work 1 (24 * 3600 + 60) [], .work 1 (24 * 3600 + 60) [], .unlock 1]

theorem torrent_table_kept_cleaned : ((addingAndCleaning.take 6).foldl Threads.next (.initial 2)).tracker.torrentCount = 1 ∧
    (addingAndCleaning.foldl Threads.next (.initial 2)).tracker.torrentCount =
      ∑ bucket ∈ Finset.range otBucketCount, ((addingAndCleaning.foldl Threads.next (.initial 2)).tracker.allTorrents bucket).size := by
  have run : Run Threads.Step free (.initial 2) addingAndCleaning (addingAndCleaning.foldl Threads.next (.initial 2)) :=
    .foldl (fun _ _ _ => ⟨trivial, rfl⟩) _
  have run := run_small run (by decide)
  exact ⟨by rfl, ((torrent_table_kept run).1 (by rfl)).2⟩

private theorem adding_eq (tracker : Tracker) (hash : Hash) :
    ∃ count, (adding hash).foldl Threads.next ⟨tracker, [], [.outside []]⟩ =
      ⟨⟨(addTorrentFromSavedState ⟨tracker.allTorrents, 0⟩ [] hash 0 0).allTorrents, count⟩, [], [.outside []]⟩ := by
  simp [adding, Threads.next, Call.operations, bucketCheck, otMaxThreads, bucketPush, bucketRemove, Operation.begin, Operation.work,
    perform, Tracker.unlock]

def torrentFrom (i : Nat) : Torrent := ⟨hashFrom i, some .zero⟩

private theorem hashFrom_toList (i : Nat) : (hashFrom i).toList = List.replicate 16 0 ++
    [(i / 2 ^ 24).toUInt8, (i / 2 ^ 16).toUInt8, (i / 2 ^ 8).toUInt8, i.toUInt8] := by
  simp [hashFrom, Vector.toList_ofFn, List.ofFn_succ]

private theorem hashFrom_rank (bound : i < 2 ^ 32) : bigEndian (hashFrom i).toList = i := by
  rw [hashFrom_toList]
  simp [bigEndian]
  omega

theorem hashFrom_bucket (i : Nat) : bucketOfHash (hashFrom i) = 0 := by
  rw [bucketOfHash, hashFrom_toList]
  simp [bigEndian]

private theorem torrents_sorted (bound : n ≤ 2 ^ 32) : Sorted ((List.range n).map torrentFrom) := by
  refine List.pairwise_map.mpr (List.Pairwise.imp_of_mem ?_ List.pairwise_lt_range)
  intro i j first second less
  have left := List.mem_range.mp first
  have right := List.mem_range.mp second
  show bigEndian (hashFrom i).toList < bigEndian (hashFrom j).toList
  rw [hashFrom_rank (by omega), hashFrom_rank (by omega)]
  exact less

private theorem savedState_opens {space : Nat}
    (vector : tracker.allTorrents 0 = ⟨before ++ after, space⟩) (fits : (before ++ after).length ≤ space)
    (missed : binarySearch (hashFrom i).toList Torrent.bytes (before ++ after) = (before.length, 0)) :
    ∃ room, (before ++ torrentFrom i :: after).length ≤ room ∧
      (addTorrentFromSavedState tracker [] (hashFrom i) 0 0).allTorrents 0 = ⟨before ++ torrentFrom i :: after, room⟩ := by
  obtain ⟨room, enough, opened⟩ := vectorFindOrInsert_opens fits
    (show binarySearch (Torrent.bytes ⟨hashFrom i, none⟩) Torrent.bytes (before ++ after) = (before.length, 0) from missed)
  refine ⟨room, by simpa using enough, ?_⟩
  simp [addTorrentFromSavedState, hashFrom_bucket, vector, opened, allocate, Tracker.unlock, torrentFrom, PeerList.zero]

theorem savedState_next (bound : n < 2 ^ 32) (fits : n ≤ room)
    (vector : tracker.allTorrents 0 = ⟨(List.range n).map torrentFrom, room⟩) :
    ∃ again, n + 1 ≤ again ∧ (addTorrentFromSavedState tracker [] (hashFrom n) 0 0).allTorrents 0 =
      ⟨(List.range (n + 1)).map torrentFrom, again⟩ := by
  have below : ∀ torrent ∈ (List.range n).map torrentFrom, rank Torrent.bytes torrent < bigEndian (hashFrom n).toList := by
    intro torrent member
    obtain ⟨i, inside, rfl⟩ := List.mem_map.mp member
    have less := List.mem_range.mp inside
    show bigEndian (hashFrom i).toList < _
    rw [hashFrom_rank (by omega), hashFrom_rank bound]
    exact less
  have missed := binarySearch_beyond (fun _ => by simp [Torrent.bytes]) (torrents_sorted bound.le) below
  have whole : tracker.allTorrents 0 = ⟨(List.range n).map torrentFrom ++ [], room⟩ := by
    rw [vector, List.append_nil]
  obtain ⟨again, enough, opened⟩ := savedState_opens whole (by simpa using fits) (by simpa using missed)
  refine ⟨again, by simpa using enough, ?_⟩
  rw [opened, List.range_succ, List.map_append, List.map_singleton]

theorem twice_unsorted {first second : Torrent} (same : first.hash = second.hash) :
    ¬ Sorted (before ++ first :: second :: after) := by
  intro sorted
  have less := List.rel_of_pairwise_cons (List.pairwise_append.mp sorted).2.1 (List.mem_cons_self)
  exact absurd (rank_eq_iff.mpr same) (ne_of_lt less)

private def Flooded (n : Nat) (state : Threads) : Prop :=
  ∃ tracker room, state = ⟨tracker, [], [.outside []]⟩ ∧ n ≤ room ∧
    tracker.allTorrents 0 = ⟨(List.range n).map torrentFrom, room⟩

def flood (n : Nat) : List ThreadEvent := (List.range n).flatMap fun i => adding (hashFrom i)

private theorem flooded_next (bound : n < 2 ^ 32) (flooded : Flooded n state) :
    Flooded (n + 1) ((adding (hashFrom n)).foldl Threads.next state) := by
  obtain ⟨tracker, room, rfl, fits, vector⟩ := flooded
  have vector : (Tracker.mk tracker.allTorrents 0).allTorrents 0 = ⟨(List.range n).map torrentFrom, room⟩ := vector
  obtain ⟨again, enough, appended⟩ := savedState_next bound fits vector
  obtain ⟨count, result⟩ := adding_eq tracker (hashFrom n)
  exact ⟨_, again, result, enough, appended⟩

private theorem flooded {n : Nat} (bound : n ≤ 2 ^ 32) : Flooded n ((flood n).foldl Threads.next (.initial 1)) := by
  induction n with
  | zero => exact ⟨.initial, 0, rfl, le_refl _, rfl⟩
  | succ n ih =>
    rw [flood, List.range_succ, List.flatMap_append, List.foldl_append, List.flatMap_singleton]
    exact flooded_next (by omega) (ih (by omega))

private theorem stored_again (positive : 0 < n) (truncated : toInt32 n = 0) (fits : n ≤ room)
    (vector : tracker.allTorrents 0 = ⟨(List.range n).map torrentFrom, room⟩) :
    ¬ Sorted ((addTorrentFromSavedState tracker [] (hashFrom (n / 2)) 0 0).allTorrents 0).data := by
  obtain ⟨before, after, cut, missed⟩ := middle_missed torrentFrom Torrent.bytes positive truncated
  rw [cut] at vector
  obtain ⟨again, _, opened⟩ := savedState_opens vector (by rw [← cut]; simpa using fits) missed
  rw [opened]
  exact twice_unsorted rfl

private theorem run_again (positive : 0 < n) (truncated : toInt32 n = 0) (bound : n ≤ 2 ^ 32) :
    ∃ final, Run Threads.Step free (.initial 1) (flood n ++ adding (hashFrom (n / 2))) final ∧
      final.bucketLocklist = [] ∧ ¬ Sorted (final.tracker.allTorrents 0).data := by
  obtain ⟨tracker, room, reached, fits, vector⟩ := flooded bound
  obtain ⟨count, result⟩ := adding_eq tracker (hashFrom (n / 2))
  have run : Run Threads.Step free (.initial 1) (flood n ++ adding (hashFrom (n / 2)))
      ((flood n ++ adding (hashFrom (n / 2))).foldl Threads.next (.initial 1)) := .foldl (fun _ _ _ => ⟨trivial, rfl⟩) _
  rw [List.foldl_append, reached, result] at run
  have vector : (Tracker.mk tracker.allTorrents 0).allTorrents 0 = ⟨(List.range n).map torrentFrom, room⟩ := vector
  exact ⟨_, run, rfl, stored_again positive truncated fits vector⟩

/-- One thread adds 2 ^ 32 torrents to the first bucket, and the one in the middle
again: it is stored twice. -/
theorem torrent_stored_twice :
    ∃ final, Run Threads.Step free (.initial 1) (flood (2 ^ 32) ++ adding (hashFrom (2 ^ 31))) final ∧
      final.bucketLocklist = [] ∧ ¬ Sorted (final.tracker.allTorrents 0).data := by
  rw [show (2 : Nat) ^ 31 = 2 ^ 32 / 2 by norm_num]
  exact run_again (by norm_num) (by rfl) (le_refl _)

end BtServer.Proofs.BucketThreads

import BtServer.Proofs.BucketThreads

/-! Under the bucket locks the threads do what they would do one after the other. Whatever a thread does from a lock
to the unlock is put at the moment of the unlock: until then nobody else has seen the bucket or the delta. -/

namespace BtServer.Proofs.BucketSections
open Lib VectorSearch BucketWork BucketThreads

section Calls

/-- What an announce has served, the reply to a stop, or the torrent that a scrape has found. -/
inductive Answer where
  | announced (served : Option Served)
  | stopped (reply : Bytes)
  | scraped (found : Option PeerList)

/-- The functions of the tracker without threads. Their answers are made before the unlock. -/
def act (heap : Heap) (now : Int) (tracker : Tracker) : Operation → Tracker × Option Answer
  | .announce proto hash peer amount random =>
    let result := addPeerToTorrentAndReturnPeers tracker heap now random proto hash peer amount
    (result.1, some (.announced result.2))
  | .stop proto hash peer random =>
    let result := removePeerFromTorrent tracker random proto hash peer
    (result.1, some (.stopped result.2))
  | .scrape hash =>
    let result := scrapeTorrent tracker heap now hash
    (result.1, some (.scraped result.2.2))
  | .savedState hash base downCount => (addTorrentFromSavedState tracker heap hash base downCount, none)
  | .clean _ => (tracker, none)

/-- The clock and the allocations of the work that was done, and what was answered. -/
structure Note where
  gNowSeconds : Int
  heap : Heap
  answer : Option Answer

/-- What a thread has done from a lock to the unlock. -/
structure Hold where
  operation : Operation
  note : Note

/-- The same without threads. A cleaning pass reads the clock again and again: it cleans each torrent once and keeps those that
have not timed out. -/
inductive Performs (before : Tracker) (hold : Hold) : Tracker → Prop where
  | called (calls : ∀ bucket, hold.operation ≠ .clean bucket) {after : Tracker}
      (acts : act hold.note.heap (gNowMinutes hold.note.gNowSeconds) before hold.operation = (after, hold.note.answer)) :
      Performs before hold after
  | cleaned {bucket room : Nat} {calls : List CleanCall} (cleans : hold.operation = .clean bucket)
      (once : calls.map CleanCall.found = (before.allTorrents bucket).data)
      (each : ∀ call ∈ calls, ∃ heap now, call = cleanCall heap now call.found) :
      Performs before hold (before.unlock bucket ⟨kept calls, room⟩ (-(removals calls)))

end Calls

section Locality
variable {operation : Operation}

/-- An operation reads and writes its own bucket only. -/
theorem act_local (calls : ∀ bucket, operation ≠ .clean bucket) (heap : Heap) (now : Int) {left right : Tracker}
    (same : left.allTorrents operation.bucket = right.allTorrents operation.bucket) :
    ∃ torrents delta answer, act heap now left operation = (left.unlock operation.bucket torrents delta, answer) ∧
      act heap now right operation = (right.unlock operation.bucket torrents delta, answer) := by
  cases operation with
  | announce proto hash peer amount random =>
    simp only [Operation.bucket] at same ⊢
    simp only [act, addPeerToTorrentAndReturnPeers, same]
    split
    · exact ⟨_, _, _, rfl, rfl⟩
    · split
      · split <;> exact ⟨_, _, _, rfl, rfl⟩
      · split <;> exact ⟨_, _, _, rfl, rfl⟩
  | stop proto hash peer random =>
    simp only [Operation.bucket] at same ⊢
    simp only [act, removePeerFromTorrent, same]
    generalize (ite ((binarySearch hash.toList Torrent.bytes _).2 = 0) none _) = found
    cases found <;> exact ⟨_, _, _, rfl, rfl⟩
  | scrape hash =>
    simp only [Operation.bucket] at same ⊢
    simp only [act, scrapeTorrent, same]
    generalize (ite ((binarySearch hash.toList Torrent.bytes _).2 = 0) none _) = found
    cases found with
    | none => exact ⟨_, _, _, rfl, rfl⟩
    | some peerList =>
      dsimp only
      split <;> exact ⟨_, _, _, rfl, rfl⟩
  | savedState hash base downCount =>
    simp only [Operation.bucket] at same ⊢
    simp only [act, addTorrentFromSavedState, same]
    split
    · exact ⟨_, _, _, rfl, rfl⟩
    · split
      · exact ⟨_, _, _, rfl, rfl⟩
      · split <;> exact ⟨_, _, _, rfl, rfl⟩
  | clean bucket => exact absurd rfl (calls bucket)

theorem work_acts (calls : ∀ bucket, operation ≠ .clean bucket) (tracker : Tracker) (heap : Heap) (now : Int) :
    ∃ torrents delta, operation.work tracker heap now .locked = (written tracker operation.bucket torrents, .finished delta) ∧
      ∀ other : Tracker, other.allTorrents operation.bucket = tracker.allTorrents operation.bucket →
        act heap now other operation = (other.unlock operation.bucket torrents delta, (act heap now tracker operation).2) := by
  have worked : operation.work tracker heap now .locked = perform tracker fun tracker => (act heap now tracker operation).1 := by
    cases operation with
    | clean bucket => exact absurd rfl (calls bucket)
    | announce | stop | scrape | savedState => rfl
  obtain ⟨torrents, delta, answer, result, told⟩ := @act_local _ calls heap now ⟨tracker.allTorrents, 0⟩ tracker rfl
  refine ⟨torrents, ((0 + delta) % 2 ^ 64).toNat, ?_, fun other same => ?_⟩
  · simp only [worked, perform, result, Tracker.unlock, written, Nat.cast_zero]
  · obtain ⟨others, change, again, here, there⟩ := @act_local _ calls heap now ⟨tracker.allTorrents, 0⟩ other same.symm
    rw [here] at result
    simp only [Tracker.unlock, Prod.mk.injEq, Tracker.mk.injEq] at result
    obtain ⟨⟨vectors, counts⟩, rfl⟩ := result
    have vector := congrFun vectors operation.bucket
    simp only [Function.update_self] at vector
    rw [there, told, vector]
    simp only [Tracker.unlock, Prod.mk.injEq, Tracker.mk.injEq, true_and, and_true]
    omega

end Locality

section Holders
variable {before torrents : OtVector Torrent} {note : Note} {operation : Operation} {phase : Phase} {tracker : Tracker}

/-- How far the holder of a bucket has come, which was `before` when it was locked and is `torrents` now. -/
def Stands (before torrents : OtVector Torrent) (note : Note) (operation : Operation) : Phase → Prop
  | .locked => torrents = before
  | .cleaning old toffs calls =>
    (∃ bucket, operation = .clean bucket) ∧ old = before.data ∧ CleaningPass torrents.data old toffs calls
  | .finished delta => ∀ tracker : Tracker, tracker.allTorrents operation.bucket = before →
    Performs tracker ⟨operation, note⟩ (tracker.unlock operation.bucket torrents delta)

theorem Stands.begin (operation : Operation) (torrents : OtVector Torrent) (note : Note) :
    Stands torrents torrents note operation (operation.begin torrents) := by
  cases operation with
  | clean bucket => exact ⟨⟨bucket, rfl⟩, rfl, .begin _⟩
  | announce | stop | scrape | savedState => rfl

def noted (tracker : Tracker) (gNowSeconds : Int) (heap : Heap) (operation : Operation) (note : Note) : Phase → Note
  | .locked => ⟨gNowSeconds, heap, (act heap (gNowMinutes gNowSeconds) tracker operation).2⟩
  | _ => note

theorem Stands.work (stands : Stands before (tracker.allTorrents operation.bucket) note operation phase) (gNowSeconds : Int)
    (heap : Heap) :
    ∃ torrents later,
      operation.work tracker heap (gNowMinutes gNowSeconds) phase = (written tracker operation.bucket torrents, later) ∧
      Stands before torrents (noted tracker gNowSeconds heap operation note phase) operation later := by
  have idle : tracker = written tracker operation.bucket (tracker.allTorrents operation.bucket) := by
    simp only [written, Function.update_eq_self]
  cases phase with
  | locked =>
    have same : tracker.allTorrents operation.bucket = before := stands
    by_cases calls : ∀ bucket, operation ≠ .clean bucket
    · obtain ⟨torrents, delta, worked, acts⟩ := work_acts calls tracker heap (gNowMinutes gNowSeconds)
      exact ⟨torrents, _, worked, fun other equal => .called calls (acts other (equal.trans same.symm))⟩
    · obtain ⟨bucket, rfl⟩ : ∃ bucket, operation = .clean bucket := by simpa using calls
      exact ⟨_, .locked, congrArg (·, _) idle, same⟩
  | finished delta =>
    refine ⟨_, .finished delta, ?_, stands⟩
    cases operation <;> exact congrArg (·, _) idle
  | cleaning old toffs calls =>
    obtain ⟨⟨bucket, rfl⟩, rfl, pass⟩ := stands
    simp only [Operation.work, Operation.bucket] at pass idle ⊢
    split
    next none =>
      obtain ⟨once, left⟩ := pass.done (List.getElem?_eq_none_iff.mp none)
      have vector : tracker.allTorrents bucket = ⟨kept calls, (tracker.allTorrents bucket).space⟩ := by rw [← left]
      refine ⟨_, _, congrArg (·, _) idle, fun other same => ?_⟩
      rw [vector]
      exact .cleaned rfl (same ▸ once) pass.cleaned
    next torrent here =>
      obtain ⟨front, behind, split, rfl⟩ := split_at here
      exact ⟨_, _, rfl, ⟨bucket, rfl⟩, rfl, pass.turn split heap _⟩

end Holders

section Locks
variable {state : Threads} {threads : List Thread} {i j : Nat} {operation other : Operation} {phase later : Phase}

/-- The thread works on the bucket of an operation. -/
def Inside (threads : List Thread) (i : Nat) (operation : Operation) (phase : Phase) : Prop :=
  ∃ todo, threads[i]? = some (.inside operation phase todo)

theorem inside_set {new : Thread} (here : Inside (threads.set i new) j operation phase) :
    (i = j ∧ ∃ todo, new = .inside operation phase todo) ∨ (i ≠ j ∧ Inside threads j operation phase) := by
  obtain ⟨todo, here⟩ := here
  rw [List.getElem?_set] at here
  split at here
  next same =>
    split at here <;> cases here
    exact .inl ⟨same, todo, rfl⟩
  next differ => exact .inr ⟨differ, todo, here⟩

theorem outside_set {todo : List Operation} (here : Inside (threads.set i (.outside todo)) j operation phase) :
    i ≠ j ∧ Inside threads j operation phase := by
  rcases inside_set here with ⟨_, _, new⟩ | there
  · cases new
  · exact there

structure Locked (state : Threads) : Prop where
  locks : state.bucketLocklist.Perm (state.threads.filterMap held)
  exclusive : state.bucketLocklist.Nodup

theorem Locked.next (locked : Locked state) (event : ThreadEvent) : Locked (state.next event) := by
  have moved := next_moved state event
  generalize state.next event = after at moved
  cases moved with
  | stays => exact locked
  | acts split act => exact ⟨act.locks (split ▸ locked.locks), act.exclusive locked.exclusive⟩

theorem Locked.taken (locked : Locked state) (here : Inside state.threads i operation phase) :
    operation.bucket ∈ state.bucketLocklist := by
  obtain ⟨todo, here⟩ := here
  exact locked.locks.mem_iff.mpr (List.mem_filterMap.mpr ⟨_, List.mem_of_getElem? here, rfl⟩)

theorem Locked.apart (locked : Locked state) (here : Inside state.threads i operation phase)
    (there : Inside state.threads j other later) (differ : i ≠ j) : other.bucket ≠ operation.bucket := by
  obtain ⟨⟨_, here⟩, _, there⟩ := And.intro here there
  obtain ⟨first, one⟩ := List.getElem?_eq_some_iff.mp here
  obtain ⟨second, two⟩ := List.getElem?_eq_some_iff.mp there
  have distinct := List.pairwise_iff_getElem.mp (List.pairwise_filterMap.mp (locked.locks.nodup_iff.mp locked.exclusive))
  rcases Nat.lt_or_gt_of_ne differ with less | greater
  · exact (distinct i j first second less _ (by rw [one]; rfl) _ (by rw [two]; rfl)).symm
  · exact distinct j i second first greater _ (by rw [two]; rfl) _ (by rw [one]; rfl)

end Locks

section Logs

/-- The threads, what each of them has noted of its work, and the holds that have ended. -/
structure Log where
  state : Threads
  notes : Nat → Note
  holds : List Hold

def Log.initial (count : Nat) : Log := ⟨.initial count, fun _ => ⟨0, [], none⟩, []⟩

def Log.next (log : Log) (event : ThreadEvent) : Log :=
  match event with
  | .call .. | .lock _ => { log with state := log.state.next event }
  | .work i gNowSeconds heap =>
    match log.state.threads[i]? with
    | some (.inside operation phase _) =>
      { log with
        state := log.state.next event
        notes := Function.update log.notes i (noted log.state.tracker gNowSeconds heap operation (log.notes i) phase) }
    | _ => log
  | .unlock i =>
    match log.state.threads[i]? with
    | some (.inside operation (.finished _) _) =>
      { log with state := log.state.next event, holds := log.holds ++ [⟨operation, log.notes i⟩] }
    | _ => log

theorem next_state (log : Log) (event : ThreadEvent) : (log.next event).state = log.state.next event := by
  cases event with
  | call | lock => rfl
  | work i gNowSeconds heap =>
    simp only [Log.next, Threads.next]
    split <;> simp_all
  | unlock i =>
    simp only [Log.next, Threads.next]
    split <;> simp_all

/-- The holds that have ended, one after the other, lead to `committed`. The buckets that nobody holds are as they are there. -/
structure Serial (log : Log) (committed : Tracker) : Prop where
  run : Run Performs free .initial log.holds committed
  count : log.state.tracker.torrentCount = committed.torrentCount
  unlocked : ∀ bucket ∉ log.state.bucketLocklist, log.state.tracker.allTorrents bucket = committed.allTorrents bucket
  inside : ∀ {i operation phase}, Inside log.state.threads i operation phase →
    Stands (committed.allTorrents operation.bucket) (log.state.tracker.allTorrents operation.bucket) (log.notes i) operation phase

theorem Serial.step {log : Log} {committed : Tracker} (serial : Serial log committed) (locked : Locked log.state)
    (event : ThreadEvent) : ∃ later, Serial (log.next event) later := by
  cases event with
  | call i call =>
    refine ⟨committed, ?_⟩
    simp only [Log.next, Threads.next]
    split
    · exact ⟨serial.run, serial.count, serial.unlocked, fun here => serial.inside (outside_set here).2⟩
    · exact serial
  | lock i =>
    refine ⟨committed, ?_⟩
    simp only [Log.next, Threads.next]
    split
    next operation todo here =>
      split
      next => exact serial
      next checked =>
        have free : operation.bucket ∉ log.state.bucketLocklist := by
          intro taken
          simp [bucketCheck, taken] at checked
        refine ⟨serial.run, serial.count, fun bucket outside => ?_, fun here => ?_⟩
        · exact serial.unlocked bucket fun taken => outside (List.mem_append_left _ taken)
        · rcases inside_set here with ⟨_, _, new⟩ | ⟨_, there⟩
          · cases new
            rw [← serial.unlocked _ free]
            exact .begin _ _ _
          · exact serial.inside there
    next => exact serial
  | work i gNowSeconds heap =>
    refine ⟨committed, ?_⟩
    simp only [Log.next]
    split
    next operation phase todo here =>
      have holder : Inside log.state.threads i operation phase := ⟨todo, here⟩
      obtain ⟨torrents, later, worked, stands⟩ := (serial.inside holder).work gNowSeconds heap
      simp only [Threads.next, here, worked]
      refine ⟨serial.run, serial.count, fun bucket outside => ?_, fun there => ?_⟩
      · have differ : bucket ≠ operation.bucket := fun same => outside (same ▸ locked.taken holder)
        simp only [written, Function.update_of_ne differ]
        exact serial.unlocked bucket outside
      · rcases inside_set there with ⟨rfl, _, new⟩ | ⟨differ, there⟩
        · cases new
          simpa only [written, Function.update_self] using stands
        · simpa only [written, Function.update_of_ne (locked.apart holder there differ), Function.update_of_ne (Ne.symm differ)]
            using serial.inside there
    next => exact serial
  | unlock i =>
    simp only [Log.next]
    split
    next operation delta todo here =>
      have holder : Inside log.state.threads i operation (.finished delta) := ⟨todo, here⟩
      simp only [Threads.next, here]
      refine ⟨_, serial.run.snoc trivial (serial.inside holder committed rfl), ?_, fun bucket outside => ?_, fun there => ?_⟩
      · simp only [Tracker.unlock, serial.count]
      · by_cases same : bucket = operation.bucket
        · simp only [same, Tracker.unlock, Function.update_self]
        · simp only [Tracker.unlock, Function.update_of_ne same]
          exact serial.unlocked bucket fun taken => outside ((List.mem_erase_of_ne same).mpr taken)
      · obtain ⟨differ, there⟩ := outside_set there
        simpa only [Tracker.unlock, Function.update_of_ne (locked.apart holder there differ)] using serial.inside there
    next => exact ⟨committed, serial⟩

/-- In every interleaving of the threads, the holds of buckets that have ended are what a tracker without threads does, in the
order of the unlocks and with the same answers. The torrents of all buckets that are not locked, and the number of torrents, are
those of that tracker. -/
theorem threads_serialize (count : Nat) (events : List ThreadEvent) :
    let log := events.foldl Log.next (.initial count)
    log.state = events.foldl Threads.next (.initial count) ∧
      ∃ committed, Run Performs free .initial log.holds committed ∧
        log.state.tracker.torrentCount = committed.torrentCount ∧
        ∀ bucket ∉ log.state.bucketLocklist, log.state.tracker.allTorrents bucket = committed.allTorrents bucket := by
  have reached : ∀ log : Log, Locked log.state → (∃ committed, Serial log committed) →
      (events.foldl Log.next log).state = events.foldl Threads.next log.state ∧
        ∃ committed, Serial (events.foldl Log.next log) committed := by
    induction events with
    | nil => exact fun log _ serial => ⟨rfl, serial⟩
    | cons event events ih =>
      intro log locked ⟨committed, serial⟩
      have next := next_state log event
      rw [List.foldl_cons, List.foldl_cons, ← next]
      exact ih _ (next ▸ locked.next event) (serial.step locked event)
  have outside {i : Nat} {operation : Operation} {phase : Phase} : ¬ Inside (Log.initial count).state.threads i operation phase := by
    rintro ⟨todo, here⟩
    cases List.eq_of_mem_replicate (List.mem_of_getElem? here)
  obtain ⟨state, committed, serial⟩ := reached (.initial count) ⟨(kept_initial count).locks, .nil⟩
    ⟨_, .done _, rfl, fun _ _ => rfl, fun here => absurd here outside⟩
  exact ⟨state, committed, serial.run, serial.count, serial.unlocked⟩

end Logs

end BtServer.Proofs.BucketSections

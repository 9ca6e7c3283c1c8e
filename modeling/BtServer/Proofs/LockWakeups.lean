import BtServer.Proofs.LockExclusion

/-! No wake-up of the bucket locks is lost. `mutex_bucket_unlock` wakes all threads that wait; whoever has not been woken since
it has looked waits for a bucket that is still locked, or for a slot, and somebody who holds one is not waiting. -/

namespace BtServer.Proofs.LockWakeups
open Lib LockExclusion

variable {ι : Type} [DecidableEq ι] {state : LockState ι} {events : List (LockEvent ι)} {thread : ι} {bucket : Nat}

/-- Whether a broadcast is still to be noticed by the thread. It looks at the locks when it calls and when it wakes up. -/
def notify (thread : ι) (pending : Bool) : LockEvent ι → Bool
  | .unlock .. => true
  | .lock other _ | .wake other => if other = thread then false else pending

def notified (thread : ι) (events : List (LockEvent ι)) : Bool := events.foldl (notify thread) false

/-- The functions of the tracker hold one bucket at a time. -/
def Single (state : LockState ι) : LockEvent ι → Prop
  | .lock thread _ => state.threads thread = ⟨[], none⟩
  | .wake _ => True
  | .unlock thread bucket => bucket ∈ (state.threads thread).held

structure Attentive (events : List (LockEvent ι)) (state : LockState ι) : Prop where
  exclusive : Exclusive state
  single : ∀ thread bucket, (state.threads thread).waits = some bucket → (state.threads thread).held = []
  refused : ∀ thread bucket, (state.threads thread).waits = some bucket → notified thread events = false →
    state.locks.bucketCheck bucket ≠ 0

theorem bucketCheck_ne {locks : LockArray} (fits : Fits locks) :
    locks.bucketCheck bucket ≠ 0 ↔ locks.locked.length = otMaxThreads ∨ bucket ∈ locks.locked := by
  rw [bucketCheck_eq fits, bucketCheck]
  split_ifs <;> simp_all

/-- One thread moves. It waits only for what it has just been refused, and the others that wait are still refused. -/
theorem Attentive.move (attentive : Attentive events state) {event : LockEvent ι} {locks : LockArray} {new : LockThread}
    (exclusive : Exclusive ⟨locks, Function.update state.threads thread new⟩)
    (own : ∀ wanted, new.waits = some wanted → new.held = [] ∧ locks.bucketCheck wanted ≠ 0)
    (others : ∀ other wanted, thread ≠ other → (state.threads other).waits = some wanted →
      notified other (events ++ [event]) = false → locks.bucketCheck wanted ≠ 0) :
    Attentive (events ++ [event]) ⟨locks, Function.update state.threads thread new⟩ := by
  refine ⟨exclusive, fun other wanted waits => ?_, fun other wanted waits unnoticed => ?_⟩
  · by_cases here : other = thread
    · simp only [here, Function.update_self] at waits ⊢
      exact (own wanted waits).1
    · simp only [Function.update_of_ne here] at waits ⊢
      exact attentive.single other wanted waits
  · by_cases here : other = thread
    · simp only [here, Function.update_self] at waits
      exact (own wanted waits).2
    · simp only [Function.update_of_ne here] at waits
      exact others other wanted (Ne.symm here) waits unnoticed

theorem Attentive.acquire (attentive : Attentive events state) (empty : (state.threads thread).held = []) {event : LockEvent ι}
    (looks : ∀ other, notified other (events ++ [event]) = if thread = other then false else notified other events) :
    Attentive (events ++ [event]) (state.acquire thread bucket) := by
  have fits := attentive.exclusive.fits
  have exclusive := attentive.exclusive.acquire thread bucket
  have before {other : ι} {wanted : Nat} (differ : thread ≠ other) (waits : (state.threads other).waits = some wanted)
      (unnoticed : notified other (events ++ [event]) = false) : state.locks.bucketCheck wanted ≠ 0 :=
    attentive.refused other wanted waits (by rwa [looks, if_neg differ] at unnoticed)
  by_cases refused : state.locks.bucketCheck bucket ≠ 0
  · rw [LockState.acquire, if_pos refused] at exclusive ⊢
    refine attentive.move exclusive ?_ fun _ _ => before
    intro wanted waits
    cases waits
    exact ⟨empty, refused⟩
  · rw [LockState.acquire, if_neg refused] at exclusive ⊢
    refine attentive.move exclusive (fun _ waits => by cases waits) fun other wanted differ waits unnoticed => ?_
    have taken := before differ waits unnoticed
    rw [bucketCheck_ne fits] at refused taken
    have room : state.locks.count < otMaxThreads := by
      have length := locked_length fits
      unfold Fits at fits
      omega
    have pushed : Fits (state.locks.bucketPush bucket) := room
    rw [bucketCheck_ne pushed, bucketPush_locked room]
    exact .inr (List.mem_append_left _ (taken.resolve_left fun full => refused (.inl full)))

/-- Who holds a bucket does not wait. -/
theorem Attentive.awake (attentive : Attentive events state) (holds : bucket ∈ (state.threads thread).held) :
    (state.threads thread).waits = none := by
  by_contra waits
  obtain ⟨wanted, waits⟩ := Option.ne_none_iff_exists'.mp waits
  rw [attentive.single thread wanted waits] at holds
  cases holds

theorem Attentive.step (attentive : Attentive events state) {event : LockEvent ι} (permitted : Single state event) :
    Attentive (events ++ [event]) (state.next event) := by
  cases event with
  | lock thread bucket =>
    have idle : state.threads thread = ⟨[], none⟩ := permitted
    simp only [LockState.next, idle]
    exact attentive.acquire (by rw [idle]) fun other => by simp [notified, notify]
  | wake thread =>
    simp only [LockState.next]
    split
    next awake =>
      refine ⟨attentive.exclusive, attentive.single, fun other wanted waits unnoticed => ?_⟩
      apply attentive.refused other wanted waits
      have differ : thread ≠ other := by
        rintro rfl
        rw [awake] at waits
        cases waits
      simpa [notified, notify, differ] using unnoticed
    next bucket waits =>
      exact attentive.acquire (attentive.single thread bucket waits) fun other => by simp [notified, notify]
  | unlock thread bucket =>
    simp only [LockState.next, attentive.awake permitted]
    refine attentive.move (attentive.exclusive.release permitted) (fun _ waits => by cases waits) ?_
    intro other wanted differ waits unnoticed
    simp [notified, notify] at unnoticed

/-- In every run, a thread that waits and has not been woken since it has looked is refused its bucket even now, and some thread
that holds a bucket does not wait: its unlock is going to wake all of them. -/
theorem waiting_threads_woken (run : Run LockState.Step Single .initial events state)
    (waits : (state.threads thread).waits = some bucket) (unnoticed : notified thread events = false) :
    state.locks.bucketCheck bucket ≠ 0 ∧
      ∃ holder held, held ∈ (state.threads holder).held ∧ (state.threads holder).waits = none := by
  have attentive : Attentive events state := by
    refine run.history Attentive ?_ ⟨exclusive_initial, ?_, ?_⟩
    · rintro past before event after kept permitted rfl
      exact kept.step permitted
    · intro thread bucket waits
      rfl
    · intro thread bucket waits
      cases waits
  have refused := attentive.refused thread bucket waits unnoticed
  refine ⟨refused, ?_⟩
  obtain ⟨held, locked⟩ : ∃ held, held ∈ state.locks.locked := by
    rcases (bucketCheck_ne attentive.exclusive.fits).mp refused with full | inside
    · exact List.exists_mem_of_length_pos (by rw [full]; decide)
    · exact ⟨bucket, inside⟩
  obtain ⟨holder, holds⟩ := (attentive.exclusive.held held).mp locked
  exact ⟨holder, held, holds, attentive.awake holds⟩

theorem waiting_threads_woken_second :
    ∃ state, Run LockState.Step Single .initial [.lock 0 5, .lock 1 5] state ∧ state.locks.bucketCheck 5 ≠ 0 ∧
      ∃ holder held, held ∈ (state.threads holder).held ∧ (state.threads holder).waits = none := by
  have run : Run LockState.Step Single (.initial : LockState Nat) [.lock 0 5, .lock 1 5] _ :=
    .next rfl rfl (.next rfl rfl (.done _))
  exact ⟨_, run, @waiting_threads_woken Nat _ _ _ 1 5 run (by decide) (by decide)⟩

end BtServer.Proofs.LockWakeups

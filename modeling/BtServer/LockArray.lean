import BtServer.BucketLocks

/-! The array behind the bucket locks of `ot_mutex.c` and the threads that take and
give back locks. Each step is the part of `mutex_bucket_lock` or `mutex_bucket_unlock`
that runs while `bucket_mutex` is held; a thread that has to wait gives it back. -/

namespace BtServer
open Lib

/-- `bucket_locklist` and `bucket_locklist_count`. -/
structure LockArray where
  slots : Vector Nat otMaxThreads
  count : Nat
deriving DecidableEq, Repr

namespace LockArray

def initial : LockArray := ⟨Vector.replicate otMaxThreads 0, 0⟩

/-- The loop over the slots from `i` on: where it finds the bucket, or the count. -/
def search (locks : LockArray) (bucket : Nat) : (left i : Nat) → Nat
  | 0, i => i
  | left + 1, i => if locks.slots[i]? = some bucket then i else search locks bucket left (i + 1)

def bucketCheck (locks : LockArray) (bucket : Nat) : Int :=
  if locks.count = otMaxThreads then -1
  else if locks.search bucket locks.count 0 < locks.count then -1
  else 0

def bucketPush (locks : LockArray) (bucket : Nat) : LockArray :=
  ⟨locks.slots.setIfInBounds locks.count bucket, locks.count + 1⟩

/-- `bucket_locklist[ i ] = bucket_locklist[ i + 1 ]` for the `left` slots from `i` on. -/
def shift (slots : Vector Nat otMaxThreads) : (left i : Nat) → Vector Nat otMaxThreads
  | 0, _ => slots
  | left + 1, i =>
    match slots[i + 1]? with
    | none => slots
    | some bucket => shift (slots.setIfInBounds i bucket) left (i + 1)

def bucketRemove (locks : LockArray) (bucket : Nat) : LockArray :=
  let i := locks.search bucket locks.count 0
  if i = locks.count then locks else ⟨shift locks.slots (locks.count - 1 - i) i, locks.count - 1⟩

def locked (locks : LockArray) : List Nat := locks.slots.toList.take locks.count

end LockArray

/-- A thread with the buckets it holds and the one it waits for. -/
structure LockThread where
  held : List Nat
  waits : Option Nat
deriving DecidableEq, Repr

structure LockState (ι : Type) where
  locks : LockArray
  threads : ι → LockThread

/-- `wake` is a return from `pthread_cond_wait`, be it from the broadcast of an unlock
or spurious. -/
inductive LockEvent (ι : Type) where
  | lock (thread : ι) (bucket : Nat)
  | wake (thread : ι)
  | unlock (thread : ι) (bucket : Nat)

namespace LockState
variable {ι : Type} [DecidableEq ι]

def initial : LockState ι := ⟨.initial, fun _ => ⟨[], none⟩⟩

/-- One turn of the loop of `mutex_bucket_lock` and, when `bucket_check` returns 0,
what follows it. -/
def acquire (state : LockState ι) (thread : ι) (bucket : Nat) : LockState ι :=
  let held := (state.threads thread).held
  if state.locks.bucketCheck bucket ≠ 0 then
    { state with threads := Function.update state.threads thread ⟨held, some bucket⟩ }
  else ⟨state.locks.bucketPush bucket, Function.update state.threads thread ⟨bucket :: held, none⟩⟩

def next (state : LockState ι) : LockEvent ι → LockState ι
  | .lock thread bucket =>
    match (state.threads thread).waits with
    | none => state.acquire thread bucket
    | some _ => state
  | .wake thread =>
    match (state.threads thread).waits with
    | none => state
    | some bucket => state.acquire thread bucket
  | .unlock thread bucket =>
    match (state.threads thread).waits with
    | none =>
      ⟨state.locks.bucketRemove bucket,
        Function.update state.threads thread ⟨(state.threads thread).held.erase bucket, none⟩⟩
    | some _ => state

def Step (before : LockState ι) (event : LockEvent ι) (after : LockState ι) : Prop := before.next event = after

/-- A thread unlocks only a bucket it holds. -/
def Permits (state : LockState ι) : LockEvent ι → Prop
  | .unlock thread bucket => bucket ∈ (state.threads thread).held
  | .lock .. | .wake _ => True

end LockState

end BtServer

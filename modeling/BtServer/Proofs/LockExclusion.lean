import BtServer.LockArray

/-! Bucket locking is mutual exclusion. The slots in use are the buckets held, each by
one thread; a full array makes every thread wait. On the slots in use the array's
operations are those on lists that `BucketLocks` has. -/

namespace BtServer.Proofs.LockExclusion
open Lib

section Slots
variable {locks : LockArray} {bucket : Nat}

def Fits (locks : LockArray) : Prop := locks.count ≤ otMaxThreads

theorem locked_length (fits : Fits locks) : locks.locked.length = locks.count := by
  simpa [LockArray.locked, Fits] using fits

private theorem locked_at (locks : LockArray) (i : Nat) :
    locks.locked[i]? = if i < locks.count then locks.slots[i]? else none := by
  simp [LockArray.locked, List.getElem?_take]

private theorem search_drop (fits : Fits locks) (left i : Nat) (all : i + left = locks.count) :
    locks.search bucket left i = i + (locks.locked.drop i).idxOf bucket := by
  induction left generalizing i with
  | zero =>
    have ended : locks.locked.length ≤ i := by rw [locked_length fits]; omega
    rw [LockArray.search, List.drop_eq_nil_of_le ended, List.idxOf_nil, Nat.add_zero]
  | succ left ih =>
    have inside : i < locks.locked.length := by rw [locked_length fits]; omega
    have here : locks.slots[i]? = some locks.locked[i] := by
      rw [← List.getElem?_eq_getElem inside, locked_at, if_pos (by omega)]
    rw [LockArray.search, here, List.drop_eq_getElem_cons inside, List.idxOf_cons]
    by_cases found : locks.locked[i] = bucket
    · simp [found]
    · rw [if_neg (by simpa using found), ih (i + 1) (by omega), cond_eq_ite, if_neg (by simpa using found)]
      omega

theorem search_eq (fits : Fits locks) (bucket : Nat) : locks.search bucket locks.count 0 = locks.locked.idxOf bucket := by
  simpa using search_drop fits locks.count 0 (Nat.zero_add _)

theorem bucketCheck_eq (fits : Fits locks) (bucket : Nat) : locks.bucketCheck bucket = bucketCheck locks.locked bucket := by
  rw [LockArray.bucketCheck, bucketCheck, search_eq fits, locked_length fits]
  refine if_congr Iff.rfl rfl (if_congr ?_ rfl rfl)
  rw [← locked_length fits, List.idxOf_lt_length_iff]

theorem bucketPush_locked (room : locks.count < otMaxThreads) (bucket : Nat) :
    (locks.bucketPush bucket).locked = bucketPush locks.locked bucket := by
  apply List.ext_getElem?
  intro i
  rw [bucketPush, List.getElem?_append, locked_length (le_of_lt room), locked_at, locked_at, LockArray.bucketPush]
  simp only [Vector.getElem?_setIfInBounds]
  rcases Nat.lt_trichotomy i locks.count with less | rfl | more
  · rw [if_pos (by omega), if_pos less, if_neg (by omega), if_pos less]
  · simp [room]
  · rw [if_neg (by omega), if_neg (by omega), List.getElem?_eq_none (by simp; omega)]

private theorem shift_at (slots : Vector Nat otMaxThreads) (left i : Nat) (inside : i + left < otMaxThreads) (j : Nat) :
    (LockArray.shift slots left i)[j]? = if i ≤ j ∧ j < i + left then slots[j + 1]? else slots[j]? := by
  induction left generalizing slots i with
  | zero => rw [LockArray.shift, if_neg (by omega)]
  | succ left ih =>
    have next : slots[i + 1]? = some slots[i + 1] := Vector.getElem?_eq_getElem (by omega)
    rw [LockArray.shift, next]
    simp only
    rw [ih _ _ (by omega)]
    simp only [Vector.getElem?_setIfInBounds]
    rcases Nat.lt_trichotomy i j with less | rfl | more
    · rw [if_neg (by omega : ¬ i = j + 1), if_neg (by omega : ¬ i = j)]
      exact if_congr (by omega) rfl rfl
    · rw [if_neg (by omega), if_pos rfl, if_pos (by omega), if_pos (by omega), next]
    · rw [if_neg (by omega), if_neg (by omega), if_neg (by omega)]

theorem bucketRemove_locked (fits : Fits locks) (bucket : Nat) :
    (locks.bucketRemove bucket).locked = bucketRemove locks.locked bucket ∧ Fits (locks.bucketRemove bucket) := by
  have length := locked_length fits
  rw [LockArray.bucketRemove, bucketRemove]
  simp only [search_eq fits]
  by_cases absent : locks.locked.idxOf bucket = locks.count
  · rw [if_pos absent]
    rw [← length, List.idxOf_eq_length_iff] at absent
    exact ⟨(List.erase_of_not_mem absent).symm, fits⟩
  · have less : locks.locked.idxOf bucket < locks.count := by
      have bound : locks.locked.idxOf bucket ≤ locks.locked.length := List.idxOf_le_length
      omega
    rw [if_neg absent]
    refine ⟨?_, le_trans (Nat.sub_le _ _) fits⟩
    rw [← List.eraseIdx_idxOf_eq_erase]
    apply List.ext_getElem?
    intro j
    rw [List.getElem?_eraseIdx, locked_at, locked_at, locked_at]
    simp only
    rw [shift_at _ _ _ (by unfold Fits at fits; omega)]
    split_ifs <;> first | rfl | omega

end Slots

section Threads
variable {ι : Type} [DecidableEq ι] {state : LockState ι}

/-- The slots in use are the buckets held, each of them by one thread and once. -/
structure Exclusive (state : LockState ι) : Prop where
  fits : Fits state.locks
  distinct : state.locks.locked.Nodup
  held : ∀ bucket, bucket ∈ state.locks.locked ↔ ∃ thread, bucket ∈ (state.threads thread).held
  alone : ∀ thread other bucket, bucket ∈ (state.threads thread).held → bucket ∈ (state.threads other).held →
    thread = other
  once : ∀ thread, (state.threads thread).held.Nodup

omit [DecidableEq ι] in
theorem exclusive_initial : Exclusive (.initial : LockState ι) := by
  refine ⟨Nat.zero_le _, ?_, ?_, ?_, fun _ => List.nodup_nil⟩
  · simp [LockState.initial, LockArray.initial, LockArray.locked]
  · simp [LockState.initial, LockArray.initial, LockArray.locked]
  · intro thread other bucket held
    simp [LockState.initial] at held

theorem Exclusive.waits (ok : Exclusive state) (thread : ι) (waits : Option Nat) :
    Exclusive { state with
      threads := Function.update state.threads thread ⟨(state.threads thread).held, waits⟩ } := by
  have same : ∀ other, (Function.update state.threads thread ⟨(state.threads thread).held, waits⟩ other).held =
      (state.threads other).held := by
    intro other
    by_cases here : other = thread
    · subst here
      rw [Function.update_self]
    · rw [Function.update_of_ne here]
  refine ⟨ok.fits, ok.distinct, ?_, ?_, ?_⟩ <;> simp only [same]
  · exact ok.held
  · exact ok.alone
  · exact ok.once

theorem Exclusive.acquire (ok : Exclusive state) (thread : ι) (bucket : Nat) : Exclusive (state.acquire thread bucket) := by
  unfold LockState.acquire
  by_cases refused : state.locks.bucketCheck bucket ≠ 0
  · rw [if_pos refused]
    exact ok.waits thread (some bucket)
  rw [if_neg refused]
  rw [bucketCheck_eq ok.fits, bucketCheck, locked_length ok.fits] at refused
  obtain ⟨room, unlocked⟩ : state.locks.count < otMaxThreads ∧ bucket ∉ state.locks.locked := by
    have fits := ok.fits
    unfold Fits at fits
    split_ifs at refused with full taken
    · simp at refused
    · simp at refused
    · exact ⟨by omega, taken⟩
  have free : ∀ other, bucket ∉ (state.threads other).held := fun other holds => unlocked ((ok.held bucket).mpr ⟨other, holds⟩)
  have members : ∀ other found,
      found ∈ (Function.update state.threads thread ⟨bucket :: (state.threads thread).held, none⟩ other).held ↔
        (found = bucket ∧ other = thread) ∨ found ∈ (state.threads other).held := by
    intro other found
    by_cases here : other = thread
    · subst here
      simp
    · simp [here]
  refine ⟨room, ?_, ?_, ?_, ?_⟩ <;> simp only [bucketPush_locked room, bucketPush, members]
  · refine List.nodup_append.mpr ⟨ok.distinct, List.nodup_singleton bucket, ?_⟩
    rintro found inside _ last rfl
    exact unlocked (List.mem_singleton.mp last ▸ inside)
  · intro found
    simp only [List.mem_append, List.mem_singleton, ok.held, exists_or, exists_and_left, exists_eq, and_true]
    exact or_comm
  · rintro first second found (⟨rfl, rfl⟩ | inFirst) (⟨same, rfl⟩ | inSecond)
    · rfl
    · exact absurd inSecond (free second)
    · exact absurd inFirst (same ▸ free first)
    · exact ok.alone first second found inFirst inSecond
  · intro other
    by_cases here : other = thread
    · subst here
      simpa using ⟨free other, ok.once other⟩
    · simpa [Function.update_of_ne here] using ok.once other

theorem Exclusive.release (ok : Exclusive state) {thread : ι} {bucket : Nat} (holds : bucket ∈ (state.threads thread).held) :
    Exclusive ⟨state.locks.bucketRemove bucket,
      Function.update state.threads thread ⟨(state.threads thread).held.erase bucket, none⟩⟩ := by
  obtain ⟨removed, fits⟩ := bucketRemove_locked ok.fits bucket
  have members : ∀ other found,
      found ∈ (Function.update state.threads thread ⟨(state.threads thread).held.erase bucket, none⟩ other).held ↔
        found ≠ bucket ∧ found ∈ (state.threads other).held := by
    intro other found
    by_cases here : other = thread
    · subst here
      simp [(ok.once other).mem_erase_iff]
    · rw [Function.update_of_ne here]
      refine ⟨fun inside => ⟨?_, inside⟩, And.right⟩
      rintro rfl
      exact here (ok.alone other thread found inside holds)
  refine ⟨fits, ?_, ?_, ?_, ?_⟩ <;> simp only [removed, bucketRemove, members]
  · exact ok.distinct.erase bucket
  · intro found
    rw [ok.distinct.mem_erase_iff, ok.held, exists_and_left]
  · exact fun first second found inFirst inSecond => ok.alone first second found inFirst.2 inSecond.2
  · intro other
    by_cases here : other = thread
    · subst here
      simpa using (ok.once other).erase bucket
    · simpa [Function.update_of_ne here] using ok.once other

theorem Exclusive.step (ok : Exclusive state) {event : LockEvent ι} (permitted : state.Permits event) :
    Exclusive (state.next event) := by
  cases event with
  | lock thread bucket =>
    rw [LockState.next]
    split
    · exact ok.acquire thread bucket
    · exact ok
  | wake thread =>
    rw [LockState.next]
    split
    · exact ok
    · exact ok.acquire thread _
  | unlock thread bucket =>
    rw [LockState.next]
    split
    · exact ok.release permitted
    · exact ok

theorem bucket_locks_exclude {events : List (LockEvent ι)} (run : Run LockState.Step LockState.Permits .initial events state) :
    state.locks.locked.Nodup ∧
    (∀ bucket, bucket ∈ state.locks.locked ↔ ∃ thread, bucket ∈ (state.threads thread).held) ∧
    (∀ thread other bucket, bucket ∈ (state.threads thread).held → bucket ∈ (state.threads other).held → thread = other) ∧
    state.locks.count ≤ otMaxThreads ∧ state.locks.locked.length = state.locks.count ∧
    ∀ bucket, (state.locks.bucketRemove bucket).locked = state.locks.locked.filter fun locked => locked ≠ bucket := by
  have ok : Exclusive state := by
    refine run.invariant Exclusive ?_ exclusive_initial
    rintro before event after kept permitted rfl
    exact kept.step permitted
  refine ⟨ok.distinct, ok.held, ok.alone, ok.fits, locked_length ok.fits, ?_⟩
  intro bucket
  rw [(bucketRemove_locked ok.fits bucket).1, bucketRemove, ok.distinct.erase_eq_filter]
  exact List.filter_congr fun locked _ => Bool.eq_iff_iff.mpr (by simp)

def handedOver : List (LockEvent Nat) := [.lock 0 5, .lock 1 5, .unlock 0 5, .wake 1]

theorem bucket_locks_exclude_handed_over : (((LockState.initial.next (.lock 0 5)).next (.lock 1 5)).threads 1).waits = some 5 ∧
    ∃ final, Run LockState.Step LockState.Permits .initial handedOver final ∧
      final.locks.locked = [5] ∧ (final.threads 1).held = [5] ∧ (final.threads 0).held = [] ∧
      ∀ bucket, bucket ∈ final.locks.locked ↔ ∃ thread, bucket ∈ (final.threads thread).held := by
  have run : Run LockState.Step LockState.Permits .initial handedOver (handedOver.foldl LockState.next .initial) :=
    .next trivial rfl (.next trivial rfl (.next (List.mem_singleton_self 5) rfl (.next trivial rfl (.done _))))
  exact ⟨by decide, _, run, by decide, by decide, by decide, (bucket_locks_exclude run).2.1⟩

end Threads

end BtServer.Proofs.LockExclusion

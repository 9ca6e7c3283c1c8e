import BtServer.Vector

/-! `binary_search` and the insertion that uses it. What holds of every list of
members is kept apart from what needs them sorted: a reported match always has
the searched bytes, but only on a sorted list does a miss cut it at the key. -/

namespace BtServer.Proofs.VectorSearch
open Lib

private theorem bisect_stops (compare : Nat → Int) (fuel base interval : Nat) (enough : interval ≤ fuel) :
    base ≤ (bisect compare fuel base interval).1 ∧
    (bisect compare fuel base interval).1 ≤ base + interval ∧
    (bisect compare fuel base interval).2 ≤ interval ∧
    (0 < (bisect compare fuel base interval).2 →
      compare (bisect compare fuel base interval).1 = 0 ∧ (bisect compare fuel base interval).1 < base + interval) := by
  induction fuel generalizing base interval with
  | zero =>
    have none : interval = 0 := by omega
    subst none
    simp [bisect]
  | succ fuel ih =>
    simp only [bisect]
    split
    next empty => simp
    next nonempty =>
      split
      next equal => exact ⟨by omega, by omega, le_refl _, fun _ => ⟨equal, by omega⟩⟩
      next different =>
        split
        · obtain ⟨low, high, less, found⟩ := ih (base + interval / 2 + 1) ((interval - 1) / 2) (by omega)
          exact ⟨by omega, by omega, by omega, fun positive => ⟨(found positive).1, by have := (found positive).2; omega⟩⟩
        · obtain ⟨low, high, less, found⟩ := ih base (interval / 2) (by omega)
          exact ⟨low, by omega, by omega, fun positive => ⟨(found positive).1, by have := (found positive).2; omega⟩⟩

structure Ascending (compare : Nat → Int) (count : Nat) : Prop where
  below : ∀ i j, i ≤ j → j < count → compare j < 0 → compare i < 0
  above : ∀ i j, i ≤ j → j < count → 0 < compare i → 0 < compare j

private theorem bisect_cuts {compare : Nat → Int} {count : Nat} (ascending : Ascending compare count)
    (fuel base interval : Nat) (enough : interval ≤ fuel) (inside : base + interval ≤ count) (below : ∀ i, i < base → compare i < 0)
    (above : ∀ i, base + interval ≤ i → i < count → 0 < compare i) (missed : (bisect compare fuel base interval).2 = 0) :
    (∀ i, i < (bisect compare fuel base interval).1 → compare i < 0) ∧
    (∀ i, (bisect compare fuel base interval).1 ≤ i → i < count → 0 < compare i) := by
  induction fuel generalizing base interval with
  | zero =>
    have none : interval = 0 := by omega
    subst none
    exact ⟨below, above⟩
  | succ fuel ih =>
    simp only [bisect] at missed ⊢
    split at missed
    next empty =>
      subst empty
      exact ⟨below, by simpa using above⟩
    next nonempty =>
      simp only [if_neg nonempty]
      split at missed
      next equal => exact absurd missed nonempty
      next different =>
        simp only [if_neg different]
        split at missed
        next less =>
          simp only [if_pos less]
          refine ih (base + interval / 2 + 1) ((interval - 1) / 2) (by omega) (by omega) ?_ ?_ missed
          · intro i before
            exact ascending.below i (base + interval / 2) (by omega) (by omega) less
          · intro i after bound
            exact above i (by omega) bound
        next greater =>
          simp only [if_neg greater]
          refine ih base (interval / 2) (by omega) (by omega) below ?_ missed
          intro i after bound
          exact ascending.above (base + interval / 2) i after bound (by omega)

variable {α : Type}

def rank (bytes : α → Bytes) (member : α) : Nat := bigEndian (bytes member)

def compareAt (key : Bytes) (bytes : α → Bytes) (members : List α) (i : Nat) : Int :=
  match members[i]? with
  | some member => memcmp (bytes member) key
  | none => 0

private theorem binarySearch_eq (key : Bytes) (bytes : α → Bytes) (members : List α) :
    binarySearch key bytes members = ((bisect (compareAt key bytes members) members.length 0 members.length).1,
        toInt32 (bisect (compareAt key bytes members) members.length 0 members.length).2) := rfl

private theorem compareAt_inside {key : Bytes} {bytes : α → Bytes} {members : List α} {i : Nat}
    (inside : i < members.length) : compareAt key bytes members i = memcmp (bytes members[i]) key := by
  simp [compareAt, List.getElem?_eq_getElem inside]

private theorem ascending {key : Bytes} {bytes : α → Bytes} {members : List α}
    (lengths : ∀ member, (bytes member).length = key.length) (sorted : StrictSorted (rank bytes) members) :
    Ascending (compareAt key bytes members) members.length := by
  have ordered : ∀ i j, i ≤ j → (first : i < members.length) → (second : j < members.length) →
      rank bytes members[i] ≤ rank bytes members[j] := by
    intro i j le first second
    rcases Nat.eq_or_lt_of_le le with rfl | less
    · exact le_refl _
    · exact le_of_lt (List.pairwise_iff_getElem.mp sorted i j first second less)
  constructor
  · intro i j le inside negative
    rw [compareAt_inside inside, memcmp_neg (lengths _)] at negative
    rw [compareAt_inside (by omega), memcmp_neg (lengths _)]
    exact lt_of_le_of_lt (ordered i j le (by omega) inside) negative
  · intro i j le inside positive
    have first : i < members.length := by omega
    rw [compareAt_inside first] at positive
    rw [compareAt_inside inside]
    have smaller := memcmp_sign (lengths members[i])
    have larger := memcmp_sign (lengths members[j])
    have order := ordered i j le first inside
    unfold rank at order
    omega

/-- Where `binary_search` ends. A match lies at the returned position, and the
interval it was found in becomes `exactmatch`. Without a match `exactmatch` is 0
and, on a sorted list, the key belongs at the returned position. -/
theorem binarySearch_cases (key : Bytes) (bytes : α → Bytes) (members : List α)
    (lengths : ∀ member, (bytes member).length = key.length) :
    (∃ before found after interval, members = before ++ found :: after ∧ bytes found = key ∧
      0 < interval ∧ interval ≤ members.length ∧
      binarySearch key bytes members = (before.length, toInt32 interval)) ∨
    (∃ before after, members = before ++ after ∧ binarySearch key bytes members = (before.length, 0) ∧
      (StrictSorted (rank bytes) members → Between (rank bytes) before after (bigEndian key))) := by
  obtain ⟨_, high, less, found⟩ := bisect_stops (compareAt key bytes members) members.length 0 members.length (le_refl _)
  rw [binarySearch_eq]
  generalize seen : bisect (compareAt key bytes members) members.length 0 members.length = result at *
  obtain ⟨position, interval⟩ := result
  simp only [Nat.zero_add] at high less found
  rcases Nat.eq_zero_or_pos interval with rfl | positive
  · right
    refine ⟨members.take position, members.drop position, (List.take_append_drop position members).symm, ?_, ?_⟩
    · simp [Nat.min_eq_left high]
    · intro sorted
      obtain ⟨below, above⟩ := bisect_cuts (ascending lengths sorted) members.length 0 members.length
        (le_refl _) (by omega) (by omega) (by omega) (by rw [seen])
      rw [seen] at below above
      constructor
      · intro a member
        obtain ⟨i, bound, rfl⟩ := List.mem_take_iff_getElem.mp member
        have negative := below i (by omega)
        rwa [compareAt_inside (by omega), memcmp_neg (lengths _)] at negative
      · intro a member
        obtain ⟨i, bound, rfl⟩ := List.mem_drop_iff_getElem.mp member
        have inside : position + i < members.length := by omega
        have positive := above (position + i) (by omega) inside
        rw [compareAt_inside inside] at positive
        have sign := memcmp_sign (lengths members[position + i])
        unfold rank
        omega
  · left
    obtain ⟨zero, inside⟩ := found positive
    rw [compareAt_inside inside, memcmp_eq_zero (lengths _)] at zero
    refine ⟨members.take position, members[position], members.drop (position + 1), interval, ?_, zero, positive, less, ?_⟩
    · rw [List.getElem_cons_drop, List.take_append_drop]
    · simp [Nat.min_eq_left high]

theorem binarySearch_beyond {key : Bytes} {bytes : α → Bytes} {members : List α}
    (lengths : ∀ member, (bytes member).length = key.length) (sorted : StrictSorted (rank bytes) members)
    (below : ∀ member ∈ members, rank bytes member < bigEndian key) :
    binarySearch key bytes members = (members.length, 0) := by
  rcases binarySearch_cases key bytes members lengths with
    ⟨before, found, after, interval, split, same, _, _, _⟩ | ⟨before, after, split, searched, cut⟩
  · have less := below found (by simp [split])
    rw [rank, same] at less
    exact absurd less (lt_irrefl _)
  · have nothing : after = [] := by
      refine List.eq_nil_iff_forall_not_mem.mpr fun member inside => ?_
      have less := below member (by simp [split, inside])
      have more : bigEndian key < rank bytes member := (cut sorted).above member inside
      omega
    rw [searched, split, nothing, List.append_nil]

theorem binarySearch_middle {key : Bytes} {bytes : α → Bytes} {members : List α} {middle : α}
    (here : members[members.length / 2]? = some middle) (same : bytes middle = key) :
    binarySearch key bytes members = (members.length / 2, toInt32 members.length) := by
  have inside : members.length / 2 < members.length := List.getElem?_eq_some_iff.mp here |>.1
  have hit : compareAt key bytes members (members.length / 2) = 0 := by
    simp [compareAt, here, same, memcmp_eq_zero]
  rw [binarySearch_eq]
  generalize members.length = count at inside hit ⊢
  obtain ⟨fuel, rfl⟩ : ∃ fuel, count = fuel + 1 := ⟨count - 1, by omega⟩
  simp [bisect, hit]

theorem split_at {members : List α} {i : Nat} {member : α} (here : members[i]? = some member) :
    ∃ before after, members = before ++ member :: after ∧ before.length = i := by
  obtain ⟨inside, rfl⟩ := List.getElem?_eq_some_iff.mp here
  refine ⟨members.take i, members.drop (i + 1), ?_, List.length_take_of_le inside.le⟩
  rw [List.getElem_cons_drop, List.take_append_drop]

/-- Of `n` members the middle one is hit at once, and the interval of the hit can be cut to 0. -/
theorem middle_missed (member : Nat → α) (bytes : α → Bytes) {n : Nat} (positive : 0 < n) (truncated : toInt32 n = 0) :
    ∃ before after, (List.range n).map member = before ++ member (n / 2) :: after ∧
      binarySearch (bytes (member (n / 2))) bytes (before ++ member (n / 2) :: after) = (before.length, 0) := by
  have here : ((List.range n).map member)[((List.range n).map member).length / 2]? = some (member (n / 2)) := by
    rw [List.length_map, List.length_range, List.getElem?_map, List.getElem?_range (by omega), Option.map_some]
  have missed := binarySearch_middle here (rfl : bytes (member (n / 2)) = _)
  rw [List.length_map, List.length_range] at here missed
  obtain ⟨before, after, cut, length⟩ := split_at here
  refine ⟨before, after, cut, ?_⟩
  rw [← cut, length]
  exact missed.trans (by rw [truncated])

theorem vectorFindOrInsert_opens {before after : List α} {space : Nat} {record : α} {bytes : α → Bytes}
    (fits : (before ++ after).length ≤ space) (missed : binarySearch (bytes record) bytes (before ++ after) = (before.length, 0)) :
    ∃ room, (before ++ record :: after).length ≤ room ∧ vectorFindOrInsert [] ⟨before ++ after, space⟩ record bytes =
        ([], some (⟨before ++ record :: after, room⟩, before.length, 0)) := by
  simp only [vectorFindOrInsert, missed, ne_eq, not_true_eq_false, if_false, List.take_left, List.drop_left, OtVector.size,
    List.length_append, List.length_cons] at fits ⊢
  split
  next full =>
    refine ⟨_, ?_, rfl⟩
    simp only [otVectorGrowRatio, otVectorMinMembers]
    split <;> omega
  next => exact ⟨space, by omega, rfl⟩

theorem vectorFindOrInsert_cases (heap : Heap) (vector : OtVector α) (record : α) (bytes : α → Bytes)
    (lengths : ∀ member, (bytes member).length = (bytes record).length) :
    (∃ before old after exactmatch, vector.data = before ++ old :: after ∧ bytes old = bytes record ∧
      exactmatch ≠ 0 ∧ vectorFindOrInsert heap vector record bytes = (heap, some (vector, before.length, exactmatch))) ∨
    (∃ rest, vectorFindOrInsert heap vector record bytes = (rest, none)) ∨
    (∃ before after space rest, vector.data = before ++ after ∧ vector.space ≤ space ∧
      (vector.size ≤ vector.space → vector.size + 1 ≤ space) ∧
      (StrictSorted (rank bytes) vector.data → vector.size < 2 ^ 32 →
        Between (rank bytes) before after (rank bytes record)) ∧
      vectorFindOrInsert heap vector record bytes =
        (rest, some (⟨before ++ record :: after, space⟩, before.length, 0))) := by
  -- A slot is opened whenever `exactmatch` is 0, be it for want of a match or because
  -- the interval of the match was a multiple of 2 ^ 32.
  have insertion : ∀ before after, vector.data = before ++ after →
      binarySearch (bytes record) bytes vector.data = (before.length, 0) →
      (∃ rest, vectorFindOrInsert heap vector record bytes = (rest, none)) ∨
      (∃ space rest, vector.space ≤ space ∧ (vector.size ≤ vector.space → vector.size + 1 ≤ space) ∧
        vectorFindOrInsert heap vector record bytes =
          (rest, some (⟨before ++ record :: after, space⟩, before.length, 0))) := by
    intro before after split searched
    have opened : vector.data.take before.length ++ record :: vector.data.drop before.length =
        before ++ record :: after := by simp [split]
    simp only [vectorFindOrInsert, searched, opened, ne_eq, not_true_eq_false, if_false]
    split
    next full =>
      cases outcome : allocate heap with
      | mk success rest =>
        cases success with
        | false => exact .inl ⟨rest, rfl⟩
        | true =>
          refine .inr ⟨_, rest, ?_, ?_, rfl⟩
          · simp only [otVectorGrowRatio, otVectorMinMembers]
            split <;> omega
          · simp only [otVectorGrowRatio, otVectorMinMembers]
            split <;> omega
    next roomy => exact .inr ⟨vector.space, heap, le_refl _, by omega, rfl⟩
  rcases binarySearch_cases (bytes record) bytes vector.data lengths with
    ⟨before, old, after, interval, split, same, positive, bound, searched⟩ | ⟨before, after, split, searched, cut⟩
  · by_cases truncated : toInt32 interval = 0
    · rw [truncated] at searched
      rcases insertion before (old :: after) split searched with failed | ⟨space, rest, grown, fits, result⟩
      · exact .inr (.inl failed)
      · refine .inr (.inr ⟨before, old :: after, space, rest, split, grown, fits, ?_, result⟩)
        intro _ small
        exact absurd truncated (toInt32_ne_zero positive (lt_of_le_of_lt bound small))
    · refine .inl ⟨before, old, after, toInt32 interval, split, same, truncated, ?_⟩
      simp [vectorFindOrInsert, searched, truncated]
  · rcases insertion before after split searched with failed | ⟨space, rest, grown, fits, result⟩
    · exact .inr (.inl failed)
    · exact .inr (.inr ⟨before, after, space, rest, split, grown, fits, fun sorted _ => cut sorted, result⟩)

/-- The loop of `binary_search` shrinks its interval in every turn: after as many turns as there
are members it has been left, through its condition or its `break`. -/
private theorem bisect_terminates (compare : Nat → Int) (fuel base interval : Nat) (enough : interval ≤ fuel) :
    bisect compare fuel base interval = bisect compare interval base interval ∧
    ((bisect compare fuel base interval).2 = 0 ∨ compare (bisect compare fuel base interval).1 = 0) := by
  refine ⟨?_, ?_⟩
  · suffices equal : ∀ other, interval ≤ other → bisect compare fuel base interval = bisect compare other base interval from
      equal interval (le_refl _)
    induction fuel generalizing base interval with
    | zero =>
      intro other _
      have none : interval = 0 := by omega
      subst none
      cases other <;> simp [bisect]
    | succ fuel ih =>
      intro other enoughToo
      cases other with
      | zero =>
        have none : interval = 0 := by omega
        simp [bisect, none]
      | succ other =>
        simp only [bisect]
        split
        next => rfl
        next nonempty =>
          split
          next => rfl
          next =>
            split
            · exact ih _ _ (by omega) other (by omega)
            · exact ih _ _ (by omega) other (by omega)
  · obtain ⟨_, _, _, found⟩ := bisect_stops compare fuel base interval enough
    rcases Nat.eq_zero_or_pos (bisect compare fuel base interval).2 with left | broken
    · exact .inl left
    · exact .inr (found broken).1

def compared {memberSize : Nat} (compareSize : Nat) (member : Vector UInt8 memberSize) : Bytes :=
  member.toList.take compareSize

def MemcmpSorted {memberSize : Nat} (compareSize : Nat) (members : List (Vector UInt8 memberSize)) : Prop :=
  members.Pairwise fun left right => memcmp (compared compareSize left) (compared compareSize right) < 0

instance {memberSize : Nat} (compareSize : Nat) (members : List (Vector UInt8 memberSize)) :
    Decidable (MemcmpSorted compareSize members) :=
  inferInstanceAs (Decidable (List.Pairwise _ _))

private theorem compared_length {memberSize compareSize : Nat} (within : compareSize ≤ memberSize)
    (key : Vector UInt8 compareSize) (member : Vector UInt8 memberSize) :
    (compared compareSize member).length = key.toList.length := by
  simp [compared, Nat.min_eq_left within]

private theorem memcmpSorted_iff {memberSize compareSize : Nat} (members : List (Vector UInt8 memberSize)) :
    MemcmpSorted compareSize members ↔ StrictSorted (rank (compared compareSize)) members := by
  apply List.Pairwise.iff
  intro left right
  exact memcmp_neg (by simp [compared])

/-- `binary_search` on fewer than 2 ^ 31 sorted records of any size: it reports a match exactly when
a record has the bytes of the key, points to that record then, and otherwise to the place where a
record with these bytes keeps the array sorted. The last part is the end of its loop. -/
theorem binarySearch_exact {memberSize compareSize : Nat} (within : compareSize ≤ memberSize)
    (key : Vector UInt8 compareSize) (members : List (Vector UInt8 memberSize))
    (sorted : MemcmpSorted compareSize members) (few : members.length < 2 ^ 31) :
    ((binarySearch key.toList (compared compareSize) members).2 ≠ 0 ↔
      ∃ member ∈ members, compared compareSize member = key.toList) ∧
    ((binarySearch key.toList (compared compareSize) members).2 ≠ 0 →
      ∃ member, members[(binarySearch key.toList (compared compareSize) members).1]? = some member ∧
        compared compareSize member = key.toList) ∧
    ((binarySearch key.toList (compared compareSize) members).2 = 0 →
      (binarySearch key.toList (compared compareSize) members).1 ≤ members.length ∧
      ∀ fresh, compared compareSize fresh = key.toList →
        MemcmpSorted compareSize (members.take (binarySearch key.toList (compared compareSize) members).1 ++
          fresh :: members.drop (binarySearch key.toList (compared compareSize) members).1)) ∧
    ∀ turns, members.length ≤ turns → bisect (compareAt key.toList (compared compareSize) members) turns 0 members.length =
        bisect (compareAt key.toList (compared compareSize) members) members.length 0 members.length ∧
      ((bisect (compareAt key.toList (compared compareSize) members) turns 0 members.length).2 = 0 ∨
        compareAt key.toList (compared compareSize) members
          (bisect (compareAt key.toList (compared compareSize) members) turns 0 members.length).1 = 0) := by
  have lengths := compared_length within key
  have ordered := (memcmpSorted_iff members).mp sorted
  refine ⟨?_, ?_, ?_, fun turns enough => bisect_terminates _ turns 0 members.length enough⟩
  all_goals
    rcases binarySearch_cases key.toList (compared compareSize) members lengths with
      ⟨before, found, after, interval, split, same, positive, bound, searched⟩ | ⟨before, after, split, searched, cut⟩
    all_goals simp only [searched]
  · have matched : toInt32 interval ≠ 0 := toInt32_ne_zero positive (by omega)
    exact iff_of_true matched ⟨found, by simp [split], same⟩
  · refine iff_of_false (by simp) ?_
    intro ⟨member, inside, same⟩
    have between := cut ordered
    rw [split] at inside
    rcases List.mem_append.mp inside with left | right
    · have less := between.below member left
      simp [rank, same] at less
    · have more := between.above member right
      simp [rank, same] at more
  · intro _
    exact ⟨found, by simp [split], same⟩
  · intro matched
    exact absurd rfl matched
  · intro missed
    exact absurd missed (toInt32_ne_zero positive (by omega))
  · intro _
    refine ⟨by simp [split], ?_⟩
    intro fresh same
    have between : Between (rank (compared compareSize)) before after (rank (compared compareSize) fresh) := by
      rw [rank, same]
      exact cut ordered
    rw [split] at ordered
    apply (memcmpSorted_iff _).mpr
    simpa [split] using ordered.insert between

theorem binarySearch_exact_peers : MemcmpSorted 6 [Vector.replicate 8 1, Vector.replicate 8 2, Vector.replicate 8 4] ∧
    ∃ member, member ∈ [Vector.replicate 8 1, Vector.replicate 8 2, Vector.replicate 8 4] ∧
      compared 6 member = (Vector.replicate 6 4).toList := by
  have sorted : MemcmpSorted 6 [Vector.replicate 8 1, Vector.replicate 8 2, Vector.replicate 8 4] := by decide
  exact ⟨sorted, (binarySearch_exact (by omega) (Vector.replicate 6 4) _ sorted (by decide)).1.mp (by decide)⟩

end BtServer.Proofs.VectorSearch

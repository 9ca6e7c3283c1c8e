import Mathlib.Tactic
import Mathlib.Data.List.Sort

/-! Lists of records kept strictly sorted on a key, and such lists hashed into
buckets. The edits are stated on a list cut at the edited position: a record is
put between two parts, replaced between them, or taken out from between them. -/

namespace BtServer.Lib

section Sorted

variable {α κ : Type} [LinearOrder κ] (key : α → κ)

def StrictSorted (members : List α) : Prop := members.Pairwise fun a b => key a < key b

/-- Every member before the cut is smaller than `k`, every member after it larger. -/
structure Between (before after : List α) (k : κ) : Prop where
  below : ∀ a ∈ before, key a < k
  above : ∀ a ∈ after, k < key a

variable {key}

theorem StrictSorted.insert {before after : List α} {new : α} (sorted : StrictSorted key (before ++ after))
    (cut : Between key before after (key new)) : StrictSorted key (before ++ new :: after) := by
  unfold StrictSorted at sorted ⊢
  rw [List.pairwise_append] at sorted ⊢
  obtain ⟨first, second, across⟩ := sorted
  refine ⟨first, List.pairwise_cons.mpr ⟨cut.above, second⟩, ?_⟩
  intro a inside b later
  rcases List.mem_cons.mp later with rfl | later
  · exact cut.below a inside
  · exact across a inside b later

theorem StrictSorted.remove {before after : List α} {old : α}
    (sorted : StrictSorted key (before ++ old :: after)) : StrictSorted key (before ++ after) :=
  List.Pairwise.sublist (List.Sublist.append_left (List.sublist_cons_self old after) before) sorted

theorem StrictSorted.between {before after : List α} {old : α}
    (sorted : StrictSorted key (before ++ old :: after)) : Between key before after (key old) := by
  obtain ⟨_, second, across⟩ := List.pairwise_append.mp sorted
  exact ⟨fun a inside => across a inside old (by simp), (List.pairwise_cons.mp second).1⟩

theorem StrictSorted.replace {before after : List α} {old new : α}
    (sorted : StrictSorted key (before ++ old :: after)) (same : key new = key old) :
    StrictSorted key (before ++ new :: after) :=
  sorted.remove.insert (same ▸ sorted.between)

theorem Between.absent {before after : List α} {k : κ} (cut : Between key before after k) (a : α)
    (member : a ∈ before ++ after) : key a ≠ k := by
  rcases List.mem_append.mp member with inside | inside
  · exact ne_of_lt (cut.below a inside)
  · exact ne_of_gt (cut.above a inside)

theorem StrictSorted.nodup {members : List α} (sorted : StrictSorted key members) : (members.map key).Nodup :=
  List.pairwise_map.mpr (sorted.imp fun less => ne_of_lt less)

theorem StrictSorted.of_insertionSort {members : List α} (distinct : (members.map key).Nodup) :
    StrictSorted key (members.insertionSort fun a b => key a ≤ key b) := by
  have sorted := List.pairwise_insertionSort (fun a b => key a ≤ key b) members
  have permuted := List.perm_insertionSort (fun a b => key a ≤ key b) members
  have unique : (members.insertionSort fun a b => key a ≤ key b).Pairwise fun a b => key a ≠ key b :=
    List.pairwise_map.mp ((permuted.map key).nodup_iff.mpr distinct)
  exact (sorted.and unique).imp fun both => lt_of_le_of_ne both.1 both.2

end Sorted

section Lookup

variable {α κ : Type} [DecidableEq κ] (key : α → κ)

def lookup (members : List α) (k : κ) : Option α := members.find? fun a => key a = k

variable {key}

theorem lookup_eq_some {members : List α} (distinct : (members.map key).Nodup) {k : κ} {a : α} :
    lookup key members k = some a ↔ a ∈ members ∧ key a = k := by
  constructor
  · intro found
    exact ⟨List.mem_of_find?_eq_some found, by simpa using List.find?_some found⟩
  · rintro ⟨member, rfl⟩
    induction members with
    | nil => simp at member
    | cons first rest ih =>
      simp only [List.map_cons, List.nodup_cons, List.mem_map, not_exists, not_and] at distinct
      by_cases same : key first = key a
      · rcases List.mem_cons.mp member with rfl | later
        · simp [lookup]
        · exact absurd same.symm (distinct.1 a later)
      · rcases List.mem_cons.mp member with rfl | later
        · exact absurd rfl same
        · simpa [lookup, same] using ih distinct.2 later

theorem lookup_eq_none {members : List α} {k : κ} : lookup key members k = none ↔ ∀ a ∈ members, key a ≠ k := by
  simp [lookup, List.find?_eq_none]

theorem lookup_congr {members others : List α} (distinct : (members.map key).Nodup) (distinct' : (others.map key).Nodup)
    {k : κ} (same : ∀ a, key a = k → (a ∈ members ↔ a ∈ others)) : lookup key members k = lookup key others k := by
  apply Option.ext
  intro a
  rw [lookup_eq_some distinct, lookup_eq_some distinct']
  constructor
  · rintro ⟨member, here⟩
    exact ⟨(same a here).mp member, here⟩
  · rintro ⟨member, here⟩
    exact ⟨(same a here).mpr member, here⟩

end Lookup

section Buckets

variable {α κ : Type} (key : α → κ) (place : α → Nat)

/-- The bucket with index `i` only holds records placed at `i`. -/
def Placed (buckets : List (List α)) : Prop := ∀ i bucket, buckets[i]? = some bucket → ∀ a ∈ bucket, place a = i

variable {key place}

theorem Placed.edit {left right : List (List α)} {old new : List α} (placed : Placed place (left ++ old :: right))
    (kept : ∀ a ∈ new, a ∈ old ∨ place a = left.length) : Placed place (left ++ new :: right) := by
  intro i bucket found a inside
  by_cases here : i = left.length
  · subst here
    rw [List.getElem?_append_right (le_refl _), Nat.sub_self, List.getElem?_cons_zero, Option.some.injEq] at found
    subst found
    exact (kept a inside).elim (placed _ old (by simp) a) id
  · refine placed i bucket ?_ a inside
    rcases Nat.lt_or_gt_of_ne here with less | more
    · rw [List.getElem?_append_left less] at found ⊢
      exact found
    · obtain ⟨offset, position⟩ : ∃ offset, i - left.length = offset + 1 := ⟨i - left.length - 1, by omega⟩
      rw [List.getElem?_append_right (by omega), position] at found ⊢
      exact found

/-- When the key decides the place, buckets without repeated keys do not repeat
a key between them either. -/
theorem Placed.nodup {buckets : List (List α)} (placed : Placed place buckets) (respects : ∀ a b, key a = key b → place a = place b)
    (each : ∀ bucket ∈ buckets, (bucket.map key).Nodup) : (buckets.flatten.map key).Nodup := by
  rw [List.map_flatten, List.nodup_flatten]
  refine ⟨by simpa using each, ?_⟩
  rw [List.pairwise_map, List.pairwise_iff_getElem]
  intro i j first second less k inFirst inSecond
  obtain ⟨a, memberA, rfl⟩ := List.mem_map.mp inFirst
  obtain ⟨b, memberB, same⟩ := List.mem_map.mp inSecond
  have placeA := placed i _ (List.getElem?_eq_getElem first) a memberA
  have placeB := placed j _ (List.getElem?_eq_getElem second) b memberB
  have equal := respects b a same
  omega

/-- Sorted buckets are sorted as a whole when the key decides the place in ascending order. -/
theorem Placed.sorted {ν : Type} [LinearOrder ν] {order : α → ν} {buckets : List (List α)} (placed : Placed place buckets)
    (ascending : ∀ a b, place a < place b → order a < order b) (each : ∀ bucket ∈ buckets, StrictSorted order bucket) :
    StrictSorted order buckets.flatten := by
  refine List.pairwise_flatten.mpr ⟨each, List.pairwise_iff_getElem.mpr ?_⟩
  intro i j first second less a inFirst b inSecond
  apply ascending
  rw [placed i _ (List.getElem?_eq_getElem first) a inFirst, placed j _ (List.getElem?_eq_getElem second) b inSecond]
  exact less

end Buckets

end BtServer.Lib

import Mathlib.Tactic
import Mathlib.Data.List.Sort

/-! An array that keeps the records with the largest keys of all that were offered to it, in
descending order. A record goes behind those with the same key, and only if one with a
smaller key is there to make way for it. -/

namespace BtServer.Lib

section
variable {α : Type} (key : α → Nat)

/-- The loop from the end of the array to the first record that is not smaller: how many
records are kept before the new one. -/
def topIndex (top : List α) (value : Nat) : Nat → Nat
  | 0 => 0
  | i + 1 =>
    match top[i]? with
    | none => i + 1
    | some record => if value > key record then topIndex top value i else i + 1

def offer (top : List α) (record : α) : List α :=
  let i := topIndex key top (key record) top.length
  if i ≠ top.length then top.take i ++ record :: (top.drop i).take (top.length - 1 - i) else top

end

/-- A number put behind those that are not smaller. -/
def insertDesc (value : Nat) : List Nat → List Nat
  | [] => [value]
  | first :: rest => if first < value then value :: first :: rest else first :: insertDesc value rest

theorem insertDesc_perm (value : Nat) (values : List Nat) : (insertDesc value values).Perm (value :: values) := by
  induction values with
  | nil => exact .refl _
  | cons first rest ih =>
    rw [insertDesc]
    split
    · exact .refl _
    · exact (ih.cons first).trans (.swap value first rest)

theorem insertDesc_sorted {value : Nat} {values : List Nat} (sorted : values.Pairwise (· ≥ ·)) :
    (insertDesc value values).Pairwise (· ≥ ·) := by
  induction values with
  | nil => exact List.pairwise_singleton _ _
  | cons first rest ih =>
    obtain ⟨most, later⟩ := List.pairwise_cons.mp sorted
    rw [insertDesc]
    split
    next less =>
      refine List.pairwise_cons.mpr ⟨?_, sorted⟩
      intro other member
      rcases List.mem_cons.mp member with rfl | member
      · exact le_of_lt less
      · exact le_trans (most other member) (le_of_lt less)
    next more =>
      refine List.pairwise_cons.mpr ⟨?_, ih later⟩
      intro other member
      rcases List.mem_cons.mp ((insertDesc_perm value rest).subset member) with rfl | member
      · exact not_lt.mp more
      · exact most other member

/-- Only what is in the first `n` places decides what will be there. -/
theorem take_insertDesc (n value : Nat) (values : List Nat) :
    (insertDesc value (values.take n)).take n = (insertDesc value values).take n := by
  induction values generalizing n with
  | nil => simp
  | cons first rest ih =>
    cases n with
    | zero => simp
    | succ n =>
      rw [List.take_succ_cons, insertDesc, insertDesc]
      split
      · have inner : (first :: rest.take n).take n = (first :: rest).take n := by
          rw [← List.take_succ_cons, List.take_take, Nat.min_eq_left (Nat.le_succ n)]
        rw [List.take_succ_cons, List.take_succ_cons, inner]
      · rw [List.take_succ_cons, List.take_succ_cons, ih]

theorem insertDesc_between {value : Nat} {before after : List Nat} (first : ∀ other ∈ before, value ≤ other)
    (second : ∀ other ∈ after, other < value) : insertDesc value (before ++ after) = before ++ value :: after := by
  induction before with
  | nil =>
    cases after with
    | nil => rfl
    | cons other rest => rw [List.nil_append, insertDesc, if_pos (second other (by simp)), List.nil_append]
  | cons other rest ih =>
    rw [List.forall_mem_cons] at first
    rw [List.cons_append, insertDesc, if_neg (not_lt.mpr first.1), ih first.2, List.cons_append]

section
variable {α : Type} {key : α → Nat} {top : List α}

private theorem topIndex_spec (top : List α) (value : Nat) {i : Nat} (bound : i ≤ top.length) : topIndex key top value i ≤ i ∧
    (∀ j record, topIndex key top value i ≤ j → j < i → top[j]? = some record → key record < value) ∧
    (∀ record, topIndex key top value i ≠ 0 → top[topIndex key top value i - 1]? = some record → value ≤ key record) := by
  induction i with
  | zero => simp [topIndex]
  | succ i ih =>
    obtain ⟨most, smaller, stops⟩ := ih (by omega)
    rw [topIndex, List.getElem?_eq_getElem (by omega)]
    simp only
    split
    next less =>
      refine ⟨by omega, ?_, stops⟩
      intro j record low high here
      rcases Nat.lt_or_ge j i with earlier | last
      · exact smaller j record low earlier here
      · obtain rfl : j = i := by omega
        rw [List.getElem?_eq_getElem (by omega)] at here
        rwa [← Option.some.inj here]
    next more =>
      refine ⟨le_refl _, fun j _ low high => absurd low (by omega), ?_⟩
      intro record _ here
      rw [Nat.add_sub_cancel, List.getElem?_eq_getElem (by omega)] at here
      rw [← Option.some.inj here]
      exact not_lt.mp more

/-- Where the loop ends, the records before are not smaller and the others are. -/
theorem topIndex_cut (sorted : (top.map key).Pairwise (· ≥ ·)) (value : Nat) : topIndex key top value top.length ≤ top.length ∧
    (∀ record ∈ top.take (topIndex key top value top.length), value ≤ key record) ∧
    (∀ record ∈ top.drop (topIndex key top value top.length), key record < value) := by
  obtain ⟨most, smaller, stops⟩ := @topIndex_spec α key top value _ (le_refl top.length)
  generalize topIndex key top value top.length = i at most smaller stops
  refine ⟨most, ?_, ?_⟩
  · intro record member
    obtain ⟨j, bound, rfl⟩ := List.mem_take_iff_getElem.mp member
    have low : j < i := by omega
    have last := stops top[i - 1] (by omega) (List.getElem?_eq_getElem (by omega))
    rcases Nat.eq_or_lt_of_le (show j ≤ i - 1 by omega) with rfl | less
    · exact last
    · have order := List.pairwise_iff_getElem.mp sorted j (i - 1) (by simp; omega) (by simp; omega) less
      simp only [List.getElem_map] at order
      exact le_trans last order
  · intro record member
    obtain ⟨j, bound, rfl⟩ := List.mem_drop_iff_getElem.mp member
    exact smaller (i + j) _ (by omega) (by omega) (List.getElem?_eq_getElem (by omega))

theorem offer_keys (sorted : (top.map key).Pairwise (· ≥ ·)) (record : α) :
    (offer key top record).map key = (insertDesc (key record) (top.map key)).take top.length := by
  obtain ⟨most, first, second⟩ := topIndex_cut sorted (key record)
  rw [offer]
  generalize topIndex key top (key record) top.length = i at most first second
  have before : ∀ other ∈ (top.take i).map key, key record ≤ other := by
    intro other member
    obtain ⟨kept, inside, rfl⟩ := List.mem_map.mp member
    exact first kept inside
  have after : ∀ other ∈ (top.drop i).map key, other < key record := by
    intro other member
    obtain ⟨passed, inside, rfl⟩ := List.mem_map.mp member
    exact second passed inside
  have inserted : insertDesc (key record) (top.map key) = (top.take i).map key ++ key record :: (top.drop i).map key := by
    rw [← insertDesc_between before after, ← List.map_append, List.take_append_drop]
  rw [inserted]
  split
  next fewer =>
    have length : ((top.take i).map key).length = i := by simp [most]
    obtain ⟨more, count⟩ : ∃ more, top.length - i = more + 1 := ⟨top.length - i - 1, by omega⟩
    have first : ((top.take i).map key).take top.length = (top.take i).map key := List.take_of_length_le (by rw [length]; exact most)
    rw [List.take_append, length, first, count, List.take_succ_cons, List.map_append, List.map_cons, ← List.map_take,
      show top.length - 1 - i = more by omega]
  next all =>
    have whole : i = top.length := not_not.mp all
    rw [whole, List.take_length, List.take_left' (by simp)]

theorem offer_mem {record other : α} (member : other ∈ offer key top record) : other ∈ top ∨ other = record := by
  rw [offer] at member
  split at member
  next =>
    rcases List.mem_append.mp member with before | rest
    · exact .inl (List.mem_of_mem_take before)
    · rcases List.mem_cons.mp rest with rfl | after
      · exact .inr rfl
      · exact .inl (List.mem_of_mem_drop (List.mem_of_mem_take after))
  next => exact .inl member

theorem offer_positive (sorted : (top.map key).Pairwise (· ≥ ·)) {record : α} (zero : key record = 0) : offer key top record = top := by
  obtain ⟨most, _, second⟩ := topIndex_cut sorted (key record)
  rw [offer, if_neg]
  intro fewer
  have bound := lt_of_le_of_ne most fewer
  have less := second (top.get ⟨_, bound⟩) (List.mem_drop_iff_getElem.mpr ⟨0, by omega, rfl⟩)
  omega

theorem length_offer (sorted : (top.map key).Pairwise (· ≥ ·)) (record : α) : (offer key top record).length = top.length := by
  have lengths := congrArg List.length (offer_keys sorted record)
  have inserted := (insertDesc_perm (key record) (top.map key)).length_eq
  rw [List.length_map, List.length_take, inserted, List.length_cons, List.length_map] at lengths
  omega

theorem offer_sorted (sorted : (top.map key).Pairwise (· ≥ ·)) (record : α) :
    ((offer key top record).map key).Pairwise (· ≥ ·) := by
  rw [offer_keys sorted]
  exact (insertDesc_sorted sorted).sublist (List.take_sublist _ _)

theorem offer_subperm (top : List α) (record : α) : (offer key top record).Subperm (record :: top) := by
  rw [offer]
  split
  next =>
    generalize topIndex key top (key record) top.length = i
    have kept : (top.take i ++ record :: (top.drop i).take (top.length - 1 - i)).Sublist (top.take i ++ record :: top.drop i) :=
      (List.Sublist.refl _).append ((List.take_sublist _ _).cons_cons record)
    have moved : (top.take i ++ record :: top.drop i).Perm (record :: (top.take i ++ top.drop i)) := List.perm_middle
    rw [List.take_append_drop] at moved
    exact kept.subperm.trans moved.subperm
  next => exact (List.sublist_cons_self record top).subperm

theorem offers_sorted (sorted : (top.map key).Pairwise (· ≥ ·)) (records : List α) :
    (records.foldl (offer key) top).length = top.length ∧ ((records.foldl (offer key) top).map key).Pairwise (· ≥ ·) := by
  induction records generalizing top with
  | nil => exact ⟨rfl, sorted⟩
  | cons record records ih =>
    obtain ⟨length, ordered⟩ := ih (offer_sorted sorted record)
    exact ⟨length.trans (length_offer sorted record), ordered⟩

theorem offers_keys (sorted : (top.map key).Pairwise (· ≥ ·)) (records : List α) : (records.foldl (offer key) top).map key =
      ((records.map key).foldl (fun sorted value => insertDesc value sorted) (top.map key)).take top.length := by
  induction records using List.reverseRecOn with
  | nil => rw [List.foldl_nil, List.map_nil, List.foldl_nil, List.take_of_length_le (by rw [List.length_map])]
  | append_singleton records record ih =>
    obtain ⟨length, ordered⟩ := offers_sorted sorted records
    rw [List.foldl_append, List.foldl_cons, List.foldl_nil, offer_keys ordered, ih, length, take_insertDesc, List.map_append,
      List.foldl_append]
    rfl

theorem offers_filter (sorted : (top.map key).Pairwise (· ≥ ·)) (records : List α) :
    records.foldl (offer key) top = (records.filter fun record => key record ≠ 0).foldl (offer key) top := by
  induction records generalizing top with
  | nil => rfl
  | cons record records ih =>
    by_cases zero : key record = 0
    · rw [List.foldl_cons, offer_positive sorted zero, List.filter_cons_of_neg (by simpa using zero)]
      exact ih sorted
    · rw [List.foldl_cons, List.filter_cons_of_pos (by simpa using zero), List.foldl_cons]
      exact ih (offer_sorted sorted record)

theorem offers_subperm (top records : List α) : (records.foldl (offer key) top).Subperm (records ++ top) := by
  induction records generalizing top with
  | nil => exact .refl top
  | cons record records ih =>
    have first := (List.subperm_append_left records).mpr (@offer_subperm α key top record)
    exact (ih (offer key top record)).trans (first.trans List.perm_middle.subperm)

theorem offers_pairwise {relation : α → α → Prop} (symmetric : ∀ {a b}, relation a b → relation b a) {records : List α}
    (related : (records ++ top).Pairwise relation) : (records.foldl (offer key) top).Pairwise relation := by
  obtain ⟨kept, same, inside⟩ := @offers_subperm α key top records
  exact (same.pairwise_iff symmetric).mp (related.sublist inside)

end

theorem foldl_insertDesc (values : List Nat) (n : Nat) :
    values.foldl (fun sorted value => insertDesc value sorted) (List.replicate n 0) =
      values.insertionSort (· ≥ ·) ++ List.replicate n 0 := by
  have grows : ∀ (values start : List Nat), start.Pairwise (· ≥ ·) →
      (values.foldl (fun sorted value => insertDesc value sorted) start).Pairwise (· ≥ ·) ∧
      (values.foldl (fun sorted value => insertDesc value sorted) start).Perm (values ++ start) := by
    intro values
    induction values with
    | nil => exact fun start sorted => ⟨sorted, .refl _⟩
    | cons value rest ih =>
      intro start sorted
      obtain ⟨ordered, same⟩ := ih (insertDesc value start) (insertDesc_sorted sorted)
      exact ⟨ordered, same.trans ((List.Perm.append_left rest (insertDesc_perm value start)).trans List.perm_middle)⟩
  obtain ⟨ordered, same⟩ := grows values (List.replicate n 0) (by simp [List.pairwise_replicate])
  have target : (values.insertionSort (· ≥ ·) ++ List.replicate n 0).Pairwise (· ≥ ·) := by
    refine List.pairwise_append.mpr ⟨List.pairwise_insertionSort _ _, by simp [List.pairwise_replicate], ?_⟩
    intro value _ other member
    rw [List.eq_of_mem_replicate member]
    exact Nat.zero_le value
  refine List.Perm.eq_of_pairwise ?_ ordered target (same.trans (List.Perm.append_right _ (List.perm_insertionSort _ values).symm))
  intro a b _ _ first second
  exact le_antisymm second first

end BtServer.Lib

import Mathlib.Data.List.GetD
import Mathlib.Data.Nat.Bitwise
import BtServer.Lib.Bytes
import BtServer.Proofs.NetworkCounts

/-! The report of the busiest networks. The walk through the tree offers every network at the limit with
its count to the arrays, and writes the path it takes into `node_value`. -/

namespace BtServer.Proofs.NetworkReport
open Lib NetworkCounts

variable {levels n level more : Nat} {path : List (Fin 16)} {value : Bytes} {node : NetworkNode}
  {score : Fin 16 → Nat} {addresses : List Bytes}

local instance sixteen : NeZero 16 := ⟨by decide⟩

section Nibbles

theorem networkShift_level (level : Nat) : networkShift (4 * level) = if level % 2 = 0 then 4 else 0 := by
  have bit : networkShift (4 * level) = ((4 * level) ^^^ 2 ^ 2) &&& 2 ^ 2 := rfl
  rw [bit, Nat.and_two_pow, Nat.testBit_xor, Nat.testBit_two_pow_self, Nat.testBit_eq_decide_div_mod_eq]
  have quotient : 4 * level / 2 ^ 2 = level := by omega
  rw [quotient]
  rcases Nat.mod_two_eq_zero_or_one level with even | odd
  · simp [even]
  · simp [odd]

private def mixed (shift : Nat) (byte : UInt8) (value : Fin 16) : UInt8 :=
  ((byte.toNat &&& (255 - (15 <<< shift))) ||| (value.val <<< shift)).toUInt8

private def half (shift : Nat) (byte : UInt8) : Fin 16 := Fin.ofNat 16 ((byte.toNat >>> shift) &&& 15)

private theorem half_mixed (byte : UInt8) (value : Fin 16) :
    half 4 (mixed 4 byte value) = value ∧ half 0 (mixed 0 byte value) = value ∧
      half 0 (mixed 4 byte value) = half 0 byte ∧ half 4 (mixed 0 byte value) = half 4 byte := by
  revert value
  revert byte
  apply forall_byte
  decide +kernel

private theorem half_joined (byte : UInt8) : byte = (16 * (half 4 byte).val + (half 0 byte).val).toUInt8 := by
  revert byte
  apply forall_byte
  decide +kernel

private theorem joined_half (high low : Fin 16) :
    half 4 (16 * high.val + low.val).toUInt8 = high ∧ half 0 (16 * high.val + low.val).toUInt8 = low := by
  revert high low
  decide +kernel

private theorem loadNibble_level (address : Bytes) (level : Nat) :
    loadNibble address (4 * level) = half (if level % 2 = 0 then 4 else 0) (address.getD (level / 2) 0) := by
  rw [loadNibble, networkShift_level, half, show 4 * level / 8 = level / 2 by omega]

private theorem storeNibble_level (address : Bytes) (level : Nat) (value : Fin 16) :
    storeNibble address (4 * level) value =
      address.set (level / 2) (mixed (if level % 2 = 0 then 4 else 0) (address.getD (level / 2) 0) value) := by
  rw [storeNibble, networkShift_level, mixed, show 4 * level / 8 = level / 2 by omega]

@[simp] theorem length_storeNibble (address : Bytes) (depth : Nat) (value : Fin 16) :
    (storeNibble address depth value).length = address.length := by
  rw [storeNibble, List.length_set]

theorem loadNibble_stored {address : Bytes} (inside : level / 2 < address.length) (value : Fin 16) :
    loadNibble (storeNibble address (4 * level) value) (4 * level) = value := by
  rw [loadNibble_level, storeNibble_level, List.getD_eq_getElem _ _ (by simpa using inside), List.getElem_set_self]
  obtain ⟨high, low, _, _⟩ := half_mixed (address.getD (level / 2) 0) value
  split
  · exact high
  · exact low

theorem loadNibble_other (address : Bytes) {other : Nat} (different : other ≠ level) (value : Fin 16) :
    loadNibble (storeNibble address (4 * level) value) (4 * other) = loadNibble address (4 * other) := by
  rw [loadNibble_level, loadNibble_level, storeNibble_level]
  by_cases same : other / 2 = level / 2
  · rw [same]
    by_cases inside : level / 2 < address.length
    · rw [List.getD_eq_getElem _ _ (by simpa using inside), List.getElem_set_self]
      obtain ⟨_, _, low, high⟩ := half_mixed (address.getD (level / 2) 0) value
      rcases Nat.mod_two_eq_zero_or_one level with even | odd
      · rw [if_pos even, if_neg (by omega : ¬ other % 2 = 0)]
        exact low
      · rw [if_neg (by omega : ¬ level % 2 = 0), if_pos (by omega : other % 2 = 0)]
        exact high
    · rw [List.set_eq_of_length_le (by omega)]
  · simp only [List.getD_eq_getElem?_getD, List.getElem?_set_ne (Ne.symm same)]

def networkValue (path : List (Fin 16)) : Bytes :=
  (List.range 16).map fun k => (16 * (path.getD (2 * k) 0).val + (path.getD (2 * k + 1) 0).val).toUInt8

theorem networkValue_nibble (short : path.length ≤ 32) (level : Nat) :
    loadNibble (networkValue path) (4 * level) = path.getD level 0 := by
  rw [loadNibble_level]
  by_cases inside : level / 2 < 16
  · obtain ⟨high, low⟩ := joined_half (path.getD (2 * (level / 2)) 0) (path.getD (2 * (level / 2) + 1) 0)
    rw [networkValue, List.getD_eq_getElem _ _ (by simpa using inside), List.getElem_map, List.getElem_range]
    rcases Nat.mod_two_eq_zero_or_one level with even | odd
    · rw [if_pos even, high, show 2 * (level / 2) = level by omega]
    · rw [if_neg (by omega : ¬ level % 2 = 0), low, show 2 * (level / 2) + 1 = level by omega]
  · rw [List.getD_eq_default _ _ (by simp [networkValue]; omega), List.getD_eq_default _ _ (by omega)]
    split <;> rfl

theorem eq_networkValue (length : value.length = 16)
    (nibbles : ∀ level, loadNibble value (4 * level) = path.getD level 0) : value = networkValue path := by
  apply List.ext_getElem
  · simp [networkValue, length]
  · intro k inside _
    have high := nibbles (2 * k)
    have low := nibbles (2 * k + 1)
    rw [loadNibble_level, if_pos (by omega), show 2 * k / 2 = k by omega, List.getD_eq_getElem _ _ inside] at high
    rw [loadNibble_level, if_neg (by omega), show (2 * k + 1) / 2 = k by omega, List.getD_eq_getElem _ _ inside] at low
    simp only [networkValue, List.getElem_map, List.getElem_range]
    rw [← high, ← low]
    exact half_joined value[k]

theorem addressPath_map (ip : Bytes) (levels first : Nat) :
    addressPath ip levels (4 * first) = (List.range (levels + 1)).map fun k => loadNibble ip (4 * (first + k)) := by
  induction levels generalizing first with
  | zero => rfl
  | succ levels ih =>
    rw [addressPath, statsNetworkNodeBitwidth, show 4 * first + 4 = 4 * (first + 1) by omega, ih,
      @List.range_succ_eq_map (levels + 1)]
    simp only [List.map_cons, List.map_map, Nat.add_zero, List.cons.injEq, true_and]
    apply List.map_congr_left
    intro k _
    simp only [Function.comp_apply]
    rw [show first + 1 + k = first + Nat.succ k by omega]

theorem networkPath_value (short : levels < 32) (length : path.length = levels + 1) :
    networkPath levels (networkValue path) = path := by
  rw [networkPath, show 0 = 4 * 0 from rfl, addressPath_map]
  apply List.ext_getElem
  · simp [length]
  · intro k _ inside
    rw [List.getElem_map, List.getElem_range, Nat.zero_add, networkValue_nibble (by omega), List.getD_eq_getElem _ _ inside]

end Nibbles

section Board
variable {amount : Nat} {top : List (Nat × Bytes)}

def board (value : Bytes) (top : List (Nat × Bytes)) : Highscore :=
  ⟨value, (top.map Prod.fst).reverse, (top.map Prod.snd).reverse⟩

structure Scored (amount : Nat) (top : List (Nat × Bytes)) : Prop where
  length : top.length = amount
  sorted : (top.map Prod.fst).Pairwise (· ≥ ·)

theorem scored_offers (scored : Scored amount top) (records : List (Nat × Bytes)) :
    Scored amount (records.foldl (offer Prod.fst) top) := by
  obtain ⟨length, sorted⟩ := offers_sorted scored.sorted records
  exact ⟨length.trans scored.length, sorted⟩

theorem scoreIndex_cut {scores : List Nat} {score cut : Nat} (most : cut ≤ n) (smaller : ∀ j < cut, scores.getD j 0 < score)
    (stops : cut < n → score ≤ scores.getD cut 0) {fuel start : Nat} (before : start ≤ cut) (enough : cut - start ≤ fuel) :
    scoreIndex scores score n fuel start = cut := by
  induction fuel generalizing start with
  | zero =>
    rw [scoreIndex]
    omega
  | succ fuel ih =>
    rw [scoreIndex]
    rcases Nat.eq_or_lt_of_le before with rfl | less
    · rw [if_neg]
      rintro ⟨bound, greater⟩
      have ends := stops bound
      omega
    · rw [if_pos ⟨by omega, smaller start less⟩]
      exact ih less (by omega)

theorem moveDown_reverse {α : Type} (entries : List α) {i : Nat} (inside : i < entries.length) (value : α) :
    moveDown entries.reverse (entries.length - 1 - i) value =
      (entries.take i ++ value :: (entries.drop i).take (entries.length - 1 - i)).reverse := by
  have later : (entries.reverse.drop 1).take (entries.length - 1 - i) = ((entries.drop i).take (entries.length - 1 - i)).reverse := by
    rw [List.drop_reverse, List.take_reverse, List.length_take, List.drop_take]
    congr 2
    · omega
    · congr 1
      omega
  have first : entries.reverse.drop (entries.length - 1 - i + 1) = (entries.take i).reverse := by
    rw [List.drop_reverse, show entries.length - (entries.length - 1 - i + 1) = i by omega]
  rw [moveDown, later, first]
  simp

private theorem score_reverse (top : List (Nat × Bytes)) {j : Nat} (inside : j < top.length) :
    (top.map Prod.fst).reverse.getD j 0 = (top.get ⟨top.length - 1 - j, by omega⟩).1 := by
  rw [List.getD_eq_getElem _ _ (by simpa using inside), List.getElem_reverse, List.getElem_map]
  simp

theorem insertScore_board (scored : Scored amount top) (positive : 0 < amount) (depth : Nat) (i : Fin 16) (score : Nat)
    (value : Bytes) :
    (insertScore amount depth i score (board value top) = board value top ∧
      offer Prod.fst top (score, storeNibble value depth i) = top) ∨
    insertScore amount depth i score (board value top) =
      board (storeNibble value depth i) (offer Prod.fst top (score, storeNibble value depth i)) := by
  obtain ⟨length, sorted⟩ := scored
  obtain ⟨most, first, second⟩ := topIndex_cut sorted score
  have least : (board value top).scores.getD 0 0 = (top.get ⟨top.length - 1 - 0, by omega⟩).1 := score_reverse top (by omega)
  rw [insertScore, least, offer]
  generalize cut : topIndex Prod.fst top score top.length = k at most first second
  have smaller : ∀ j, (inside : j < top.length) → k ≤ top.length - 1 - j → (top.map Prod.fst).reverse.getD j 0 < score := by
    intro j inside behind
    rw [score_reverse top inside]
    apply second
    apply List.mem_drop_iff_getElem.mpr
    exact ⟨top.length - 1 - j - k, by omega, by simp only [List.get_eq_getElem]; congr 1; omega⟩
  by_cases taken : score ≤ (top.get ⟨top.length - 1 - 0, by omega⟩).1
  · left
    rw [if_pos taken, if_neg]
    · exact ⟨rfl, rfl⟩
    · intro fewer
      have less := smaller 0 (by omega) (by omega)
      rw [score_reverse top (by omega)] at less
      omega
  · right
    have fewer : k < top.length := by
      by_contra all
      have kept := first (top.get ⟨top.length - 1 - 0, by omega⟩) (by
        rw [List.take_of_length_le (by omega)]
        exact List.get_mem _ _)
      exact taken kept
    have index : scoreIndex (board value top).scores score amount amount 1 = top.length - k := by
      apply scoreIndex_cut (by omega)
      · intro j less
        exact smaller j (by omega) (by omega)
      · intro bound
        rw [board, score_reverse top (by omega)]
        apply first
        apply List.mem_take_iff_getElem.mpr
        exact ⟨top.length - 1 - (top.length - k), by omega, rfl⟩
      · omega
      · omega
    rw [if_neg taken, if_pos (by omega), index, board, board, show top.length - k - 1 = top.length - 1 - k by omega]
    have scores := moveDown_reverse (top.map Prod.fst) (by simpa using fewer) score
    have names := moveDown_reverse (top.map Prod.snd) (by simpa using fewer) (storeNibble value depth i)
    rw [List.length_map] at scores names
    dsimp only
    rw [scores, names]
    simp [List.map_take, List.map_drop]

end Board

section Walk
variable {amount limit : Nat} {top : List (Nat × Bytes)}

def networks : Nat → List (List (Fin 16))
  | 0 => [[]]
  | n + 1 => (List.finRange 16).flatMap fun i => (networks n).map (i :: ·)

theorem mem_networks : path ∈ networks n ↔ path.length = n := by
  induction n generalizing path with
  | zero => simp [networks]
  | succ n ih =>
    cases path with
    | nil => simp [networks]
    | cons i path => simp [networks, ih]

theorem nodup_networks (n : Nat) : (networks n).Nodup := by
  induction n with
  | zero => exact List.nodup_singleton _
  | succ n ih =>
    rw [networks, List.nodup_flatMap]
    refine ⟨fun i _ => ih.map (List.cons_injective), (List.nodup_finRange 16).imp ?_⟩
    intro i j different path first second
    obtain ⟨_, _, rfl⟩ := List.mem_map.mp first
    obtain ⟨_, _, same⟩ := List.mem_map.mp second
    exact different (List.cons.inj same).1.symm

def offers (node : NetworkNode) (path : List (Fin 16)) (n : Nat) : List (Nat × Bytes) :=
  (networks n).map fun below => (countUnder node below, networkValue (path ++ below))

theorem offers_null (scored : Scored amount top) (path : List (Fin 16)) (n : Nat) :
    (offers .null path n).foldl (offer Prod.fst) top = top := by
  rw [offers_filter scored.sorted, List.filter_eq_nil_iff.mpr]
  · rfl
  · intro record member
    obtain ⟨below, _, rfl⟩ := List.mem_map.mp member
    simp

/-- The bits of the path are in `node_value`, and none behind the limit. -/
structure Spells (levels : Nat) (path : List (Fin 16)) (value : Bytes) : Prop where
  length : value.length = 16
  above : ∀ k < path.length, loadNibble value (4 * k) = path.getD k 0
  behind : ∀ k, levels < k → loadNibble value (4 * k) = 0

theorem spells_store (spells : Spells levels path value) (within : path.length ≤ levels) (small : levels < 32) (i : Fin 16) :
    Spells levels (path ++ [i]) (storeNibble value (4 * path.length) i) := by
  obtain ⟨length, above, behind⟩ := spells
  refine ⟨by rw [length_storeNibble, length], ?_, ?_⟩
  · intro k inside
    rw [List.length_append, List.length_singleton] at inside
    rcases Nat.lt_or_eq_of_le (Nat.le_of_lt_succ inside) with less | rfl
    · rw [loadNibble_other _ (by omega), above k less, List.getD_append _ _ _ _ less]
    · rw [loadNibble_stored (by omega), List.getD_append_right _ _ _ _ (le_refl _)]
      simp
  · intro k beyond
    rw [loadNibble_other _ (by omega), behind k beyond]

theorem spells_shorter {i : Fin 16} (spells : Spells levels (path ++ [i]) value) : Spells levels path value := by
  obtain ⟨length, above, behind⟩ := spells
  refine ⟨length, ?_, behind⟩
  intro k inside
  rw [above k (by rw [List.length_append]; omega), List.getD_append _ _ _ _ inside]

theorem spells_value (spells : Spells levels path value) (whole : path.length = levels + 1) : value = networkValue path := by
  apply eq_networkValue spells.length
  intro level
  rcases Nat.lt_or_ge level path.length with inside | beyond
  · exact spells.above level inside
  · rw [spells.behind level (by omega), List.getD_eq_default _ _ beyond]

private theorem sum_loop {state : Type} {step : Nat × state → Fin 16 → Nat × state} {high : state}
    (turn : ∀ sum i, step (sum, high) i = (sum + score i, high)) (places : List (Fin 16)) (sum : Nat) :
    places.foldl step (sum, high) = (sum + (places.map score).sum, high) := by
  induction places generalizing sum with
  | nil => rfl
  | cons i places ih => rw [List.foldl_cons, turn, ih, List.map_cons, List.sum_cons, Nat.add_assoc]

theorem walk_behind (levelled : Levelled levels node) {depth : Nat} (behind : limit < depth)
    (high : Highscore) : statsGetHighscoreNetworks amount limit node depth high = (total node, high) := by
  induction levels generalizing node depth with
  | zero =>
    cases node with
    | null => rfl
    | inner children => exact absurd levelled (by simp [Levelled])
    | leaf counters =>
      rw [statsGetHighscoreNetworks, if_pos behind, total, Fin.sum_univ_def, List.sum_eq_foldl, List.foldl_map]
  | succ levels ih =>
    cases node with
    | null => rfl
    | leaf counters => exact absurd levelled (by simp [Levelled])
    | inner children =>
      rw [statsGetHighscoreNetworks, if_neg (by omega), if_pos behind, total, Fin.sum_univ_def, ← Nat.zero_add (List.sum _)]
      apply sum_loop
      intro sum i
      have below := @ih (children i) (levelled i) (depth + statsNetworkNodeBitwidth) (by omega)
      cases child : children i with
      | null => simp [NetworkNode.isNull, total]
      | inner _ => simp only [NetworkNode.isNull, ← child, below, Bool.false_eq_true, if_false]
      | leaf _ => simp only [NetworkNode.isNull, ← child, below, Bool.false_eq_true, if_false]

private theorem offer_loop {fits : Bytes → Prop} {step : Nat × Highscore → Fin 16 → Nat × Highscore}
    {offered : Fin 16 → List (Nat × Bytes)} (turn : ∀ sum i value top, fits value → Scored amount top → ∃ after, fits after ∧
      step (sum, board value top) i = (sum + score i, board after ((offered i).foldl (offer Prod.fst) top)))
    (places : List (Fin 16)) (sum : Nat) (spells : fits value) (scored : Scored amount top) :
    ∃ after, fits after ∧ places.foldl step (sum, board value top) =
      (sum + (places.map score).sum, board after ((places.flatMap offered).foldl (offer Prod.fst) top)) := by
  induction places generalizing sum value top with
  | nil => exact ⟨value, spells, rfl⟩
  | cons i places ih =>
    obtain ⟨middle, kept, one⟩ := turn sum i value top spells scored
    obtain ⟨after, ends, rest⟩ := ih (sum + score i) kept (scored_offers scored (offered i))
    refine ⟨after, ends, ?_⟩
    rw [List.foldl_cons, one, rest, List.map_cons, List.sum_cons, Nat.add_assoc, List.flatMap_cons, List.foldl_append]

private theorem limit_turn (at_limit : path.length = levels) (small : levels < 32)
    (positive : 0 < amount) (i : Fin 16) (score : Nat) (spells : Spells levels path value) (scored : Scored amount top) :
    ∃ after, Spells levels path after ∧ insertScore amount (4 * levels) i score (board value top) =
      board after ([(score, networkValue (path ++ [i]))].foldl (offer Prod.fst) top) := by
  have stored := spells_store spells (by omega) small i
  have name := spells_value stored (by simp [at_limit])
  rw [at_limit] at stored name
  rw [List.foldl_cons, List.foldl_nil, ← name]
  rcases insertScore_board scored positive (4 * levels) i score value with ⟨same, passed⟩ | taken
  · exact ⟨value, spells, by rw [same, passed]⟩
  · exact ⟨_, spells_shorter stored, taken⟩

theorem walk_limit (levelled : Levelled more node) (at_limit : path.length = levels) (small : levels < 32) (positive : 0 < amount)
    (spells : Spells levels path value) (scored : Scored amount top) :
    ∃ after, Spells levels path after ∧ statsGetHighscoreNetworks amount (4 * levels) node (4 * levels) (board value top) =
      (total node, board after ((offers node path 1).foldl (offer Prod.fst) top)) := by
  have single : offers node path 1 =
      (List.finRange 16).flatMap fun i => [(countUnder node [i], networkValue (path ++ [i]))] := by
    simp [offers, networks, List.map_flatMap]
  cases node with
  | null =>
    rw [offers_null scored]
    exact ⟨value, spells, rfl⟩
  | inner children =>
    obtain ⟨fewer, rfl⟩ : ∃ fewer, more = fewer + 1 := by
      cases more with
      | zero => exact absurd levelled (by simp [Levelled])
      | succ fewer => exact ⟨fewer, rfl⟩
    rw [statsGetHighscoreNetworks, if_neg (lt_irrefl _), if_neg (lt_irrefl _), single, total, Fin.sum_univ_def,
      ← Nat.zero_add (List.sum _)]
    refine offer_loop ?_ (List.finRange 16) 0 spells scored
    intro sum i value top spells scored
    obtain ⟨after, kept, turned⟩ := limit_turn at_limit small positive i (total (children i)) spells scored
    have counted : countUnder (.inner children) [i] = total (children i) := by simp [countUnder]
    refine ⟨after, kept, ?_⟩
    rw [walk_behind (levelled i) (by simp [statsNetworkNodeBitwidth]), counted]
    exact Prod.ext rfl turned
  | leaf counters =>
    rw [statsGetHighscoreNetworks, if_neg (lt_irrefl _), single, total, Fin.sum_univ_def, ← Nat.zero_add (List.sum _)]
    refine offer_loop ?_ (List.finRange 16) 0 spells scored
    intro sum i value top spells scored
    obtain ⟨after, kept, turned⟩ := limit_turn at_limit small positive i (counters i) spells scored
    exact ⟨after, kept, Prod.ext rfl turned⟩

theorem walk (levelled : Levelled (n + more) node) (above : path.length + n = levels) (small : levels < 32) (positive : 0 < amount)
    (spells : Spells levels path value) (scored : Scored amount top) :
    ∃ after, Spells levels path after ∧ statsGetHighscoreNetworks amount (4 * levels) node (4 * path.length) (board value top) =
      (total node, board after ((offers node path (n + 1)).foldl (offer Prod.fst) top)) := by
  induction n generalizing node path value top with
  | zero =>
    rw [Nat.zero_add] at levelled
    rw [Nat.add_zero] at above
    rw [above]
    exact walk_limit levelled above small positive spells scored
  | succ n ih =>
    rw [Nat.succ_add] at levelled
    cases node with
    | null =>
      rw [offers_null scored]
      exact ⟨value, spells, rfl⟩
    | leaf counters => exact absurd levelled (by simp [Levelled])
    | inner children =>
      have split : offers (.inner children) path (n + 1 + 1) =
          (List.finRange 16).flatMap fun i => offers (children i) (path ++ [i]) (n + 1) := by
        simp [offers, @networks.eq_2 (n + 1), List.map_flatMap, countUnder, Function.comp_def]
      rw [statsGetHighscoreNetworks, if_pos (by omega), split, total, Fin.sum_univ_def, ← Nat.zero_add (List.sum _)]
      refine offer_loop ?_ (List.finRange 16) 0 spells scored
      intro sum i value top spells scored
      cases child : (children i).isNull with
      | true =>
        have null : children i = .null := by
          cases kind : children i <;> simp [kind, NetworkNode.isNull] at child ⊢
        refine ⟨value, spells, ?_⟩
        rw [null, offers_null scored]
        rfl
      | false =>
        have stored := spells_store spells (by omega) small i
        obtain ⟨after, kept, below⟩ := ih (levelled i) (by rw [List.length_append, List.length_singleton]; omega) stored scored
        rw [List.length_append, List.length_singleton, Nat.mul_add] at below
        refine ⟨after, spells_shorter kept, ?_⟩
        simp only [Bool.false_eq_true, if_false]
        exact congrArg (fun walked : Nat × Highscore => (sum + walked.1, walked.2)) below

end Walk

section Report

def largestCounts (levels amount : Nat) (addresses : List Bytes) : List Nat :=
  (((addresses.map (networkPath levels)).dedup.map (networkCount levels addresses)).insertionSort (· ≥ ·) ++
    List.replicate amount 0).take amount

/-- An entry of the report: the address of a network and the number of addresses in it. -/
def Reports (levels : Nat) (addresses : List Bytes) (entry : Nat × Bytes) : Prop :=
  entry.2.length = 16 ∧ networkCount levels addresses (networkPath levels entry.2) = entry.1 ∧
    ∀ level, levels < level → loadNibble entry.2 (statsNetworkNodeBitwidth * level) = 0

def counted (levels : Nat) (addresses : List Bytes) : List (Nat × Bytes) :=
  (networks (levels + 1)).map fun path => (networkCount levels addresses path, networkValue path)

theorem offers_tree (wantV6 : Bool) (addresses : List Bytes)
    (less : levels ≤ statsNetworkNodeMaxdepth wantV6 / statsNetworkNodeBitwidth) :
    offers (networkTree wantV6 addresses) [] (levels + 1) = counted levels addresses := by
  apply List.map_congr_left
  intro path member
  rw [countUnder_tree wantV6 addresses less (mem_networks.mp member), List.nil_append]

theorem networkCount_ne_zero :
    networkCount levels addresses path ≠ 0 ↔ path ∈ addresses.map (networkPath levels) := by
  rw [networkCount, ← Nat.pos_iff_ne_zero, List.countP_pos_iff]
  simp

theorem occupied_perm (levels : Nat) (addresses : List Bytes) :
    ((networks (levels + 1)).filter fun path => networkCount levels addresses path ≠ 0).Perm
      (addresses.map (networkPath levels)).dedup := by
  apply (List.perm_ext_iff_of_nodup ((nodup_networks _).filter _) (List.nodup_dedup _)).mpr
  intro path
  rw [List.mem_filter, decide_eq_true_eq, networkCount_ne_zero, List.mem_dedup, mem_networks]
  refine ⟨And.right, fun member => ⟨?_, member⟩⟩
  obtain ⟨ip, _, rfl⟩ := List.mem_map.mp member
  exact length_addressPath ip levels 0

theorem counted_scores (levels amount : Nat) (addresses : List Bytes) (zero : Bytes) :
    ((counted levels addresses).foldl (offer Prod.fst) (List.replicate amount (0, zero))).map Prod.fst =
      largestCounts levels amount addresses := by
  have sorted : ((List.replicate amount (0, zero)).map Prod.fst).Pairwise (· ≥ ·) := by simp [List.pairwise_replicate]
  rw [offers_filter sorted, offers_keys sorted, List.map_replicate, foldl_insertDesc, List.length_replicate, largestCounts]
  have nonzero : ((counted levels addresses).filter fun record => record.1 ≠ 0).map Prod.fst =
      ((networks (levels + 1)).filter fun path => networkCount levels addresses path ≠ 0).map (networkCount levels addresses) := by
    simp [counted, List.filter_map, Function.comp_def]
  rw [nonzero]
  congr 2
  have same := (occupied_perm levels addresses).map (networkCount levels addresses)
  apply List.Perm.eq_of_pairwise _ (List.pairwise_insertionSort _ _) (List.pairwise_insertionSort _ _)
  · exact (List.perm_insertionSort _ _).trans (same.trans (List.perm_insertionSort _ _).symm)
  · intro a b _ _ first second
    exact le_antisymm second first

theorem counted_reports (small : levels < 32) {entry : Nat × Bytes}
    (member : entry ∈ counted levels addresses) : Reports levels addresses entry := by
  obtain ⟨path, inside, rfl⟩ := List.mem_map.mp member
  have length := mem_networks.mp inside
  refine ⟨by simp [networkValue], by rw [networkPath_value small length], ?_⟩
  intro level behind
  rw [statsNetworkNodeBitwidth, networkValue_nibble (by omega), List.getD_eq_default _ _ (by omega)]

theorem counted_different (small : levels < 32) (addresses : List Bytes) :
    (counted levels addresses).Pairwise fun first second => networkPath levels first.2 ≠ networkPath levels second.2 := by
  rw [counted, List.pairwise_map]
  apply (nodup_networks (levels + 1)).imp_of_mem
  intro first second one two different
  rw [networkPath_value small (mem_networks.mp one), networkPath_value small (mem_networks.mp two)]
  exact different

private theorem zeroed_board (amount : Nat) :
    Highscore.zeroed amount = board (List.replicate 16 0) (List.replicate amount (0, List.replicate 16 0)) := by
  simp [Highscore.zeroed, board]

private theorem spells_zero (levels : Nat) : Spells levels [] (List.replicate 16 0) := by
  refine ⟨List.length_replicate, fun k inside => absurd inside (by simp), ?_⟩
  intro k _
  have zero : (List.replicate 16 (0 : UInt8)).getD (4 * k / 8) 0 = 0 := by
    rw [List.getD_eq_getElem?_getD, List.getElem?_replicate]
    split <;> rfl
  rw [loadNibble, zero]
  simp

/-- The report after counting addresses: how many there are, and the networks with the largest counts in ascending order. -/
theorem statsGetHighscoreNetworks_reports (wantV6 : Bool) (addresses : List Bytes) {amount limit : Nat} (positive : 1 ≤ amount)
    (known : limit = statsNetworkNodeMaxdepth wantV6 ∨ limit = statsNetworkNodeLimit wantV6) :
    let report := statsGetHighscoreNetworks amount limit (networkTree wantV6 addresses) 0 (Highscore.zeroed amount)
    let levels := limit / statsNetworkNodeBitwidth
    report.1 = addresses.length ∧
    report.2.scores = (largestCounts levels amount addresses).reverse ∧ report.2.scores.Pairwise (· ≤ ·) ∧
    report.2.scores.length = amount ∧ report.2.networks.length = amount ∧
    (∀ entry ∈ report.2.scores.zip report.2.networks, entry.1 ≠ 0 → Reports levels addresses entry) ∧
    (report.2.scores.zip report.2.networks).Pairwise fun first second =>
      first.1 ≠ 0 → second.1 ≠ 0 → networkPath levels first.2 ≠ networkPath levels second.2 := by
  intro report levels
  have depth : limit = 4 * levels ∧ levels ≤ statsNetworkNodeMaxdepth wantV6 / statsNetworkNodeBitwidth ∧ levels < 32 := by
    cases wantV6 <;> rcases known with rfl | rfl <;> decide
  obtain ⟨whole, less, small⟩ := depth
  have sorted : ((List.replicate amount (0, List.replicate 16 (0 : UInt8))).map Prod.fst).Pairwise (· ≥ ·) := by
    simp [List.pairwise_replicate]
  have levelled : Levelled (levels + (statsNetworkNodeMaxdepth wantV6 / statsNetworkNodeBitwidth - levels))
      (networkTree wantV6 addresses) := by
    rw [Nat.add_sub_cancel' less]
    exact levelled_tree wantV6 addresses
  obtain ⟨after, _, walked⟩ := walk levelled (by simp) small positive (spells_zero levels) ⟨List.length_replicate, sorted⟩
  rw [offers_tree wantV6 addresses less, total_tree, ← zeroed_board, ← whole] at walked
  generalize ended : (counted levels addresses).foldl (offer Prod.fst) (List.replicate amount (0, List.replicate 16 0)) = top at walked
  have result : report = (addresses.length, board after top) := walked
  have scores := counted_scores levels amount addresses (List.replicate 16 0)
  obtain ⟨length, descending⟩ := offers_sorted sorted (counted levels addresses)
  rw [ended] at scores length descending
  rw [List.length_replicate] at length
  have entries : top.reverse = (top.map Prod.fst).reverse.zip (top.map Prod.snd).reverse :=
    List.zip_of_prod List.map_reverse List.map_reverse
  rw [result]
  simp only [board, ← entries]
  refine ⟨trivial, by rw [scores], ?_, by simp [length], by simp [length], ?_, ?_⟩
  · rw [List.pairwise_reverse]
    exact descending
  · intro entry member positive
    rcases List.mem_append.mp ((@offers_subperm _ Prod.fst _ _).subset (ended ▸ List.mem_reverse.mp member)) with offered | zero
    · exact counted_reports small offered
    · rw [List.eq_of_mem_replicate zero] at positive
      exact absurd rfl positive
  · rw [List.pairwise_reverse, ← ended]
    apply offers_pairwise
    · intro first second different one two
      exact (different two one).symm
    · apply List.pairwise_append.mpr
      refine ⟨(counted_different small addresses).imp fun different _ _ => different.symm, ?_, ?_⟩
      · rw [List.pairwise_replicate]
        exact .inr fun positive => absurd rfl positive
      · intro first _ second zero positive
        rw [List.eq_of_mem_replicate zero] at positive
        exact absurd rfl positive

theorem statsGetHighscoreNetworks_reports_two :
    let report := statsGetHighscoreNetworks 1 (statsNetworkNodeLimit false)
      (networkTree false [[10, 0, 0, 1], [10, 0, 0, 2], [10, 0, 1, 1]]) 0 (Highscore.zeroed 1)
    report.1 = 3 ∧ report.2.scores = [2] := by
  have reports := statsGetHighscoreNetworks_reports false [[10, 0, 0, 1], [10, 0, 0, 2], [10, 0, 1, 1]] (le_refl 1) (.inr rfl)
  exact ⟨reports.1, reports.2.1.trans (by decide)⟩

end Report

end BtServer.Proofs.NetworkReport

import Mathlib.Algebra.BigOperators.Fin
import BtServer.BusyNetworks

/-! What the tree of networks counts. The number below a node is the number of counted addresses that
begin with the path to it. -/

namespace BtServer.Proofs.NetworkCounts
open Lib

variable {levels fewer : Nat} {node : NetworkNode} {path : List (Fin 16)}

def addressPath (ip : Bytes) : (levels depth : Nat) → List (Fin 16)
  | 0, depth => [loadNibble ip depth]
  | levels + 1, depth => loadNibble ip depth :: addressPath ip levels (depth + statsNetworkNodeBitwidth)

@[simp] theorem length_addressPath (ip : Bytes) (levels depth : Nat) : (addressPath ip levels depth).length = levels + 1 := by
  induction levels generalizing depth with
  | zero => rfl
  | succ levels ih => rw [addressPath, List.length_cons, ih]

theorem take_addressPath (ip : Bytes) (less : fewer ≤ levels) (depth : Nat) :
    (addressPath ip levels depth).take (fewer + 1) = addressPath ip fewer depth := by
  induction fewer generalizing levels depth with
  | zero => cases levels <;> rfl
  | succ fewer ih =>
    obtain ⟨levels, rfl⟩ : ∃ more, levels = more + 1 := ⟨levels - 1, by omega⟩
    rw [addressPath, addressPath, List.take_succ_cons, ih (by omega)]

def total : NetworkNode → Nat
  | .null => 0
  | .inner children => ∑ i, total (children i)
  | .leaf counters => ∑ i, counters i

def countUnder : NetworkNode → List (Fin 16) → Nat
  | node, [] => total node
  | .null, _ :: _ => 0
  | .inner children, i :: path => countUnder (children i) path
  | .leaf counters, i :: path => if path = [] then counters i else 0

@[simp] theorem countUnder_null (path : List (Fin 16)) : countUnder .null path = 0 := by
  cases path <;> simp [countUnder, total]

def Levelled : Nat → NetworkNode → Prop
  | _, .null => True
  | levels + 1, .inner children => ∀ i, Levelled levels (children i)
  | 0, .leaf _ => True
  | 0, .inner _ => False
  | _ + 1, .leaf _ => False

@[simp] theorem children_inner (children : Fin 16 → NetworkNode) : (NetworkNode.inner children).children = children := rfl

theorem levelled_children (levelled : Levelled (levels + 1) node) (i : Fin 16) :
    Levelled levels (node.children i) := by
  cases node with
  | null => cases levels <;> trivial
  | inner children => exact levelled i
  | leaf counters => exact absurd levelled (by simp [Levelled])

theorem total_children (levelled : Levelled (levels + 1) node) :
    total node = ∑ i, total (node.children i) := by
  cases node with
  | null => simp [total, NetworkNode.children]
  | inner children => rfl
  | leaf counters => exact absurd levelled (by simp [Levelled])

theorem total_counters (levelled : Levelled 0 node) : total node = ∑ i, node.counters i := by
  cases node with
  | null => simp [total, NetworkNode.counters]
  | inner children => exact absurd levelled (by simp [Levelled])
  | leaf counters => rfl

theorem countUnder_cons (levelled : Levelled (levels + 1) node) (i : Fin 16)
    (path : List (Fin 16)) : countUnder node (i :: path) = countUnder (node.children i) path := by
  cases node with
  | null => simp [NetworkNode.children]
  | inner children => rfl
  | leaf counters => exact absurd levelled (by simp [Levelled])

theorem countUnder_last (levelled : Levelled 0 node) (i : Fin 16) : countUnder node [i] = node.counters i := by
  cases node with
  | null => simp [NetworkNode.counters]
  | inner children => exact absurd levelled (by simp [Levelled])
  | leaf counters => simp [countUnder, NetworkNode.counters]

section Counting

theorem levelled_increase (ip : Bytes) (levelled : Levelled levels node) (depth : Nat) :
    Levelled levels (statIncreaseNetworkCount ip levels depth node) := by
  induction levels generalizing node depth with
  | zero => trivial
  | succ levels ih =>
    intro i
    by_cases here : i = loadNibble ip depth
    · rw [here, Function.update_self]
      exact ih (levelled_children levelled _) _
    · rw [Function.update_of_ne here]
      exact levelled_children levelled i

private theorem sum_update {f : Fin 16 → Nat} {k : Fin 16} {value : Nat} (more : value = f k + 1) :
    ∑ i, Function.update f k value i = ∑ i, f i + 1 := by
  rw [Finset.sum_update_of_mem (Finset.mem_univ k), ← Finset.add_sum_erase _ f (Finset.mem_univ k), more,
    Finset.sdiff_singleton_eq_erase]
  omega

theorem total_increase (ip : Bytes) (levelled : Levelled levels node) (depth : Nat) :
    total (statIncreaseNetworkCount ip levels depth node) = total node + 1 := by
  induction levels generalizing node depth with
  | zero => rw [total_counters levelled, statIncreaseNetworkCount, total, sum_update rfl]
  | succ levels ih =>
    rw [total_children levelled, statIncreaseNetworkCount, total]
    have below := ih (levelled_children levelled (loadNibble ip depth)) (depth + statsNetworkNodeBitwidth)
    rw [← sum_update below]
    apply Finset.sum_congr rfl
    intro i _
    by_cases here : i = loadNibble ip depth
    · rw [here, Function.update_self, Function.update_self]
    · rw [Function.update_of_ne here, Function.update_of_ne here]

theorem countUnder_increase (ip : Bytes) (levelled : Levelled levels node) (depth : Nat) (short : path.length ≤ levels + 1) :
    countUnder (statIncreaseNetworkCount ip levels depth node) path =
      countUnder node path + if path <+: addressPath ip levels depth then 1 else 0 := by
  induction levels generalizing node depth path with
  | zero =>
    cases path with
    | nil => simpa [countUnder] using total_increase ip levelled depth
    | cons i path =>
      obtain rfl : path = [] := List.eq_nil_of_length_eq_zero (by simpa using short)
      rw [countUnder_last levelled, countUnder_last (levelled_increase ip levelled depth), statIncreaseNetworkCount, addressPath]
      by_cases here : i = loadNibble ip depth
      · simp [NetworkNode.counters, here]
      · simp [NetworkNode.counters, here, List.cons_prefix_cons]
  | succ levels ih =>
    cases path with
    | nil => simpa [countUnder] using total_increase ip levelled depth
    | cons i path =>
      rw [countUnder_cons levelled, countUnder_cons (levelled_increase ip levelled depth), statIncreaseNetworkCount, addressPath]
      simp only [children_inner, List.cons_prefix_cons]
      by_cases here : i = loadNibble ip depth
      · subst here
        rw [Function.update_self, ih (levelled_children levelled _) _ (by simpa using short)]
        simp
      · rw [Function.update_of_ne here]
        simp [here]

theorem levelled_foldl (addresses : List Bytes) (levelled : Levelled levels node) :
    Levelled levels (addresses.foldl (fun tree ip => statIncreaseNetworkCount ip levels 0 tree) node) := by
  induction addresses generalizing node with
  | nil => exact levelled
  | cons ip addresses ih => exact ih (levelled_increase ip levelled 0)

theorem countUnder_foldl (addresses : List Bytes) {levels : Nat} {node : NetworkNode} (levelled : Levelled levels node)
    {path : List (Fin 16)} (short : path.length ≤ levels + 1) :
    countUnder (addresses.foldl (fun tree ip => statIncreaseNetworkCount ip levels 0 tree) node) path =
      countUnder node path + addresses.countP fun ip => path <+: addressPath ip levels 0 := by
  induction addresses generalizing node with
  | nil => rfl
  | cons ip addresses ih =>
    rw [List.foldl_cons, ih (levelled_increase ip levelled 0), countUnder_increase ip levelled 0 short, List.countP_cons]
    simp only [decide_eq_true_eq]
    omega

end Counting

def networkPath (levels : Nat) (ip : Bytes) : List (Fin 16) := addressPath ip levels 0

def networkCount (levels : Nat) (addresses : List Bytes) (path : List (Fin 16)) : Nat :=
  addresses.countP fun ip => networkPath levels ip = path

theorem path_begins (less : fewer ≤ levels) (length : path.length = fewer + 1)
    (ip : Bytes) : path <+: addressPath ip levels 0 ↔ networkPath fewer ip = path := by
  rw [List.prefix_iff_eq_take, length, take_addressPath ip less, networkPath]
  exact eq_comm

theorem countUnder_tree (wantV6 : Bool) (addresses : List Bytes)
    (less : levels ≤ statsNetworkNodeMaxdepth wantV6 / statsNetworkNodeBitwidth)
    (length : path.length = levels + 1) : countUnder (networkTree wantV6 addresses) path = networkCount levels addresses path := by
  rw [networkTree, countUnder_foldl addresses (by simp [Levelled]) (by omega), countUnder_null, Nat.zero_add, networkCount]
  apply List.countP_congr
  intro ip _
  simp only [decide_eq_true_eq]
  exact path_begins less length ip

theorem total_tree (wantV6 : Bool) (addresses : List Bytes) : total (networkTree wantV6 addresses) = addresses.length := by
  have counted := @countUnder_foldl addresses (statsNetworkNodeMaxdepth wantV6 / statsNetworkNodeBitwidth) .null
    (by simp [Levelled]) [] (Nat.zero_le _)
  simpa [countUnder, total, networkTree] using counted

theorem levelled_tree (wantV6 : Bool) (addresses : List Bytes) :
    Levelled (statsNetworkNodeMaxdepth wantV6 / statsNetworkNodeBitwidth) (networkTree wantV6 addresses) :=
  levelled_foldl addresses (by simp [Levelled])

end BtServer.Proofs.NetworkCounts

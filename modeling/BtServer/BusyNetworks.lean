import BtServer.Lib.Text
import BtServer.Lib.TopList

/-! The counters of networks in `ot_stats.c`: a tree with sixteen children for the next four bits of an
address, and the report of the networks with the highest counts. A node is a union of children and
counters; it holds counters at the depth `STATS_NETWORK_NODE_MAXDEPTH` and children above. -/

namespace BtServer
open Lib

def statsNetworkNodeBitwidth : Nat := 4

def statsNetworkNodeMaxdepth (wantV6 : Bool) : Nat := (if wantV6 then 68 else 28) - statsNetworkNodeBitwidth

def statsNetworkNodeLimit (wantV6 : Bool) : Nat := (if wantV6 then 48 else 24) - statsNetworkNodeBitwidth

/-- `__SHFT`: the high half of a byte comes first. -/
def networkShift (depth : Nat) : Nat := (depth ^^^ statsNetworkNodeBitwidth) &&& statsNetworkNodeBitwidth

/-- `__LDR`. -/
def loadNibble (address : Bytes) (depth : Nat) : Fin 16 :=
  Fin.ofNat 16 (((address.getD (depth / 8) 0).toNat >>> networkShift depth) &&& 15)

/-- `__STR`. -/
def storeNibble (address : Bytes) (depth : Nat) (value : Fin 16) : Bytes :=
  address.set (depth / 8)
    (((address.getD (depth / 8) 0).toNat &&& (255 - (15 <<< networkShift depth))) ||| (value.val <<< networkShift depth)).toUInt8

/-- `stats_network_node *`. -/
inductive NetworkNode where
  | null
  | inner (children : Fin 16 → NetworkNode)
  | leaf (counters : Fin 16 → Nat)

namespace NetworkNode

def isNull : NetworkNode → Bool
  | null => true
  | _ => false

/-- The node at a pointer, allocated and zeroed if there is none. -/
def children : NetworkNode → Fin 16 → NetworkNode
  | inner children => children
  | _ => fun _ => null

def counters : NetworkNode → Fin 16 → Nat
  | leaf counters => counters
  | _ => fun _ => 0

end NetworkNode

/-- `stat_increase_network_count`, when all allocations succeed. From `depth` there are that many levels to
`STATS_NETWORK_NODE_MAXDEPTH`. -/
def statIncreaseNetworkCount (ip : Bytes) : (levels depth : Nat) → NetworkNode → NetworkNode
  | 0, depth, node =>
    let foo := loadNibble ip depth
    .leaf (Function.update node.counters foo (node.counters foo + 1))
  | levels + 1, depth, node =>
    let foo := loadNibble ip depth
    .inner (Function.update node.children foo
      (statIncreaseNetworkCount ip levels (depth + statsNetworkNodeBitwidth) (node.children foo)))

/-- What the recursion shares: `node_value`, `scores` and `networks`. -/
structure Highscore where
  nodeValue : Bytes
  scores : List Nat
  networks : List Bytes
deriving DecidableEq, Repr

def scoreIndex (scores : List Nat) (nodeScore networkCount : Nat) : (fuel j : Nat) → Nat
  | 0, j => j
  | fuel + 1, j =>
    if j < networkCount ∧ nodeScore > scores.getD j 0 then scoreIndex scores nodeScore networkCount fuel (j + 1) else j

/-- The first `j` entries are replaced by those behind them, and the next one by `value`. -/
def moveDown {α : Type} (entries : List α) (j : Nat) (value : α) : List α :=
  (entries.drop 1).take j ++ value :: entries.drop (j + 1)

def insertScore (networkCount depth : Nat) (i : Fin 16) (nodeScore : Nat) (high : Highscore) : Highscore :=
  if nodeScore ≤ high.scores.getD 0 0 then high
  else
    let nodeValue := storeNibble high.nodeValue depth i
    let j := scoreIndex high.scores nodeScore networkCount networkCount 1 - 1
    ⟨nodeValue, moveDown high.scores j nodeScore, moveDown high.networks j nodeValue⟩

def statsGetHighscoreNetworks (networkCount limit : Nat) : NetworkNode → (depth : Nat) → Highscore → Nat × Highscore
  | .null, _, high => (0, high)
  | .inner children, depth, high =>
    if depth < limit then
      (List.finRange 16).foldl (fun state i =>
        if (children i).isNull then state
        else
          let below := statsGetHighscoreNetworks networkCount limit (children i) (depth + statsNetworkNodeBitwidth)
            { state.2 with nodeValue := storeNibble state.2.nodeValue depth i }
          (state.1 + below.1, below.2)) (0, high)
    else if depth > limit then
      (List.finRange 16).foldl (fun state i =>
        if (children i).isNull then state
        else
          let below := statsGetHighscoreNetworks networkCount limit (children i) (depth + statsNetworkNodeBitwidth) state.2
          (state.1 + below.1, below.2)) (0, high)
    else
      (List.finRange 16).foldl (fun state i =>
        let below := statsGetHighscoreNetworks networkCount limit (children i) (depth + statsNetworkNodeBitwidth) state.2
        (state.1 + below.1, insertScore networkCount depth i below.1 below.2)) (0, high)
  | .leaf counters, depth, high =>
    if depth > limit then ((List.finRange 16).foldl (fun score i => score + counters i) 0, high)
    else
      (List.finRange 16).foldl (fun state i =>
        (state.1 + counters i, insertScore networkCount depth i (counters i) state.2)) (0, high)

def networkTree (wantV6 : Bool) (addresses : List Bytes) : NetworkNode :=
  addresses.foldl (fun tree ip =>
    statIncreaseNetworkCount ip (statsNetworkNodeMaxdepth wantV6 / statsNetworkNodeBitwidth) 0 tree) .null

/-- The zeroed arrays that `stats_return_busy_networks` starts with. -/
def Highscore.zeroed (amount : Nat) : Highscore :=
  ⟨List.replicate 16 0, List.replicate amount 0, List.replicate amount (List.replicate 16 0)⟩

end BtServer

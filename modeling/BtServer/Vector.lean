import BtServer.Peer

/-! The vector of `ot_vector.c`. A vector is the list of its members with the
number of members its block has space for; `size` is the length of the list. -/

namespace BtServer
open Lib

/-- The outcomes of the allocations a call is going to make, in order. When the
list has run out they succeed. -/
abbrev Heap := List Bool

def allocate : Heap → Bool × Heap
  | [] => (true, [])
  | outcome :: rest => (outcome, rest)

def otVectorMinMembers : Nat := 2
def otVectorGrowRatio : Nat := 2
def otVectorShrinkThresh : Nat := 4
def otVectorShrinkRatio : Nat := 2

structure OtVector (α : Type) where
  data : List α
  space : Nat
deriving DecidableEq, Repr

namespace OtVector
variable {α : Type}

def empty : OtVector α := ⟨[], 0⟩

def size (vector : OtVector α) : Nat := vector.data.length

end OtVector

section Search
variable {α : Type}

/-- The loop of `binary_search`: the position of `base` and the interval when the
loop is left. The interval shrinks in every turn, so its length is fuel enough. -/
def bisect (compare : Nat → Int) : (fuel base interval : Nat) → Nat × Nat
  | 0, base, interval => (base, interval)
  | fuel + 1, base, interval =>
    if interval = 0 then (base, 0)
    else
      let lookat := base + interval / 2
      if compare lookat = 0 then (lookat, interval)
      else if compare lookat < 0 then bisect compare fuel (lookat + 1) ((interval - 1) / 2)
      else bisect compare fuel base (interval / 2)

/-- `binary_search` on the compared bytes of each member: the position it points
to and `exactmatch`. The interval is a `size_t`, `exactmatch` an `int`. -/
def binarySearch (key : Bytes) (bytes : α → Bytes) (members : List α) : Nat × Int :=
  let compare := fun i => match members[i]? with
    | some member => memcmp (bytes member) key
    | none => 0
  let (base, interval) := bisect compare members.length 0 members.length
  (base, toInt32 interval)

/-- `vector_find_or_insert`: the vector, the position of the match in it and
`exactmatch`, or `none` for a null pointer. Nobody reads a new slot before its
caller has filled it; until then it holds `record`. -/
def vectorFindOrInsert (heap : Heap) (vector : OtVector α) (record : α) (bytes : α → Bytes) :
    Heap × Option (OtVector α × Nat × Int) :=
  let (position, exactmatch) := binarySearch (bytes record) bytes vector.data
  let opened := vector.data.take position ++ record :: vector.data.drop position
  if exactmatch ≠ 0 then (heap, some (vector, position, exactmatch))
  else if vector.size + 1 > vector.space then
    let newSpace := if vector.space ≠ 0 then otVectorGrowRatio * vector.space else otVectorMinMembers
    match allocate heap with
    | (false, heap) => (heap, none)
    | (true, heap) => (heap, some (⟨opened, newSpace⟩, position, exactmatch))
  else (heap, some (⟨opened, vector.space⟩, position, exactmatch))

/-- `vector_remove_torrent`: at most one shrinking step. -/
def vectorRemoveTorrent (vector : OtVector α) (position : Nat) : OtVector α :=
  if vector.size = 0 then vector
  else
    let data := vector.data.eraseIdx position
    let size := vector.size - 1
    if size * otVectorShrinkThresh < vector.space ∧ vector.space ≥ otVectorShrinkRatio * otVectorMinMembers then
      ⟨data, vector.space / otVectorShrinkRatio⟩
    else ⟨data, vector.space⟩

end Search

def shrinkSpace (size : Nat) : (fuel space : Nat) → Nat
  | 0, space => space
  | fuel + 1, space =>
    if size * otVectorShrinkThresh < space ∧ space ≥ otVectorShrinkRatio * otVectorMinMembers then
      shrinkSpace size fuel (space / otVectorShrinkRatio)
    else space

def vectorFixupPeers (vector : OtVector Peer) : OtVector Peer :=
  if vector.size = 0 then .empty
  else ⟨vector.data, shrinkSpace vector.size vector.space vector.space⟩

end BtServer

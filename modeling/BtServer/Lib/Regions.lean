import BtServer.Lib.Memory

/-! A fresh block of memory that is filled through several pointers. A cell is written once: a second
write to it stops the computation like one outside of the block. A region that is filled from its
front is the bytes written so far and cells that are still empty. -/

namespace BtServer.Lib

/-- A cell was written for the second time. -/
inductive Overlap where
  | overlap
deriving DecidableEq, Repr

/-- A copy of `bytes` to the cells from `index` on. -/
def fill (memory : List (Option UInt8)) (index : Nat) (bytes : Bytes) : Access Overlap (List (Option UInt8)) :=
  if index + bytes.length ≤ memory.length then
    if ((memory.drop index).take bytes.length).all Option.isNone then .ok (overwrite memory index (bytes.map some))
    else raise .overlap
  else .error .outside

/-- A region of `size` cells whose front has been written. -/
def region (size : Nat) (bytes : Bytes) : List (Option UInt8) :=
  bytes.map some ++ List.replicate (size - bytes.length) none

theorem length_region {size : Nat} {bytes : Bytes} (fits : bytes.length ≤ size) : (region size bytes).length = size := by
  simp only [region, List.length_append, List.length_map, List.length_replicate]
  omega

theorem region_full {size : Nat} {bytes : Bytes} (full : bytes.length = size) : region size bytes = bytes.map some := by
  simp [region, full]

/-- A copy to the pointer of a region extends what was written there and leaves all else alone. -/
theorem fill_region {size : Nat} {bytes data : Bytes} (fits : bytes.length + data.length ≤ size)
    (before after : List (Option UInt8)) {index : Nat} (here : index = before.length + bytes.length) :
    fill (before ++ region size bytes ++ after) index data = .ok (before ++ region size (bytes ++ data) ++ after) := by
  obtain ⟨spare, rfl⟩ : ∃ spare, size = bytes.length + data.length + spare := ⟨size - (bytes.length + data.length), by omega⟩
  have cells : before ++ region (bytes.length + data.length + spare) bytes ++ after =
      (before ++ bytes.map some) ++ (List.replicate data.length none ++ (List.replicate spare none ++ after)) := by
    rw [region, show bytes.length + data.length + spare - bytes.length = data.length + spare by omega,
      List.replicate_add]
    simp only [List.append_assoc]
  have front : (before ++ bytes.map some).length = index := by simp [here]
  have empty : ((before ++ region (bytes.length + data.length + spare) bytes ++ after).drop index).take data.length =
      List.replicate data.length none := by
    rw [cells, ← front, List.drop_left, List.take_left' (by simp)]
  have inside : index + data.length ≤ (before ++ region (bytes.length + data.length + spare) bytes ++ after).length := by
    rw [cells]
    simp only [List.length_append, List.length_map, List.length_replicate, here]
    omega
  have rest : (before ++ region (bytes.length + data.length + spare) bytes ++ after).drop (index + data.length) =
      List.replicate spare none ++ after := by
    rw [cells, ← List.append_assoc, List.drop_left' (by simp [here, Nat.add_assoc])]
  have written : overwrite (before ++ region (bytes.length + data.length + spare) bytes ++ after) index (data.map some) =
      before ++ region (bytes.length + data.length + spare) (bytes ++ data) ++ after := by
    rw [overwrite, List.length_map, rest, cells, List.take_left' front, region, List.length_append, Nat.add_sub_cancel_left,
      List.map_append]
    simp only [List.append_assoc]
  rw [fill, if_pos inside, empty, if_pos (by simp), written]

end BtServer.Lib

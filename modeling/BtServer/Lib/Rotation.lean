import Mathlib.Tactic
import Mathlib.Data.Nat.ModEq

/-! Walking round a list that is kept in pieces: where a piece begins, how a position
moves on from one piece to the next, and that positions in a window no longer than the
list are different places of it. -/

namespace BtServer.Lib

variable {α : Type}

/-- The position at which the piece with index `i` begins. -/
def beginning (pieces : List (List α)) (i : Nat) : Nat := (pieces.take i).flatten.length

@[simp] theorem beginning_zero (pieces : List (List α)) : beginning pieces 0 = 0 := rfl

theorem beginning_succ {pieces : List (List α)} {i : Nat} {piece : List α} (here : pieces[i]? = some piece) :
    beginning pieces (i + 1) = beginning pieces i + piece.length := by
  rw [beginning, beginning, List.take_add_one, here]
  simp

theorem beginning_length (pieces : List (List α)) : beginning pieces pieces.length = pieces.flatten.length := by
  rw [beginning, List.take_length]

theorem flatten_at {pieces : List (List α)} {i offset : Nat} {piece : List α} (here : pieces[i]? = some piece)
    (inside : offset < piece.length) : pieces.flatten[beginning pieces i + offset]? = piece[offset]? := by
  obtain ⟨bound, rfl⟩ := List.getElem?_eq_some_iff.mp here
  have parts : pieces.flatten = (pieces.take i).flatten ++ (pieces[i] ++ (pieces.drop (i + 1)).flatten) := by
    rw [← List.flatten_cons, ← List.drop_eq_getElem_cons bound, ← List.flatten_append, List.take_append_drop]
  rw [parts, beginning, List.getElem?_append_right (Nat.le_add_right _ _), Nat.add_sub_cancel_left,
    List.getElem?_append_left inside]

/-- Leaving a piece at its end for the one after it, or for the first one after the last. -/
theorem beginning_turn {pieces : List (List α)} {i offset : Nat} {piece : List α} (here : pieces[i]? = some piece)
    (beyond : piece.length ≤ offset) :
    beginning pieces ((i + 1) % pieces.length) + (offset - piece.length) ≡ beginning pieces i + offset
      [MOD pieces.flatten.length] := by
  have bound : i < pieces.length := (List.getElem?_eq_some_iff.mp here).1
  have next := beginning_succ here
  by_cases last : i + 1 = pieces.length
  · rw [last, beginning_length] at next
    rw [last, Nat.mod_self, beginning_zero]
    have total : beginning pieces i + offset = 0 + (offset - piece.length) + pieces.flatten.length := by omega
    rw [total]
    exact (Nat.add_modEq_right ..).symm
  · rw [Nat.mod_eq_of_lt (by omega), next]
    have same : beginning pieces i + piece.length + (offset - piece.length) = beginning pieces i + offset := by omega
    rw [same]

/-- Rising positions within a window no longer than the list fall on different places. -/
theorem rising_distinct {positions : List Nat} {n first : Nat} (rising : positions.Pairwise (· < ·))
    (window : ∀ position ∈ positions, first < position ∧ position ≤ first + n) :
    (positions.map (· % n)).Nodup := by
  refine List.pairwise_map.mpr (rising.imp_of_mem ?_)
  intro p q inP inQ less same
  obtain ⟨low, -⟩ := window p inP
  obtain ⟨-, high⟩ := window q inQ
  have divides : n ∣ q - p := (Nat.modEq_iff_dvd' (le_of_lt less)).mp same
  have := Nat.le_of_dvd (by omega) divides
  omega

end BtServer.Lib

import Mathlib.Tactic

/-! Streams of frames: a header of a fixed length, from which the length of the body
that follows it is read. What is parsed does not depend on where the stream is cut. -/

namespace BtServer.Lib

variable {β : Type}

structure Framing (β : Type) where
  headLen : Nat
  bodyLen : List β → Nat
  positive : 0 < headLen

namespace Framing

/-- The first frame of a stream and what follows it, when the whole frame is there. -/
def next (framing : Framing β) (stream : List β) : Option ((List β × List β) × List β) :=
  let head := stream.take framing.headLen
  let rest := stream.drop framing.headLen
  if framing.headLen ≤ stream.length ∧ framing.bodyLen head ≤ rest.length then
    some ((head, rest.take (framing.bodyLen head)), rest.drop (framing.bodyLen head))
  else none

def parseWith (framing : Framing β) : Nat → List β → List (List β × List β) × List β
  | 0, stream => ([], stream)
  | fuel + 1, stream =>
    match framing.next stream with
    | none => ([], stream)
    | some (frame, rest) =>
      let (frames, left) := framing.parseWith fuel rest
      (frame :: frames, left)

/-- All whole frames of a stream, and the beginning of the next one. -/
def parse (framing : Framing β) (stream : List β) : List (List β × List β) × List β :=
  framing.parseWith stream.length stream

variable {framing : Framing β} {stream rest : List β} {frame : List β × List β}

theorem next_eq_some : framing.next stream = some (frame, rest) ↔ stream = frame.1 ++ frame.2 ++ rest ∧
      frame.1.length = framing.headLen ∧ frame.2.length = framing.bodyLen frame.1 := by
  obtain ⟨head, body⟩ := frame
  constructor
  · intro found
    simp only [next] at found
    split at found
    next enough =>
      simp only [Option.some.injEq, Prod.mk.injEq] at found
      obtain ⟨⟨rfl, rfl⟩, rfl⟩ := found
      refine ⟨by simp, by simp [enough.1], ?_⟩
      simpa using enough.2
    next => cases found
  · intro ⟨whole, headLength, bodyLength⟩
    simp only at whole headLength bodyLength
    have head_eq : stream.take framing.headLen = head := by simp [whole, ← headLength]
    have rest_eq : stream.drop framing.headLen = body ++ rest := by simp [whole, ← headLength]
    have enough : framing.headLen ≤ stream.length := by
      simp only [whole, List.length_append]
      omega
    simp [next, head_eq, rest_eq, enough, ← bodyLength]

theorem next_shorter (found : framing.next stream = some (frame, rest)) : rest.length < stream.length := by
  obtain ⟨whole, headLength, _⟩ := next_eq_some.mp found
  have positive := framing.positive
  simp only [whole, List.length_append]
  omega

theorem next_append (found : framing.next stream = some (frame, rest)) (more : List β) :
    framing.next (stream ++ more) = some (frame, rest ++ more) := by
  obtain ⟨whole, lengths⟩ := next_eq_some.mp found
  exact next_eq_some.mpr ⟨by simp [whole], lengths⟩

@[simp] theorem next_nil : framing.next [] = none := by
  have positive := framing.positive
  simp only [next, List.length_nil]
  split <;> first | rfl | omega

theorem parseWith_enough {fuel other : Nat} (enough : stream.length ≤ fuel) (also : stream.length ≤ other) :
    framing.parseWith fuel stream = framing.parseWith other stream := by
  induction fuel generalizing stream other with
  | zero =>
    have empty := List.eq_nil_of_length_eq_zero (Nat.le_zero.mp enough)
    cases other <;> simp [empty, parseWith]
  | succ fuel ih =>
    cases other with
    | zero =>
      have empty := List.eq_nil_of_length_eq_zero (Nat.le_zero.mp also)
      simp [empty, parseWith]
    | succ other =>
      simp only [parseWith]
      cases found : framing.next stream with
      | none => rfl
      | some pair =>
        obtain ⟨frame, rest⟩ := pair
        have shorter := next_shorter found
        have same : framing.parseWith fuel rest = framing.parseWith other rest := ih (by omega) (by omega)
        simp only [same]

theorem parse_of_none (waits : framing.next stream = none) : framing.parse stream = ([], stream) := by
  unfold parse
  cases stream.length <;> simp [parseWith, waits]

theorem parse_of_some (found : framing.next stream = some (frame, rest)) :
    framing.parse stream = (frame :: (framing.parse rest).1, (framing.parse rest).2) := by
  have shorter := next_shorter found
  obtain ⟨fuel, size⟩ := Nat.exists_eq_add_of_lt shorter
  have same : framing.parseWith (rest.length + fuel) rest = framing.parse rest :=
    parseWith_enough (by omega) (by omega)
  simp only [parse, size, parseWith, found, same]

/-- A stream can be parsed in pieces: what the first piece leaves over begins the
second one. -/
theorem parse_append (stream more : List β) :
    framing.parse (stream ++ more) = ((framing.parse stream).1 ++ (framing.parse ((framing.parse stream).2 ++ more)).1,
      (framing.parse ((framing.parse stream).2 ++ more)).2) := by
  induction size : stream.length using Nat.strong_induction_on generalizing stream with
  | _ length ih =>
    cases found : framing.next stream with
    | none => simp [parse_of_none found]
    | some pair =>
      obtain ⟨frame, rest⟩ := pair
      have later := ih rest.length (size ▸ next_shorter found) rest rfl
      simp only [parse_of_some found, parse_of_some (next_append found more), later, List.cons_append]

/-- No byte is lost or read twice. -/
theorem parse_bytes (stream : List β) :
    ((framing.parse stream).1.flatMap fun frame => frame.1 ++ frame.2) ++ (framing.parse stream).2 = stream := by
  induction size : stream.length using Nat.strong_induction_on generalizing stream with
  | _ length ih =>
    cases found : framing.next stream with
    | none => simp [parse_of_none found]
    | some pair =>
      obtain ⟨frame, rest⟩ := pair
      have later := ih rest.length (size ▸ next_shorter found) rest rfl
      have whole := (next_eq_some.mp found).1
      simp only [parse_of_some found, List.flatMap_cons, List.append_assoc, later]
      simpa using whole.symm

theorem parse_head (short : stream.length < framing.headLen) : framing.parse stream = ([], stream) :=
  parse_of_none (by simp only [next]; split <;> first | rfl | omega)

variable {head body : List β}

theorem parse_body (complete : head.length = framing.headLen) (short : body.length < framing.bodyLen head) :
    framing.parse (head ++ body) = ([], head ++ body) := by
  apply parse_of_none
  simp only [next, ← complete, List.take_left, List.drop_left]
  split <;> first | rfl | omega

theorem parse_frame (complete : head.length = framing.headLen) (whole : body.length = framing.bodyLen head) :
    framing.parse (head ++ body) = ([(head, body)], []) := by
  have found : framing.next (head ++ body) = some ((head, body), []) := next_eq_some.mpr ⟨by simp, complete, whole⟩
  simp [parse_of_some found, parse_of_none next_nil]

end Framing

end BtServer.Lib

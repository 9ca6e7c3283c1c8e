import BtServer.Proofs.ControlFraming

/-! A control client whose connection has ended. Every `recv` that fails and the end of
the stream in a header release the client; the end of the stream in a body does not. -/

namespace BtServer.Proofs.ClientRelease
open Lib ClientService ControlSlots ControlFraming

def bodyAnswers (cli : Client) (service : Service) : List Recv :=
  if cli.hasReadHead then if cli.pos < cli.dataSize then [service.body] else []
  else
    match (cli.readHead service.head service.allocated).1 with
    | .go next => if next.pos < next.dataSize then [service.body] else []
    | _ => []

def answers (cli : Client) (service : Service) : List Recv :=
  (if cli.hasReadHead then [] else [service.head]) ++ bodyAnswers cli service

def Ended (recv : Recv) : Prop := recv = .eof ∨ recv = .failed

structure Released (before : Loop) (slot : Nat) (cli : Client) (after : Loop) : Prop where
  unwatched : after.allset = before.allset.erase cli.fd
  emptied : after.clients = before.clients.set slot none
  counted : after.totalConnections = before.totalConnections - 1
  closed : cli.fd ≠ 0 → cli.fd ∉ after.opened
  silent : (after.journal cli.connection).handed = (before.journal cli.connection).handed

variable {cli : Client} {service : Service}

theorem serveBody_ended (ended : Ended service.body) (more : cli.pos < cli.dataSize) :
    cli.serveBody service = ⟨if service.body = .eof then .go cli else .close, [], [], []⟩ := by
  have waits : ¬ (cli.pos : Int) = cli.dataSize ∧ ¬ (cli.pos : Int) > cli.dataSize := by omega
  rcases ended with eof | failed
  · simp only [Client.serveBody, Client.readBody, if_pos more, eof, if_true, Client.finish, if_neg waits.1, if_neg waits.2]
  · simp only [Client.serveBody, Client.readBody, if_pos more, failed, reduceCtorEq, if_false]

theorem readHead_ended (ended : Ended service.head) : cli.readHead service.head service.allocated = (.close, []) := by
  rcases ended with eof | failed
  · simp only [Client.readHead, eof]
  · simp only [Client.readHead, failed]

/-- A visit in which `recv` has found the end closes the client, unless it was the `recv`
for the body that has returned zero. -/
theorem serve_ended (ended : ∃ recv ∈ answers cli service, Ended recv) : (cli.serve service).handed = [] ∧
      if .eof ∈ bodyAnswers cli service then ∃ next, (cli.serve service).pass = .go next
      else (cli.serve service).pass = .close := by
  obtain ⟨recv, answered, final⟩ := ended
  -- The outcome when the `recv` for the body was the last one, whoever has read the header.
  have inBody : ∀ reader : Client, recv ∈ (if reader.pos < reader.dataSize then [service.body] else []) →
      (reader.serveBody service).handed = [] ∧
        if .eof ∈ (if reader.pos < reader.dataSize then [service.body] else []) then
          ∃ next, (reader.serveBody service).pass = .go next
        else (reader.serveBody service).pass = .close := by
    intro reader member
    split at member
    next more =>
      obtain rfl := List.mem_singleton.mp member
      rw [serveBody_ended final more, if_pos more]
      simp only [List.mem_singleton, true_and, eq_comm (a := Recv.eof)]
      split
      · exact ⟨reader, rfl⟩
      · rfl
    next => cases member
  unfold answers at answered
  unfold bodyAnswers at answered ⊢
  unfold Client.serve
  cases phase : cli.hasReadHead with
  | true =>
    simp only [phase, if_true, List.nil_append] at answered ⊢
    exact inBody cli answered
  | false =>
    simp only [phase, Bool.false_eq_true, if_false, List.singleton_append, List.mem_cons] at answered ⊢
    rcases answered with rfl | answered
    · simp only [readHead_ended final, List.not_mem_nil, if_false, and_self]
    · cases result : cli.readHead service.head service.allocated with
      | mk pass taken =>
        rw [result] at answered
        cases pass with
        | close | wait => cases answered
        | go next => exact inBody next answered

/-- When `recv` finds the end of a connection, the client is released in this visit if and
only if it is not the `recv` for the body that has returned zero. -/
theorem ended_released_iff (loop : Loop) (slot : Nat) (ended : ∃ recv ∈ answers cli service, Ended recv) :
    Released loop slot cli (loop.serveClient slot cli service).1 ↔ .eof ∉ bodyAnswers cli service := by
  obtain ⟨silent, outcome⟩ := serve_ended ended
  by_cases eof : .eof ∈ bodyAnswers cli service
  · rw [if_pos eof] at outcome
    obtain ⟨next, stays⟩ := outcome
    simp only [Loop.serveClient, stays, eof, not_true_eq_false, iff_false]
    intro released
    have counted : loop.totalConnections = loop.totalConnections - 1 := released.counted
    omega
  · rw [if_neg eof] at outcome
    simp only [Loop.serveClient, outcome, eof, not_false_eq_true, iff_true]
    refine ⟨rfl, rfl, rfl, fun some => ?_, ?_⟩
    · simp [Loop.dropClient, Loop.closeFd, some]
    · simp [Loop.dropClient, Loop.closeFd, Loop.record, silent]

theorem ended_released_header : ((Loop.initial 3 4).turn (connecting 5)).clients.head? = some (some (.new 0 5)) ∧
    Released ((Loop.initial 3 4).turn (connecting 5)) 0 (.new 0 5) (((Loop.initial 3 4).turn (connecting 5)).serveClient 0
      (.new 0 5) ⟨.eof, true, .again, ⟨false, false, false, 0, 0⟩, []⟩).1 :=
  ⟨rfl, (ended_released_iff _ _ ⟨.eof, by decide, .inl rfl⟩).mpr (by decide)⟩

def brokenOff : List Turn :=
  [connecting 5,
    reading (.data 1 [0, 0, 0, 0, 0, 0, 0, 0, 0, 0, 0, 2, 0, 0, 0, 1, 0, 0, 1, 0, 0, 0, 0]) (.data 65 []),
    reading .again .eof]

/-- The client stays in its slot, and `select` will report its descriptor again at once. -/
theorem end_in_body_kept : Run Loop.Step free (.initial 3 4) brokenOff (brokenOff.foldl Loop.turn (.initial 3 4)) ∧
      (brokenOff.foldl Loop.turn (.initial 3 4)).clients.head? =
        some (some ⟨0, 5, [1, 0, 0, 0, 0, 0, 0, 0, 0, 0, 0, 0, 2, 0, 0, 0, 1, 0, 0, 1, 0, 0, 0, 0], none, 0, true,
          some [65, 0], 1, 2⟩) ∧
      5 ∈ (brokenOff.foldl Loop.turn (.initial 3 4)).allset ∧
      (brokenOff.foldl Loop.turn (.initial 3 4)).totalConnections = 1 := by
  exact ⟨run_turns (by decide), by decide, by decide, by decide⟩

end BtServer.Proofs.ClientRelease

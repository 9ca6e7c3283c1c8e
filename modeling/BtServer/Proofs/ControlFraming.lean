import BtServer.Proofs.ControlSlots

/-! However `recv` cuts the stream of a client into pieces, the requests given to
`process_msg` are the frames of the stream. -/

namespace BtServer.Proofs.ControlFraming
open Lib ClientService ControlSlots

variable {loop before after : Loop} {cli : Client} {slot i : Nat}

def Parsed (loop : Loop) (cli : Client) : Prop :=
  packetFraming.parse (loop.journal cli.connection).received =
    ((loop.journal cli.connection).handed, buffered cli)

/-- Every client in a slot has a connection of its own, and is in step with it. -/
structure Framed (loop : Loop) : Prop where
  parsed : ∀ slot cli, Holds loop slot cli → Reads cli ∧ Parsed loop cli
  numbered : ∀ slot cli, Holds loop slot cli → cli.connection < loop.accepted
  distinct : ∀ slot other first second, Holds loop slot first → Holds loop other second →
    first.connection = second.connection → slot = other
  unused : ∀ connection, loop.accepted ≤ connection → loop.journal connection = ⟨[], [], []⟩
  tokenless : ∀ slot cli, Holds loop slot cli → cli.token = none

private theorem holds_addClient {connfd : Int} (held : Holds (loop.addClient connfd) slot cli) :
    slot = 0 ∧ cli = .new loop.accepted connfd ∨ Holds loop slot cli := by
  simp only [Holds, Loop.addClient] at held ⊢
  cases slots : loop.clients with
  | nil => simp [slots, Loop.storeClient] at held
  | cons first rest =>
    cases first with
    | some other => exact .inr (by simpa [slots, Loop.storeClient] using held)
    | none =>
      cases slot with
      | zero => exact .inl ⟨rfl, by simpa [slots, Loop.storeClient, eq_comm] using held⟩
      | succ slot => exact .inr (by simpa [slots, Loop.storeClient] using held)

private theorem Framed.add (framed : Framed loop) (connfd : Int) : Framed (loop.addClient connfd) := by
  refine ⟨fun slot cli held => ?_, fun slot cli held => ?_, fun slot other first second left right same => ?_,
    fun connection later => framed.unused connection (Nat.le_of_succ_le later), fun slot cli held => ?_⟩
  · rcases holds_addClient held with ⟨_, rfl⟩ | old
    · refine ⟨.inl ⟨rfl, by simp [Client.new], by simp [Client.new, packetLen]⟩, ?_⟩
      have silent : (loop.addClient connfd).journal loop.accepted = ⟨[], [], []⟩ := framed.unused _ (le_refl _)
      simp only [Parsed, Client.new, silent]
      exact Framing.parse_of_none Framing.next_nil
    · exact framed.parsed slot cli old
  · rcases holds_addClient held with ⟨_, rfl⟩ | old
    · exact Nat.lt_succ_self _
    · exact Nat.lt_succ_of_lt (framed.numbered slot cli old)
  · rcases holds_addClient left with ⟨rfl, rfl⟩ | before <;> rcases holds_addClient right with ⟨rfl, rfl⟩ | too
    · rfl
    · exact absurd same (Nat.ne_of_gt (framed.numbered other second too))
    · exact absurd same (Nat.ne_of_lt (framed.numbered slot first before))
    · exact framed.distinct slot other first second before too same
  · rcases holds_addClient held with ⟨_, rfl⟩ | old
    · rfl
    · exact framed.tokenless slot cli old

private theorem Framed.keep (framed : Framed before) (slots : after.clients = before.clients)
    (accepted : after.accepted = before.accepted) (journal : after.journal = before.journal) : Framed after where
  parsed := by simpa only [Holds, Parsed, slots, journal] using framed.parsed
  numbered := by simpa only [Holds, slots, accepted] using framed.numbered
  distinct := by simpa only [Holds, slots] using framed.distinct
  unused := by simpa only [journal, accepted] using framed.unused
  tokenless := by simpa only [Holds, slots] using framed.tokenless

private theorem holds_serveClient (held : Holds loop i cli) {service : Service}
    {other : Client} (holds : Holds (loop.serveClient i cli service).1 slot other) :
    slot = i ∧ kept (cli.serve service).pass = some other ∨ slot ≠ i ∧ Holds loop slot other := by
  have inside : i < loop.clients.length := (List.getElem?_eq_some_iff.mp held).1
  simp only [Loop.serveClient] at holds
  split at holds
  next next pass => simpa [pass, kept, Holds] using (get_set inside (some next) slot other).mp holds
  next next pass => simpa [pass, kept, Holds] using (get_set inside (some next) slot other).mp holds
  next pass => simpa [pass, kept, Holds] using (get_set inside none slot other).mp holds

private structure Recorded (before after : Loop) (connection : Nat) (visit : Visit) : Prop where
  own : after.journal connection = ⟨(before.journal connection).received ++ visit.taken,
    (before.journal connection).handed ++ visit.handed, (before.journal connection).written ++ visit.written⟩
  others : ∀ other, other ≠ connection → after.journal other = before.journal other
  accepted : after.accepted = before.accepted

private theorem serveClient_recorded (loop : Loop) (i : Nat) (cli : Client) (service : Service) :
    Recorded loop (loop.serveClient i cli service).1 cli.connection (cli.serve service) := by
  simp only [Loop.serveClient]
  split <;> exact ⟨Function.update_self .., fun _ apart => Function.update_of_ne apart .., rfl⟩

private theorem Framed.serve (framed : Framed loop) (held : Holds loop i cli)
    (service : Service) : Framed (loop.serveClient i cli service).1 := by
  obtain ⟨own, others, accepted⟩ := serveClient_recorded loop i cli service
  have number := framed.numbered i cli held
  have old : ∀ slot other, Holds (loop.serveClient i cli service).1 slot other →
      ∃ before, Holds loop slot before ∧ Same before other := by
    intro slot other holds
    rcases holds_serveClient held holds with ⟨rfl, stays⟩ | ⟨_, was⟩
    · exact ⟨cli, held, serve_same stays⟩
    · exact ⟨other, was, .refl other⟩
  refine ⟨fun slot other holds => ?_, fun slot other holds => ?_, fun slot other first second left right equal => ?_,
    fun connection later => ?_, fun slot other holds => ?_⟩
  · rcases holds_serveClient held holds with ⟨rfl, stays⟩ | ⟨elsewhere, was⟩
    · obtain ⟨reads, parsed⟩ := serve_continues (framed.parsed slot cli held).1 service other stays
      have before := (framed.parsed slot cli held).2
      refine ⟨reads, ?_⟩
      unfold Parsed at before ⊢
      rw [(serve_same stays).connection, own, Framing.parse_append, before, parsed]
    · have apart : other.connection ≠ cli.connection := fun same =>
        elsewhere (framed.distinct slot i other cli was held same)
      have before := framed.parsed slot other was
      refine ⟨before.1, ?_⟩
      unfold Parsed
      rw [others _ apart]
      exact before.2
  · obtain ⟨before, was, same⟩ := old slot other holds
    rw [accepted, same.connection]
    exact framed.numbered slot before was
  · obtain ⟨_, wasFirst, sameFirst⟩ := old slot first left
    obtain ⟨_, wasSecond, sameSecond⟩ := old other second right
    exact framed.distinct slot other _ _ wasFirst wasSecond
      (sameFirst.connection.symm.trans (equal.trans sameSecond.connection))
  · rw [accepted] at later
    rw [others _ (Nat.ne_of_gt (Nat.lt_of_lt_of_le number later))]
    exact framed.unused connection later
  · obtain ⟨before, was, same⟩ := old slot other holds
    exact same.token.trans (framed.tokenless slot before was)

theorem step_framed {turn : Turn} (framed : Framed before) (step : Loop.Step before turn after) :
    Framed after := by
  obtain ⟨_, rfl⟩ := step
  refine turn_preserves framed (framed.keep rfl rfl rfl) ?_ fun _ _ _ service framed held => framed.serve held service
  cases turn.accept with
  | failed => exact framed
  | noClient | unprepared => exact framed.keep rfl rfl rfl
  | connected connfd =>
    have opened : Framed { before with opened := insert connfd before.opened } := framed.keep rfl rfl rfl
    exact opened.add connfd

theorem run_framed {listenfd pipefd : Int} {turns : List Turn} {final : Loop}
    (run : Run Loop.Step free (.initial listenfd pipefd) turns final) : Framed final := by
  have empty : ∀ slot cli, ¬ Holds (.initial listenfd pipefd) slot cli := by
    simp [Holds, Loop.initial, List.getElem?_replicate]
  have start : Framed (.initial listenfd pipefd) :=
    ⟨fun slot cli held => absurd held (empty slot cli), fun slot cli held => absurd held (empty slot cli),
      fun slot _ first _ held => absurd held (empty slot first), fun _ _ => rfl,
      fun slot cli held => absurd held (empty slot cli)⟩
  exact run.invariant Framed (fun _ _ _ framed _ step => step_framed framed step) start

/-- For every client in a slot, the requests given to `process_msg` are the frames of
all that its connection has received, parsed at once; the client has the rest in its
buffers, and no byte is lost. -/
theorem frames_independent_of_pieces {listenfd pipefd : Int} {turns : List Turn} {final : Loop}
    (run : Run Loop.Step free (.initial listenfd pipefd) turns final) (slot : Nat) (cli : Client)
    (held : final.clients[slot]? = some (some cli)) :
    packetFraming.parse (final.journal cli.connection).received = ((final.journal cli.connection).handed, buffered cli) ∧
    ((final.journal cli.connection).handed.flatMap fun frame => frame.1 ++ frame.2) ++ buffered cli =
      (final.journal cli.connection).received := by
  have parsed := ((run_framed run).parsed slot cli held).2
  refine ⟨parsed, ?_⟩
  have bytes := packetFraming.parse_bytes (final.journal cli.connection).received
  rwa [parsed] at bytes

def reading (head body : Recv) : Turn where
  select := .ready {5} 1
  pipe := []
  accept := .failed
  serve := fun _ => ⟨head, true, body, ⟨false, false, false, 0, 0⟩, []⟩

def threePieces : List Turn :=
  [connecting 5, reading (.data 1 [0, 0, 0]) .again,
    reading (.data 0 [0, 0, 0, 0, 0, 0, 0, 1, 0, 0, 0, 1, 0, 0, 1, 0, 0, 0, 0]) .again, reading .again (.data 65 [])]

theorem frames_independent_of_three_pieces : ((threePieces.foldl Loop.turn (.initial 3 4)).journal 0).handed =
      [([1, 0, 0, 0, 0, 0, 0, 0, 0, 0, 0, 0, 1, 0, 0, 0, 1, 0, 0, 1, 0, 0, 0, 0], [65])] ∧
    packetFraming.parse ((threePieces.foldl Loop.turn (.initial 3 4)).journal 0).received =
      (((threePieces.foldl Loop.turn (.initial 3 4)).journal 0).handed, []) := by
  have possible : Along Loop.Possible Loop.turn (.initial 3 4) threePieces := by decide
  exact ⟨by decide, (frames_independent_of_pieces (run_turns possible) 0 (.new 0 5) rfl).1⟩

end BtServer.Proofs.ControlFraming

import BtServer.Control

/-! Serving one client of the control server: its buffers always hold the beginning
of the next frame, and a frame is handed over exactly when it is complete. -/

namespace BtServer.Proofs.ClientService
open Lib

variable {cli next : Client} {service : Service}

def packetFraming : Framing UInt8 :=
  ⟨packetLen, fun head => (readPacketSize head + readPacketToken head) % 2 ^ 32, by decide⟩

def buffered (cli : Client) : Bytes :=
  if cli.hasReadHead then cli.packet ++ (cli.dataBuf.getD []).take cli.pos else cli.packet.take cli.pos

structure ReadsHead (cli : Client) : Prop where
  phase : cli.hasReadHead = false
  packet : cli.packet.length = packetLen
  room : cli.pos < packetLen

structure ReadsBody (cli : Client) : Prop where
  phase : cli.hasReadHead = true
  packet : cli.packet.length = packetLen
  buffer : ∃ body, cli.dataBuf = some body ∧ body.length = packetFraming.bodyLen cli.packet ∧
    cli.dataSize = body.length ∧ cli.pos ≤ body.length

def Reads (cli : Client) : Prop := ReadsHead cli ∨ ReadsBody cli ∧ cli.pos < cli.dataSize

structure Same (before after : Client) : Prop where
  connection : after.connection = before.connection
  fd : after.fd = before.fd
  token : after.token = before.token

theorem Same.refl (cli : Client) : Same cli cli := ⟨rfl, rfl, rfl⟩

theorem Same.trans {first middle last : Client} (a : Same first middle) (b : Same middle last) : Same first last :=
  ⟨b.connection.trans a.connection, b.fd.trans a.fd, b.token.trans a.token⟩

/-- What is known of the client when the code goes on, and when it waits. -/
def Leads (going waiting : Client → Prop) : Pass → Prop
  | .go cli => going cli
  | .wait cli => waiting cli
  | .close => True

theorem frameSize_toNat {packet : Bytes} (accepted : 0 ≤ frameSize packet) :
    (frameSize packet).toNat = packetFraming.bodyLen packet := by
  unfold frameSize at accepted ⊢
  simp only [packetFraming]
  have small := Nat.mod_lt (readPacketSize packet + readPacketToken packet) (show 2 ^ 32 > 0 by decide)
  generalize (readPacketSize packet + readPacketToken packet) % 2 ^ 32 = size at small accepted ⊢
  simp only [toInt32_eq_bmod, Int.bmod_def] at accepted ⊢
  split at accepted <;> split <;> omega

theorem parse_buffered (reads : Reads cli) : packetFraming.parse (buffered cli) = ([], buffered cli) := by
  rcases reads with ⟨phase, _, room⟩ | ⟨⟨phase, packet, body, stored, size, whole, _⟩, more⟩
  · apply Framing.parse_head
    simp only [buffered, phase, Bool.false_eq_true, if_false, List.length_take]
    exact Nat.lt_of_le_of_lt (Nat.min_le_left ..) room
  · have short : (body.take cli.pos).length < packetFraming.bodyLen cli.packet := by
      simp only [List.length_take]
      omega
    simpa [buffered, phase, stored] using Framing.parse_body packet short

theorem readHead_leads (reads : ReadsHead cli) (head : Recv) (allocated : Bool) :
    Leads (fun next => ReadsBody next ∧ buffered next = buffered cli ++ (cli.readHead head allocated).2)
      (fun next => ReadsHead next ∧ buffered next = buffered cli ++ (cli.readHead head allocated).2)
      (cli.readHead head allocated).1 := by
  obtain ⟨phase, packet, room⟩ := reads
  cases head with
  | eof => trivial
  | failed => trivial
  | again => exact ⟨⟨phase, packet, room⟩, by simp [Client.readHead]⟩
  | data first more =>
    have bound : ((first :: more).take (packetLen - cli.pos)).length ≤ packetLen - cli.pos := List.length_take_le _ _
    simp only [Client.readHead]
    generalize (first :: more).take (packetLen - cli.pos) = data at bound ⊢
    have filled : (overwrite cli.packet cli.pos data).take (cli.pos + data.length) = cli.packet.take cli.pos ++ data :=
      take_overwrite (by omega)
    have length : (overwrite cli.packet cli.pos data).length = packetLen :=
      (length_overwrite (by omega)).trans packet
    split
    next short => exact ⟨⟨phase, length, by simp only; omega⟩, by simp [buffered, phase, filled]⟩
    next complete =>
      simp only [not_not] at complete
      split
      next accepted =>
        split
        · refine ⟨⟨rfl, length, _, rfl, ?_, ?_, Nat.zero_le _⟩, ?_⟩
          · simp [frameSize_toNat accepted.1]
          · simp [accepted.1]
          · simpa [buffered, phase, complete, ← length] using filled
        · trivial
      next => trivial

theorem readBody_leads (reads : ReadsBody cli) (body : Recv) :
    Leads (fun next => ReadsBody next ∧ buffered next = buffered cli ++ (cli.readBody body).2)
      (fun next => (ReadsBody next ∧ next.pos < next.dataSize) ∧ buffered next = buffered cli ++ (cli.readBody body).2)
      (cli.readBody body).1 := by
  have reading := reads
  obtain ⟨phase, packet, buffer, stored, size, whole, filled⟩ := reads
  unfold Client.readBody
  split
  next more =>
    cases body with
    | failed => trivial
    | again => exact ⟨⟨reading, more⟩, by simp⟩
    | eof => exact ⟨reading, by simp⟩
    | data first rest =>
      have bound : ((first :: rest).take (cli.dataSize - cli.pos).toNat).length ≤ (cli.dataSize - cli.pos).toNat :=
        List.length_take_le _ _
      simp only
      generalize (first :: rest).take (cli.dataSize - cli.pos).toNat = data at bound ⊢
      have room : cli.pos + data.length ≤ buffer.length := by omega
      refine ⟨⟨phase, packet, overwrite buffer cli.pos data, by simp [stored], ?_, ?_, ?_⟩, ?_⟩
      · simpa only [length_overwrite room] using size
      · simpa only [length_overwrite room] using whole
      · simpa only [length_overwrite room] using room
      · simp [buffered, phase, stored, take_overwrite filled]
  next => exact ⟨reading, by simp⟩

inductive Answer : Bytes → Prop where
  | code (code : Int32) : Answer (codeReply code)
  | taskState (info : TaskInfo) : Answer (taskStateReply info)
  | addTask (torrentId : Int64) : Answer (addTaskReply torrentId)

/-- `process_msg` ignores a request, or answers it in one way: over the header of the
request. -/
theorem processMsg_cases (cli : Client) (handling : Handling) (sends : List Send) :
    match BtCmd.ofOrder (readPacketOrder cli.packet) with
    | none => processMsg cli handling sends = (cli, ⟨[], handling.stale, sends⟩)
    | some _ => ∃ text, Answer text ∧ processMsg cli handling sends = sendReply cli text sends := by
  unfold processMsg
  cases BtCmd.ofOrder (readPacketOrder cli.packet) with
  | none => rfl
  | some cmd =>
    have refused : ∃ text, Answer text ∧ sendCode cli (-1) sends = sendReply cli text sends := ⟨_, .code (-1), rfl⟩
    have done : ∃ text, Answer text ∧ sendCode cli 0 sends = sendReply cli text sends := ⟨_, .code 0, rfl⟩
    cases cmd with
    | setTracker =>
      simp only [recvSetTracker]
      split <;> assumption
    | addTask =>
      simp only [recvAddTask]
      split
      · split
        · exact ⟨_, .addTask handling.torrentId, rfl⟩
        · exact refused
      · exact refused
    | delTask =>
      simp only [recvDelTask]
      split
      · split <;> assumption
      · exact refused
    | makeTorrent =>
      simp only [recvMakeTorrent]
      split
      · split <;> assumption
      · exact refused
    | getTaskState =>
      simp only [recvGetTaskState]
      split
      · split
        · exact ⟨_, .taskState .zero, rfl⟩
        · exact refused
      · exact refused

theorem finish_leads (reads : ReadsBody cli) (handling : Handling) (sends : List Send) :
    Leads (fun next => Reads next ∧ packetFraming.parse (buffered cli) = ((cli.finish handling sends).2.1, buffered next))
      (fun _ => False) (cli.finish handling sends).1 := by
  have reading := reads
  obtain ⟨phase, packet, body, stored, size, whole, filled⟩ := reads
  unfold Client.finish
  split
  next complete =>
    dsimp only
    split
    · trivial
    · have all : cli.pos = body.length := by omega
      have rewound : buffered (processMsg cli handling sends).1.rewind = [] := by simp [buffered, Client.rewind]
      refine ⟨.inl ⟨rfl, by simp [Client.rewind], by simp [Client.rewind, packetLen]⟩, ?_⟩
      rw [rewound]
      simpa [buffered, phase, stored, all, Client.frame] using Framing.parse_frame packet size
  next incomplete =>
    split
    · trivial
    · have waits : Reads cli := .inr ⟨reading, by omega⟩
      exact ⟨waits, parse_buffered waits⟩

def kept : Pass → Option Client
  | .go cli | .wait cli => some cli
  | .close => none

/-- A visit that leaves the client in its slot has taken bytes from the stream and
handed over the frames that they complete. -/
def Continues (cli : Client) (visit : Visit) : Prop :=
  ∀ next, kept visit.pass = some next → Reads next ∧
    packetFraming.parse (buffered cli ++ visit.taken) = (visit.handed, buffered next)

private theorem serveBody_continues (reads : ReadsBody cli) (service : Service) :
    Continues cli (cli.serveBody service) := by
  have read := readBody_leads reads service.body
  unfold Client.serveBody
  generalize cli.readBody service.body = result at read ⊢
  obtain ⟨pass, taken⟩ := result
  intro next stays
  cases pass with
  | close => cases stays
  | wait middle =>
    cases stays
    obtain ⟨waits, grown⟩ := read
    exact ⟨.inr waits, grown ▸ parse_buffered (.inr waits)⟩
  | go middle =>
    obtain ⟨reading, grown⟩ := read
    have finished := finish_leads reading service.handling service.sends
    dsimp only at grown stays ⊢
    generalize middle.finish service.handling service.sends = result at finished stays ⊢
    obtain ⟨pass, handed, written⟩ := result
    cases pass with
    | close => cases stays
    | wait later => cases finished
    | go later =>
      cases stays
      exact ⟨finished.1, grown ▸ finished.2⟩

theorem serve_continues (reads : Reads cli) (service : Service) : Continues cli (cli.serve service) := by
  unfold Client.serve
  rcases reads with head | ⟨body, _⟩
  · simp only [head.phase, Bool.false_eq_true, if_false]
    have read := readHead_leads head service.head service.allocated
    generalize cli.readHead service.head service.allocated = result at read ⊢
    obtain ⟨pass, taken⟩ := result
    intro next stays
    cases pass with
    | close => cases stays
    | wait middle =>
      cases stays
      obtain ⟨waits, grown⟩ := read
      exact ⟨.inl waits, grown ▸ parse_buffered (.inl waits)⟩
    | go middle =>
      obtain ⟨reading, grown⟩ := read
      obtain ⟨reads, parsed⟩ := serveBody_continues reading service next stays
      refine ⟨reads, ?_⟩
      dsimp only at grown ⊢
      rw [← parsed, grown, List.append_assoc]
  · simp only [body.phase, if_true]
    exact serveBody_continues body service

theorem processMsg_same (cli : Client) (handling : Handling) (sends : List Send) :
    Same cli (processMsg cli handling sends).1 := by
  have cases := processMsg_cases cli handling sends
  split at cases
  · rw [cases]
    exact .refl cli
  · obtain ⟨text, _, answered⟩ := cases
    rw [answered]
    exact ⟨rfl, rfl, rfl⟩

theorem readHead_same {head : Recv} {allocated : Bool}
    (stays : kept (cli.readHead head allocated).1 = some next) : Same cli next := by
  cases head with
  | eof | failed => cases stays
  | again =>
    cases stays
    exact .refl cli
  | data first more =>
    simp only [Client.readHead] at stays
    split at stays
    · cases stays
      exact ⟨rfl, rfl, rfl⟩
    · split at stays
      · split at stays
        · cases stays
          exact ⟨rfl, rfl, rfl⟩
        · cases stays
      · cases stays

theorem readBody_same {body : Recv} (stays : kept (cli.readBody body).1 = some next) : Same cli next := by
  unfold Client.readBody at stays
  split at stays
  · cases body with
    | failed => cases stays
    | again | eof | data =>
      cases stays
      exact ⟨rfl, rfl, rfl⟩
  · cases stays
    exact .refl cli

private theorem finish_same {handling : Handling} {sends : List Send}
    (stays : kept (cli.finish handling sends).1 = some next) : Same cli next := by
  unfold Client.finish at stays
  split at stays
  · have same := processMsg_same cli handling sends
    dsimp only at stays
    split at stays
    · cases stays
    · cases stays
      exact ⟨same.connection, same.fd, same.token⟩
  · split at stays
    · cases stays
    · cases stays
      exact .refl cli

private theorem serveBody_same
    (stays : kept (cli.serveBody service).pass = some next) : Same cli next := by
  unfold Client.serveBody at stays
  split at stays
  next middle taken read =>
    have same : Same cli middle := readBody_same (congrArg (fun result => kept result.1) read)
    exact same.trans (finish_same stays)
  next read => exact readBody_same ((congrArg (fun result => kept result.1) read).trans stays)

theorem serve_same (stays : kept (cli.serve service).pass = some next) :
    Same cli next := by
  unfold Client.serve at stays
  split at stays
  · exact serveBody_same stays
  · split at stays
    next middle taken read =>
      have same : Same cli middle := readHead_same (congrArg (fun result => kept result.1) read)
      exact same.trans (serveBody_same stays)
    next read => exact readHead_same ((congrArg (fun result => kept result.1) read).trans stays)

end BtServer.Proofs.ClientService

import BtServer.Proofs.ClientService

/-! The length of a frame. The two length fields of a header are added in 32 bits, so a
header is taken by its exact length as long as the sum needs no more of them. -/

namespace BtServer.Proofs.FrameLengths
open Lib ClientService

def exactSize (header : Bytes) : Nat := readPacketSize header + readPacketToken header

def Completes (cli : Client) (head : Recv) (header : Bytes) : Prop :=
  ∃ first more, head = .data first more ∧
    cli.packet.take cli.pos ++ (first :: more).take (packetLen - cli.pos) = header

def BodyStep (before : Client × Bytes) (service : Service) (after : Client × Bytes) : Prop :=
  (before.1.serve service).handed = [] ∧ kept (before.1.serve service).pass = some after.1 ∧
    after.2 = before.2 ++ (before.1.serve service).taken

/-- However the body arrives, no more than `size` bytes are taken for it; it is handed
over in the visit that takes the last of them, and the client is at a header again. -/
def Consumes (header : Bytes) (size : Nat) (start : Client) : Prop :=
  ∀ services cli taken, Run BodyStep free (start, []) services (cli, taken) → ∀ service,
    (taken ++ (cli.serve service).taken).length ≤ size ∧
    (cli.serve service).handed =
      (if (taken ++ (cli.serve service).taken).length = size then [(header, taken ++ (cli.serve service).taken)] else []) ∧
    ((cli.serve service).handed ≠ [] → ∀ next, kept (cli.serve service).pass = some next →
      next.hasReadHead = false ∧ next.pos = 0)

def Accepted (header : Bytes) (cli : Client) (service : Service) : Prop :=
  ∃ next rest, cli.readHead service.head service.allocated = (.go next, rest) ∧ buffered cli ++ rest = header ∧
    Consumes header (exactSize header) next

def Rejected (cli : Client) (service : Service) : Prop :=
  (cli.serve service).pass = .close ∧ (cli.serve service).handed = []

/-- Wherever `recv` has cut the header, and with memory for the body, the frame is
accepted if its exact length is below the limit and the client is closed if not. -/
def TakenExactly (header : Bytes) : Prop :=
  ∀ cli service, ReadsHead cli → Completes cli service.head header → service.allocated = true →
    if exactSize header < clientBuf then Accepted header cli service else Rejected cli service

section Body
variable {cli : Client} {header : Bytes} {taken : Bytes}

private theorem readBody_close {body : Recv} {data : Bytes} (closed : cli.readBody body = (.close, data)) :
    data = [] ∧ body = .failed ∧ cli.pos < cli.dataSize := by
  unfold Client.readBody at closed
  split at closed
  next more =>
    cases body with
    | failed =>
      cases closed
      exact ⟨rfl, rfl, more⟩
    | again | eof | data => cases closed
  next => cases closed

structure Reading (header : Bytes) (cli : Client) (taken : Bytes) : Prop where
  reads : ReadsBody cli
  bytes : buffered cli = header ++ taken

theorem Reading.frame (reading : Reading header cli taken) (whole : header.length = packetLen) :
    taken.length = cli.pos ∧ cli.dataSize = packetFraming.bodyLen header ∧ cli.pos ≤ packetFraming.bodyLen header ∧
      (cli.pos = packetFraming.bodyLen header → cli.frame = (header, taken)) := by
  obtain ⟨⟨phase, packet, body, stored, size, counted, filled⟩, bytes⟩ := reading
  simp only [buffered, phase, if_true, stored, Option.getD_some] at bytes
  obtain ⟨rfl, rfl⟩ := List.append_inj bytes (packet.trans whole.symm)
  refine ⟨by simp [filled], by omega, by omega, fun complete => ?_⟩
  simp only [Client.frame, stored, Option.getD_some]
  rw [List.take_of_length_le (by omega)]

/-- One visit in the body: bytes were taken and more are missing, the connection was
lost, or the body was completed and handed over. -/
theorem serveBody_cases (reading : Reading header cli taken) (service : Service) :
    (∃ next, Reading header next (taken ++ (cli.serve service).taken) ∧ next.pos < next.dataSize ∧
      (cli.serve service).handed = [] ∧ kept (cli.serve service).pass = some next) ∨
    (cli.pos < cli.dataSize ∧ service.body = .failed ∧ (cli.serve service).taken = [] ∧
      (cli.serve service).handed = [] ∧ kept (cli.serve service).pass = none) ∨
    (∃ next, Reading header next (taken ++ (cli.serve service).taken) ∧ next.pos = next.dataSize ∧
      (cli.serve service).handed = [next.frame] ∧
      ∀ later, kept (cli.serve service).pass = some later → later.hasReadHead = false ∧ later.pos = 0) := by
  have read := readBody_leads reading.reads service.body
  simp only [Client.serve, reading.reads.phase, if_true, Client.serveBody]
  cases result : cli.readBody service.body with
  | mk pass data =>
    rw [result] at read
    cases pass with
    | close =>
      obtain ⟨rfl, failed, more⟩ := readBody_close result
      exact .inr (.inl ⟨more, failed, rfl, rfl, rfl⟩)
    | wait next =>
      obtain ⟨⟨reads, more⟩, grown⟩ := read
      refine .inl ⟨next, ⟨reads, ?_⟩, more, rfl, rfl⟩
      rw [grown, reading.bytes, List.append_assoc]
    | go next =>
      obtain ⟨reads, grown⟩ := read
      have reading' : Reading header next (taken ++ data) := ⟨reads, by rw [grown, reading.bytes, List.append_assoc]⟩
      have bounded : (next.pos : Int) ≤ next.dataSize := by
        obtain ⟨_, _, body, _, _, counted, filled⟩ := reads
        omega
      rcases Int.lt_or_eq_of_le bounded with more | complete
      · have waits : ¬ (next.pos : Int) = next.dataSize ∧ ¬ (next.pos : Int) > next.dataSize := by omega
        simp only [Client.finish, if_neg waits.1, if_neg waits.2]
        exact .inl ⟨next, reading', more, trivial, rfl⟩
      · simp only [Client.finish, if_pos complete]
        refine .inr (.inr ⟨next, reading', complete, ?_⟩)
        split
        · refine ⟨by simp, fun later stays => ?_⟩
          cases stays
        · refine ⟨by simp, fun later stays => ?_⟩
          cases stays
          exact ⟨rfl, rfl⟩

theorem Reading.step (reading : Reading header cli taken) {service : Service} {next : Client} {more : Bytes}
    (step : BodyStep (cli, taken) service (next, more)) : Reading header next more := by
  obtain ⟨silent, stays, rfl⟩ := step
  rcases serveBody_cases reading service with ⟨_, reading', _, _, kept⟩ | ⟨_, _, _, _, lost⟩ | ⟨_, _, _, handed, _⟩
  · rw [kept] at stays
    cases stays
    exact reading'
  · rw [lost] at stays
    cases stays
  · rw [handed] at silent
    cases silent

theorem consumes_frame {start : Client} (whole : header.length = packetLen) (accepted : Reading header start []) :
    Consumes header (packetFraming.bodyLen header) start := by
  intro services cli taken run service
  have reading : Reading header cli taken :=
    run.invariant (fun state : Client × Bytes => Reading header state.1 state.2)
      (fun _ _ _ reading _ step => reading.step step) accepted
  rcases serveBody_cases reading service with ⟨next, reading', more, silent, _⟩ | ⟨more, _, none, silent, _⟩ |
    ⟨next, reading', complete, handed, rewound⟩
  · obtain ⟨length, size, inside, _⟩ := reading'.frame whole
    have missing : (taken ++ (cli.serve service).taken).length ≠ packetFraming.bodyLen header := by omega
    rw [if_neg missing, silent]
    exact ⟨by omega, rfl, fun handed => absurd rfl handed⟩
  · obtain ⟨length, size, inside, _⟩ := reading.frame whole
    rw [none, List.append_nil]
    have missing : taken.length ≠ packetFraming.bodyLen header := by omega
    rw [if_neg missing, silent]
    exact ⟨by omega, rfl, fun handed => absurd rfl handed⟩
  · obtain ⟨length, size, inside, frame⟩ := reading'.frame whole
    have all : next.pos = packetFraming.bodyLen header := by omega
    rw [if_pos (length.trans all), handed, frame all]
    exact ⟨by omega, rfl, fun _ => rewound⟩

end Body

section Header
variable {header : Bytes}

theorem accepts_iff (header : Bytes) :
    (0 : Int) ≤ frameSize header ∧ frameSize header < (clientBuf : Int) ↔ packetFraming.bodyLen header < clientBuf := by
  simp only [frameSize, packetFraming, clientBuf]
  have small := Nat.mod_lt (readPacketSize header + readPacketToken header) (show 2 ^ 32 > 0 by decide)
  generalize (readPacketSize header + readPacketToken header) % 2 ^ 32 = size at small ⊢
  simp only [toInt32_eq_bmod, Int.bmod_def]
  split <;> omega

theorem exactSize_lt (header : Bytes) : exactSize header < 2 ^ 32 + 2 ^ 16 := by
  have bound : ∀ (bytes : Bytes) (count : Nat), littleEndian (bytes.take count) < 256 ^ count := by
    intro bytes count
    rw [← bigEndian_reverse]
    calc bigEndian (bytes.take count).reverse < 256 ^ (bytes.take count).reverse.length := bigEndian_lt _
      _ ≤ 256 ^ count := Nat.pow_le_pow_right (by decide) (by simp)
  have size := bound (header.drop 12) 4
  have token := bound (header.drop 20) 2
  simp only [exactSize, readPacketSize, readPacketToken]
  omega

theorem readHead_completes {cli : Client} {head : Recv} (reads : ReadsHead cli) (whole : header.length = packetLen)
    (completes : Completes cli head header) :
    if packetFraming.bodyLen header < clientBuf then
      ∃ next rest, cli.readHead head true = (.go next, rest) ∧ buffered cli ++ rest = header ∧ Reading header next []
    else ∃ rest, cli.readHead head true = (.close, rest) := by
  obtain ⟨first, more, rfl, joined⟩ := completes
  have leads := readHead_leads reads (.data first more) true
  obtain ⟨phase, packet, room⟩ := reads
  have start : buffered cli = cli.packet.take cli.pos := by simp [buffered, phase]
  have length : cli.pos + ((first :: more).take (packetLen - cli.pos)).length = packetLen := by
    have := congrArg List.length joined
    rw [List.length_append, List.length_take, whole] at this
    omega
  simp only [Client.readHead] at leads ⊢
  generalize (first :: more).take (packetLen - cli.pos) = data at leads joined length ⊢
  have written : overwrite cli.packet cli.pos data = header := by
    have filled : (overwrite cli.packet cli.pos data).take (cli.pos + data.length) = cli.packet.take cli.pos ++ data :=
      take_overwrite (by omega)
    rwa [List.take_of_length_le (by rw [length_overwrite (by omega)]; omega), joined] at filled
  simp only [written, length, ne_eq, not_true_eq_false, if_false, accepts_iff header] at leads ⊢
  by_cases small : packetFraming.bodyLen header < clientBuf
  · simp only [if_pos small, if_true] at leads ⊢
    refine ⟨_, _, rfl, by rw [start, joined], leads.1, ?_⟩
    rw [leads.2, start, joined, List.append_nil]
  · simp only [if_neg small]
    exact ⟨_, rfl⟩

theorem serve_go {cli next : Client} {service : Service} {rest : Bytes} (phase : cli.hasReadHead = false)
    (went : cli.readHead service.head service.allocated = (.go next, rest)) (reads : ReadsBody next) :
    (cli.serve service).pass = (next.serve service).pass ∧ (cli.serve service).handed = (next.serve service).handed := by
  simp only [Client.serve, phase, Bool.false_eq_true, if_false, went, reads.phase, if_true, and_self]

theorem serve_close {cli : Client} {service : Service} {rest : Bytes} (phase : cli.hasReadHead = false)
    (closed : cli.readHead service.head service.allocated = (.close, rest)) : Rejected cli service := by
  simp only [Rejected, Client.serve, phase, Bool.false_eq_true, if_false, closed, and_self]

/-- A header is taken by its exact length if and only if the sum of its length fields fits
into 32 bits. -/
theorem taken_exactly_iff (whole : header.length = packetLen) : TakenExactly header ↔ exactSize header < 2 ^ 32 := by
  have wrapped : packetFraming.bodyLen header = exactSize header % 2 ^ 32 := rfl
  constructor
  · intro exactly
    by_contra large
    have bound := exactSize_lt header
    have small : packetFraming.bodyLen header < clientBuf := by
      simp only [wrapped, clientBuf]
      omega
    obtain ⟨first, more, whole'⟩ := List.exists_cons_of_length_pos (l := header) (by rw [whole]; decide)
    have reads : ReadsHead (.new 0 0) := ⟨rfl, by simp [Client.new], by simp [Client.new, packetLen]⟩
    have completes : Completes (.new 0 0) (.data first more) header :=
      ⟨first, more, rfl, by rw [← whole', ← whole]; simp [Client.new]⟩
    let service : Service := ⟨.data first more, true, .again, ⟨false, false, false, 0, 0⟩, []⟩
    have closes := exactly (.new 0 0) service reads completes rfl
    have accepted := readHead_completes reads whole completes
    rw [if_neg (by simp only [clientBuf]; omega)] at closes
    rw [if_pos small] at accepted
    obtain ⟨next, rest, went, _, reading⟩ := accepted
    obtain ⟨pass, frames⟩ := @serve_go _ _ service _ rfl went reading.reads
    rcases serveBody_cases reading service with ⟨_, _, _, _, stays⟩ | ⟨_, failed, _⟩ | ⟨_, _, _, handed, _⟩
    · rw [← pass, closes.1] at stays
      cases stays
    · cases failed
    · rw [← frames, closes.2] at handed
      cases handed
  · intro fits cli service reads completes memory
    rw [Nat.mod_eq_of_lt fits] at wrapped
    have decided := readHead_completes reads whole completes
    rw [wrapped] at decided
    split
    next small =>
      rw [if_pos small] at decided
      obtain ⟨next, rest, went, joined, reading⟩ := decided
      exact ⟨next, rest, memory ▸ went, joined, wrapped ▸ consumes_frame whole reading⟩
    next large =>
      rw [if_neg large] at decided
      obtain ⟨rest, closed⟩ := decided
      exact serve_close reads.phase (memory ▸ closed)

def headerOf (dataSize : UInt32) (tokenLength : UInt16) : Bytes :=
  List.replicate 12 0 ++ toLittleEndian 4 dataSize.toNat ++ List.replicate 4 0 ++ toLittleEndian 2 tokenLength.toNat ++ [0, 0]

theorem taken_exactly_five : exactSize (headerOf 3 2) = 5 ∧ TakenExactly (headerOf 3 2) :=
  ⟨by decide, (taken_exactly_iff (by decide)).mpr (by decide)⟩

/-- Four gigabytes are announced, and the frame is accepted with an empty body: its
header alone is handed over. -/
theorem frame_length_wraps : exactSize (headerOf 0xFFFFFFFF 1) = 2 ^ 32 ∧ ¬ TakenExactly (headerOf 0xFFFFFFFF 1) ∧
      ((Client.new 0 5).serve ⟨.data 0 (headerOf 0xFFFFFFFF 1).tail, true, .again, ⟨false, false, false, 0, 0⟩, []⟩).handed =
        [(headerOf 0xFFFFFFFF 1, [])] := by
  refine ⟨by decide, fun exactly => ?_, by decide⟩
  have completes : Completes (.new 0 5) (.data 0 (headerOf 0xFFFFFFFF 1).tail) (headerOf 0xFFFFFFFF 1) :=
    ⟨0, _, rfl, by decide⟩
  have closes := exactly (.new 0 5) ⟨.data 0 (headerOf 0xFFFFFFFF 1).tail, true, .again, ⟨false, false, false, 0, 0⟩, []⟩
    ⟨rfl, by decide, by decide⟩ completes rfl
  rw [if_neg (by decide)] at closes
  exact absurd closes.2 (by decide)

end Header

end BtServer.Proofs.FrameLengths

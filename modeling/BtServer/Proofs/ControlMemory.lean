import BtServer.Proofs.ControlReplies

/-! What a request's handling owes to memory that nothing was written to: the body has no terminating zero of its own, and an
order without a handler and the deletion of a task are answered with a `ret` that was never assigned. -/

namespace BtServer.Proofs.ControlMemory
open Lib ClientService ControlSlots ControlFraming ControlReplies

section Texts
variable {body : Bytes}

theorem bodyText_terminated (zero : 0 ∈ body) (heap : Bytes) : bodyText body heap = bodyText body [] := by
  induction body with
  | nil => cases zero
  | cons byte rest ih =>
    by_cases last : byte = 0
    · simp [bodyText, last]
    · have later := ih ((List.mem_cons.mp zero).resolve_left (Ne.symm last))
      simp only [bodyText, List.cons_append] at later ⊢
      rw [List.takeWhile_cons_of_pos (by simpa using last), List.takeWhile_cons_of_pos (by simpa using last), later]

theorem bodyText_unterminated (none : 0 ∉ body) : bodyText body [1] ≠ bodyText body [] := by
  have all : ∀ byte ∈ body, decide (byte ≠ 0) = true := by
    intro byte member
    rw [decide_eq_true_eq]
    rintro rfl
    exact none member
  rw [bodyText, bodyText, List.takeWhile_append_of_pos all, List.takeWhile_append_of_pos all]
  simp

end Texts

/-- Two contents of the memory lead to the same text and to the same decision. -/
def FrameAlone (find : BtCmd → Bytes → Findings) (cli : Client) (service : Service) (frame : Frame) : Prop :=
  ∀ (first second : Memory) (sends : List Send),
    ((BtCmd.ofOrder (readPacketOrder frame.1)).isSome → bodyText frame.2 first.heap = bodyText frame.2 second.heap) ∧
    (cli.serve { service with handling := first.handling find frame.1 frame.2, sends := sends }).pass =
      (cli.serve { service with handling := second.handling find frame.1 frame.2, sends := sends }).pass

/-- The body ends its text itself, the order has a handler, and the handler does not get
to use its `ret`, or its answer cannot be sent. -/
def Defined (find : BtCmd → Bytes → Findings) (fd : Int) (frame : Frame) : Prop :=
  0 ∈ frame.2 ∧ ∃ cmd, BtCmd.ofOrder (readPacketOrder frame.1) = some cmd ∧
    (cmd = .delTask → (find .delTask (bodyText frame.2 [])).parsed = false ∨ fd = 0)

section Decisions
variable {find : BtCmd → Bytes → Findings} {cli : Client}

private theorem close_of_fd (closed : cli.fd = 0) {cmd : BtCmd} (order : BtCmd.ofOrder (readPacketOrder cli.packet) = some cmd)
    (handling : Handling) (sends : List Send) : decision cli handling sends = .close := by
  have cases := processMsg_cases cli handling sends
  rw [order] at cases
  obtain ⟨text, -, reply⟩ := cases
  have ret : (processMsg cli handling sends).2.ret = error := by
    rw [reply]
    simp [sendReply, sendPacket, closed]
  rw [decision, ret]
  rfl

private theorem sendMsg_cut {buf : Bytes} (full : buf ≠ []) (count : Nat) (sends : List Send) :
    (sendMsg buf (.sent count :: sends)).ret = (sendMsg (buf.drop count) sends).ret ∧
    (sendMsg buf (.sent count :: sends)).sends = (sendMsg (buf.drop count) sends).sends := by
  cases buf with
  | nil => exact absurd rfl full
  | cons byte rest => exact ⟨rfl, rfl⟩

def cutting (count : Nat) : List Send := [.sent packetLen, .sent count, .failed]

private theorem sendReply_cutting (packet : cli.packet.length = packetLen) (token : cli.token = none) (opened : cli.fd ≠ 0)
    {text : Bytes} (answer : Answer text) (count : Nat) :
    (sendReply cli text (cutting count)).2.ret = if text.length ≤ count then success else error := by
  obtain ⟨positive, small⟩ := Answer.length_bounds answer
  have size : toInt32 text.length = text.length := by
    rw [toInt32_eq_bmod, Int.bmod_def]
    simp only [dataSizeLimit] at small
    split <;> omega
  obtain ⟨headLength, -⟩ := setPacketHead_fields packet (readPacketOrder cli.packet) text.length true
  obtain ⟨head, known⟩ : ∃ head, setPacketHead cli.packet (readPacketOrder cli.packet) text.length true = head := ⟨_, rfl⟩
  rw [known] at headLength
  have first : (sendMsg head (cutting count)).sends = [.sent count, .failed] := by
    have taken := (sendMsg_cut (List.ne_nil_of_length_pos (by rw [headLength]; decide)) packetLen [.sent count, .failed]).2
    rw [List.drop_eq_nil_of_le headLength.le] at taken
    exact taken
  have second := (sendMsg_cut (List.ne_nil_of_length_pos positive) count [.failed]).1
  have sendable : (text.length : Int) < (dataSizeLimit : Int) ∧ (text.length : Int) > 0 := by omega
  have whole : head.take packetLen = head := List.take_of_length_le headLength.le
  simp only [sendReply, sendPacket, size, known, opened, if_false, token, Sending.optional, sendable, and_self, if_true,
    Int.toNat_natCast, List.take_length, whole, first, second]
  split
  next enough => rw [List.drop_eq_nil_of_le enough]; rfl
  next cut =>
    obtain ⟨byte, rest, left⟩ := List.exists_cons_of_ne_nil (mt List.drop_eq_nil_iff.mp cut)
    rw [left]
    rfl

private theorem delTask_differs (packet : cli.packet.length = packetLen) (token : cli.token = none) (opened : cli.fd ≠ 0)
    (order : BtCmd.ofOrder (readPacketOrder cli.packet) = some .delTask) {first second : Handling} (parsed : first.parsed = true)
    (parsed' : second.parsed = true) (zero : first.stale = 0) (one : second.stale = 1) :
    ∃ sends, decision cli first sends ≠ decision cli second sends := by
  have short : (codeReply 0).length ≤ 33 := by decide +kernel
  have long : ¬ (codeReply (-1)).length ≤ 33 := by decide +kernel
  have done : (processMsg cli first (cutting 33)).2.ret = success := by
    simp only [processMsg, order, recvDelTask, parsed, if_true, zero, success]
    exact (sendReply_cutting packet token opened (.code 0) 33).trans (if_pos short)
  have cut : (processMsg cli second (cutting 33)).2.ret = error := by
    simp only [processMsg, order, recvDelTask, parsed', if_true, one, success]
    exact (sendReply_cutting packet token opened (.code (-1)) 33).trans (if_neg long)
  refine ⟨cutting 33, ?_⟩
  rw [decision, decision, done, cut]
  simp [success, error]

private theorem decision_of_defined (fd : Int) (same : cli.fd = fd) (frame : Frame) (own : cli.frame = frame)
    (defined : Defined find fd frame) (first second : Memory) (sends : List Send) :
    decision cli (first.handling find frame.1 frame.2) sends = decision cli (second.handling find frame.1 frame.2) sends := by
  obtain ⟨zero, cmd, order, unused⟩ := defined
  subst own
  have packet : BtCmd.ofOrder (readPacketOrder cli.packet) = some cmd := order
  by_cases closed : cli.fd = 0
  · rw [close_of_fd closed packet, close_of_fd closed packet]
  have text := fun memory : Memory => bodyText_terminated zero memory.heap
  have refused : cmd = .delTask → (find .delTask (bodyText cli.frame.2 [])).parsed = false := by
    intro deletes
    exact (unused deletes).resolve_right (same ▸ closed)
  unfold decision
  cases cmd with
  | delTask => simp only [Memory.handling, order, text, processMsg, packet, recvDelTask, refused rfl, Bool.false_eq_true, if_false]
  | setTracker => simp only [Memory.handling, order, text, processMsg, packet, recvSetTracker]
  | addTask => simp only [Memory.handling, order, text, processMsg, packet, recvAddTask]
  | makeTorrent => simp only [Memory.handling, order, text, processMsg, packet, recvMakeTorrent]
  | getTaskState => simp only [Memory.handling, order, text, processMsg, packet, recvGetTaskState]

end Decisions

/-- In every run: the text that is parsed for a request and what becomes of its connection
depend on the request alone exactly when its body has a terminating zero, its order has a
handler, and it is not the deletion of a task that gets past its parser. -/
theorem frame_alone_iff {listenfd pipefd : Int} {turns : List Turn} {final : Loop}
    (run : Run Loop.Step free (.initial listenfd pipefd) turns final) (slot : Nat) (cli : Client)
    (held : final.clients[slot]? = some (some cli)) (service : Service) (frame : Frame)
    (handed : (cli.serve service).handed = [frame]) (find : BtCmd → Bytes → Findings) :
    FrameAlone find cli service frame ↔ Defined find cli.fd frame := by
  have framed := run_framed run
  obtain ⟨middle, same, packet, own, visits⟩ := serve_handed (framed.parsed slot cli held).1 handed
  have decides := fun handling sends => (visits handling sends).1
  have token : middle.token = none := same.token.trans (framed.tokenless slot cli held)
  have order : readPacketOrder frame.1 = readPacketOrder middle.packet := by rw [← own, Client.frame]
  constructor
  · intro alone
    cases known : BtCmd.ofOrder (readPacketOrder frame.1) with
    | none =>
      -- The unassigned `ret` is the result.
      exfalso
      have same := (alone ⟨[], 0⟩ ⟨[], 1⟩ []).2
      rw [decides, decides] at same
      simp only [decision, processMsg, Memory.handling, ← order, known] at same
      simp at same
    | some cmd =>
      have terminated : 0 ∈ frame.2 := by
        by_contra none
        exact bodyText_unterminated none ((alone ⟨[1], 0⟩ ⟨[], 0⟩ []).1 (by simp [known]))
      refine ⟨terminated, cmd, known, ?_⟩
      rintro rfl
      by_contra uses
      rw [not_or, Bool.not_eq_false] at uses
      have parsed : ∀ stack, (Memory.handling ⟨[], stack⟩ find frame.1 frame.2).parsed = true := by
        intro stack
        simp only [Memory.handling, known, uses.1]
      have stale : ∀ stack, (Memory.handling ⟨[], stack⟩ find frame.1 frame.2).stale = stack := by
        intro stack
        simp only [Memory.handling, known]
      obtain ⟨sends, differs⟩ := delTask_differs packet token (same.fd ▸ uses.2) (order ▸ known) (parsed 0) (parsed 1) (stale 0) (stale 1)
      refine differs ?_
      rw [← decides, ← decides]
      exact (alone ⟨[], 0⟩ ⟨[], 1⟩ sends).2
  · intro defined first second sends
    refine ⟨fun _ => ?_, ?_⟩
    · rw [bodyText_terminated defined.1, bodyText_terminated defined.1 second.heap]
    · rw [decides, decides]
      exact decision_of_defined cli.fd same.fd frame own defined first second sends

def orderHead (order : Nat) (size : UInt8) : Bytes :=
  [1, 0, 0, 0] ++ toLittleEndian 4 order ++ [0, 0, 0, 0] ++ [size, 0, 0, 0] ++ [1, 0, 2, 1] ++ [0, 0, 0, 0]

def requesting (order : Nat) (body : Bytes) : Service :=
  ⟨.data 1 ((orderHead order body.length.toUInt8).drop 1), true, .data (body.headD 0) (body.drop 1),
    ⟨false, false, false, 0, 0⟩, []⟩

def acceptsAll (_ : BtCmd) (_ : Bytes) : Findings := ⟨true, true, true, 0⟩

/-- `{}` and a zero, to make a torrent. -/
theorem frame_alone_terminated :
    FrameAlone acceptsAll (.new 0 5) (requesting 2005 [0x7b, 0x7d, 0]) (orderHead 2005 3, [0x7b, 0x7d, 0]) := by
  have handed : ((Client.new 0 5).serve (requesting 2005 [0x7b, 0x7d, 0])).handed = [(orderHead 2005 3, [0x7b, 0x7d, 0])] := by
    decide +kernel
  have possible : Along Loop.Possible Loop.turn (.initial 3 4) [connecting 5] := by decide
  exact (frame_alone_iff (run_turns possible) 0 (.new 0 5) rfl _ _ handed acceptsAll).mpr ⟨by decide, .makeTorrent, by decide, nofun⟩

/-- The same without the zero: the text goes on with what is behind the body. And an
order without a handler keeps or closes the connection as the stack has it. -/
theorem text_goes_on :
    ((Client.new 0 5).serve (requesting 2005 [0x7b, 0x7d])).handed = [(orderHead 2005 2, [0x7b, 0x7d])] ∧
    bodyText [0x7b, 0x7d] [0] = [0x7b, 0x7d] ∧ bodyText [0x7b, 0x7d] [0x31, 0] = [0x7b, 0x7d, 0x31] ∧
    ((Client.new 0 5).serve (requesting 7 [0])).handed = [(orderHead 7 1, [0])] ∧
    ((Client.new 0 5).serve { requesting 7 [0] with
      handling := Memory.handling ⟨[], 0⟩ acceptsAll (orderHead 7 1) [0] }).pass = .go (.new 0 5) ∧
    ((Client.new 0 5).serve { requesting 7 [0] with
      handling := Memory.handling ⟨[], 1⟩ acceptsAll (orderHead 7 1) [0] }).pass = .close ∧
    ¬ FrameAlone acceptsAll (.new 0 5) (requesting 2005 [0x7b, 0x7d]) (orderHead 2005 2, [0x7b, 0x7d]) ∧
    ¬ FrameAlone acceptsAll (.new 0 5) (requesting 7 [0]) (orderHead 7 1, [0]) := by
  refine ⟨by decide +kernel, by decide, by decide, by decide +kernel, by decide +kernel, by decide +kernel, ?_, ?_⟩
  · intro alone
    exact absurd ((alone ⟨[0], 0⟩ ⟨[0x31, 0], 0⟩ []).1 (by decide)) (by decide)
  · intro alone
    exact absurd (alone ⟨[], 0⟩ ⟨[], 1⟩ []).2 (by decide +kernel)

end BtServer.Proofs.ControlMemory

import BtServer.Proofs.ControlFraming

/-! The replies of the control server as frames of its own protocol. The header of a
reply is the one of the request with `tokenLength` left in it, but no token is sent. -/

namespace BtServer.Proofs.ControlReplies
open Lib ClientService ControlSlots ControlFraming

variable {cli : Client} {sends : List Send} {text : Bytes} {frame : Frame} {service : Service}

/-- One header and exactly the bytes that it announces. -/
def WellFormed (written : Bytes) : Prop :=
  ∃ header body, written = header ++ body ∧ header.length = packetLen ∧
    body.length = readPacketSize header + readPacketToken header

theorem wellFormed_iff (written : Bytes) : WellFormed written ↔ packetLen ≤ written.length ∧
      (written.drop packetLen).length = readPacketSize (written.take packetLen) + readPacketToken (written.take packetLen) := by
  constructor
  · intro ⟨header, body, whole, length, exact⟩
    subst whole
    simp [← length, exact]
  · intro ⟨enough, exact⟩
    exact ⟨written.take packetLen, written.drop packetLen, by simp, by simp [enough], exact⟩

instance (written : Bytes) : Decidable (WellFormed written) := decidable_of_iff _ (wellFormed_iff written).symm

theorem sendMsg_all (buf : Bytes) (works : Send.failed ∉ sends) :
    (sendMsg buf sends).written = buf ∧ Send.failed ∉ (sendMsg buf sends).sends := by
  induction sends generalizing buf with
  | nil => cases buf <;> simp [sendMsg]
  | cons first rest ih =>
    obtain ⟨other, later⟩ : Send.failed ≠ first ∧ Send.failed ∉ rest := by simpa using works
    cases buf with
    | nil => simpa [sendMsg] using works
    | cons byte more =>
      cases first with
      | sent count =>
        obtain ⟨written, left⟩ := ih ((byte :: more).drop count) later
        simp only [sendMsg]
        exact ⟨by rw [written, List.take_append_drop], left⟩
      | again => simpa only [sendMsg] using ih (byte :: more) later
      | failed => exact absurd rfl other

section Lengths

theorem length_escape_le (byte : UInt8) : (escape byte).length ≤ 6 := by
  revert byte
  exact forall_byte (by decide +kernel)

theorem length_printStringPtr_le (str : Bytes) : (printStringPtr str).length ≤ 2 + 6 * str.length := by
  have escaped : (str.flatMap escape).length ≤ 6 * str.length := by
    induction str with
    | nil => simp
    | cons byte rest ih =>
      have first := length_escape_le byte
      simp only [List.flatMap_cons, List.length_append, List.length_cons]
      omega
  simp only [printStringPtr, List.length_append, List.length_cons, List.length_nil]
  omega

theorem toDouble_lt {n : Nat} (bound : n < 2 ^ 64) : toDouble n < 10 ^ 20 := by
  have exponent : n.log2 - 52 ≤ 11 := by
    by_cases zero : n = 0
    · simp [zero]
    · have log := (Nat.log2_lt zero).mpr bound
      omega
  have small : 2 ^ (n.log2 - 52) ≤ 2 ^ 11 := Nat.pow_le_pow_right (by decide) exponent
  have whole : n / 2 ^ (n.log2 - 52) * 2 ^ (n.log2 - 52) ≤ n := Nat.div_mul_le_self ..
  simp only [toDouble]
  split
  · omega
  · rw [Nat.add_mul, Nat.one_mul]
    omega

def roomFor : List (String × Json) → Nat
  | [] => 0
  | (name, value) :: rest => 7 + 6 * (ascii name).length + (printValue value).length + roomFor rest

theorem length_printEntries_le (entries : List (String × Json)) : (printEntries entries).length ≤ roomFor entries := by
  induction entries with
  | nil => simp [printEntries]
  | cons entry rest ih =>
    have name := length_printStringPtr_le (ascii entry.1)
    have separator : (if rest = [] then [10] else [44, 10] : Bytes).length ≤ 2 := by split <;> simp
    simp only [printEntries, roomFor, List.length_append, List.length_cons, List.length_nil]
    omega

private theorem cJSONPrint_bounds {entries : List (String × Json)} (small : roomFor entries < 1440) :
    0 < (cJSONPrint entries).length ∧ (cJSONPrint entries).length < dataSizeLimit := by
  have length := length_printEntries_le entries
  simp only [cJSONPrint, List.length_append, List.length_cons, List.length_nil, dataSizeLimit]
  omega

theorem Answer.length_bounds (answer : Answer text) : 0 < text.length ∧ text.length < dataSizeLimit := by
  have success := length_printStringPtr_le (ascii "Success")
  have zero : (signedDecimal 0).length ≤ 21 := length_signedDecimal_le (by decide)
  have names : (ascii "code").length = 4 ∧ (ascii "msg").length = 3 ∧ (ascii "Success").length = 7 ∧
      (ascii "state").length = 5 ∧ (ascii "progress").length = 8 ∧ (ascii "total_download").length = 14 ∧
      (ascii "download_rate").length = 13 ∧ (ascii "total_size").length = 10 ∧ (ascii "torrent_id").length = 10 := by
    decide
  cases answer with
  | code value =>
    have number : (signedDecimal value.toInt).length ≤ 21 := by
      have low := value.le_toInt
      have high := value.toInt_lt
      exact length_signedDecimal_le (by omega)
    refine cJSONPrint_bounds ?_
    simp only [roomFor, printValue]
    omega
  | taskState info =>
    have progress : (signedDecimal info.progress.toNat).length ≤ 21 := by
      have bound := info.progress.toNat_lt
      exact length_signedDecimal_le (by omega)
    have rate : (signedDecimal (toDouble info.downloadRate.toNat)).length ≤ 21 :=
      length_signedDecimal_le (by simpa using toDouble_lt info.downloadRate.toNat_lt)
    have state := length_printStringPtr_le info.state
    have download := length_printStringPtr_le (sizeDecimal info.totalDownload.toNat)
    have size := length_printStringPtr_le (sizeDecimal info.totalSize.toNat)
    have downloadDigits := length_sizeDecimal_le info.totalDownload.toNat
    have sizeDigits := length_sizeDecimal_le info.totalSize.toNat
    have terminated := info.terminated
    refine cJSONPrint_bounds ?_
    simp only [roomFor, printValue]
    omega
  | addTask torrentId =>
    have digits : (signedDecimal torrentId.toInt).length ≤ 21 := by
      have low := torrentId.le_toInt
      have high := torrentId.toInt_lt
      exact length_signedDecimal_le (by omega)
    have printed := length_printStringPtr_le (signedDecimal torrentId.toInt)
    refine cJSONPrint_bounds ?_
    simp only [roomFor, printValue]
    omega

end Lengths

theorem setPacketHead_fields {buf : Bytes} (length : buf.length = packetLen) (cmd : Nat) (size : Int) (reqFlag : Bool) :
    (setPacketHead buf cmd size reqFlag).length = packetLen ∧
    readPacketSize (setPacketHead buf cmd size reqFlag) = (size % 2 ^ 32).toNat ∧
    readPacketToken (setPacketHead buf cmd size reqFlag) = readPacketToken buf := by
  have token : ((buf.drop 20).take 2).length = 2 := by simp [length, packetLen]
  refine ⟨?_, ?_, ?_⟩
  · simp [setPacketHead, token, packetLen]
  · have fields : setPacketHead buf cmd size reqFlag =
        (toLittleEndian 2 1 ++ toLittleEndian 2 0 ++ toLittleEndian 4 cmd ++ toLittleEndian 4 0) ++
          (toLittleEndian 4 (size % 2 ^ 32).toNat ++ ([0x01, 0x00, 0x02, if reqFlag then 0x02 else 0x01] ++
            (buf.drop 20).take 2 ++ toLittleEndian 2 0)) := by
      simp [setPacketHead]
    rw [readPacketSize, fields, List.drop_left' (by simp), List.take_left' (by simp), littleEndian_toLittleEndian]
    omega
  · have fields : setPacketHead buf cmd size reqFlag =
        (toLittleEndian 2 1 ++ toLittleEndian 2 0 ++ toLittleEndian 4 cmd ++ toLittleEndian 4 0 ++
          toLittleEndian 4 (size % 2 ^ 32).toNat ++ [0x01, 0x00, 0x02, if reqFlag then 0x02 else 0x01]) ++
          ((buf.drop 20).take 2 ++ toLittleEndian 2 0) := by
      simp [setPacketHead]
    rw [readPacketToken, fields, List.drop_left' (by simp), List.take_left' token, readPacketToken]

theorem sendReply_written (packet : cli.packet.length = packetLen)
    (token : cli.token = none) (answer : Answer text) (works : Send.failed ∉ sends) :
    (sendReply cli text sends).2.written = if cli.fd = 0 then []
      else setPacketHead cli.packet (readPacketOrder cli.packet) text.length true ++ text := by
  obtain ⟨positive, small⟩ := Answer.length_bounds answer
  have size : toInt32 text.length = text.length := by
    rw [toInt32_eq_bmod, Int.bmod_def]
    simp only [dataSizeLimit] at small
    split <;> omega
  obtain ⟨headLength, _⟩ := setPacketHead_fields packet (readPacketOrder cli.packet) text.length true
  have head := sendMsg_all (setPacketHead cli.packet (readPacketOrder cli.packet) text.length true) works
  have body := sendMsg_all text head.2
  simp only [sendReply, sendPacket, size]
  split
  · rfl
  · have sendable : (text.length : Int) < (dataSizeLimit : Int) ∧ (text.length : Int) > 0 := by omega
    simp only [token, Sending.optional, sendable, and_self, if_true, List.take_of_length_le (Nat.le_of_eq headLength),
      Int.toNat_natCast, List.take_length, head.1, body.1]

theorem reply_wellFormed (packet : cli.packet.length = packetLen)
    (token : cli.token = none) (answer : Answer text) (works : Send.failed ∉ sends) :
    WellFormed (sendReply cli text sends).2.written ↔ cli.fd ≠ 0 ∧ readPacketToken cli.packet = 0 := by
  obtain ⟨_, small⟩ := Answer.length_bounds answer
  obtain ⟨headLength, headSize, headToken⟩ :=
    setPacketHead_fields packet (readPacketOrder cli.packet) text.length true
  have announced : ((text.length : Int) % 2 ^ 32).toNat = text.length := by
    simp only [dataSizeLimit] at small
    omega
  rw [announced] at headSize
  rw [sendReply_written packet token answer works]
  by_cases closed : cli.fd = 0
  · simp only [closed, if_true, ne_eq, not_true, false_and, iff_false]
    intro formed
    obtain ⟨header, body, whole, length, _⟩ := formed
    have none := congrArg List.length whole
    simp only [List.length_nil, List.length_append, length, packetLen] at none
    omega
  · simp only [closed, if_false, ne_eq, not_false_iff, true_and]
    constructor
    · intro formed
      obtain ⟨header, body, whole, length, exact⟩ := formed
      obtain ⟨same, rest⟩ := List.append_inj whole (headLength.trans length.symm)
      rw [← same, ← rest, headSize, headToken] at exact
      omega
    · intro empty
      exact ⟨_, text, rfl, headLength, by rw [headSize, headToken, empty, Nat.add_zero]⟩

theorem processMsg_rewind (cli : Client) (handling : Handling) (sends : List Send) :
    (processMsg cli handling sends).1.rewind = cli.rewind := by
  have cases := processMsg_cases cli handling sends
  split at cases
  · rw [cases]
  · obtain ⟨text, -, reply⟩ := cases
    rw [reply]
    rfl

def decision (cli : Client) (handling : Handling) (sends : List Send) : Pass :=
  if (processMsg cli handling sends).2.ret ≠ 0 then .close else .go cli.rewind

private theorem finish_handed {handling : Handling} (handed : (cli.finish handling sends).2.1 = [frame]) :
    cli.frame = frame ∧ ∀ handling sends,
      cli.finish handling sends = (decision cli handling sends, [frame], (processMsg cli handling sends).2.written) := by
  by_cases complete : cli.pos = cli.dataSize
  · have own : cli.frame = frame := by
      unfold Client.finish at handed
      simp only [complete, if_true] at handed
      split at handed <;> simpa using handed
    refine ⟨own, fun handling sends => ?_⟩
    unfold Client.finish decision
    simp only [complete, if_true, processMsg_rewind, own]
    split <;> rfl
  · unfold Client.finish at handed
    simp only [complete, if_false] at handed
    split at handed <;> cases handed

private theorem serveBody_handed (reads : ReadsBody cli) (handed : (cli.serveBody service).handed = [frame]) :
    ∃ middle, Same cli middle ∧ middle.packet.length = packetLen ∧ middle.frame = frame ∧ ∀ handling sends,
      (cli.serveBody { service with handling := handling, sends := sends }).pass = decision middle handling sends ∧
      (cli.serveBody { service with handling := handling, sends := sends }).written =
        (processMsg middle handling sends).2.written := by
  have read := readBody_leads reads service.body
  unfold Client.serveBody at handed ⊢
  cases result : cli.readBody service.body with
  | mk pass taken =>
    rw [result] at handed read
    cases pass with
    | go middle =>
      obtain ⟨own, finishes⟩ := finish_handed handed
      refine ⟨middle, readBody_same (congrArg (fun result => kept result.1) result), read.1.packet, own, ?_⟩
      intro handling sends
      simp only [result, finishes, and_self]
    | wait | close => cases handed

theorem serve_handed (reads : Reads cli) (handed : (cli.serve service).handed = [frame]) :
    ∃ middle, Same cli middle ∧ middle.packet.length = packetLen ∧ middle.frame = frame ∧ ∀ handling sends,
      (cli.serve { service with handling := handling, sends := sends }).pass = decision middle handling sends ∧
      (cli.serve { service with handling := handling, sends := sends }).written =
        (processMsg middle handling sends).2.written := by
  unfold Client.serve at handed ⊢
  rcases reads with head | ⟨body, _⟩
  · have read := readHead_leads head service.head service.allocated
    simp only [head.phase, Bool.false_eq_true, if_false] at handed ⊢
    cases result : cli.readHead service.head service.allocated with
    | mk pass taken =>
      rw [result] at handed read
      cases pass with
      | go middle =>
        obtain ⟨later, same, rest⟩ := serveBody_handed read.1 handed
        have first : Same cli middle := readHead_same (congrArg (fun result => kept result.1) result)
        exact ⟨later, first.trans same, rest⟩
      | wait | close => cases handed
  · simp only [body.phase, if_true] at handed ⊢
    exact serveBody_handed body handed

/-- In every run: a request that is answered while `send` works gets a frame of the
protocol just when it has no token and did not come in on descriptor 0. -/
theorem replies_wellFormed_iff {listenfd pipefd : Int} {turns : List Turn} {final : Loop}
    (run : Run Loop.Step free (.initial listenfd pipefd) turns final) (slot : Nat) (cli : Client)
    (held : final.clients[slot]? = some (some cli)) (service : Service) (works : Send.failed ∉ service.sends)
    (frame : Frame) (handed : (cli.serve service).handed = [frame]) (known : (BtCmd.ofOrder (readPacketOrder frame.1)).isSome) :
    WellFormed (cli.serve service).written ↔ cli.fd ≠ 0 ∧ readPacketToken frame.1 = 0 := by
  have framed := run_framed run
  obtain ⟨middle, same, packet, rfl, visits⟩ := serve_handed (framed.parsed slot cli held).1 handed
  have written := (visits service.handling service.sends).2
  have token : middle.token = none := same.token.trans (framed.tokenless slot cli held)
  have answered := processMsg_cases middle service.handling service.sends
  obtain ⟨cmd, order⟩ := Option.isSome_iff_exists.mp known
  simp only [Client.frame] at order
  rw [order] at answered
  obtain ⟨text, answer, reply⟩ := answered
  rw [written, reply, ← same.fd]
  exact reply_wellFormed packet token answer works

def setTrackerHead (tokenLength : UInt8) : Bytes :=
  [1, 0, 0, 0, 0xd2, 0x07, 0, 0, 0, 0, 0, 0, 0, 0, 0, 0, 1, 0, 2, 1, tokenLength, 0, 0, 0]

theorem replies_wellFormed_iff_tokenless :
    WellFormed ((Client.new 0 5).serve ⟨.data 1 ((setTrackerHead 0).drop 1), true, .again,
      ⟨false, false, false, 0, 0⟩, [.sent 3, .again]⟩).written := by
  have possible : Along Loop.Possible Loop.turn (.initial 3 4) [connecting 5] := by decide
  exact (replies_wellFormed_iff (run_turns possible) 0 (.new 0 5) rfl _ (by decide) (setTrackerHead 0, []) (by decide) (by decide)).mpr
    ⟨by decide, by decide⟩

/-- The request announces a token of one byte and brings it. The reply announces one,
too, but does not. -/
theorem reply_without_its_token : ∃ final, Run Loop.Step free (.initial 3 4)
      [connecting 5, reading (.data 1 ((setTrackerHead 1).drop 1)) (.data 65 [])] final ∧
      (final.journal 0).handed = [(setTrackerHead 1, [65])] ∧ ¬ WellFormed (final.journal 0).written := by
  exact ⟨_, run_turns (by decide), by decide, by decide⟩

end BtServer.Proofs.ControlReplies

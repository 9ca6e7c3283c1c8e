import BtServer.Lib.Buffer
import BtServer.Lib.Text

/-! The packets of the control protocol: the header of `packet.h`, the replies of
`main.c` with the JSON that `cJSON_Print` makes of them, and the sending half of
`socket.c`. Memory for a reply is always there. -/

namespace BtServer
open Lib

def packetLen : Nat := 24
def dataSizeLimit : Nat := 1452
def clientBuf : Nat := 1024 * 1024

def success : Int := 0
def error : Int := 1

/-- `read_packet_order`: the service code, as an `unsigned short`. -/
def readPacketOrder (buf : Bytes) : Nat := littleEndian ((buf.drop 4).take 4) % 2 ^ 16

def readPacketSize (buf : Bytes) : Nat := littleEndian ((buf.drop 12).take 4)

def readPacketToken (buf : Bytes) : Nat := littleEndian ((buf.drop 20).take 2)

/-- `set_packet_head`. The header is written over the one that is there, and
`tokenLength` is the field that is not written. -/
def setPacketHead (buf : Bytes) (cmd : Nat) (size : Int) (reqFlag : Bool) : Bytes :=
  toLittleEndian 2 1 ++ toLittleEndian 2 0 ++ toLittleEndian 4 cmd ++ toLittleEndian 4 0 ++
    toLittleEndian 4 (size % 2 ^ 32).toNat ++ [0x01, 0x00, 0x02, if reqFlag then 0x02 else 0x01] ++
    (buf.drop 20).take 2 ++ toLittleEndian 2 0

/-- The members that the replies have. A number is the integer that the `double` of
the source stands for. -/
inductive Json where
  | number (value : Int)
  | string (value : Bytes)
deriving DecidableEq, Repr

def hexDigit (n : Nat) : UInt8 := (if n < 10 then 48 + n else 87 + n).toUInt8

def escape (byte : UInt8) : Bytes :=
  if byte.toNat > 31 ∧ byte ≠ 34 ∧ byte ≠ 92 then [byte]
  else 92 :: match byte with
    | 92 => [92]
    | 34 => [34]
    | 8 => ascii "b"
    | 12 => ascii "f"
    | 10 => ascii "n"
    | 13 => ascii "r"
    | 9 => ascii "t"
    | token => ascii "u00" ++ [hexDigit (token.toNat / 16), hexDigit (token.toNat % 16)]

def printStringPtr (str : Bytes) : Bytes := [34] ++ str.flatMap escape ++ [34]

/-- `print_value`; whole numbers are printed with `%d` or `%.0f`. -/
def printValue : Json → Bytes
  | .number value => signedDecimal value
  | .string value => printStringPtr value

def printEntries : List (String × Json) → Bytes
  | [] => []
  | (name, value) :: rest =>
    [9] ++ printStringPtr (ascii name) ++ [58, 9] ++ printValue value ++ (if rest = [] then [10] else [44, 10]) ++
      printEntries rest

/-- `cJSON_Print` of an object: formatted, one member a line. -/
def cJSONPrint (entries : List (String × Json)) : Bytes := [123, 10] ++ printEntries entries ++ [125]

/-- An unsigned number as a `double`: rounded to 53 bits, ties to even. -/
def toDouble (n : Nat) : Nat :=
  let unit := 2 ^ (n.log2 - 52)
  let quotient := n / unit
  let remainder := n % unit
  if 2 * remainder < unit ∨ 2 * remainder = unit ∧ quotient % 2 = 0 then quotient * unit else (quotient + 1) * unit

/-- `struct task_info` without the id, which no reply carries. -/
structure TaskInfo where
  state : Bytes
  progress : UInt32
  totalDownload : UInt64
  downloadRate : UInt64
  totalSize : UInt64
  /-- The state is a string in a `char[12]`. -/
  terminated : state.length < 12

def TaskInfo.zero : TaskInfo := ⟨[], 0, 0, 0, 0, by decide⟩

def codeReply (code : Int32) : Bytes :=
  cJSONPrint [("code", .number code.toInt), ("msg", .string (ascii "Success"))]

def taskStateReply (info : TaskInfo) : Bytes :=
  cJSONPrint [("code", .number 0), ("msg", .string (ascii "Success")), ("state", .string info.state),
    ("progress", .number info.progress.toNat), ("total_download", .string (sizeDecimal info.totalDownload.toNat)),
    ("download_rate", .number (toDouble info.downloadRate.toNat)),
    ("total_size", .string (sizeDecimal info.totalSize.toNat))]

/-- The text of `send_add_task`. The id is a `uint32_t` printed with `%lld`, which
reads 64 bits. -/
def addTaskReply (torrentId : Int64) : Bytes :=
  cJSONPrint [("code", .number 0), ("msg", .string (ascii "Success")),
    ("torrent_id", .string (signedDecimal torrentId.toInt))]

/-- `struct client`, and the number of the connection among all accepted ones. The
buffer for the body is as long as `data_size` was when it was allocated. -/
structure Client where
  connection : Nat
  fd : Int
  packet : Bytes
  token : Option Bytes
  tokenSize : Int
  hasReadHead : Bool
  dataBuf : Option Bytes
  pos : Nat
  dataSize : Int
deriving DecidableEq, Repr

/-- What `send` does: it takes some of the bytes, has to be called again, or fails. -/
inductive Send where
  | sent (count : Nat)
  | again
  | failed
deriving DecidableEq, Repr

structure Sending where
  written : Bytes
  ret : Int
  sends : List Send
deriving DecidableEq, Repr

/-- `send_msg` of the bytes that are left. When nothing more is said about `send` it
takes them all. -/
def sendMsg : Bytes → List Send → Sending
  | [], sends => ⟨[], success, sends⟩
  | buf, [] => ⟨buf, success, []⟩
  | buf, .sent count :: sends =>
    let rest := sendMsg (buf.drop count) sends
    { rest with written := buf.take count ++ rest.written }
  | buf, .again :: sends => sendMsg buf sends
  | _, .failed :: sends => ⟨[], error, sends⟩

def Sending.optional (before : Sending) (buf : Option Bytes) (size : Int) : Sending :=
  match buf with
  | none => before
  | some buf =>
    if size < dataSizeLimit ∧ size > 0 then
      let part := sendMsg (buf.take size.toNat) before.sends
      { part with written := before.written ++ part.written }
    else before

def sendPacket (cli : Client) (sends : List Send) : Sending :=
  if cli.fd = 0 then ⟨[], error, sends⟩
  else ((sendMsg (cli.packet.take packetLen) sends).optional cli.token cli.tokenSize).optional cli.dataBuf cli.dataSize

/-- The common end of `send_code`, `send_task_state` and `send_add_task`: the text
becomes the body, and the header of the request is made the one of the reply. -/
def sendReply (cli : Client) (text : Bytes) (sends : List Send) : Client × Sending :=
  let size := toInt32 text.length
  let cli := { cli with
    dataBuf := some text
    dataSize := size
    packet := setPacketHead cli.packet (readPacketOrder cli.packet) size true }
  (cli, sendPacket cli sends)

def sendCode (cli : Client) (code : Int32) (sends : List Send) : Client × Sending :=
  sendReply cli (codeReply code) sends

def sendTaskState (cli : Client) (info : TaskInfo) (sends : List Send) : Client × Sending :=
  sendReply cli (taskStateReply info) sends

def sendAddTask (cli : Client) (torrentId : Int64) (sends : List Send) : Client × Sending :=
  sendReply cli (addTaskReply torrentId) sends

end BtServer

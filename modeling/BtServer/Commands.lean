import BtServer.Control

/-! The requests that `process_msg` hands to its handlers, down to the members of their
JSON text: `cJSON_GetObjectItem` and the handlers of `main.c` on what `cJSON_Parse`
has made of the body. -/

namespace BtServer
open Lib

/-- A value of `cJSON_Parse`. No handler asks for the value of a number. -/
inductive Document where
  | null
  | boolean (value : Bool)
  | number
  | string (value : Bytes)
  | array (items : List Document)
  | object (members : List (Bytes × Document))

def tolower (c : UInt8) : UInt8 := if 65 ≤ c ∧ c ≤ 90 then c + 32 else c

/-- Whether `cJSON_strcasecmp` returns zero. -/
def cJSONStrcasecmp (s1 s2 : Bytes) : Bool := s1.map tolower = s2.map tolower

/-- The first member of that name. The items of an array have no name, and the other
values have no items. -/
def cJSONGetObjectItem : Document → Bytes → Option Document
  | .object members, string => (members.find? fun member => cJSONStrcasecmp member.1 string).map Prod.snd
  | _, _ => none

/-- The pointer `valuestring`, which is not set for a value that is no string. -/
def Document.valuestring : Document → Option Bytes
  | .string value => some value
  | _ => none

/-- What a handler must not do: follow a null pointer to an item or to a text, and write
behind the end of `tracker`. -/
inductive CommandFault where
  | missingItem
  | nullString
  | overrun
deriving DecidableEq, Repr

def deref : Option Document → Except CommandFault Document
  | some item => .ok item
  | none => .error .missingItem

def readString : Option Bytes → Except CommandFault Bytes
  | some text => .ok text
  | none => .error .nullString

inductive CommandReply where
  | code (code : Int32)
  | taskState (info : TaskInfo)
  | addTask (torrentId : Int64)

def CommandReply.number : CommandReply → Int32
  | .code value => value
  | .taskState _ => 0
  | .addTask _ => 0

def CommandReply.send (reply : CommandReply) (cli : Client) (sends : List Send) : Client × Sending :=
  match reply with
  | .code value => sendCode cli value sends
  | .taskState info => sendTaskState cli info sends
  | .addTask torrentId => sendAddTask cli torrentId sends

structure TrackSettings where
  trackIp : Option Bytes
  tracker : Bytes
deriving DecidableEq, Repr

def TrackSettings.initial : TrackSettings := ⟨none, []⟩

def trackPort : Int := 50020
def trackerSize : Nat := 128

/-- What the functions of `torrent.cpp` return for their texts, and the value of a `ret`
that was never assigned. -/
structure CommandCalls where
  makeTorrent : Bytes → Bytes → Bytes → Int
  addTask : Bytes → Bytes → Int64
  stale : Int

namespace TrackSettings
variable (settings : TrackSettings)

/-- How a handler ends: with the settings it leaves and its reply. -/
abbrev Outcome : Type := Except CommandFault (TrackSettings × CommandReply)

def getTaskState (parsed : Option Document) : Outcome :=
  if runFlag = 0 then
    match parsed with
    | none => .ok (settings, .code (-1))
    | some root => do
      let torrentId ← deref (cJSONGetObjectItem root (ascii "torrent_id"))
      let _ ← readString torrentId.valuestring
      return (settings, .taskState .zero)
  else .ok (settings, .code (-1))

def makeTorrent (calls : CommandCalls) : Option Document → Outcome
  | none => .ok (settings, .code (-1))
  | some root => do
    let filePath ← deref (cJSONGetObjectItem root (ascii "file_path"))
    let torrentPath ← deref (cJSONGetObjectItem root (ascii "torrent_path"))
    let file ← readString filePath.valuestring
    let torrent ← readString torrentPath.valuestring
    if calls.makeTorrent file torrent settings.tracker = success then return (settings, .code 0)
    else return (settings, .code (-1))

/-- The member `torrent_id` is looked up and not used: the call that would use it is
commented out, and so is what would set `ret`. -/
def delTask (calls : CommandCalls) : Option Document → Outcome
  | none => .ok (settings, .code (-1))
  | some _ => if calls.stale = success then .ok (settings, .code 0) else .ok (settings, .code (-1))

def addTask (calls : CommandCalls) : Option Document → Outcome
  | none => .ok (settings, .code (-1))
  | some root =>
    match cJSONGetObjectItem root (ascii "torrent"), cJSONGetObjectItem root (ascii "save_path") with
    | some torrent, some savePath => do
      let torrent ← readString torrent.valuestring
      let savePath ← readString savePath.valuestring
      return (settings, .addTask (calls.addTask torrent savePath))
    | _, _ => .ok (settings, .code (-1))

/-- The members `time_out` and `port` are looked up and not used. -/
def setTracker : Option Document → Outcome
  | none => .ok (settings, .code (-1))
  | some root =>
    match cJSONGetObjectItem root (ascii "ip") with
    | none => .ok (settings, .code 0)
    | some ip => do
      let trackIp ← readString ip.valuestring
      let tracker := trackIp ++ [58] ++ signedDecimal trackPort
      if tracker.length < trackerSize then return (⟨some trackIp, tracker⟩, .code 0) else throw .overrun

/-- The `switch` of `process_msg`, for a body that was parsed or was not. -/
def command (calls : CommandCalls) (cmd : BtCmd) (root : Option Document) : Outcome :=
  match cmd with
  | .setTracker => settings.setTracker root
  | .addTask => settings.addTask calls root
  | .delTask => settings.delTask calls root
  | .makeTorrent => settings.makeTorrent calls root
  | .getTaskState => settings.getTaskState root

end TrackSettings

end BtServer

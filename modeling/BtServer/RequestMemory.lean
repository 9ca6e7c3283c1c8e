import BtServer.HttpServer
import BtServer.Lib.Memory

/-! The request parser on its buffer: `scan_urlencoded_query.c` and the handlers of
`ot_http.c` with the reads and writes they make, in place and without a length. The
memory of a run is all it may access, and a pointer is an index into it. -/

namespace BtServer.RequestMemory
open Lib

/-- What `scan_urlencoded_query` leaves: its return value, the pointer in `*string` and
the memory. -/
structure Scan where
  returned : Int
  string : Nat
  memory : Bytes
deriving DecidableEq, Repr

def scanStop (flag : ScanFlag) (string deststring : Nat) (memory : Bytes) (s d : Nat) (c : UInt8) : Scan :=
  let failed : Scan := ⟨-1, string, memory⟩
  let done : Nat → Scan := fun s => ⟨(d : Int) - deststring, s, memory⟩
  if c = 0 ∨ c = 13 ∨ c = 10 ∨ c = 32 then
    if d = deststring then ⟨-2, string, memory⟩ else done (s - 1)
  else if c = 63 then
    if flag ≠ .path then failed else done s
  else if c = 61 then
    if flag ≠ .param then failed else done s
  else if c = 38 then
    if flag = .path then failed
    else if flag = .param then done (s - 1)
    else done s
  else failed

def scanLoop {ε : Type} (flag : ScanFlag) (string deststring : Nat) :
    (fuel : Nat) → (memory : Bytes) → (s d : Nat) → Access ε Scan
  | 0, _, _, _ => .error .unfinished
  | fuel + 1, memory, s, d => do
    let c ← fetch memory s
    if flag.accepts c then
      if c = 37 then
        let high ← fetch memory (s + 1)
        if fromhex high = 0xff then .ok ⟨-1, string, memory⟩
        else
          let low ← fetch memory (s + 2)
          if fromhex low = 0xff then .ok ⟨-1, string, memory⟩
          else
            let memory ← store memory d (fromhex low ||| fromhex high <<< 4)
            scanLoop flag string deststring fuel memory (s + 3) (d + 1)
      else
        let memory ← store memory d c
        scanLoop flag string deststring fuel memory (s + 1) (d + 1)
    else .ok (scanStop flag string deststring memory (s + 1) d c)

def scanUrlencodedQuery {ε : Type} (memory : Bytes) (string deststring : Nat) (flag : ScanFlag) : Access ε Scan :=
  scanLoop flag string deststring (memory.length + 1) memory string deststring

def skipLoop {ε : Type} (memory : Bytes) : (fuel s : Nat) → Access ε Nat
  | 0, _ => .error .unfinished
  | fuel + 1, s => do
    let c ← fetch memory s
    if ScanFlag.value.accepts c then skipLoop memory fuel (s + 1)
    else if isUnreserved c &&& scanTerminator != 0 then .ok s
    else .ok (s + 1)

def scanUrlencodedSkipvalue {ε : Type} (memory : Bytes) (string : Nat) : Access ε Nat :=
  skipLoop memory (memory.length + 1) string

/-- What is read behind the NUL of a string, `none` when that stops the run. -/
abbrev Behind := CString → Nat → Option UInt8

def keyByte {ε : Type} (behind : Behind) (key : CString) (index : Nat) : Access ε UInt8 :=
  match (key.chars ++ [0])[index]? with
  | some c => .ok c
  | none =>
    match behind key index with
    | some c => .ok c
    | none => .error .outside

/-- The condition of `scan_find_keywords` for a keyword. -/
def keyFound {ε : Type} (behind : Behind) (key : CString) (token : Bytes) : Access ε Bool :=
  if strncmpEqual (key.chars ++ [0]) token then do
    let c ← keyByte behind key token.length
    .ok (c = 0)
  else .ok false

def findKeyword {ε κ : Type} (behind : Behind) (token : Bytes) : List (CString × κ) → Access ε (Keyword κ)
  | [] => .ok .unknown
  | keyword :: keywords => do
    if ← keyFound behind keyword.1 token then .ok (.found keyword.2) else findKeyword behind token keywords

structure Search (κ : Type) where
  returned : Keyword κ
  string : Nat
  memory : Bytes
deriving DecidableEq, Repr

def scanFindKeywords {ε κ : Type} (behind : Behind) (keywords : List (CString × κ)) (memory : Bytes) (string : Nat)
    (flag : ScanFlag) : Access ε (Search κ) := do
  let scan ← scanUrlencodedQuery memory string string flag
  if scan.returned = -2 then .ok ⟨.terminator, scan.string, scan.memory⟩
  else if scan.returned < 0 then .ok ⟨.error, scan.string, scan.memory⟩
  else if scan.returned = 0 then .ok ⟨.unknown, scan.string, scan.memory⟩
  else
    let token ← fetchBlock scan.memory string scan.returned.toNat
    let returned ← findKeyword behind token keywords
    .ok ⟨returned, scan.string, scan.memory⟩

/-- A table of keywords as the compiler lays it out. -/
def compiled {κ : Type} (keywords : List (String × κ)) : List (CString × κ) :=
  keywords.map fun keyword => (cString keyword.1, keyword.2)

def seekLoop (memory : Bytes) : (fuel read : Nat) → Access HttpError Nat
  | 0, _ => .error .unfinished
  | fuel + 1, read => do
    let c ← fetch memory read
    if c ≠ 63 ∧ c ≠ 10 then seekLoop memory fuel (read + 1)
    else if c = 10 then raise .param400
    else .ok (read + 1)

def seekQuery (memory : Bytes) (read : Nat) : Access HttpError Nat :=
  match read with
  | 0 => .error .outside
  | before + 1 => do
    let c ← fetch memory before
    if c ≠ 63 then seekLoop memory (memory.length + 1) read else .ok read

def takeValue (memory : Bytes) (read : Nat) : Access HttpError (Bytes × Scan) := do
  let scan ← scanUrlencodedQuery memory read read .value
  if scan.returned ≤ 0 then raise .param400
  else
    let value ← fetchBlock scan.memory read scan.returned.toNat
    .ok (value, scan)

def takeHash (memory : Bytes) (read deststring : Nat) : Access HttpError Scan := do
  let scan ← scanUrlencodedQuery memory read deststring .value
  if scan.returned ≠ 20 then raise .param400 else .ok scan

/-- The loop of `http_handle_announce`: what the numbers have set in the query, and where
the hash and the id of the peer stand. -/
structure Announce where
  query : Query
  hash : Option Nat
  peerId : Option Nat
  read : Nat
  memory : Bytes

def numberCase (state : Announce) (key : AnnounceKey) : Access HttpError Announce := do
  let taken ← takeValue state.memory state.read
  match state.query.setValue key taken.1 with
  | .error error => raise error
  | .ok query => .ok { state with query := query, read := taken.2.string, memory := taken.2.memory }

def announceCase (behind : Behind) (state : Announce) : AnnounceKey → Access HttpError Announce
  | .event => do
    let search ← scanFindKeywords behind (compiled keywordsAnnounceEvent) state.memory state.read .value
    let state := { state with read := search.string, memory := search.memory }
    match search.returned with
    | .error => raise .param400
    | .found event => .ok { state with query := { state.query with flag := state.query.flag ||| event.flag } }
    | .terminator | .unknown => .ok state
  | .infoHash =>
    if state.hash.isSome then raise .param400
    else do
      let scan ← takeHash state.memory state.read state.read
      .ok { state with hash := some state.read, read := scan.string, memory := scan.memory }
  | .peerId => do
    let scan ← takeHash state.memory state.read state.read
    .ok { state with peerId := some state.read, read := scan.string, memory := scan.memory }
  | key => numberCase state key

def announceLoop (behind : Behind) : (fuel : Nat) → Announce → Access HttpError Announce
  | 0, _ => .error .unfinished
  | fuel + 1, state => do
    let search ← scanFindKeywords behind (compiled keywordsAnnounce) state.memory state.read .param
    let state := { state with read := search.string, memory := search.memory }
    match search.returned with
    | .terminator => .ok state
    | .error => raise .param400
    | .unknown =>
      let read ← scanUrlencodedSkipvalue state.memory state.read
      announceLoop behind fuel { state with read := read }
    | .found key =>
      let state ← announceCase behind state key
      announceLoop behind fuel state

/-- What a request comes to that is not answered with an error. -/
inductive Outcome where
  | missingHash
  | call (call : Call)
  | stats (mode : Nat)

def httpHandleAnnounce (behind : Behind) (random : List Nat) (ip : Ip6) (age : UInt8) (memory : Bytes) (read : Nat) :
    Access HttpError Outcome := do
  let read ← seekQuery memory read
  let state ← announceLoop behind (memory.length + 1) ⟨.initial, none, none, read, memory⟩
  match state.hash with
  | none => .ok .missingHash
  | some position =>
    let hash ← fetchBlock state.memory position 20
    let peer : Peer := ⟨otSetip ip, state.query.port, state.query.flag, age⟩
    .ok (.call (announceCall .tcp random (hashAt hash 0) peer state.query.numwant.toNat))

/-- The loop of `http_handle_scrape`, which collects the hashes at the beginning of the
request: how many there are, and the memory. -/
def scrapeLoop (behind : Behind) :
    (fuel numwant : Nat) → (memory : Bytes) → (read : Nat) → Access HttpError (Nat × Bytes)
  | 0, _, _, _ => .error .unfinished
  | fuel + 1, numwant, memory, read => do
    let search ← scanFindKeywords behind (compiled keywordsScrape) memory read .param
    match search.returned with
    | .terminator => .ok (numwant, search.memory)
    | .error => raise .param400
    | .unknown =>
      let read ← scanUrlencodedSkipvalue search.memory search.string
      scrapeLoop behind fuel numwant search.memory read
    | .found _ =>
      let scan ← takeHash search.memory search.string (20 * numwant)
      scrapeLoop behind fuel (numwant + 1) scan.memory scan.string

def httpHandleScrape (behind : Behind) (memory : Bytes) (read : Nat) : Access HttpError Outcome := do
  let read ← seekQuery memory read
  let (numwant, memory) ← scrapeLoop behind (memory.length + 1) 0 memory read
  if numwant = 0 then raise .param400
  else
    let numwant := min numwant otMaxmultiscrapeCount
    let hashes ← fetchBlock memory 0 (20 * numwant)
    .ok (.call (.tcpScrape ((List.range numwant).map fun i => hashAt hashes (20 * i))))

def statsLoop (behind : Behind) : (fuel mode : Nat) → (memory : Bytes) → (read : Nat) → Access HttpError Nat
  | 0, _, _, _ => .error .unfinished
  | fuel + 1, mode, memory, read => do
    let search ← scanFindKeywords behind (compiled keywordsMain) memory read .param
    match search.returned with
    | .terminator => .ok mode
    | .error => raise .param400
    | .unknown =>
      let read ← scanUrlencodedSkipvalue search.memory search.string
      statsLoop behind fuel mode search.memory read
    | .found key =>
      let value ← scanFindKeywords behind (compiled key.keywords) search.memory search.string .value
      match value.returned with
      | .found number => statsLoop behind fuel (if key = .mode then number else mode) value.memory value.string
      | .error | .terminator | .unknown => raise .param400

def httpHandleStats (behind : Behind) (memory : Bytes) (read : Nat) : Access HttpError Outcome := do
  let mode ← statsLoop behind (memory.length + 1) taskStatsPeers memory read
  .ok (.stats mode)

/-- How many bytes two texts have in common before they differ. -/
def commonLength : Bytes → Bytes → Nat
  | a :: left, b :: right => if a = b then commonLength left right + 1 else 0
  | _, _ => 0

/-- Whether `memcmp` finds the memory at a pointer different from a text. It may look at
some bytes behind the first difference, though never at more than it is asked for. -/
def memcmp {ε : Type} (ahead : Nat) (memory : Bytes) (pointer : Nat) (text : Bytes) : Access ε Bool := do
  let compared := min text.length (commonLength (memory.drop pointer) text + 1 + ahead)
  let block ← fetchBlock memory pointer compared
  .ok (block ≠ text.take compared)

def skipSlashes {ε : Type} (memory : Bytes) : (fuel read : Nat) → Access ε Nat
  | 0, _ => .error .unfinished
  | fuel + 1, read => do
    let c ← fetch memory read
    if c = 47 then skipSlashes memory fuel (read + 1) else .ok read

/-- What `http_handle_request` meets: how far `memcmp` looks, what stands behind the
keywords, and the settings. -/
structure Machine where
  ahead : Nat
  behind : Behind
  redirecturl : Bool
  statsPath : Bytes
  random : List Nat
  ip : Ip6
  age : UInt8

/-- The handlers, for a path of `len` bytes at `write`. -/
def dispatch (machine : Machine) (memory : Bytes) (write : Nat) (len : Int) (read : Nat) : Access HttpError Outcome := do
  let c ← fetch memory write
  if c = 97 ∨ c = 63 then httpHandleAnnounce machine.behind machine.random machine.ip machine.age memory read
  else if ← memcmp machine.ahead memory write (ascii "sc") then
    if len = machine.statsPath.length then
      if ← memcmp machine.ahead memory write machine.statsPath then raise .notFound404
      else httpHandleStats machine.behind memory read
    else raise .notFound404
  else httpHandleScrape machine.behind memory read

def httpHandleRequest (machine : Machine) (memory : Bytes) : Access HttpError Outcome := do
  if ← memcmp machine.ahead memory 0 (ascii "GET /") then raise .badRequest400
  else
    let write ← skipSlashes memory (memory.length + 1) 4
    let scan ← scanUrlencodedQuery memory write write .path
    if machine.redirecturl ∧ scan.returned = -2 then raise .found302
    else if scan.returned ≤ 0 then raise .notFound404
    else dispatch machine scan.memory write scan.returned scan.string

end BtServer.RequestMemory

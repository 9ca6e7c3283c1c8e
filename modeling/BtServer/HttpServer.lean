import BtServer.Counters
import BtServer.UdpServer

/-! The HTTP server around `http_handle_request` with `WANT_KEEPALIVE`: `handle_read` of
`opentracker.c` and the sending half of `ot_http.c`. The connections of a thread share
one `ot_workstruct`, and nobody clears it between two requests. -/

namespace BtServer
open Lib

/-- The inner loop of `header_complete`: whether the line ends from position `i` on
complete a header, and the position it stops at. -/
def headerRun : (state i : Nat) → Bytes → Bool × Nat
  | _, i, [] => (false, i)
  | state, i, c :: rest =>
    if c = 13 ∨ c = 10 then
      let state := state / 4 ||| ((c.toNat * 64) &&& 0xc0)
      if state ≥ 0xa0 ∨ state = 0x99 then (true, i + 1) else headerRun state (i + 1) rest
    else (false, i)

/-- The outer loop, which looks at every second character. A `char` is signed, so
those from 128 on are looked at more closely too. -/
def headerFrom (request : Bytes) : (fuel i : Nat) → Nat
  | 0, _ => 0
  | fuel + 1, i =>
    match request[i]? with
    | none => 0
    | some c =>
      if c ≤ 13 ∨ 128 ≤ c then
        match headerRun 0 (i - 1) (request.drop (i - 1)) with
        | (true, size) => size
        | (false, stopped) => headerFrom request fuel (stopped + 2)
      else headerFrom request fuel (i + 2)

/-- `header_complete`: the size of the header, 0 when its end has not come yet. Its
callers pass at most 8192 bytes, so the `int` it counts with does not overflow. -/
def headerComplete (request : Bytes) : Nat := headerFrom request request.length 1

def lowerCase (c : UInt8) : UInt8 := if 65 ≤ c ∧ c ≤ 90 then c + 32 else c

def caseEqualb (left right : Bytes) : Bool := left.map lowerCase = right.map lowerCase

/-- `http_header`: the text after the first header of this name. -/
def httpHeader (data : Bytes) (byteCount : Nat) (header : Bytes) : Option Bytes :=
  ((List.range (byteCount - (header.length + 2))).find? fun i =>
    data[i]? = some 10 && data[i + header.length + 1]? = some 58 &&
      caseEqualb ((data.drop (i + 1)).take header.length) header).map fun i =>
        (data.drop (i + header.length + 2)).dropWhile fun c => c = 32 || c = 9

def wantsKeepAlive (request : Bytes) (headerSize : Nat) : Bool :=
  match (httpHeader request headerSize (ascii "connection")).bind List.head? with
  | some c => c = 75 || c = 107
  | none => false

/-- The characters a scan writes, also one that fails. -/
def scanWritten (flag : ScanFlag) : Bytes → Bytes
  | [] => []
  | c :: s =>
    if flag.accepts c then
      if c = 37 then
        match s with
        | high :: low :: s =>
          if fromhex high = 0xff then []
          else if fromhex low = 0xff then []
          else (fromhex low ||| fromhex high <<< 4) :: scanWritten flag s
        | _ => []
      else c :: scanWritten flag s
    else []

/-- A scan in place of the text `read`, which ends a request of `size` bytes: the
position it writes to and what it writes there. -/
def scanInPlace (size : Nat) (flag : ScanFlag) (read : Bytes) : Nat × Bytes :=
  (size - read.length, scanWritten flag read)

section Writes
variable (literals : Literals)

def announceWrites (size : Nat) : (fuel : Nat) → Query → Bytes → List (Nat × Bytes)
  | 0, _, _ => []
  | fuel + 1, query, read =>
    scanInPlace size .param read ::
      match scanFindKeywords literals keywordsAnnounce .param read with
      | (.terminator, _) | (.error, _) => []
      | (.unknown, rest) => announceWrites size fuel query (scanUrlencodedSkipvalue rest)
      | (.found key, rest) =>
        -- A second hash is refused before its value is scanned.
        if key = .infoHash ∧ query.hash.isSome then []
        else
          scanInPlace size .value rest ::
            match announceParam literals query key rest with
            | .error _ => []
            | .ok scanned => announceWrites size fuel scanned.1 scanned.2

/-- A scrape collects the hashes at the beginning of the request. -/
def scrapeWrites (size : Nat) : (fuel numwant : Nat) → Bytes → List (Nat × Bytes)
  | 0, _, _ => []
  | fuel + 1, numwant, read =>
    scanInPlace size .param read ::
      match scanFindKeywords literals keywordsScrape .param read with
      | (.terminator, _) | (.error, _) => []
      | (.unknown, rest) => scrapeWrites size fuel numwant (scanUrlencodedSkipvalue rest)
      | (.found _, rest) =>
        (20 * numwant, scanWritten .value rest) ::
          match scanValue rest with
          | .error _ => []
          | .ok scanned => if scanned.1.length ≠ 20 then [] else scrapeWrites size fuel (numwant + 1) scanned.2

inductive StatsKey where
  | mode
  | format
deriving DecidableEq, Repr

def keywordsMain : List (String × StatsKey) := [("mode", .mode), ("format", .format)]

def keywordsMode : List (String × Nat) :=
  [("peer", 0x0102), ("conn", 0x0001), ("scrp", 0x0004), ("udp4", 0x0003), ("tcp4", 0x0002), ("busy", 0x0009),
    ("torr", 0x0101), ("fscr", 0x0005), ("s24s", 0x0103), ("tpbs", 0x0006), ("herr", 0x0007), ("completed", 0x000c),
    ("top100", 0x0105), ("top10", 0x0104), ("renew", 0x000a), ("syncs", 0x000b), ("version", 0x0008),
    ("everything", 0x0106), ("statedump", 0x0205), ("fulllog", 0x0107), ("woodpeckers", 0x0108)]

def keywordsFormat : List (String × Nat) :=
  [("bin", 0x0201), ("ben", 0x0200), ("url", 0x0204), ("txt", 0x0202), ("txtp", 0x0203)]

def StatsKey.keywords : StatsKey → List (String × Nat)
  | .mode => keywordsMode
  | .format => keywordsFormat

/-- The loop of `http_handle_stats`. The format is scanned, but only full scrapes
would use it. -/
def statsScan : (fuel mode : Nat) → Bytes → Except HttpError Nat
  | 0, mode, _ => .ok mode
  | fuel + 1, mode, read =>
    match scanFindKeywords literals keywordsMain .param read with
    | (.terminator, _) => .ok mode
    | (.error, _) => .error .param400
    | (.unknown, rest) => statsScan fuel mode (scanUrlencodedSkipvalue rest)
    | (.found key, rest) =>
      match scanFindKeywords literals key.keywords .value rest with
      | (.found value, rest) => statsScan fuel (if key = .mode then value else mode) rest
      | _ => .error .param400

def statsWrites (size : Nat) : (fuel : Nat) → Bytes → List (Nat × Bytes)
  | 0, _ => []
  | fuel + 1, read =>
    scanInPlace size .param read ::
      match scanFindKeywords literals keywordsMain .param read with
      | (.terminator, _) | (.error, _) => []
      | (.unknown, rest) => statsWrites size fuel (scanUrlencodedSkipvalue rest)
      | (.found key, rest) =>
        scanInPlace size .value rest ::
          match scanFindKeywords literals key.keywords .value rest with
          | (.found _, rest) => statsWrites size fuel rest
          | _ => []

/-- Everything `http_handle_request` and its handlers write over a request, in order. -/
def requestWrites (statsPath request : Bytes) : List (Nat × Bytes) :=
  if request.take 5 ≠ ascii "GET /" then []
  else
    let size := request.length
    let path := (request.drop 4).dropWhile fun c => c = 47
    scanInPlace size .path path ::
      match scanUrlencodedQuery .path path with
      | .terminator | .error => []
      | .text decoded read =>
        let query := seekQuery (path.take (path.length - read.length)).getLast? read
        if decoded = [] then []
        else if decoded.head? = some 97 ∨ decoded.head? = some 63 then
          match query with
          | .error _ => []
          | .ok query => announceWrites literals size (read.length + 1) .initial query
        else if decoded.take 2 = ascii "sc" then
          match query with
          | .error _ => []
          | .ok query => scrapeWrites literals size (read.length + 1) 0 query
        else if decoded = statsPath then statsWrites literals size (read.length + 1) read
        else []

/-- A request after the handlers have decoded it in place. -/
def decodeInPlace (statsPath request : Bytes) : Bytes :=
  (requestWrites literals statsPath request).foldl (fun buffer write => overwrite buffer write.1 write.2) request

end Writes

/-- What stands behind the keywords, `g_redirecturl` and `g_stats_path`. -/
structure HttpSetup where
  literals : Literals
  redirecturl : Option Bytes
  statsPath : Bytes

/-- What one request meets: the clock, how long ago `time( NULL )` says the tracker was started, what the allocations
and `random` return, how much of the reply `write` takes (`none` when it fails), and whether there is memory for the
rest. -/
structure HttpTurn where
  gNowSeconds : Int
  uptime : Int
  heap : Heap
  random : List Nat
  written : Option Nat
  outbuf : Bool

/-- What a request comes to: an error of `http_handle_request` itself, one of a
handler, a task for another thread, or the content of a reply. -/
inductive HttpAnswer where
  | refused (error : HttpError)
  | failed (error : HttpError)
  | delivered (mode : Nat)
  | content (bytes : Bytes)
deriving DecidableEq, Repr

def HttpError.answer : HttpError → HttpAnswer
  | .found302 => .refused .found302
  | .badRequest400 => .refused .badRequest400
  | .notFound404 => .refused .notFound404
  | .param400 => .failed .param400
  | .compact400 => .failed .compact400

def taskStatsPeers : Nat := 0x0102

def forgotHash : String :=
  "d14:failure reason80:Your client forgot to send your torrent's info_hash. Please upgrade your client.e"

def HttpSetup.httpHandleStats (setup : HttpSetup) (counters : Counters) (uptime : Int) (read : Bytes) : HttpAnswer :=
  match statsScan setup.literals (read.length + 1) taskStatsPeers read with
  | .error error => error.answer
  | .ok mode =>
    if mode &&& taskClassMask = taskStats then .delivered mode
    else .content (counters.returnStatsForTracker uptime mode)

/-- The events of a request that calls the tracker. -/
def Tracker.issued (tracker : Tracker) (event : Event) : List StatsEvent :=
  ((tracker.served event).elim [] Served.events).concat
    (match event.call with
    | .tcpScrape _ => .scrape .tcp
    | _ => .announce .tcp)

/-- The answer to a request, the store it leaves, the events it issues and the age it leaves in `ws->peer`; `none` when the
reply is never finished. -/
def HttpSetup.answer (setup : HttpSetup) (turn : HttpTurn) (ip : Ip6) (age : UInt8) (tracker : Tracker)
    (counters : Counters) (request : Bytes) : Option (HttpAnswer × Tracker × List StatsEvent × UInt8) :=
  match httpHandleRequest setup.literals setup.redirecturl.isSome setup.statsPath turn.random ip age request with
  | .error error => some (error.answer, tracker, [], age)
  | .missingHash => some (.content (ascii forgotHash), tracker, [], age)
  | .stats read => some (setup.httpHandleStats counters turn.uptime read, tracker, [], age)
  | .call made =>
    let event : Event := ⟨turn.gNowSeconds, turn.heap, made⟩
    (tracker.answer event).map fun bytes =>
      (.content bytes, tracker.apply event, tracker.issued event, if (tracker.served event).isSome then 0 else age)

/-- The text of `http_issue_error` for a title of a code and a reason. -/
def errorPage (code reason : String) : Bytes :=
  ascii "HTTP/1.0 " ++ ascii code ++ ascii " " ++ ascii reason ++
    ascii "\r\nContent-Type: text/html\r\nContent-Length: " ++ decimal (reason.length + 16) ++
    ascii "\r\n\r\n<title>" ++ ascii reason ++ ascii "</title>\n"

def internalErrorPage : Bytes := errorPage "500" "Internal Server Error"

def HttpSetup.errorPage (setup : HttpSetup) : HttpError → Bytes
  | .found302 =>
    ascii "HTTP/1.0 302 Found\r\nContent-Length: 0\r\nLocation: " ++ setup.redirecturl.getD [] ++ ascii "\r\n\r\n"
  | .badRequest400 | .param400 | .compact400 => BtServer.errorPage "400" "Invalid Request"
  | .notFound404 => BtServer.errorPage "404" "Not Found"

/-- The reply made of a content, or the error page when there is none. -/
def contentReply (content : Bytes) : Bytes :=
  if content = [] then internalErrorPage
  else ascii "HTTP/1.1 200 OK\r\nContent-Type: text/plain\r\nContent-Length: " ++ decimal content.length ++
    ascii "\r\n\r\n" ++ content

/-- What `struct ot_workstruct` keeps from one request to the next. `ws->request`
points at `inbuf` or into the request array of some connection. -/
structure WorkStruct where
  inbuf : Bytes
  atInbuf : Bool
  requestSize : Nat
  headerSize : Nat
  keepAlive : Bool
  age : UInt8
deriving DecidableEq, Repr

/-- `struct http_data`, and whether the event loop reports the socket as readable.
Before anything is put into it and after a reset the array `request` is `none`. -/
structure HttpData where
  ip : Ip6
  request : Option Bytes
  batch : Bytes
  wantRead : Bool
deriving DecidableEq, Repr

/-- `http_senddata`, with the bytes at `ws->request`: the connection it leaves, `none`
when it closes it. -/
def WorkStruct.httpSenddata (work : WorkStruct) (turn : HttpTurn) (bytes : Bytes) (cookie : HttpData)
    (reply : Bytes) : Option HttpData :=
  let request :=
    if work.keepAlive ∧ work.headerSize ≠ work.requestSize then
      some ((bytes.drop work.headerSize).take (work.requestSize - work.headerSize))
    else none
  match turn.written with
  | none => none
  | some taken =>
    if taken < reply.length then
      if turn.outbuf then
        some { cookie with
          request := request
          batch := cookie.batch ++ reply.drop taken
          wantRead := cookie.wantRead && work.keepAlive }
      else none
    else if work.keepAlive then some { cookie with request := request }
    else none

/-- What handling what came in on a connection works on: besides the shared structure,
the store and the counters the connection's cookie, `none` once it is freed, the
replies given to `write` and the tasks given to another thread. -/
structure HttpState where
  work : WorkStruct
  tracker : Tracker
  counters : Counters
  cookie : Option HttpData
  sent : List Bytes
  tasks : List Nat

/-- How the handling of what came in ends: it returns, it goes on to read a request
array that was freed, or it has not returned yet when the turns are used up. -/
inductive HttpResult where
  | returned (state : HttpState)
  | freed (state : HttpState)
  | unfinished (state : HttpState)

namespace HttpState

def send (state : HttpState) (turn : HttpTurn) (bytes : Bytes) (cookie : HttpData) (reply : Bytes) : HttpState :=
  { state with cookie := state.work.httpSenddata turn bytes cookie reply, sent := state.sent ++ [reply] }

def issue (state : HttpState) (event : StatsEvent) : HttpState :=
  { state with counters := state.counters.statsIssueEvent event }

/-- `http_issue_error`. -/
def httpIssueError (state : HttpState) (turn : HttpTurn) (bytes : Bytes) (cookie : HttpData) (code : Nat)
    (page : Bytes) : HttpState :=
  (state.issue (.failed code)).send turn bytes cookie page

def setKeepAlive (state : HttpState) (keepAlive : Bool) : HttpState :=
  { state with work := { state.work with keepAlive := keepAlive } }

/-- `http_handle_request` after a handler has sent an error: it looks for the
connection header all the same. When the request stood in the array, `http_senddata`
has moved what followed it to the front, or freed the array. -/
def afterError (state : HttpState) (buffer : Bytes) : HttpResult :=
  if state.work.atInbuf then .returned (state.setKeepAlive (wantsKeepAlive buffer state.work.headerSize))
  else match state.cookie.bind HttpData.request with
    | none => .freed state
    | some rest => .returned (state.setKeepAlive (wantsKeepAlive (overwrite buffer 0 rest) state.work.headerSize))

/-- `http_handle_request` once the answer is known. Errors are sent before
`ws->keep_alive` is set for the request; `http_handle_request` returns after its own. -/
def reply (state : HttpState) (setup : HttpSetup) (turn : HttpTurn) (cookie : HttpData) (buffer : Bytes)
    (answer : HttpAnswer) : HttpResult :=
  let keepAlive := wantsKeepAlive buffer state.work.headerSize
  match answer with
  | .refused error => .returned (state.httpIssueError turn buffer cookie error.code (setup.errorPage error))
  | .failed error => (state.httpIssueError turn buffer cookie error.code (setup.errorPage error)).afterError buffer
  | .delivered mode =>
    .returned { state.setKeepAlive keepAlive with cookie := some cookie, tasks := state.tasks ++ [mode] }
  | .content bytes =>
    let state := if bytes = [] then state.issue (.failed codeHttperror500) else state
    .returned ((state.setKeepAlive keepAlive).send turn buffer cookie (contentReply bytes))

/-- `http_handle_request` on a request that `ws->request`, `ws->request_size` and
`ws->header_size` describe. -/
def httpHandleRequest (state : HttpState) (setup : HttpSetup) (turn : HttpTurn) (cookie : HttpData)
    (request : Bytes) : HttpResult :=
  let buffer := decodeInPlace setup.literals setup.statsPath request
  let inbuf := if state.work.atInbuf then overwrite state.work.inbuf 0 buffer else state.work.inbuf
  let cookie := if state.work.atInbuf then cookie else { cookie with request := some buffer }
  match setup.answer turn cookie.ip state.work.age state.tracker state.counters request with
  | none => .unfinished state
  | some (answer, tracker, events, age) =>
    HttpState.reply
      { state with
        work := { state.work with inbuf := inbuf, age := age }
        tracker := tracker
        counters := events.foldl Counters.statsIssueEvent state.counters }
      setup turn cookie buffer answer

/-- The condition of the loop of `handle_read`: the next request of the array, or the
end of the loop. -/
def pending (state : HttpState) : Except HttpResult (HttpData × Bytes × HttpState) :=
  match state.cookie with
  | none => .error (.freed state)
  | some cookie =>
    let request := cookie.request.getD []
    let size := headerComplete request
    let work := { state.work with headerSize := size }
    if size = 0 then .error (.returned { state with work := work })
    else .ok (cookie, request, { state with work := { work with atInbuf := false, requestSize := request.length } })

def readLoop (setup : HttpSetup) : List HttpTurn → HttpState → HttpResult
  | [], state =>
    match state.pending with
    | .error result => result
    | .ok (_, _, state) => .unfinished state
  | turn :: turns, state =>
    match state.pending with
    | .error result => result
    | .ok (cookie, request, state) =>
      match state.httpHandleRequest setup turn cookie request with
      | .returned state => if state.work.keepAlive then readLoop setup turns state else .returned state
      | result => result

end HttpState

/-- What comes in for a connection: bytes to read, with the turns its requests are
going to have, or the result of a task. -/
inductive HttpInput where
  | read (arrived : Bytes) (turns : List HttpTurn)
  | result (entries : List Bytes) (header : Bool) (turn : HttpTurn)

def maxRequestBytes : Nat := 8192

namespace HttpState

/-- The bytes at `ws->request`. `memory` is what stands where the array of the request
that was handled last is, or was. -/
def oldRequest (state : HttpState) (memory : Bytes) : Bytes :=
  if state.work.atInbuf then state.work.inbuf else memory

/-- `http_issue_error` with `CODE_HTTPERROR_500`, outside of a request. -/
def internalError (state : HttpState) (turn : HttpTurn) (memory : Bytes) (cookie : HttpData) : HttpState :=
  state.httpIssueError turn (state.oldRequest memory) cookie codeHttperror500 internalErrorPage

/-- `handle_read`, when `byte_count` is positive. -/
def handleRead (state : HttpState) (setup : HttpSetup) (memory : Bytes) (cookie : HttpData) (bytes : Bytes)
    (turns : List HttpTurn) : HttpResult :=
  let work := { state.work with inbuf := overwrite state.work.inbuf 0 bytes }
  match cookie.request with
  | none =>
    let size := headerComplete bytes
    let work := { work with headerSize := size }
    if size = 0 then .returned { state with work := work, cookie := some { cookie with request := some bytes } }
    else
      let state := { state with work := { work with atInbuf := true, requestSize := bytes.length } }
      match turns with
      | [] => .unfinished state
      | turn :: _ => state.httpHandleRequest setup turn cookie bytes
  | some collected =>
    let cookie := { cookie with request := some (collected ++ bytes) }
    let state := { state with work := work, cookie := some cookie }
    if (collected ++ bytes).length > maxRequestBytes then
      match turns with
      | [] => .unfinished state
      | turn :: _ => .returned (state.internalError turn memory cookie)
    else state.readLoop setup turns

def resultHeader (size : Nat) : Bytes :=
  ascii "HTTP/1.0 200 OK\r\nContent-Type: text/plain\r\nContent-Length: " ++ decimal size ++ ascii "\r\n\r\n"

/-- `http_sendiovecdata`; `header` when there is memory for the header. -/
def httpSendiovecdata (state : HttpState) (memory : Bytes) (cookie : HttpData) (entries : List Bytes)
    (header : Bool) (turn : HttpTurn) : HttpState :=
  let cookie := { cookie with request := none }
  if entries = [] ∨ header = false then state.internalError turn memory cookie
  else
    let content := entries.flatten
    { state with cookie := some { cookie with batch := resultHeader content.length ++ content, wantRead := false } }

/-- What the main loop does with what comes in; a connection that sends nothing more
is closed. -/
def input (state : HttpState) (setup : HttpSetup) (memory : Bytes) (cookie : HttpData) : HttpInput → HttpResult
  | .read arrived turns =>
    let bytes := arrived.take gInbufSize
    if bytes = [] then .returned { state with cookie := none }
    else state.handleRead setup memory cookie bytes turns
  | .result entries header turn => .returned (state.httpSendiovecdata memory cookie entries header turn)

end HttpState

/-- Whether the main loop can come to an input: it reads only where it wants to. -/
def HttpInput.possible (cookie : HttpData) : HttpInput → Bool
  | .read _ _ => cookie.wantRead
  | .result _ _ _ => true

structure HttpServer where
  work : WorkStruct
  tracker : Tracker
  counters : Counters
  cookies : (sock : Nat) → Option HttpData

inductive HttpEvent where
  | accept (sock : Nat) (ip : Ip6)
  | input (sock : Nat) (input : HttpInput) (memory : Bytes)
  | progress (sock written : Nat)
  | dead (sock : Nat)

def HttpEvent.sock : HttpEvent → Nat
  | .accept sock _ | .input sock _ _ | .progress sock _ | .dead sock => sock

namespace HttpServer

def state (server : HttpServer) (cookie : HttpData) : HttpState :=
  ⟨server.work, server.tracker, server.counters, some cookie, [], []⟩

def result (server : HttpServer) (setup : HttpSetup) (sock : Nat) (input : HttpInput) (memory : Bytes) :
    Option HttpResult :=
  match server.cookies sock with
  | none => none
  | some cookie => if input.possible cookie then some ((server.state cookie).input setup memory cookie input) else none

/-- One round of the main loop for one socket; `none` when there is no such event or
its handling does not come to an end. `handle_write` sends some of a batch, and closes
the connection after the last of it. -/
def apply (server : HttpServer) (setup : HttpSetup) : HttpEvent → Option HttpServer
  | .accept sock ip =>
    match server.cookies sock with
    | none =>
      some { server with
        counters := server.counters.statsIssueEvent (.accept .tcp)
        cookies := Function.update server.cookies sock (some ⟨ip, none, [], true⟩) }
    | some _ => none
  | .input sock input memory =>
    match server.result setup sock input memory with
    | some (.returned state) =>
      some ⟨state.work, state.tracker, state.counters, Function.update server.cookies sock state.cookie⟩
    | _ => none
  | .progress sock written =>
    match server.cookies sock with
    | none => none
    | some cookie =>
      if written < cookie.batch.length then
        some { server with
          cookies := Function.update server.cookies sock (some { cookie with batch := cookie.batch.drop written }) }
      else none
  | .dead sock => some { server with cookies := Function.update server.cookies sock none }

def Step (setup : HttpSetup) (before : HttpServer) (event : HttpEvent) (after : HttpServer) : Prop :=
  before.apply setup event = some after

end HttpServer

inductive HttpEnding where
  | returned
  | freed
  | unfinished
deriving DecidableEq, Repr

/-- What the client and the other threads get to see of the handling of an input: how
it ended, the replies, the tasks, and the connection with the bytes it retains. -/
structure Observation where
  ending : HttpEnding
  sent : List Bytes
  tasks : List Nat
  cookie : Option HttpData
deriving DecidableEq, Repr

def HttpState.observe (state : HttpState) (ending : HttpEnding) : Observation :=
  ⟨ending, state.sent, state.tasks, state.cookie⟩

def HttpResult.observe : HttpResult → Observation
  | .returned state => state.observe .returned
  | .freed state => state.observe .freed
  | .unfinished state => state.observe .unfinished

def HttpServer.observe (server : HttpServer) (setup : HttpSetup) (sock : Nat) (input : HttpInput) (memory : Bytes) :
    Option Observation :=
  (server.result setup sock input memory).map HttpResult.observe

end BtServer

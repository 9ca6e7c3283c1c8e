import BtServer.Lib.Buffer
import BtServer.Scan
import BtServer.Tracker

/-! Requests as they come in, `http_handle_request` and what it calls in `ot_http.c`,
and `handle_udp6` of `ot_udp.c`: which calls of the tracker a request is. The bytes
of `ws->peer` that a handler does not set are whatever they were. -/

namespace BtServer
open Lib

abbrev Ip6 := Vector UInt8 16

/-- `OT_SETIP` of the default build, which stores IPv4 addresses. -/
def otSetip (ip : Ip6) : Vector UInt8 4 := Vector.ofFn fun i => ip[12 + i.val]

def hashAt (buffer : Bytes) (offset : Nat) : Hash := Vector.ofFn fun i => buffer.getD (offset + i.val) 0

/-- The low 16 bits of a number in network byte order. -/
def htons (n : Int32) : Vector UInt8 2 :=
  let n := (n.toInt % 2 ^ 16).toNat
  #v[(n / 256).toUInt8, (n % 256).toUInt8]

inductive HttpError where
  | found302
  | badRequest400
  | param400
  | compact400
  | notFound404
deriving DecidableEq, Repr

/-- What becomes of a request: an error reply, a reply that needs no torrent, or a
call of the tracker. -/
inductive HttpOutcome where
  | error (error : HttpError)
  | missingHash
  | stats (read : Bytes)
  | call (call : Call)
deriving DecidableEq

inductive AnnounceKey where
  | port
  | left
  | event
  | numwant
  | compact
  | infoHash
  | peerId
deriving DecidableEq, Repr

def keywordsAnnounce : List (String × AnnounceKey) :=
  [("port", .port), ("left", .left), ("event", .event), ("numwant", .numwant), ("compact", .compact),
    ("compact6", .compact), ("info_hash", .infoHash), ("peer_id", .peerId)]

inductive AnnounceEvent where
  | completed
  | stopped
deriving DecidableEq, Repr

def keywordsAnnounceEvent : List (String × AnnounceEvent) := [("completed", .completed), ("stopped", .stopped)]

def AnnounceEvent.flag : AnnounceEvent → UInt8
  | .completed => peerFlagCompleted
  | .stopped => peerFlagStopped

/-- What `http_handle_announce` has found in the query so far. -/
structure Query where
  port : Vector UInt8 2
  flag : UInt8
  numwant : Int
  hash : Option Hash
  peerId : Option Bytes
deriving DecidableEq, Repr

def Query.initial : Query := ⟨Vector.replicate 2 0, 0, 50, none, none⟩

def scanValue (read : Bytes) : Except HttpError (Bytes × Bytes) :=
  match scanUrlencodedQuery .value read with
  | .text decoded rest => if decoded = [] then .error .param400 else .ok (decoded, rest)
  | .error | .terminator => .error .param400

def Query.setValue (query : Query) (key : AnnounceKey) (value : Bytes) : Except HttpError Query :=
  let (tmp, unparsed) := scanFixedInt value
  match key with
  | .port => if unparsed ≠ 0 ∨ tmp > 0xffff then .error .param400 else .ok { query with port := htons tmp }
  | .left =>
    let tmp := if unparsed ≠ 0 then 0 else tmp
    .ok (if tmp = 0 then { query with flag := query.flag ||| peerFlagSeeding } else query)
  | .numwant =>
    if unparsed ≠ 0 then .error .param400
    else
      let numwant := if tmp < 0 then 50 else tmp
      .ok { query with numwant := if numwant > 200 then 200 else numwant.toInt }
  | .compact => if unparsed ≠ 0 then .error .param400 else if tmp = 0 then .error .compact400 else .ok query
  | .infoHash =>
    if query.hash.isSome then .error .param400
    else if value.length ≠ 20 then .error .param400
    else .ok { query with hash := some (hashAt value 0) }
  | .peerId => if value.length ≠ 20 then .error .param400 else .ok { query with peerId := some value }
  | .event => .ok query

section Handlers
variable (literals : Literals)

/-- The cases of `http_handle_announce` for a keyword it knows, and the position
after its value. -/
def announceParam (query : Query) (key : AnnounceKey) (read : Bytes) : Except HttpError (Query × Bytes) :=
  match key with
  | .event =>
    match scanFindKeywords literals keywordsAnnounceEvent .value read with
    | (.error, _) => .error .param400
    | (.found event, rest) => .ok ({ query with flag := query.flag ||| event.flag }, rest)
    | (.terminator, rest) | (.unknown, rest) => .ok (query, rest)
  | key => do
    let (value, rest) ← scanValue read
    .ok (← query.setValue key value, rest)

/-- The loop of `http_handle_announce`. Every turn but the last takes a character, so
the length of the text is fuel enough. -/
def announceScan : (fuel : Nat) → Query → Bytes → Except HttpError Query
  | 0, query, _ => .ok query
  | fuel + 1, query, read =>
    match scanFindKeywords literals keywordsAnnounce .param read with
    | (.terminator, _) => .ok query
    | (.error, _) => .error .param400
    | (.unknown, rest) => announceScan fuel query (scanUrlencodedSkipvalue rest)
    | (.found key, rest) => do
      let (query, rest) ← announceParam literals query key rest
      announceScan fuel query rest

/-- Clients may send a blank before the query: look for its question mark when it is
not the character before `read_ptr`. -/
def seekQuery (previous : Option UInt8) (read : Bytes) : Except HttpError Bytes :=
  if previous = some 63 then .ok read
  else match read.dropWhile fun c => c ≠ 63 ∧ c ≠ 10 with
    | 63 :: rest => .ok rest
    | _ => .error .param400

/-- The call for an announce, which `PEER_FLAG_STOPPED` makes a stop. -/
def announceCall (proto : Proto) (random : List Nat) (hash : Hash) (peer : Peer) (numwant : Nat) : Call :=
  if peer.flag &&& peerFlagStopped ≠ 0 then .stop proto hash peer random else .announce proto hash peer numwant random

/-- `http_handle_announce`; `ip` is the one of the cookie and `age` the age in `ws->peer`. -/
def httpHandleAnnounce (random : List Nat) (ip : Ip6) (age : UInt8) (previous : Option UInt8) (read : Bytes) :
    HttpOutcome :=
  match (do announceScan literals (read.length + 1) .initial (← seekQuery previous read)) with
  | .error error => .error error
  | .ok query =>
    match query.hash with
    | none => .missingHash
    | some hash => .call (announceCall .tcp random hash ⟨otSetip ip, query.port, query.flag, age⟩ query.numwant.toNat)

def otMaxmultiscrapeCount : Nat := 64

def keywordsScrape : List (String × Unit) := [("info_hash", ())]

def scrapeScan : (fuel : Nat) → List Hash → Bytes → Except HttpError (List Hash)
  | 0, hashes, _ => .ok hashes
  | fuel + 1, hashes, read =>
    match scanFindKeywords literals keywordsScrape .param read with
    | (.terminator, _) => .ok hashes
    | (.error, _) => .error .param400
    | (.unknown, rest) => scrapeScan fuel hashes (scanUrlencodedSkipvalue rest)
    | (.found _, rest) => do
      let (value, rest) ← scanValue rest
      if value.length ≠ 20 then .error .param400 else scrapeScan fuel (hashes ++ [hashAt value 0]) rest

def httpHandleScrape (previous : Option UInt8) (read : Bytes) : HttpOutcome :=
  match (do scrapeScan literals (read.length + 1) [] (← seekQuery previous read)) with
  | .error error => .error error
  | .ok [] => .error .param400
  | .ok hashes => .call (.tcpScrape (hashes.take otMaxmultiscrapeCount))

/-- `http_handle_request`. Announces and scrapes are told apart by the beginning of
the path. -/
def httpHandleRequest (redirecturl : Bool) (statsPath : Bytes) (random : List Nat) (ip : Ip6) (age : UInt8)
    (request : Bytes) : HttpOutcome :=
  if request.take 5 ≠ ascii "GET /" then .error .badRequest400
  else
    let path := (request.drop 4).dropWhile fun c => c = 47
    match scanUrlencodedQuery .path path with
    | .terminator => .error (if redirecturl then .found302 else .notFound404)
    | .error => .error .notFound404
    | .text decoded read =>
      let previous := (path.take (path.length - read.length)).getLast?
      if decoded = [] then .error .notFound404
      else if decoded.head? = some 97 ∨ decoded.head? = some 63 then httpHandleAnnounce literals random ip age previous read
      else if decoded.take 2 = ascii "sc" then httpHandleScrape literals previous read
      else if decoded = statsPath then .stats read
      else .error .notFound404

end Handlers

/-- What becomes of a packet: nothing, a reply, or calls of the tracker whose replies
follow `header`. -/
inductive UdpOutcome where
  | ignored
  | reply (bytes : Bytes)
  | calls (header : Bytes) (calls : List Call)

def inpacket (inbuf : Bytes) (i : Nat) : Bytes := (inbuf.drop (4 * i)).take 4

def udpAnnounce (random : List Nat) (remoteip : Ip6) (age : UInt8) (inbuf : Bytes) : Call :=
  let left := littleEndian (inpacket inbuf 16) ||| littleEndian (inpacket inbuf 17)
  let numwant := bigEndian (inpacket inbuf 23)
  let numwant := if numwant > 200 then 200 else numwant
  let event := bigEndian (inpacket inbuf 20)
  let flag : UInt8 := if event = 1 then peerFlagCompleted else if event = 3 then peerFlagStopped else 0
  let flag := if left = 0 then flag ||| peerFlagSeeding else flag
  announceCall .udp random (hashAt inbuf 16) ⟨otSetip remoteip, #v[inbuf.getD 96 0, inbuf.getD 97 0], flag, age⟩ numwant

/-- `handle_udp6` on a packet of `byteCount` bytes in `inbuf`. `connid` is what
`udp_make_connectionid` makes of the remote address for an age of the key. -/
def handleUdp6 (random : List Nat) (connid : Nat → Bytes) (remoteip : Ip6) (age : UInt8) (inbuf : Bytes)
    (byteCount : Nat) : UdpOutcome :=
  let action := bigEndian (inpacket inbuf 2)
  if byteCount < 16 ∨ action > 2 then .ignored
  else if action > 0 ∧ inbuf.take 8 ≠ connid 0 ∧ inbuf.take 8 ≠ connid 1 then
    .reply (htonl 3 ++ inpacket inbuf 3 ++ ascii "Connection ID missmatch." ++ [0])
  else if action = 0 then
    if bigEndian (inpacket inbuf 0) ≠ 0x00000417 ∨ bigEndian (inpacket inbuf 1) ≠ 0x27101980 then .ignored
    else .reply (htonl 0 ++ inpacket inbuf 3 ++ connid 0)
  else if action = 1 then
    if byteCount < 98 then .ignored
    else .calls (htonl 1 ++ inpacket inbuf 3) [udpAnnounce random remoteip age inbuf]
  else
    -- One scrape for every 20 bytes that have begun, at most 75 of them.
    let count := min 75 ((byteCount - 16 + 19) / 20)
    .calls (htonl 2 ++ inpacket inbuf 3) ((List.range count).map fun i => .udpScrape (hashAt inbuf (16 + 20 * i)))

def HttpOutcome.apply (outcome : HttpOutcome) (gNowSeconds : Int) (heap : Heap) (tracker : Tracker) : Tracker :=
  match outcome with
  | .call made => tracker.apply ⟨gNowSeconds, heap, made⟩
  | .error _ | .missingHash | .stats _ => tracker

/-- Each call has its own outcomes of allocations. -/
def UdpOutcome.apply (outcome : UdpOutcome) (gNowSeconds : Int) (heaps : Nat → Heap) (tracker : Tracker) : Tracker :=
  match outcome with
  | .calls _ made => made.zipIdx.foldl (fun tracker (call, i) => tracker.apply ⟨gNowSeconds, heaps i, call⟩) tracker
  | .ignored | .reply _ => tracker

end BtServer

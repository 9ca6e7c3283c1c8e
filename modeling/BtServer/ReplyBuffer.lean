import BtServer.RequestMemory

/-! The replies to HTTP requests as they are written to `ws->outbuf`: the functions of
`trackerlogic.c` that write them behind the space for a header, and the end of
`http_handle_request`, which puts the header in front. `sprintf` writes a NUL behind its text. -/

namespace BtServer.ReplyBuffer
open Lib

def gOutbufSize : Nat := 8192

def successHttpHeaderLength : Nat := 80

def successHttpSizeOff : Nat := 17

/-- `return_peers_selection` divides by zero. -/
inductive Trap where
  | division
deriving DecidableEq, Repr

def sprintf (outbuf : Bytes) (r : Nat) (text : Bytes) : Access Trap (Bytes × Nat) := do
  let outbuf ← storeBlock outbuf r (text ++ [0])
  .ok (outbuf, r + text.length)

/-- The pointers `reply` and `r_end` between which peers are still to be written. -/
structure PeerRoom where
  outbuf : Bytes
  reply : Nat
  rEnd : Nat

def PeerRoom.put (room : PeerRoom) (peer : Peer) : Access Trap PeerRoom :=
  if peer.seeding then
    if room.rEnd < otPeerCompareSize then .error .outside
    else do
      let outbuf ← storeBlock room.outbuf (room.rEnd - otPeerCompareSize) peer.addr
      .ok { room with outbuf := outbuf, rEnd := room.rEnd - otPeerCompareSize }
  else do
    let outbuf ← storeBlock room.outbuf room.reply peer.addr
    .ok { room with outbuf := outbuf, reply := room.reply + otPeerCompareSize }

/-- `return_peers_all`: the buffer, and the pointer behind the peers. -/
def returnPeersAll (peerList : PeerList) (outbuf : Bytes) (reply : Nat) : Access Trap (Bytes × Nat) := do
  let result := otPeerCompareSize * peerList.peerCount
  let room ← peerList.peers.all.foldlM PeerRoom.put ⟨outbuf, reply, reply + result⟩
  .ok (room.outbuf, reply + result)

def selectPeers (vectors : List (OtVector Peer)) (shiftedStep shift : Nat) :
    (amount index offset : Nat) → List Nat → PeerRoom → Access Trap PeerRoom
  | 0, _, _, _, room => .ok room
  | amount + 1, index, offset, random, room =>
    let diff := ((amount + 1) * shiftedStep / 2 ^ shift - amount * shiftedStep / 2 ^ shift) % 2 ^ 32
    if diff = 0 then raise .division
    else
      let (value, random) := draw random
      let offset := (offset + 1 + value % diff) % 2 ^ 32
      match seekBucket vectors ((offset + 1) * vectors.length + 1) index offset with
      | none => .error .unfinished
      | some (index, offset) => do
        let peer ← fetch (vectors.getD index .empty).data offset
        let room ← room.put peer
        selectPeers vectors shiftedStep shift amount index offset random room

def returnPeersSelection (random : List Nat) (peerList : PeerList) (amount : Nat) (outbuf : Bytes) (reply : Nat) :
    Access Trap (Bytes × Nat) :=
  match shiftPeerCount 32 (peerList.peerCount % 2 ^ 32) 0 with
  | none => .error .unfinished
  | some (shiftedPc, shift) => do
    let (value, random) := draw random
    let result := otPeerCompareSize * amount
    let room ← selectPeers peerList.peers.bucketList (shiftedPc / amount) shift amount 0 (value % peerList.peerCount) random
      ⟨outbuf, reply, reply + result⟩
    .ok (room.outbuf, reply + result)

def announceText (peerList : PeerList) (erval amount : Nat) : Bytes :=
  ascii "d8:completei" ++ sizeDecimal peerList.seedCount ++ ascii "e10:downloadedi" ++ sizeDecimal peerList.downCount ++
    ascii "e10:incompletei" ++ sizeDecimal (subSize peerList.peerCount peerList.seedCount) ++ ascii "e8:intervali" ++
    decimal erval ++ ascii "e12:min intervali" ++ decimal (erval / 2) ++ ascii "e5:peers" ++
    sizeDecimal (otPeerCompareSize * amount) ++ ascii ":"

def writePeers (random : List Nat) (peerList : PeerList) (amount : Nat) (outbuf : Bytes) (r : Nat) :
    Access Trap (Bytes × Nat) :=
  if amount = 0 then .ok (outbuf, r)
  else if amount = peerList.peerCount then returnPeersAll peerList outbuf r
  else returnPeersSelection random peerList amount outbuf r

/-- `return_peers_for_torrent` for `FLAG_TCP`: the buffer, and the size of the reply. -/
def returnPeersForTorrent (random : List Nat) (peerList : PeerList) (amount : Nat) (outbuf : Bytes) (reply : Nat) :
    Access Trap (Bytes × Nat) := do
  let amount := if amount > peerList.peerCount then peerList.peerCount else amount
  let (value, random) := draw random
  let (outbuf, r) ← sprintf outbuf reply (announceText peerList (otClientRequestIntervalRandom value) amount)
  let (outbuf, r) ← writePeers random peerList amount outbuf r
  let outbuf ← store outbuf r 101
  .ok (outbuf, r + 1 - reply)

def scrapeText (peerList : PeerList) : Bytes :=
  ascii "d8:completei" ++ sizeDecimal peerList.seedCount ++ ascii "e10:downloadedi" ++ sizeDecimal peerList.downCount ++
    ascii "e10:incompletei" ++ sizeDecimal (subSize peerList.peerCount peerList.seedCount) ++ ascii "ee"

def scrapeTorrents (now : Int) :
    Tracker → Heap → List Hash → (outbuf : Bytes) → (r : Nat) → Access Trap (Tracker × Bytes × Nat)
  | tracker, _, [], outbuf, r => .ok (tracker, outbuf, r)
  | tracker, heap, hash :: rest, outbuf, r =>
    match scrapeTorrent tracker heap now hash with
    | (tracker, heap, none) => scrapeTorrents now tracker heap rest outbuf r
    | (tracker, heap, some peerList) => do
      let outbuf ← storeBlock outbuf r (ascii "20:")
      let outbuf ← storeBlock outbuf (r + 3) hash.toList
      let (outbuf, r) ← sprintf outbuf (r + 3 + 20) (scrapeText peerList)
      scrapeTorrents now tracker heap rest outbuf r

def returnTcpScrapeForTorrent (tracker : Tracker) (heap : Heap) (now : Int) (hashes : List Hash) (outbuf : Bytes)
    (reply : Nat) : Access Trap (Tracker × Bytes × Nat) := do
  let (outbuf, r) ← sprintf outbuf reply (ascii "d5:filesd")
  let (tracker, outbuf, r) ← scrapeTorrents now tracker heap hashes outbuf r
  let outbuf ← storeBlock outbuf r (ascii "ee")
  .ok (tracker, outbuf, r + 2 - reply)

/-- What the handlers do with a call: the store, the buffer and `ws->reply_size`. HTTP
requests make no other calls than these. -/
def handleCall (event : Event) (tracker : Tracker) (outbuf : Bytes) (reply : Nat) :
    Access Trap (Tracker × Bytes × Nat) :=
  match event.call with
  | .announce .tcp hash peer amount random =>
    match addPeerToTorrentAndReturnPeers tracker event.heap event.now random .tcp hash peer amount with
    | (tracker, none) => .ok (tracker, outbuf, 0)
    | (tracker, some served) => do
      let (outbuf, size) ← returnPeersForTorrent random served.peerList amount outbuf reply
      .ok (tracker, outbuf, size)
  | .stop .tcp hash peer random => do
    let (tracker, text) := removePeerFromTorrent tracker random .tcp hash peer
    let (outbuf, r) ← sprintf outbuf reply text
    .ok (tracker, outbuf, r - reply)
  | .tcpScrape hashes => returnTcpScrapeForTorrent tracker event.heap event.now hashes outbuf reply
  | _ => .ok (tracker, outbuf, 0)

/-- `http_issue_error`, with `snprintf` into the whole buffer: the buffer and the bytes given to `write`. -/
def httpIssueError (outbuf page : Bytes) : Access Trap (Bytes × Bytes) := do
  let outbuf ← storeBlock outbuf 0 (page.take (gOutbufSize - 1) ++ [0])
  let sent ← fetchBlock outbuf 0 page.length
  .ok (outbuf, sent)

/-- The text of the header in front of a content, up to the newline that ends it. -/
def successText (replySize : Nat) : Bytes :=
  ascii "HTTP/1.1 200 OK\r\nContent-Type: text/plain\r\nContent-Length: " ++ sizeDecimal replySize ++ ascii "\r\n\r"

/-- The end of `http_handle_request`: the buffer and the bytes given to `write`. -/
def httpSendReply (outbuf : Bytes) (replySize : Nat) : Access Trap (Bytes × Bytes) :=
  if replySize = 0 then httpIssueError outbuf internalErrorPage
  else if successHttpSizeOff < (sizeDecimal replySize).length then .error .outside
  else do
    let replyOff := successHttpSizeOff - (sizeDecimal replySize).length
    let (outbuf, r) ← sprintf outbuf replyOff (successText replySize)
    let replySize := replySize + (1 + (r - replyOff))
    let outbuf ← store outbuf (successHttpHeaderLength - 1) 10
    let sent ← fetchBlock outbuf replyOff replySize
    .ok (outbuf, sent)

structure Response where
  tracker : Tracker
  outbuf : Bytes
  sent : Bytes

def forgetHash (tracker : Tracker) (outbuf : Bytes) (reply : Nat) : Access Trap (Tracker × Bytes × Nat) := do
  let (outbuf, r) ← sprintf outbuf reply (ascii forgotHash)
  .ok (tracker, outbuf, r - reply)

def finish (handled : Access Trap (Tracker × Bytes × Nat)) : Access Trap (Option Response) := do
  let (tracker, outbuf, replySize) ← handled
  let (outbuf, sent) ← httpSendReply outbuf replySize
  .ok (some ⟨tracker, outbuf, sent⟩)

/-- What `http_handle_request` does with a request that was parsed, other than one for the statistics. -/
def respond (gNowSeconds : Int) (heap : Heap) (tracker : Tracker) (outbuf : Bytes) :
    RequestMemory.Outcome → Access Trap (Option Response)
  | .stats _ => .ok none
  | .missingHash => finish (forgetHash tracker outbuf successHttpHeaderLength)
  | .call call => finish (handleCall ⟨gNowSeconds, heap, call⟩ tracker outbuf successHttpHeaderLength)

end BtServer.ReplyBuffer

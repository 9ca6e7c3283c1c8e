import BtServer.BucketLocks

/-! The full scrape of `ot_fullscrape.c` and the buffers of `ot_iovec.c`, without gzip. The
worker locks one bucket at a time; what other threads do to the tracker happens between
its visits. A write past the end of a buffer, a null pointer and a length that wraps around
all end in `fault`. -/

namespace BtServer
open Lib

def otScrapeChunkSize : Nat := 512 * 1024
def otScrapeMaxentrylen : Nat := 256

/-- `fmt_urlencoded` is a function of libowfat. -/
inductive ScrapeMode where
  | fullscrape
  | tpbBinary
  | tpbAscii
  | tpbAsciiPlus
  | tpbUrlencoded (fmtUrlencoded : Bytes → Bytes)
  | trackerState

/-- An entry of the `iovec`: how much of its block is mapped, what has been written from
its start on and its `iov_len`. Behind what was written a fresh block holds zeros. -/
structure IoVec where
  mapped : Nat
  bytes : Bytes
  iovLen : Nat
deriving DecidableEq, Repr

def IoVec.content (entry : IoVec) : Option Bytes :=
  if entry.iovLen ≤ entry.mapped then
    some ((entry.bytes ++ List.replicate (entry.iovLen - entry.bytes.length) 0).take entry.iovLen)
  else none

inductive ScrapeStop where
  | noMemory
  | fault
deriving DecidableEq, Repr

/-- The entries with the last one apart, the watermark `re` in its block and the outcomes of
the allocations to come. `r` points behind what was written to the last block. -/
structure ScrapeOut where
  filled : List IoVec
  last : IoVec
  re : Nat
  heap : Heap
deriving DecidableEq, Repr

def ScrapeOut.r (out : ScrapeOut) : Nat := out.last.bytes.length

/-- `iovec_increase`. The outcome is that of `realloc`; a failing `mmap` does not return NULL
and is not noticed by the source. -/
def iovecIncrease (heap : Heap) (newAlloc : Nat) : Option (Heap × IoVec) :=
  match allocate heap with
  | (false, _) => none
  | (true, heap) => some (heap, ⟨newAlloc, [], newAlloc⟩)

/-- `iovec_fixlast` for the pointer behind what was written. -/
def iovecFixlast (pageSize : Nat) (last : IoVec) : Except ScrapeStop IoVec :=
  let newAlloc := last.bytes.length
  let oldPages := 1 + last.iovLen / pageSize
  let newPages := 1 + newAlloc / pageSize
  if oldPages ≠ newPages then
    if last.iovLen < newPages * pageSize then .error .fault
    else .ok ⟨min last.mapped (newPages * pageSize), last.bytes, newAlloc⟩
  else .ok { last with iovLen := newAlloc }

def fullscrapeIncrease (pageSize : Nat) (out : ScrapeOut) : Except ScrapeStop ScrapeOut :=
  match iovecFixlast pageSize out.last with
  | .error stop => .error stop
  | .ok last =>
    match iovecIncrease out.heap otScrapeChunkSize with
    | none => .error .noMemory
    | some (heap, fresh) => .ok ⟨out.filled ++ [last], fresh, otScrapeChunkSize - otScrapeMaxentrylen, heap⟩

/-- `while( r >= re ) fullscrape_increase`. After an increase `r` is at the start of a block. -/
def makeRoom (pageSize : Nat) : (fuel : Nat) → ScrapeOut → Except ScrapeStop ScrapeOut
  | 0, _ => .error .fault
  | fuel + 1, out =>
    if out.r ≥ out.re then
      match fullscrapeIncrease pageSize out with
      | .error stop => .error stop
      | .ok out => makeRoom pageSize fuel out
    else .ok out

/-- A write at `r`. `sprintf` and `to_hex` write a terminator behind the text, to which `r` then points. -/
structure ScrapeWrite where
  text : Bytes
  terminator : Nat
deriving DecidableEq, Repr

def memcpyWrite (text : Bytes) : ScrapeWrite := ⟨text, 0⟩
def sprintfWrite (text : Bytes) : ScrapeWrite := ⟨text, 1⟩

def performWrite (out : ScrapeOut) (write : ScrapeWrite) : Except ScrapeStop ScrapeOut :=
  if out.r + write.text.length + write.terminator ≤ out.last.mapped then
    .ok { out with last := { out.last with bytes := out.last.bytes ++ write.text } }
  else .error .fault

def performWrites : ScrapeOut → List ScrapeWrite → Except ScrapeStop ScrapeOut
  | out, [] => .ok out
  | out, write :: rest =>
    match performWrite out write with
    | .error stop => .error stop
    | .ok out => performWrites out rest

def hexUpper (n : Nat) : UInt8 := (ascii "0123456789ABCDEF").getD n 0

def toHex (bytes : Bytes) : Bytes :=
  bytes.flatMap fun byte => [hexUpper (byte.toNat / 16), hexUpper (byte.toNat % 16)]

def timeDecimal (time : Int) : Bytes := signedDecimal (time.bmod (2 ^ 64))

def scrapeEntry (mode : ScrapeMode) (hash : Hash) (peerList : PeerList) : List ScrapeWrite :=
  let seeds := sizeDecimal peerList.seedCount
  let leechers := subSize peerList.peerCount peerList.seedCount
  match mode with
  | .fullscrape =>
    [memcpyWrite (ascii "2"), memcpyWrite (ascii "0"), memcpyWrite (ascii ":"), memcpyWrite hash.toList,
      sprintfWrite (ascii "d8:completei" ++ seeds ++ ascii "e10:downloadedi" ++ sizeDecimal peerList.downCount ++
        ascii "e10:incompletei" ++ sizeDecimal leechers ++ ascii "ee")]
  | .tpbAscii =>
    [sprintfWrite (toHex hash.toList), sprintfWrite (ascii ":" ++ seeds ++ ascii ":" ++ sizeDecimal leechers ++ ascii "\n")]
  | .tpbAsciiPlus =>
    [sprintfWrite (toHex hash.toList),
      sprintfWrite (ascii ":" ++ seeds ++ ascii ":" ++ sizeDecimal leechers ++ ascii ":" ++ sizeDecimal peerList.downCount ++
        ascii "\n")]
  | .tpbBinary => [memcpyWrite hash.toList, memcpyWrite (htonl peerList.seedCount), memcpyWrite (htonl leechers)]
  | .tpbUrlencoded fmtUrlencoded =>
    [memcpyWrite (fmtUrlencoded hash.toList),
      sprintfWrite (ascii ":" ++ seeds ++ ascii ":" ++ sizeDecimal leechers ++ ascii "\n")]
  | .trackerState =>
    [sprintfWrite (toHex hash.toList),
      sprintfWrite (ascii ":" ++ timeDecimal peerList.base ++ ascii ":" ++ sizeDecimal peerList.downCount ++ ascii "\n")]

def scrapeBucket (pageSize : Nat) (mode : ScrapeMode) : ScrapeOut → List Torrent → Except ScrapeStop ScrapeOut
  | out, [] => .ok out
  | out, torrent :: rest =>
    match torrent.peerList with
    | none => .error .fault
    | some peerList =>
      match performWrites out (scrapeEntry mode torrent.hash peerList) with
      | .error stop => .error stop
      | .ok out =>
        match makeRoom pageSize 2 out with
        | .error stop => .error stop
        | .ok out => scrapeBucket pageSize mode out rest

def scrapeBegin (mode : ScrapeMode) (heap : Heap) : Except ScrapeStop ScrapeOut :=
  match iovecIncrease heap otScrapeChunkSize with
  | none => .error .noMemory
  | some (heap, fresh) =>
    let out : ScrapeOut := ⟨[], fresh, otScrapeChunkSize - otScrapeMaxentrylen, heap⟩
    match mode with
    | .fullscrape => performWrite out (sprintfWrite (ascii "d5:filesd"))
    | _ => .ok out

def writeTrailer (mode : ScrapeMode) (out : ScrapeOut) : Except ScrapeStop ScrapeOut :=
  match mode with
  | .fullscrape => performWrite out (sprintfWrite (ascii "ee"))
  | _ => .ok out

def scrapeEnd (pageSize : Nat) (mode : ScrapeMode) (out : ScrapeOut) : Except ScrapeStop (List IoVec) :=
  match writeTrailer mode out with
  | .error stop => .error stop
  | .ok out =>
    match iovecFixlast pageSize out.last with
    | .error stop => .error stop
    | .ok last => .ok (out.filled ++ [last])

/-- Where `fullscrape_make` is: not called yet, about to lock a bucket, or back with its result. -/
inductive ScrapeWorker where
  | idle (heap : Heap)
  | visiting (bucket : Nat) (out : ScrapeOut)
  | returned (iovector : List IoVec)
  | faulted
deriving DecidableEq, Repr

/-- Without memory `fullscrape_make` returns no entries. -/
def ScrapeStop.worker : ScrapeStop → ScrapeWorker
  | .noMemory => .returned []
  | .fault => .faulted

/-- The next part of `fullscrape_make`, for the torrents it finds in the bucket it locks. -/
def ScrapeWorker.next (pageSize : Nat) (mode : ScrapeMode) (torrents : Nat → List Torrent) (running : Bool) :
    ScrapeWorker → ScrapeWorker
  | .idle heap =>
    match scrapeBegin mode heap with
    | .error stop => stop.worker
    | .ok out => .visiting 0 out
  | .visiting bucket out =>
    if bucket < otBucketCount then
      match scrapeBucket pageSize mode out (torrents bucket) with
      | .error stop => stop.worker
      | .ok out => if running then .visiting (bucket + 1) out else .returned (out.filled ++ [out.last])
    else
      match scrapeEnd pageSize mode out with
      | .error stop => stop.worker
      | .ok iovector => .returned iovector
  | .returned iovector => .returned iovector
  | .faulted => .faulted

/-- The whole of `fullscrape_make` on torrents that do not change meanwhile. -/
def fullscrapeMake (pageSize : Nat) (mode : ScrapeMode) (heap : Heap) (torrents : Nat → List Torrent) : ScrapeWorker :=
  (ScrapeWorker.next pageSize mode torrents true)^[otBucketCount + 2] (.idle heap)

/-- What the worker finds under the lock, if it is about to lock a bucket. -/
def ScrapeWorker.finds (torrents : Nat → List Torrent) : ScrapeWorker → List (List Torrent)
  | .visiting bucket _ => if bucket < otBucketCount then [torrents bucket] else []
  | _ => []

/-- The tracker and the worker, with the torrents it found in each bucket it has visited. -/
structure Scraping where
  tracker : Tracker
  worker : ScrapeWorker
  seen : List (List Torrent)

/-- `running` is `g_opentracker_running` when the worker looks at it. -/
inductive ScrapeEvent where
  | tracker (event : Event)
  | worker (running : Bool)

namespace Scraping

def initial (heap : Heap) : Scraping := ⟨.initial, .idle heap, []⟩

def torrents (state : Scraping) (bucket : Nat) : List Torrent := (state.tracker.allTorrents bucket).data

def next (pageSize : Nat) (mode : ScrapeMode) (state : Scraping) : ScrapeEvent → Scraping
  | .tracker event => { state with tracker := state.tracker.apply event }
  | .worker running =>
    ⟨state.tracker, state.worker.next pageSize mode state.torrents running, state.seen ++ state.worker.finds state.torrents⟩

def Step (pageSize : Nat) (mode : ScrapeMode) (before : Scraping) (event : ScrapeEvent) (after : Scraping) : Prop :=
  before.next pageSize mode event = after

end Scraping

end BtServer

import BtServer.Tracker

/-! The bucket locks of `ot_mutex.c` and threads that work under them. From its lock
to its unlock a thread has the vector of the bucket for itself, and only with the
unlock it adds its `delta_torrentcount` to `g_torrent_count`. -/

namespace BtServer
open Lib

def otMaxThreads : Nat := 64
def otBucketCount : Nat := 2 ^ otBucketCountBits

/-- `bucket_check`; -1 makes the thread wait. -/
def bucketCheck (locklist : List Nat) (bucket : Nat) : Int :=
  if locklist.length = otMaxThreads then -1 else if bucket ∈ locklist then -1 else 0

def bucketPush (locklist : List Nat) (bucket : Nat) : List Nat := locklist ++ [bucket]

def bucketRemove (locklist : List Nat) (bucket : Nat) : List Nat := locklist.erase bucket

/-- What a thread does between one lock and the unlock that belongs to it. -/
inductive Operation where
  | announce (proto : Proto) (hash : Hash) (peer : Peer) (amount : Nat) (random : List Nat)
  | stop (proto : Proto) (hash : Hash) (peer : Peer) (random : List Nat)
  | scrape (hash : Hash)
  | savedState (hash : Hash) (base : Int) (downCount : Nat)
  | clean (bucket : Nat)

def Operation.bucket : Operation → Nat
  | .announce _ hash _ _ _ | .stop _ hash _ _ | .scrape hash | .savedState hash _ _ => bucketOfHash hash
  | .clean bucket => bucket

/-- A scrape over TCP takes and gives back a lock for each of its hashes. -/
def Call.operations : Call → List Operation
  | .announce proto hash peer amount random => [.announce proto hash peer amount random]
  | .stop proto hash peer random => [.stop proto hash peer random]
  | .udpScrape hash => [.scrape hash]
  | .tcpScrape hashes => hashes.map .scrape
  | .savedState hash base downCount => [.savedState hash base downCount]
  | .clean bucket => [.clean bucket]

/-- A call of `clean_single_torrent`: the torrent it found, the one it left, and
whether it returned 1. -/
structure CleanCall where
  found : Torrent
  left : Torrent
  timedOut : Bool
deriving DecidableEq, Repr

def cleanCall (heap : Heap) (now : Int) (torrent : Torrent) : CleanCall :=
  match torrent.peerList with
  | none => ⟨torrent, torrent, false⟩
  | some peerList =>
    let (_, peerList, timedOut) := cleanSingleTorrent heap now peerList
    ⟨torrent, ⟨torrent.hash, some peerList⟩, timedOut⟩

/-- What a turn of the loop of `clean_worker` makes of the vector and of `toffs` when
this was its call. -/
def cleanTurn (torrents : OtVector Torrent) (toffs : Nat) (call : CleanCall) : OtVector Torrent × Nat :=
  let torrents : OtVector Torrent := ⟨torrents.data.set toffs call.left, torrents.space⟩
  if call.timedOut then (vectorRemoveTorrent torrents toffs, toffs) else (torrents, toffs + 1)

/-- How far an operation is. A cleaning pass is described by the torrents it began
with and the calls it has made; its `delta_torrentcount` is minus the number of those
that returned 1. -/
inductive Phase where
  | locked
  | cleaning (began : List Torrent) (toffs : Nat) (calls : List CleanCall)
  | finished (delta : Int)

def removals (calls : List CleanCall) : Nat := calls.countP CleanCall.timedOut

def Operation.begin (torrents : OtVector Torrent) : Operation → Phase
  | .clean _ => .cleaning torrents.data 0 []
  | .announce .. | .stop .. | .scrape _ | .savedState .. => .locked

/-- The vectors an operation leaves and the delta it is going to unlock with, which
is what it makes of a count of 0. -/
def perform (tracker : Tracker) (operation : Tracker → Tracker) : Tracker × Phase :=
  let after := operation ⟨tracker.allTorrents, 0⟩
  (⟨after.allTorrents, tracker.torrentCount⟩, .finished after.torrentCount)

/-- The work of an operation, at once or, for `clean_worker`, one turn of it. The
clock may have moved between two turns. -/
def Operation.work (tracker : Tracker) (heap : Heap) (now : Int) : Operation → Phase → Tracker × Phase
  | .announce proto hash peer amount random, .locked =>
    perform tracker fun tracker => (addPeerToTorrentAndReturnPeers tracker heap now random proto hash peer amount).1
  | .stop proto hash peer random, .locked =>
    perform tracker fun tracker => (removePeerFromTorrent tracker random proto hash peer).1
  | .scrape hash, .locked => perform tracker fun tracker => (scrapeTorrent tracker heap now hash).1
  | .savedState hash base downCount, .locked =>
    perform tracker fun tracker => addTorrentFromSavedState tracker heap hash base downCount
  | .clean bucket, .cleaning began toffs calls =>
    match (tracker.allTorrents bucket).data[toffs]? with
    | none => (tracker, .finished (-(removals calls)))
    | some torrent =>
      let call := cleanCall heap now torrent
      let (torrents, toffs) := cleanTurn (tracker.allTorrents bucket) toffs call
      (⟨Function.update tracker.allTorrents bucket torrents, tracker.torrentCount⟩,
        .cleaning began toffs (calls ++ [call]))
  | _, phase => (tracker, phase)

inductive Thread where
  | outside (todo : List Operation)
  | inside (operation : Operation) (phase : Phase) (todo : List Operation)

structure Threads where
  tracker : Tracker
  bucketLocklist : List Nat
  threads : List Thread

inductive ThreadEvent where
  | call (thread : Nat) (call : Call)
  | lock (thread : Nat)
  | work (thread : Nat) (gNowSeconds : Int) (heap : Heap)
  | unlock (thread : Nat)

namespace Threads

def initial (count : Nat) : Threads := ⟨.initial, [], List.replicate count (.outside [])⟩

/-- A step of one thread. One that has to wait, or is at another point, stays where it is. -/
def next (state : Threads) : ThreadEvent → Threads
  | .call i call =>
    match state.threads[i]? with
    | some (.outside []) => { state with threads := state.threads.set i (.outside call.operations) }
    | _ => state
  | .lock i =>
    match state.threads[i]? with
    | some (.outside (operation :: todo)) =>
      if bucketCheck state.bucketLocklist operation.bucket ≠ 0 then state
      else
        { state with
          bucketLocklist := bucketPush state.bucketLocklist operation.bucket
          threads :=
            state.threads.set i (.inside operation (operation.begin (state.tracker.allTorrents operation.bucket)) todo) }
    | _ => state
  | .work i gNowSeconds heap =>
    match state.threads[i]? with
    | some (.inside operation phase todo) =>
      let (tracker, phase) := operation.work state.tracker heap (gNowMinutes gNowSeconds) phase
      { state with tracker := tracker, threads := state.threads.set i (.inside operation phase todo) }
    | _ => state
  | .unlock i =>
    match state.threads[i]? with
    | some (.inside operation (.finished delta) todo) =>
      { tracker := state.tracker.unlock operation.bucket (state.tracker.allTorrents operation.bucket) delta
        bucketLocklist := bucketRemove state.bucketLocklist operation.bucket
        threads := state.threads.set i (.outside todo) }
    | _ => state

def Step (before : Threads) (event : ThreadEvent) (after : Threads) : Prop := before.next event = after

end Threads

end BtServer

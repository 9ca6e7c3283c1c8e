import BtServer.Lib.TopList
import BtServer.FullScrape

/-! `stats_top_txt` of `ot_stats.c`. It records torrents bucket by bucket, each under the lock
of its bucket, as pointers into the vectors, and reads the hashes through these pointers
when no lock is held any more. -/

namespace BtServer
open Lib

/-- A pointer to a torrent: the bucket, the position in its vector and which of the blocks
that the vector has had, one after the other, it points into. -/
structure TorrentPointer where
  bucket : Nat
  position : Nat
  block : Nat
deriving DecidableEq, Repr

structure TopRecord where
  val : Nat
  torrent : Option TorrentPointer
deriving DecidableEq, Repr

/-- The records of an array after `byte_zero`, those that `amount` admits. -/
def topZero (amount : Nat) : List TopRecord := List.replicate (min amount 100) ⟨0, none⟩

/-- A torrent without a peer list does not occur and counts as one without peers. -/
def Torrent.peerCount (torrent : Torrent) : Nat := (torrent.peerList.getD .zero).peerCount

def Torrent.seedCount (torrent : Torrent) : Nat := (torrent.peerList.getD .zero).seedCount

def scanTop (count : Torrent → Nat) (bucket block : Nat) : (position : Nat) → List Torrent → List TopRecord → List TopRecord
  | _, [], top => top
  | position, torrent :: rest, top =>
    scanTop count bucket block (position + 1) rest (offer TopRecord.val top ⟨count torrent, some ⟨bucket, position, block⟩⟩)

/-- A line of the reply. There is no hash when the pointer did not point to a torrent any more. -/
structure TopLine where
  val : Nat
  hash : Option Hash
deriving DecidableEq, Repr

structure TopReply where
  peers : List TopLine
  seeds : List TopLine
deriving DecidableEq, Repr

def TopLine.text (line : TopLine) : Option Bytes :=
  line.hash.map fun hash => ascii "\t" ++ sizeDecimal line.val ++ ascii "\t" ++ toHex hash.toList ++ ascii "\n"

def TopReply.text (amount : Nat) (reply : TopReply) : Option Bytes := do
  let title := fun (kind : String) => ascii "Top " ++ decimal (min amount 100) ++ ascii " torrents by " ++ ascii kind ++ ascii ":\n"
  let peers ← reply.peers.mapM TopLine.text
  let seeds ← reply.seeds.mapM TopLine.text
  pure (title "peers" ++ peers.flatten ++ title "seeds" ++ seeds.flatten)

/-- Where `stats_top_txt` is: about to lock a bucket, with records left to print, or back. -/
inductive TopWorker where
  | scanning (bucket : Nat) (peers seeds : List TopRecord)
  | printing (peers seeds : List TopRecord) (reply : TopReply)
  | returned (reply : Option TopReply)
deriving DecidableEq, Repr

/-- The tracker, how often the block of each vector has been reallocated, the worker, and the
torrents it found in the buckets it has visited. -/
structure TopStats where
  tracker : Tracker
  blocks : Nat → Nat
  worker : TopWorker
  seen : List (List Torrent)

inductive TopEvent where
  | tracker (event : Event)
  | worker (running : Bool)

namespace TopStats

def initial (amount : Nat) : TopStats := ⟨.initial, fun _ => 0, .scanning 0 (topZero amount) (topZero amount), []⟩

def hashAt (state : TopStats) (pointer : TorrentPointer) : Option Hash :=
  if state.blocks pointer.bucket = pointer.block then
    ((state.tracker.allTorrents pointer.bucket).data[pointer.position]?).map Torrent.hash
  else none

def line (state : TopStats) (record : TopRecord) : List TopLine :=
  match record.torrent with
  | none => []
  | some pointer => [⟨record.val, state.hashAt pointer⟩]

/-- The worker prints one record, visits one bucket, or goes on behind a loop. -/
def work (state : TopStats) (running : Bool) : TopStats :=
  match state.worker with
  | .scanning bucket peers seeds =>
    if bucket < otBucketCount then
      let torrents := (state.tracker.allTorrents bucket).data
      let peers := scanTop Torrent.peerCount bucket (state.blocks bucket) 0 torrents peers
      let seeds := scanTop Torrent.seedCount bucket (state.blocks bucket) 0 torrents seeds
      { state with
        worker := if running then .scanning (bucket + 1) peers seeds else .returned none
        seen := state.seen ++ [torrents] }
    else { state with worker := .printing peers seeds ⟨[], []⟩ }
  | .printing (record :: peers) seeds reply =>
    { state with worker := .printing peers seeds ⟨reply.peers ++ state.line record, reply.seeds⟩ }
  | .printing [] (record :: seeds) reply =>
    { state with worker := .printing [] seeds ⟨reply.peers, reply.seeds ++ state.line record⟩ }
  | .printing [] [] reply => { state with worker := .returned (some reply) }
  | .returned _ => state

/-- A vector is reallocated when, and only when, its space changes. -/
def next (state : TopStats) : TopEvent → TopStats
  | .tracker event =>
    let tracker := state.tracker.apply event
    { state with
      tracker := tracker
      blocks := fun bucket =>
        if (tracker.allTorrents bucket).space = (state.tracker.allTorrents bucket).space then state.blocks bucket
        else state.blocks bucket + 1 }
  | .worker running => state.work running

def Step (before : TopStats) (event : TopEvent) (after : TopStats) : Prop := before.next event = after

end TopStats

end BtServer

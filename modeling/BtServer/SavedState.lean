import BtServer.Lib.Buffer
import BtServer.FullScrape

/-! `load_state` of `opentracker.c`, which reads the dump that `fullscrape_make` writes for
`TASK_FULLSCRAPE_TRACKERSTATE`. `inbuf` and `infohash` are not initialised, and keep what a
line leaves in them for the next one. -/

namespace BtServer
open Lib

/-- What `fgets` reads into a buffer with room for that many bytes and the terminator, and
what is left of the file. -/
def fgets : (room : Nat) → (file : Bytes) → Bytes × Bytes
  | 0, file => ([], file)
  | _ + 1, [] => ([], [])
  | room + 1, c :: file =>
    if c = 10 then ([c], file)
    else
      let (line, file) := fgets room file
      (c :: line, file)

/-- `scan_fromhex` of libowfat. -/
def scanFromhex (c : UInt8) : Int :=
  if 48 ≤ c ∧ c ≤ 57 then c.toNat - 48
  else if 65 ≤ c ∧ c ≤ 70 then c.toNat - 65 + 10
  else if 97 ≤ c ∧ c ≤ 102 then c.toNat - 97 + 10
  else -1

/-- The loop of `scan_ulonglong` of libowfat, left at a digit that would overflow the number. -/
def scanUlonglongFrom : (value : Nat) → (text : Bytes) → Nat × Nat
  | value, [] => (0, value)
  | value, c :: text =>
    if isDigit c ∧ 10 * value + (c.toNat - 48) < 2 ^ 64 then
      let scanned := scanUlonglongFrom (10 * value + (c.toNat - 48)) text
      (scanned.1 + 1, scanned.2)
    else (0, value)

/-- `scan_ulonglong`: how many characters it consumes, and the number. -/
def scanUlonglong (text : Bytes) : Nat × Nat := scanUlonglongFrom 0 text

/-- The inner loop over the hash. Its `continue` goes on with the next byte. -/
def scanHash (inbuf : Bytes) (infohash : Hash) : Hash :=
  Vector.ofFn fun i =>
    let eger := 16 * scanFromhex (inbuf.getD (2 * i) 0) + scanFromhex (inbuf.getD (1 + 2 * i) 0)
    if eger < 0 then infohash.get i else (eger % 256).toNat.toUInt8

/-- An `unsigned long long` converted to `ot_time`. -/
def toTime (value : Nat) : Int := (value : Int).bmod (2 ^ 64)

def loadLine (heap : Heap) (inbuf : Bytes) (infohash : Hash) (tracker : Tracker) : Tracker :=
  let i := 2 * 20
  if inbuf.getD i 0 ≠ 58 then tracker
  else
    let (consumed, base) := scanUlonglong (inbuf.drop (i + 1))
    if consumed = 0 then tracker
    else
      let i := i + 1 + consumed
      if inbuf.getD i 0 ≠ 58 then tracker
      else
        let (consumed, downcount) := scanUlonglong (inbuf.drop (i + 1))
        if consumed = 0 then tracker else addTorrentFromSavedState tracker heap infohash (toTime base) downcount

/-- The loop over the lines; every line has at least one byte. -/
def loadLines : (fuel : Nat) → (file : Bytes) → (heaps : List Heap) → (inbuf : Bytes) → Hash → Tracker → Tracker
  | 0, _, _, _, _, tracker => tracker
  | fuel + 1, file, heaps, inbuf, infohash, tracker =>
    match fgets 511 file with
    | ([], _) => tracker
    | (line, file) =>
      let inbuf := overwrite inbuf 0 (line ++ [0])
      let infohash := scanHash inbuf infohash
      loadLines fuel file heaps.tail inbuf infohash (loadLine (heaps.headD []) inbuf infohash tracker)

def loadState (file : Bytes) (heaps : List Heap) (inbuf : Bytes) (infohash : Hash) (tracker : Tracker) : Tracker :=
  loadLines (file.length + 1) file heaps inbuf infohash tracker

end BtServer

import BtServer.Lib.Memory
import BtServer.SavedState

/-! The list of hashes of `ot_accesslist.c`, in a build with `WANT_ACCESSLIST`. A pointer into the file is
its distance from `map`, and `info_hash` is the number of hashes before it in the buffer. -/

namespace BtServer
open Lib

/-- The loop over the bytes of a hash: where it is left, and the buffer. -/
def readHash (map : Bytes) (readOffs infoHash : Nat) : (left i : Nat) → Bytes → Access Empty (Nat × Bytes)
  | 0, i, slots => pure (i, slots)
  | left + 1, i, slots => do
    let eger1 := scanFromhex (← fetch map (readOffs + 2 * i))
    let eger2 := scanFromhex (← fetch map (readOffs + (1 + 2 * i)))
    if eger1 < 0 ∨ eger2 < 0 then pure (i, slots)
    else do
      let slots ← store slots (20 * infoHash + i) (eger1 * 16 + eger2).toNat.toUInt8
      readHash map readOffs infoHash left (i + 1) slots

/-- The hash is kept if it is followed by something else. `map_end` is 40 bytes before the end of the file. -/
def keepHash (map : Bytes) (readOffs infoHash : Nat) : Access Empty Nat :=
  if readOffs + 40 = map.length then pure (infoHash + 1)
  else do
    let eger := scanFromhex (← fetch map readOffs)
    pure (if eger < 0 then infoHash + 1 else infoHash)

/-- What follows the loop over the bytes: `read_offs` and `info_hash`. -/
def appendHash (map : Bytes) (i readOffs infoHash : Nat) : Access Empty (Nat × Nat) :=
  if i = 20 then do
    let infoHash ← keepHash map (readOffs + 40) infoHash
    pure (readOffs + 40, infoHash)
  else pure (readOffs, infoHash)

def nextLine (map : Bytes) : (fuel readOffs : Nat) → Access Empty Nat
  | 0, _ => .error .unfinished
  | fuel + 1, readOffs =>
    if readOffs + 40 ≤ map.length then do
      let c ← fetch map readOffs
      if c = 10 then pure (readOffs + 1) else nextLine map fuel (readOffs + 1)
    else pure readOffs

def readLines (map : Bytes) : (fuel readOffs infoHash : Nat) → Bytes → Access Empty (Nat × Bytes)
  | 0, _, _, _ => .error .unfinished
  | fuel + 1, readOffs, infoHash, slots =>
    if readOffs + 40 ≤ map.length then do
      let hash ← readHash map readOffs infoHash 20 0 slots
      let offsets ← appendHash map hash.1 readOffs infoHash
      let readOffs ← nextLine map (map.length + 1) offsets.1
      readLines map fuel readOffs offsets.2 hash.2
    else pure (infoHash, slots)

/-- `mmap_read` of libowfat does not map an empty file. -/
def mmapRead (file : Option Bytes) : Option Bytes := file.filter (· ≠ [])

def vectorCompareHash (hash1 hash2 : Hash) : Int := memcmp hash1.toList hash2.toList

def qsortHashes (hashes : List Hash) : List Hash := hashes.insertionSort fun hash1 hash2 => vectorCompareHash hash1 hash2 ≤ 0

def slotHashes (slots : Bytes) (count : Nat) : List Hash := (List.range count).map fun k => readBytes 20 slots (20 * k)

/-- `accesslist_readfile`: the list it leaves in `g_accesslist`. `malloc` returns a buffer with any contents, or none. -/
def accesslistReadfile (file : Option Bytes) (malloc : Option (Nat → UInt8)) (accesslist : List Hash) :
    Access Empty (List Hash) :=
  match mmapRead file, malloc with
  | some map, some contents => do
    let lines ← readLines map (map.length + 1) 0 0 ((List.range (map.length / 41 * 20)).map contents)
    pure (qsortHashes (slotHashes lines.2 lines.1))
  | _, _ => pure accesslist

/-- `bsearch` of the C library. -/
def bsearch {α : Type} (compare : α → Int) (entries : List α) : (fuel l u : Nat) → Option Nat
  | 0, _, _ => none
  | fuel + 1, l, u =>
    if l < u then
      let idx := (l + u) / 2
      match entries[idx]? with
      | none => none
      | some entry =>
        if compare entry < 0 then bsearch compare entries fuel l idx
        else if compare entry > 0 then bsearch compare entries fuel (idx + 1) u
        else some idx
    else none

/-- `accesslist_hashisvalid`; `wantBlack` is `WANT_ACCESSLIST_BLACK`. -/
def accesslistHashisvalid (wantBlack : Bool) (accesslist : List Hash) (hash : Hash) : Bool :=
  let exactmatch := bsearch (vectorCompareHash hash) accesslist (accesslist.length + 1) 0 accesslist.length
  if wantBlack then exactmatch.isNone else exactmatch.isSome

end BtServer

import BtServer.StreamMemory
import BtServer.Proofs.StreamBuckets

/-! The block of memory of `streamsync_worker` is large enough. It holds a region for each pointer, as long
as what will be written there, and the pointers meet at the end: what is sent is what was written. -/

namespace BtServer.Proofs.StreamSpace
open Lib StreamMemory StreamBuckets

def append (blocks : SyncBlocks) (bytes : Bytes) : Dst → SyncBlocks
  | .ptrA => { blocks with one := blocks.one ++ bytes }
  | .ptrB => { blocks with two := blocks.two ++ bytes }
  | .ptrC => { blocks with many := blocks.many ++ bytes }

theorem append_nil (blocks : SyncBlocks) (dst : Dst) : append blocks [] dst = blocks := by
  cases dst <;> simp [append]

theorem append_append (blocks : SyncBlocks) (first second : Bytes) (dst : Dst) :
    append (append blocks first dst) second dst = append blocks (first ++ second) dst := by
  cases dst <;> simp [append]

structure Shorter (blocks other : SyncBlocks) : Prop where
  one : blocks.one.length ≤ other.one.length
  two : blocks.two.length ≤ other.two.length
  many : blocks.many.length ≤ other.many.length

theorem Shorter.trans {first second third : SyncBlocks} (left : Shorter first second) (right : Shorter second third) :
    Shorter first third :=
  ⟨left.one.trans right.one, left.two.trans right.two, left.many.trans right.many⟩

theorem shorter_append (blocks : SyncBlocks) (bytes : Bytes) (dst : Dst) : Shorter blocks (append blocks bytes dst) := by
  cases dst <;> constructor <;> simp [append]

section Writing
variable {sizeA sizeB sizeC : Nat} {blocks : SyncBlocks} {writer : Writer} {dst : Dst}

structure Within (sizeA sizeB sizeC : Nat) (blocks : SyncBlocks) : Prop where
  one : blocks.one.length ≤ sizeA
  two : blocks.two.length ≤ sizeB
  many : blocks.many.length ≤ sizeC

theorem Within.shorter {other : SyncBlocks} (within : Within sizeA sizeB sizeC other) (shorter : Shorter blocks other) :
    Within sizeA sizeB sizeC blocks :=
  ⟨shorter.one.trans within.one, shorter.two.trans within.two, shorter.many.trans within.many⟩

def cells (sizeA sizeB sizeC : Nat) (blocks : SyncBlocks) : List (Option UInt8) :=
  region sizeA blocks.one ++ region sizeB blocks.two ++ region sizeC blocks.many

/-- The memory holds the blocks, each at the front of its region, and the pointers stand behind them. -/
structure Holds (sizeA sizeB sizeC : Nat) (blocks : SyncBlocks) (writer : Writer) : Prop where
  within : Within sizeA sizeB sizeC blocks
  memory : writer.memory = cells sizeA sizeB sizeC blocks
  ptrA : writer.ptrA = blocks.one.length
  ptrB : writer.ptrB = sizeA + blocks.two.length
  ptrC : writer.ptrC = sizeA + sizeB + blocks.many.length

private theorem Holds.fill (holds : Holds sizeA sizeB sizeC blocks writer) {bytes : Bytes}
    (fits : Within sizeA sizeB sizeC (append blocks bytes dst)) :
    Lib.fill writer.memory (writer.pointer dst) bytes = .ok (cells sizeA sizeB sizeC (append blocks bytes dst)) := by
  have lengthA := length_region holds.within.one
  have lengthB := length_region holds.within.two
  obtain ⟨one, two, many⟩ := fits
  rw [holds.memory]
  cases dst with
  | ptrA =>
    have room : blocks.one.length + bytes.length ≤ sizeA := by simpa [append] using one
    simpa [cells, append, Writer.pointer] using fill_region room [] (region sizeB blocks.two ++ region sizeC blocks.many)
      (show writer.ptrA = ([] : List (Option UInt8)).length + blocks.one.length by simp [holds.ptrA])
  | ptrB =>
    have room : blocks.two.length + bytes.length ≤ sizeB := by simpa [append] using two
    exact fill_region room (region sizeA blocks.one) (region sizeC blocks.many)
      (show writer.ptrB = (region sizeA blocks.one).length + blocks.two.length by rw [lengthA, holds.ptrB])
  | ptrC =>
    have room : blocks.many.length + bytes.length ≤ sizeC := by simpa [append] using many
    simpa [cells, append, Writer.pointer] using fill_region room (region sizeA blocks.one ++ region sizeB blocks.two) []
      (show writer.ptrC = (region sizeA blocks.one ++ region sizeB blocks.two).length + blocks.many.length by
        rw [List.length_append, lengthA, lengthB, holds.ptrC])

theorem Holds.write (holds : Holds sizeA sizeB sizeC blocks writer) {bytes : Bytes}
    (fits : Within sizeA sizeB sizeC (append blocks bytes dst)) :
    ∃ next, StreamMemory.write writer dst bytes = .ok next ∧ Holds sizeA sizeB sizeC (append blocks bytes dst) next := by
  refine ⟨writer.advance (cells sizeA sizeB sizeC (append blocks bytes dst)) bytes.length dst, ?_, ?_⟩
  · rw [StreamMemory.write, holds.fill fits]
    rfl
  · cases dst with
    | ptrA => exact ⟨fits, rfl, by simp [Writer.advance, append, holds.ptrA], holds.ptrB, holds.ptrC⟩
    | ptrB => exact ⟨fits, rfl, holds.ptrA, by simp [Writer.advance, append, holds.ptrB, Nat.add_assoc], holds.ptrC⟩
    | ptrC => exact ⟨fits, rfl, holds.ptrA, holds.ptrB, by simp [Writer.advance, append, holds.ptrC, Nat.add_assoc]⟩

theorem Holds.putCount {fuel count : Nat} (holds : Holds sizeA sizeB sizeC blocks writer) (groups : count < 2 ^ (7 * fuel))
    (fits : Within sizeA sizeB sizeC (append blocks (writeCount fuel count) dst)) :
    ∃ next, StreamMemory.putCount fuel writer dst count = .ok next ∧
      Holds sizeA sizeB sizeC (append blocks (writeCount fuel count) dst) next := by
  induction fuel generalizing count blocks writer with
  | zero =>
    have none : count = 0 := by omega
    exact ⟨writer, by simp [StreamMemory.putCount, none, pure, Except.pure], by rwa [writeCount, append_nil]⟩
  | succ fuel ih =>
    rw [StreamMemory.putCount, writeCount] at *
    split at fits
    next none =>
      rw [if_pos none, if_pos none, append_nil]
      exact ⟨writer, rfl, holds⟩
    next some =>
      rw [if_neg some, if_neg some]
      generalize (if count ≤ 0x7f then count else 0x80 ||| (count &&& 0x7f)).toUInt8 = byte at fits ⊢
      have grown : append blocks (byte :: writeCount fuel (count >>> 7)) dst =
          append (append blocks [byte] dst) (writeCount fuel (count >>> 7)) dst := by
        rw [append_append, List.singleton_append]
      rw [grown] at fits ⊢
      obtain ⟨middle, written, held⟩ := holds.write (fits.shorter (shorter_append _ _ _))
      have smaller : count >>> 7 < 2 ^ (7 * fuel) := by
        rw [Nat.shiftRight_eq_div_pow]
        apply Nat.div_lt_of_lt_mul
        rwa [← Nat.pow_add, Nat.add_comm, ← Nat.mul_succ]
      obtain ⟨next, counted, holdsNext⟩ := ih held smaller fits
      exact ⟨next, by rw [written]; exact counted, holdsNext⟩

theorem Holds.putPeers {peers : List Peer} (holds : Holds sizeA sizeB sizeC blocks writer)
    (fits : Within sizeA sizeB sizeC (append blocks (peers.flatMap peerBytes) dst)) :
    ∃ next, StreamMemory.putPeers peers.length peers writer dst = .ok next ∧
      Holds sizeA sizeB sizeC (append blocks (peers.flatMap peerBytes) dst) next := by
  induction peers generalizing blocks writer with
  | nil => exact ⟨writer, rfl, by rwa [List.flatMap_nil, append_nil]⟩
  | cons peer peers ih =>
    rw [List.flatMap_cons, ← append_append] at fits ⊢
    obtain ⟨middle, written, held⟩ := holds.write (fits.shorter (shorter_append _ _ _))
    obtain ⟨next, rest, holdsNext⟩ := ih held fits
    exact ⟨next, by rw [List.length_cons, StreamMemory.putPeers, written]; exact rest, holdsNext⟩

end Writing

section Torrents
variable {sizeA sizeB sizeC : Nat} {blockOne blockTwo : Bool} {blocks : SyncBlocks} {writer : Writer} {torrent : Torrent}
  {torrents : List Torrent}

def dstOf (blockOne blockTwo : Bool) (count : Nat) : Dst :=
  if count = 1 then (if blockOne then .ptrA else .ptrC) else if count = 2 then (if blockTwo then .ptrB else .ptrC) else .ptrC

private theorem destinationSlot_eq {memA memB : Nat} (first : memA ≠ 0 ↔ blockOne = true) (second : memB ≠ 0 ↔ blockTwo = true)
    (count : Nat) : destinationSlot memA memB count = dstOf blockOne blockTwo count := by
  simp only [destinationSlot, dstOf, first, second]

def torrentBytes (dst : Dst) (torrent : Torrent) : Bytes :=
  torrent.hash.toList.drop 1 ++ (if dst = .ptrC then writeCount 10 (peerCountOf torrent) else []) ++
    (peersOf torrent).flatMap peerBytes

section Putting
variable (blockOne blockTwo) (blocks)

private theorem putTorrent_append (some : peerCountOf torrent ≠ 0) :
    BtServer.putTorrent blockOne blockTwo blocks torrent =
      append blocks (torrentBytes (dstOf blockOne blockTwo (peerCountOf torrent)) torrent)
        (dstOf blockOne blockTwo (peerCountOf torrent)) := by
  rcases count : peerCountOf torrent with _ | _ | _ | more
  · exact absurd count some
  all_goals
    have stored : (torrent.peerList.getD .zero).peerCount = _ := count
    simp only [BtServer.putTorrent, stored, torrentBytes, count, dstOf, peersOf]
  · cases blockOne <;> simp [append]
  · cases blockTwo <;> simp [append]
  · simp [append]

private theorem putTorrent_none (none : peerCountOf torrent = 0) :
    BtServer.putTorrent blockOne blockTwo blocks torrent = blocks := by
  rw [peerCountOf] at none
  simp only [BtServer.putTorrent, none]

theorem shorter_putTorrent (torrent : Torrent) :
    Shorter blocks (BtServer.putTorrent blockOne blockTwo blocks torrent) := by
  by_cases none : peerCountOf torrent = 0
  · rw [putTorrent_none blockOne blockTwo blocks none]
    exact ⟨le_refl _, le_refl _, le_refl _⟩
  · rw [putTorrent_append blockOne blockTwo blocks none]
    exact shorter_append _ _ _

theorem shorter_putTorrents (torrents : List Torrent) :
    Shorter blocks (torrents.foldl (BtServer.putTorrent blockOne blockTwo) blocks) := by
  induction torrents generalizing blocks with
  | nil => exact ⟨le_refl _, le_refl _, le_refl _⟩
  | cons torrent torrents ih => exact (shorter_putTorrent blockOne blockTwo blocks torrent).trans (ih _)

end Putting

theorem Holds.writeTorrent {dst : Dst} (holds : Holds sizeA sizeB sizeC blocks writer)
    (plain : (peersOf torrent).length = peerCountOf torrent) (few : peerCountOf torrent < 2 ^ 56)
    (fits : Within sizeA sizeB sizeC (append blocks (torrentBytes dst torrent) dst)) :
    ∃ next, StreamMemory.writeTorrent writer dst torrent = .ok next ∧
      Holds sizeA sizeB sizeC (append blocks (torrentBytes dst torrent) dst) next := by
  rw [torrentBytes, ← append_append, ← append_append] at fits ⊢
  obtain ⟨hashed, wroteHash, holdsHash⟩ :=
    holds.write (fits.shorter ((shorter_append _ _ _).trans (shorter_append _ _ _)))
  obtain ⟨counted, wroteCount, holdsCount⟩ : ∃ counted, encodePeerCount hashed dst (peerCountOf torrent) = .ok counted ∧
      Holds sizeA sizeB sizeC (append (append blocks (torrent.hash.toList.drop 1) dst)
        (if dst = .ptrC then writeCount 10 (peerCountOf torrent) else []) dst) counted := by
    have room := fits.shorter (shorter_append _ _ _)
    unfold encodePeerCount
    by_cases general : dst = .ptrC
    · simp only [if_pos general] at room ⊢
      exact holdsHash.putCount (by omega) room
    · simp only [if_neg general, append_nil]
      exact ⟨hashed, rfl, holdsHash⟩
  obtain ⟨next, wrotePeers, holdsNext⟩ := holdsCount.putPeers fits
  rw [plain] at wrotePeers
  refine ⟨next, ?_, holdsNext⟩
  exact Access.bind_ok.mpr ⟨hashed, wroteHash, Access.bind_ok.mpr ⟨counted, wroteCount, wrotePeers⟩⟩

variable {memA memB : Nat} (first : memA ≠ 0 ↔ blockOne = true) (second : memB ≠ 0 ↔ blockTwo = true)
include first second

theorem Holds.putTorrent (holds : Holds sizeA sizeB sizeC blocks writer) (plain : (peersOf torrent).length = peerCountOf torrent)
    (few : peerCountOf torrent < 2 ^ 56) (fits : Within sizeA sizeB sizeC (BtServer.putTorrent blockOne blockTwo blocks torrent)) :
    ∃ next, StreamMemory.putTorrent memA memB writer torrent = .ok next ∧
      Holds sizeA sizeB sizeC (BtServer.putTorrent blockOne blockTwo blocks torrent) next := by
  have turn : StreamMemory.putTorrent memA memB writer torrent = if peerCountOf torrent = 0 then pure writer
      else StreamMemory.writeTorrent writer (destinationSlot memA memB (peerCountOf torrent)) torrent := rfl
  rw [turn]
  by_cases none : peerCountOf torrent = 0
  · rw [putTorrent_none blockOne blockTwo blocks none, if_pos none]
    exact ⟨writer, rfl, holds⟩
  · rw [putTorrent_append blockOne blockTwo blocks none] at fits ⊢
    rw [if_neg none, destinationSlot_eq first second]
    exact holds.writeTorrent plain few fits

theorem Holds.putTorrents (plain : ∀ torrent ∈ torrents, (peersOf torrent).length = peerCountOf torrent)
    (few : ∀ torrent ∈ torrents, peerCountOf torrent < 2 ^ 56) (holds : Holds sizeA sizeB sizeC blocks writer)
    (fits : Within sizeA sizeB sizeC (torrents.foldl (BtServer.putTorrent blockOne blockTwo) blocks)) :
    ∃ last, StreamMemory.putTorrents memA memB writer torrents = .ok last ∧
      Holds sizeA sizeB sizeC (torrents.foldl (BtServer.putTorrent blockOne blockTwo) blocks) last := by
  induction torrents generalizing blocks writer with
  | nil => exact ⟨writer, rfl, holds⟩
  | cons torrent torrents ih =>
    rw [List.forall_mem_cons] at plain few
    have now := fits.shorter (shorter_putTorrents blockOne blockTwo _ torrents)
    obtain ⟨next, wrote, held⟩ := holds.putTorrent first second plain.1 few.1 now
    obtain ⟨last, rest, heldLast⟩ := ih plain.2 few.2 held fits
    exact ⟨last, Access.bind_ok.mpr ⟨next, wrote, rest⟩, heldLast⟩

end Torrents

section Sizes

private theorem length_peerBytes (peers : List Peer) : (peers.flatMap peerBytes).length = 7 * peers.length := by
  induction peers with
  | nil => rfl
  | cons peer peers ih =>
    rw [List.flatMap_cons, List.length_append, ih, List.length_cons]
    simp only [peerBytes, List.length_append, Vector.length_toList, List.length_singleton]
    omega

variable {torrent : Torrent} {torrents : List Torrent}

private theorem length_torrentBytes (plain : (peersOf torrent).length = peerCountOf torrent) (dst : Dst) :
    (torrentBytes dst torrent).length =
      19 + (if dst = .ptrC then (writeCount 10 (peerCountOf torrent)).length else 0) + 7 * peerCountOf torrent := by
  simp only [torrentBytes, List.length_append, List.length_drop, Vector.length_toList, length_peerBytes, plain]
  split <;> simp

private theorem countPeers_cons (torrent : Torrent) (torrents : List Torrent) (wanted : Nat → Bool) :
    countPeers (torrent :: torrents) wanted = countPeers torrents wanted + if wanted (peerCountOf torrent) then 1 else 0 :=
  List.countP_cons

private theorem countDefPeers_cons (torrent : Torrent) (torrents : List Torrent) : countDefPeers (torrent :: torrents) =
      countDefPeers torrents + if 2 < peerCountOf torrent then peerCountOf torrent else 0 := by
  have same : (torrent.peerList.getD .zero).peerCount = peerCountOf torrent := rfl
  rw [countDefPeers, countDefPeers, List.map_cons, List.filter_cons, same]
  by_cases several : 2 < peerCountOf torrent
  · simp only [several, decide_true, if_true, List.sum_cons]
    exact Nat.add_comm _ _
  · simp only [several, decide_false, Bool.false_eq_true, if_false, Nat.add_zero]

private theorem length_putTorrent (blockOne blockTwo : Bool) (blocks : SyncBlocks)
    (plain : (peersOf torrent).length = peerCountOf torrent) (few : peerCountOf torrent < 2 ^ 56) :
    (BtServer.putTorrent blockOne blockTwo blocks torrent).one.length =
      blocks.one.length + (if peerCountOf torrent = 1 ∧ blockOne then 26 else 0) ∧
    (BtServer.putTorrent blockOne blockTwo blocks torrent).two.length =
      blocks.two.length + (if peerCountOf torrent = 2 ∧ blockTwo then 33 else 0) ∧
    (BtServer.putTorrent blockOne blockTwo blocks torrent).many.length ≤
      blocks.many.length + (if peerCountOf torrent = 1 ∧ blockOne = false then 27 else 0) +
        (if peerCountOf torrent = 2 ∧ blockTwo = false then 34 else 0) +
        (if 2 < peerCountOf torrent then 27 + 7 * peerCountOf torrent else 0) := by
  by_cases none : peerCountOf torrent = 0
  · rw [putTorrent_none blockOne blockTwo blocks none]
    simp [none]
  have length := length_torrentBytes plain (dstOf blockOne blockTwo (peerCountOf torrent))
  have long := @StreamTurns.writeCount_length 10 8 (peerCountOf torrent) few
  have short : peerCountOf torrent ≤ 2 → (writeCount 10 (peerCountOf torrent)).length ≤ 1 :=
    fun small => @StreamTurns.writeCount_length 10 1 (peerCountOf torrent) (by omega)
  rw [putTorrent_append blockOne blockTwo blocks none]
  generalize torrentBytes (dstOf blockOne blockTwo (peerCountOf torrent)) torrent = bytes at length ⊢
  generalize (writeCount 10 (peerCountOf torrent)).length = width at long short length
  generalize peerCountOf torrent = count at none length short ⊢
  rcases count with _ | _ | _ | more
  · exact absurd rfl none
  · cases blockOne <;> simp [dstOf, append] at length ⊢ <;> omega
  · cases blockTwo <;> simp [dstOf, append] at length ⊢ <;> omega
  · simp [dstOf, append] at length ⊢
    omega

private theorem length_putTorrents (blockOne blockTwo : Bool) (blocks : SyncBlocks)
    (plain : ∀ torrent ∈ torrents, (peersOf torrent).length = peerCountOf torrent)
    (few : ∀ torrent ∈ torrents, peerCountOf torrent < 2 ^ 56) :
    (torrents.foldl (BtServer.putTorrent blockOne blockTwo) blocks).one.length =
      blocks.one.length + (if blockOne then 26 * countPeers torrents (· = 1) else 0) ∧
    (torrents.foldl (BtServer.putTorrent blockOne blockTwo) blocks).two.length =
      blocks.two.length + (if blockTwo then 33 * countPeers torrents (· = 2) else 0) ∧
    (torrents.foldl (BtServer.putTorrent blockOne blockTwo) blocks).many.length ≤
      blocks.many.length + 27 * countPeers torrents (2 < ·) + 7 * countDefPeers torrents +
        (if blockOne then 0 else 27 * countPeers torrents (· = 1)) +
        (if blockTwo then 0 else 34 * countPeers torrents (· = 2)) := by
  induction torrents generalizing blocks with
  | nil => simp [countPeers, countDefPeers]
  | cons torrent torrents ih =>
    rw [List.forall_mem_cons] at plain few
    obtain ⟨one, two, many⟩ := ih (BtServer.putTorrent blockOne blockTwo blocks torrent) plain.2 few.2
    obtain ⟨stepOne, stepTwo, stepMany⟩ := length_putTorrent blockOne blockTwo blocks plain.1 few.1
    simp only [List.foldl_cons, countPeers_cons, countDefPeers_cons, decide_eq_true_eq]
    generalize peerCountOf torrent = count at stepOne stepTwo stepMany ⊢
    rcases count with _ | _ | _ | more
    · simp at stepOne stepTwo stepMany ⊢
      omega
    · cases blockOne <;> simp at stepOne stepTwo stepMany one two many ⊢ <;> omega
    · cases blockTwo <;> simp at stepOne stepTwo stepMany one two many ⊢ <;> omega
    · simp at stepOne stepTwo stepMany ⊢
      omega

end Sizes

section Buckets
variable {sizeA sizeB sizeC : Nat} {blocks : SyncBlocks} {writer : Writer}

theorem Holds.writeHeader (holds : Holds sizeA sizeB sizeC blocks writer) (dst : Dst) (present : Bool) (header : Bytes)
    (fits : Within sizeA sizeB sizeC (append blocks (if present then header else []) dst)) :
    ∃ next, StreamMemory.writeHeader present writer dst header = .ok next ∧
      Holds sizeA sizeB sizeC (append blocks (if present then header else []) dst) next := by
  cases present with
  | true => exact holds.write fits
  | false => exact ⟨writer, rfl, by simpa [append_nil] using holds⟩

private theorem holds_empty (sizeA sizeB sizeC : Nat) :
    Holds sizeA sizeB sizeC ⟨[], [], []⟩ ⟨List.replicate (sizeA + sizeB + sizeC) none, 0, sizeA, sizeA + sizeB⟩ := by
  refine ⟨⟨Nat.zero_le _, Nat.zero_le _, Nat.zero_le _⟩, ?_, rfl, rfl, rfl⟩
  simp [cells, region]

private theorem Holds.full (holds : Holds sizeA sizeB sizeC blocks writer) (fullA : blocks.one.length = sizeA)
    (fullB : blocks.two.length = sizeB) :
    writer.memory = (blocks.one ++ blocks.two ++ blocks.many).map some ++
      List.replicate (sizeA + sizeB + sizeC - (blocks.one ++ blocks.two ++ blocks.many).length) none ∧
    max writer.ptrA (max writer.ptrB writer.ptrC) = (blocks.one ++ blocks.two ++ blocks.many).length := by
  have rest : sizeA + sizeB + sizeC - (blocks.one ++ blocks.two ++ blocks.many).length = sizeC - blocks.many.length := by
    simp only [List.length_append]
    omega
  refine ⟨?_, ?_⟩
  · rw [holds.memory, cells, region_full fullA, region_full fullB, region, rest]
    simp only [List.map_append, List.append_assoc]
  · rw [holds.ptrA, holds.ptrB, holds.ptrC]
    simp only [List.length_append]
    omega

private def headers (blockOne blockTwo present : Bool) (first second third : Bytes) : SyncBlocks :=
  ⟨if blockOne then first else [], if blockTwo then second else [], if present then third else []⟩

variable {torrents : List Torrent} {blockOne blockTwo present : Bool} {first second third : Bytes}

private theorem writes_hold (flagA : sizeA ≠ 0 ↔ blockOne = true) (flagB : sizeB ≠ 0 ↔ blockTwo = true)
    (plain : ∀ torrent ∈ torrents, (peersOf torrent).length = peerCountOf torrent)
    (few : ∀ torrent ∈ torrents, peerCountOf torrent < 2 ^ 56) (fits : Within sizeA sizeB sizeC
      (torrents.foldl (BtServer.putTorrent blockOne blockTwo) (headers blockOne blockTwo present first second third))) :
    ∃ writerA writerB writerC last,
      StreamMemory.writeHeader blockOne ⟨List.replicate (sizeA + sizeB + sizeC) none, 0, sizeA, sizeA + sizeB⟩ .ptrA first =
        .ok writerA ∧
      StreamMemory.writeHeader blockTwo writerA .ptrB second = .ok writerB ∧
      StreamMemory.writeHeader present writerB .ptrC third = .ok writerC ∧
      StreamMemory.putTorrents sizeA sizeB writerC torrents = .ok last ∧
      Holds sizeA sizeB sizeC
        (torrents.foldl (BtServer.putTorrent blockOne blockTwo) (headers blockOne blockTwo present first second third)) last := by
  have start := fits.shorter (shorter_putTorrents blockOne blockTwo _ torrents)
  obtain ⟨writerA, wroteA, holdsA⟩ := (holds_empty sizeA sizeB sizeC).writeHeader .ptrA blockOne first
    ⟨start.one, Nat.zero_le _, Nat.zero_le _⟩
  obtain ⟨writerB, wroteB, holdsB⟩ := holdsA.writeHeader .ptrB blockTwo second
    ⟨start.one, start.two, Nat.zero_le _⟩
  obtain ⟨writerC, wroteC, holdsC⟩ := holdsB.writeHeader .ptrC present third start
  obtain ⟨last, wrote, holds⟩ := Holds.putTorrents flagA flagB plain few holdsC fits
  exact ⟨writerA, writerB, writerC, last, wroteA, wroteB, wroteC, wrote, holds⟩

private def whole (blocks : SyncBlocks) : Bytes := blocks.one ++ blocks.two ++ blocks.many

private theorem bucket_written {memA memB mem : Nat} (plain : ∀ torrent ∈ torrents, (peersOf torrent).length = peerCountOf torrent)
    (few : ∀ torrent ∈ torrents, peerCountOf torrent < 2 ^ 56) (lengths : first.length = 4 ∧ second.length = 4 ∧ third.length = 4)
    (sizeOne : memA = if blockOne then 4 + 26 * countPeers torrents (· = 1) else 0)
    (sizeTwo : memB = if blockTwo then 4 + 33 * countPeers torrents (· = 2) else 0)
    (room : memA + memB + (if present then 4 else 0) + 27 * countPeers torrents (2 < ·) + 7 * countDefPeers torrents +
      (if blockOne then 0 else 27 * countPeers torrents (· = 1)) +
      (if blockTwo then 0 else 34 * countPeers torrents (· = 2)) ≤ mem) :
    ∃ writerA writerB writerC last,
      StreamMemory.writeHeader blockOne ⟨List.replicate mem none, 0, memA, memA + memB⟩ .ptrA first = .ok writerA ∧
      StreamMemory.writeHeader blockTwo writerA .ptrB second = .ok writerB ∧
      StreamMemory.writeHeader present writerB .ptrC third = .ok writerC ∧
      StreamMemory.putTorrents memA memB writerC torrents = .ok last ∧
      ∃ total, total = whole (torrents.foldl (BtServer.putTorrent blockOne blockTwo)
          (headers blockOne blockTwo present first second third)) ∧ total.length ≤ mem ∧
        last.ptrA = memA ∧ last.ptrB = memA + memB ∧ last.ptrC = total.length ∧
        last.memory = total.map some ++ List.replicate (mem - total.length) none ∧
        max last.ptrA (max last.ptrB last.ptrC) = total.length := by
  obtain ⟨one, two, many⟩ := length_putTorrents blockOne blockTwo (headers blockOne blockTwo present first second third) plain few
  obtain ⟨four, fourToo, fourThree⟩ := lengths
  have startOne : (headers blockOne blockTwo present first second third).one.length = if blockOne then 4 else 0 := by
    cases blockOne <;> simp [headers, four]
  have startTwo : (headers blockOne blockTwo present first second third).two.length = if blockTwo then 4 else 0 := by
    cases blockTwo <;> simp [headers, fourToo]
  have startMany : (headers blockOne blockTwo present first second third).many.length = if present then 4 else 0 := by
    cases present <;> simp [headers, fourThree]
  rw [startOne] at one
  rw [startTwo] at two
  rw [startMany] at many
  have fullA : (torrents.foldl (BtServer.putTorrent blockOne blockTwo)
      (headers blockOne blockTwo present first second third)).one.length = memA := by
    rw [one, sizeOne]
    split <;> omega
  have fullB : (torrents.foldl (BtServer.putTorrent blockOne blockTwo)
      (headers blockOne blockTwo present first second third)).two.length = memB := by
    rw [two, sizeTwo]
    split <;> omega
  have flagA : memA ≠ 0 ↔ blockOne = true := by
    rw [sizeOne]
    cases blockOne <;> simp
  have flagB : memB ≠ 0 ↔ blockTwo = true := by
    rw [sizeTwo]
    cases blockTwo <;> simp
  clear one two startOne startTwo startMany sizeOne sizeTwo
  obtain ⟨sizeC, rfl⟩ : ∃ sizeC, mem = memA + memB + sizeC := ⟨mem - memA - memB, by omega⟩
  have fits : Within memA memB sizeC (torrents.foldl (BtServer.putTorrent blockOne blockTwo)
      (headers blockOne blockTwo present first second third)) := ⟨fullA.le, fullB.le, by omega⟩
  obtain ⟨writerA, writerB, writerC, last, wroteA, wroteB, wroteC, wrote, holds⟩ := writes_hold flagA flagB plain few fits
  obtain ⟨memory, sent⟩ := holds.full fullA fullB
  refine ⟨writerA, writerB, writerC, last, wroteA, wroteB, wroteC, wrote, _, rfl, ?_, ?_, ?_, ?_, memory, sent⟩
  · have within := holds.within.many
    simp only [whole, List.length_append]
    omega
  · rw [holds.ptrA, fullA]
  · rw [holds.ptrB, fullB]
  · rw [holds.ptrC]
    simp only [whole, List.length_append]
    omega

end Buckets

/-- For every bucket of plain vectors with fewer than 2 ^ 56 peers each, all writes of `streamsync_worker` stay
in the block of `mem` bytes and none hits a byte that was written before. At the end the pointers of the
first two regions stand at their ends, the bytes written are the bytes sent, and they are the blocks. -/
theorem streamsync_within (bucket : Nat) (torrents : List Torrent)
    (plain : ∀ torrent ∈ torrents, (peersOf torrent).length = peerCountOf torrent)
    (few : ∀ torrent ∈ torrents, peerCountOf torrent < 2 ^ 56) :
    (torrents = [] → StreamMemory.streamsyncBucket bucket torrents = .ok none) ∧
    (torrents ≠ [] → ∃ written, StreamMemory.streamsyncBucket bucket torrents = .ok (some written) ∧
      written.sent ≤ syncMem torrents ∧
      written.writer.ptrA = written.memA ∧ written.writer.ptrB = written.memA + written.memB ∧
      written.writer.ptrC = written.sent ∧
      written.writer.memory = (BtServer.streamsyncBucket bucket torrents).map some ++
        List.replicate (syncMem torrents - written.sent) none ∧
      written.sent = (BtServer.streamsyncBucket bucket torrents).length) := by
  refine ⟨fun none => by rw [StreamMemory.streamsyncBucket, if_pos none]; rfl, fun nonempty => ?_⟩
  rw [StreamMemory.streamsyncBucket, if_neg nonempty, BtServer.streamsyncBucket, if_neg nonempty]
  dsimp only [writeBucket, syncMem]
  generalize flagA : decide (countPeers torrents (· = 1) > 4 ∨ countPeers torrents (2 < ·) = 0) = blockOne
  generalize def1 : (if blockOne = true then countPeers torrents (2 < ·)
    else countPeers torrents (2 < ·) + countPeers torrents (· = 1)) = countDef1
  generalize flagB : decide (countPeers torrents (· = 2) > 4 ∨ countDef1 = 0) = blockTwo
  generalize def2 : (if blockTwo = true then countDef1 else countDef1 + countPeers torrents (· = 2)) = countDef2
  have third : (if countDef2 = 0 then [] else blockHeader 0 bucket countDef2) =
      if decide (countDef2 ≠ 0) = true then blockHeader 0 bucket countDef2 else [] := by
    by_cases zero : countDef2 = 0 <;> simp [zero]
  rw [third]
  obtain ⟨writerA, writerB, writerC, last, wroteA, wroteB, wroteC, wrote, total, same, inside, atA, atB, atC, memory, sent⟩ :=
    @bucket_written torrents blockOne blockTwo (decide (countDef2 ≠ 0)) (blockHeader 1 bucket (countPeers torrents (· = 1)))
      (blockHeader 2 bucket (countPeers torrents (· = 2))) (blockHeader 0 bucket countDef2)
      (if blockOne = true then 1 + 1 + 2 + countPeers torrents (· = 1) * (19 + 7) else 0)
      (if blockTwo = true then 1 + 1 + 2 + countPeers torrents (· = 2) * (19 + 14) else 0)
      (3 * (1 + 1 + 2) + (countPeers torrents (· = 1) + countPeers torrents (· = 2)) * (19 + 1) +
        countPeers torrents (2 < ·) * (19 + 8) +
        (countPeers torrents (· = 1) + 2 * countPeers torrents (· = 2) + countDefPeers torrents) * 7)
      plain few ⟨rfl, rfl, rfl⟩ (by split <;> omega) (by split <;> omega) (by split_ifs <;> omega)
  refine ⟨⟨last, _, _, total.length⟩, ?_, inside, atA, atB, atC, ?_, ?_⟩
  · refine (congrArg (Functor.map some) ?_ : _ = Functor.map some (Except.ok _))
    refine Access.bind_ok.mpr ⟨writerA, wroteA, Access.bind_ok.mpr ⟨writerB, wroteB, Access.bind_ok.mpr ⟨writerC, wroteC,
      Access.bind_ok.mpr ⟨last, wrote, ?_⟩⟩⟩⟩
    rw [sent]
    rfl
  · rw [memory, same]
    rfl
  · rw [same]
    rfl

def mergedTorrents : List Torrent :=
  [⟨Vector.replicate 20 1, some ⟨0, 0, 1, 0, ⟨.members [⟨.replicate 4 10, .replicate 2 26, 0, 0⟩], 2⟩⟩⟩,
    ⟨Vector.replicate 20 1, some ⟨0, 0, 3, 0, ⟨.members [⟨.replicate 4 10, .replicate 2 26, 0, 0⟩,
      ⟨.replicate 4 11, .replicate 2 26, 0, 0⟩, ⟨.replicate 4 12, .replicate 2 26, 0, 0⟩], 4⟩⟩⟩]

theorem streamsync_within_merged : syncMem mergedTorrents = 87 ∧
    ∃ written, StreamMemory.streamsyncBucket 4 mergedTorrents = .ok (some written) ∧ written.sent = 72 := by
  refine ⟨by decide, ?_⟩
  obtain ⟨written, run, _, _, _, _, _, sent⟩ := (streamsync_within 4 mergedTorrents (by decide) (by decide)).2 (by decide)
  exact ⟨written, run, by rw [sent]; decide⟩

end BtServer.Proofs.StreamSpace

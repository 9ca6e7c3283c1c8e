import BtServer.Proofs.StreamReads

/-! The blocks that `streamsync_worker` sends for a bucket. A bucket without a torrent of
more than two peers is sent as a block for each of the other kinds, even when that block
is empty. -/

namespace BtServer.Proofs.StreamBuckets
open Lib StreamTurns StreamReads

def peerCountOf (torrent : Torrent) : Nat := (torrent.peerList.getD .zero).peerCount

def peersOf (torrent : Torrent) : List Peer := plainPeers (torrent.peerList.getD .zero)

/-- A bucket of the proxy that the protocol has room for. -/
structure SyncBucket where
  bucket : Nat
  torrents : List Torrent
  few : torrents.length < 65536
  home : ∀ torrent ∈ torrents, bucketOfHash torrent.hash = bucket
  plain : ∀ torrent ∈ torrents, (peersOf torrent).length = peerCountOf torrent
  counted : ∀ torrent ∈ torrents, peerCountOf torrent < 2 ^ 28
  fits : ∀ torrent ∈ torrents,
    19 + (writeCount 10 (peerCountOf torrent)).length + peerSize * peerCountOf torrent ≤ indataSize

def torrentTells (torrent : Torrent) : List Tell :=
  (peersOf torrent).map fun peer => ⟨torrent.hash.toList, peerBytes peer⟩

namespace SyncBucket

def sent (bucket : SyncBucket) : Bytes := streamsyncBucket bucket.bucket bucket.torrents

def tells (bucket : SyncBucket) : List Tell := bucket.torrents.flatMap torrentTells

def countOne (bucket : SyncBucket) : Nat := countPeers bucket.torrents (· = 1)

def countTwo (bucket : SyncBucket) : Nat := countPeers bucket.torrents (· = 2)

def countDef (bucket : SyncBucket) : Nat := countPeers bucket.torrents (2 < ·)

end SyncBucket

inductive Place where
  | none
  | one
  | two
  | many
deriving DecidableEq

def placeOf (blockOne blockTwo : Bool) (count : Nat) : Place :=
  match count with
  | 0 => .none
  | 1 => if blockOne then .one else .many
  | 2 => if blockTwo then .two else .many
  | _ => .many

def goingTo (blockOne blockTwo : Bool) (place : Place) (torrents : List Torrent) : List Torrent :=
  torrents.filter fun torrent => placeOf blockOne blockTwo (peerCountOf torrent) = place

def recordOf (torrent : Torrent) : Record := ⟨torrent.hash.toList.drop 1, (peersOf torrent).map peerBytes⟩

section Torrents
variable {blockOne blockTwo : Bool} {torrent : Torrent} {torrents : List Torrent}

private theorem putTorrent_eq (blocks : SyncBlocks) (plain : (peersOf torrent).length = peerCountOf torrent) :
    putTorrent blockOne blockTwo blocks torrent =
      match placeOf blockOne blockTwo (peerCountOf torrent) with
      | .none => blocks
      | .one => { blocks with one := blocks.one ++ (recordOf torrent).bytes 1 }
      | .two => { blocks with two := blocks.two ++ (recordOf torrent).bytes 2 }
      | .many => { blocks with many := blocks.many ++ (recordOf torrent).bytes 0 } := by
  have flat : ((peersOf torrent).map peerBytes).flatten = (peersOf torrent).flatMap peerBytes := List.flatMap_def.symm
  have short : ∀ type : UInt8, type ≠ 0 →
      (recordOf torrent).bytes type = torrent.hash.toList.drop 1 ++ (peersOf torrent).flatMap peerBytes := by
    intro type other
    simp only [recordOf, Record.bytes, if_neg other, List.nil_append, flat]
  have long : (recordOf torrent).bytes 0 =
      torrent.hash.toList.drop 1 ++ (writeCount 10 (peerCountOf torrent) ++ (peersOf torrent).flatMap peerBytes) := by
    simp only [recordOf, Record.bytes, if_true, flat, List.length_map, plain]
  rw [short 1 (by decide), short 2 (by decide), long]
  simp only [putTorrent, placeOf, peerCountOf, peersOf, List.append_assoc]
  match (torrent.peerList.getD .zero).peerCount with
  | 0 => rfl
  | 1 => cases blockOne <;> rfl
  | 2 => cases blockTwo <;> rfl
  | _ + 3 => rfl

private theorem putTorrents_eq (blockOne blockTwo : Bool) {torrents : List Torrent} (start : SyncBlocks)
    (plain : ∀ torrent ∈ torrents, (peersOf torrent).length = peerCountOf torrent) :
    torrents.foldl (putTorrent blockOne blockTwo) start =
      ⟨start.one ++ ((goingTo blockOne blockTwo .one torrents).map recordOf).flatMap (Record.bytes 1),
        start.two ++ ((goingTo blockOne blockTwo .two torrents).map recordOf).flatMap (Record.bytes 2),
        start.many ++ ((goingTo blockOne blockTwo .many torrents).map recordOf).flatMap (Record.bytes 0)⟩ := by
  induction torrents generalizing start with
  | nil => simp [goingTo]
  | cons torrent rest ih =>
    rw [List.foldl_cons, ih _ fun other member => plain other (by simp [member]), putTorrent_eq start (plain torrent (by simp))]
    simp only [goingTo, List.filter_cons]
    cases placeOf blockOne blockTwo (peerCountOf torrent) <;> simp

@[simp] theorem placeOf_zero : placeOf blockOne blockTwo 0 = .none := rfl

@[simp] theorem placeOf_one : placeOf blockOne blockTwo 1 = if blockOne then .one else .many := rfl

@[simp] theorem placeOf_two : placeOf blockOne blockTwo 2 = if blockTwo then .two else .many := rfl

@[simp] theorem placeOf_many (count : Nat) : placeOf blockOne blockTwo (count + 3) = .many := rfl

private theorem countPeers_eq (torrents : List Torrent) (wanted : Nat → Bool) :
    countPeers torrents wanted = torrents.countP fun torrent => wanted (peerCountOf torrent) := rfl

private theorem placeOf_spec (blockOne blockTwo : Bool) (count : Nat) :
    match placeOf blockOne blockTwo count with
    | .none => count = 0
    | .one => count = 1
    | .two => count = 2
    | .many => 0 < count := by
  match count with
  | 0 | _ + 3 => simp
  | 1 => cases blockOne <;> simp
  | 2 => cases blockTwo <;> simp

private theorem goingTo_length (blockOne blockTwo : Bool) (torrents : List Torrent) :
    (goingTo blockOne blockTwo .one torrents).length = (if blockOne then countPeers torrents (· = 1) else 0) ∧
    (goingTo blockOne blockTwo .two torrents).length = (if blockTwo then countPeers torrents (· = 2) else 0) ∧
    (goingTo blockOne blockTwo .many torrents).length = countPeers torrents (2 < ·) +
      (if blockOne then 0 else countPeers torrents (· = 1)) + (if blockTwo then 0 else countPeers torrents (· = 2)) := by
  induction torrents with
  | nil => simp [goingTo, countPeers]
  | cons torrent rest ih =>
    obtain ⟨one, two, many⟩ := ih
    simp only [goingTo, countPeers_eq] at one two many
    simp only [goingTo, countPeers_eq, List.filter_cons, List.countP_cons]
    match peerCountOf torrent with
    | 0 | 1 | 2 | _ + 3 =>
      cases blockOne <;> cases blockTwo <;> simp [one, two, many] <;> omega

private theorem tells_perm (blockOne blockTwo : Bool) {tells : Torrent → List Tell} {torrents : List Torrent}
    (nothing : ∀ torrent ∈ torrents, peerCountOf torrent = 0 → tells torrent = []) :
    ((goingTo blockOne blockTwo .one torrents).flatMap tells ++ ((goingTo blockOne blockTwo .two torrents).flatMap tells ++
      (goingTo blockOne blockTwo .many torrents).flatMap tells)).Perm (torrents.flatMap tells) := by
  induction torrents with
  | nil => simp [goingTo]
  | cons torrent rest ih =>
    have later := ih fun other member => nothing other (by simp [member])
    simp only [goingTo, List.filter_cons, List.flatMap_cons] at later ⊢
    cases place : placeOf blockOne blockTwo (peerCountOf torrent) with
    | none =>
      have zero := placeOf_spec blockOne blockTwo (peerCountOf torrent)
      rw [place] at zero
      simpa [nothing torrent (by simp) zero] using later
    | one => simpa using later.append_left (tells torrent)
    | two =>
      simp only [reduceCtorEq, decide_false, decide_true, Bool.false_eq_true, if_false, if_true, List.flatMap_cons, List.append_assoc]
      exact (List.perm_append_comm_assoc _ _ _).trans (later.append_left (tells torrent))
    | many =>
      simp only [reduceCtorEq, decide_false, decide_true, Bool.false_eq_true, if_false, if_true, List.flatMap_cons]
      refine .trans (.trans (.append_left _ (List.perm_append_comm_assoc _ _ _)) (List.perm_append_comm_assoc _ _ _)) ?_
      exact later.append_left (tells torrent)

end Torrents

namespace SyncBucket
variable (bucket : SyncBucket)

def blockOne : Bool := bucket.countOne > 4 ∨ bucket.countDef = 0

def blockTwo : Bool := bucket.countTwo > 4 ∨ (if bucket.blockOne then bucket.countDef else bucket.countDef + bucket.countOne) = 0

def going (place : Place) : List Torrent := goingTo bucket.blockOne bucket.blockTwo place bucket.torrents

def leadByte : UInt8 := (bucket.bucket * 2 ^ 8 / 2 ^ otBucketCountBits).toUInt8

def block (type : UInt8) (place : Place) : Block := ⟨type, bucket.leadByte, (bucket.going place).map recordOf⟩

def blocks : List Block :=
  if bucket.torrents = [] then []
  else
    (if bucket.blockOne then [bucket.block 1 .one] else []) ++ ((if bucket.blockTwo then [bucket.block 2 .two] else []) ++
      (if bucket.going .many ≠ [] then [bucket.block 0 .many] else []))

theorem going_length : (bucket.going .one).length = (if bucket.blockOne then bucket.countOne else 0) ∧
    (bucket.going .two).length = (if bucket.blockTwo then bucket.countTwo else 0) ∧
    (bucket.going .many).length = bucket.countDef + (if bucket.blockOne then 0 else bucket.countOne) +
      (if bucket.blockTwo then 0 else bucket.countTwo) :=
  goingTo_length bucket.blockOne bucket.blockTwo bucket.torrents

private theorem header_eq (type : UInt8) (place : Place) :
    (bucket.block type place).header = blockHeader type bucket.bucket (bucket.going place).length := by
  simp only [block, Block.header, blockHeader, List.length_map, leadByte]

private theorem part_eq (type : UInt8) (place : Place) {shown : Prop} [Decidable shown] {count : Nat}
    (length : (bucket.going place).length = if shown then count else 0) :
    (if shown then blockHeader type bucket.bucket count else []) ++ ((bucket.going place).map recordOf).flatMap (Record.bytes type) =
      (if shown then [bucket.block type place] else []).flatMap Block.bytes := by
  by_cases holds : shown
  · have same : (bucket.going place).length = count := by simpa [holds] using length
    simp only [if_pos holds, List.flatMap_singleton, Block.bytes, header_eq, same]
    rfl
  · have none : bucket.going place = [] := by simpa [holds] using length
    simp [none, holds]

private theorem sent_headers (some : bucket.torrents ≠ []) : bucket.sent =
      ((if bucket.blockOne then blockHeader 1 bucket.bucket bucket.countOne else []) ++
          ((bucket.going .one).map recordOf).flatMap (Record.bytes 1)) ++
        ((if bucket.blockTwo then blockHeader 2 bucket.bucket bucket.countTwo else []) ++
          ((bucket.going .two).map recordOf).flatMap (Record.bytes 2)) ++
        ((if bucket.going .many ≠ [] then blockHeader 0 bucket.bucket (bucket.going .many).length else []) ++
          ((bucket.going .many).map recordOf).flatMap (Record.bytes 0)) := by
  obtain ⟨number, known⟩ : ∃ number, (if bucket.blockTwo then
      if bucket.blockOne then bucket.countDef else bucket.countDef + bucket.countOne
    else (if bucket.blockOne then bucket.countDef else bucket.countDef + bucket.countOne) + bucket.countTwo) = number := ⟨_, rfl⟩
  have length : (bucket.going .many).length = number := by
    rw [← known, bucket.going_length.2.2]
    cases bucket.blockOne <;> cases bucket.blockTwo <;> simp
  have header : (if bucket.going .many ≠ [] then blockHeader 0 bucket.bucket (bucket.going .many).length else []) =
      if number = 0 then [] else blockHeader 0 bucket.bucket number := by
    rw [← length]
    cases bucket.going .many <;> simp
  have written := putTorrents_eq bucket.blockOne bucket.blockTwo
    ⟨if bucket.blockOne then blockHeader 1 bucket.bucket bucket.countOne else [],
      if bucket.blockTwo then blockHeader 2 bucket.bucket bucket.countTwo else [],
      if number = 0 then [] else blockHeader 0 bucket.bucket number⟩ bucket.plain
  rw [sent, streamsyncBucket, if_neg some, header]
  subst known
  exact congrArg (fun blocks : SyncBlocks => blocks.one ++ blocks.two ++ blocks.many) written

private theorem many_length : (bucket.going .many).length = if bucket.going .many ≠ [] then (bucket.going .many).length else 0 := by
  cases bucket.going .many <;> simp

theorem sent_eq : bucket.sent = bucket.blocks.flatMap Block.bytes := by
  obtain ⟨one, two, -⟩ := bucket.going_length
  by_cases none : bucket.torrents = []
  · simp [sent, streamsyncBucket, blocks, none]
  · rw [bucket.sent_headers none, bucket.part_eq 1 .one one, bucket.part_eq 2 .two two,
      bucket.part_eq 0 .many bucket.many_length, blocks, if_neg none, List.flatMap_append, List.flatMap_append, List.append_assoc]

private theorem hash_eq {torrent : Torrent} (member : torrent ∈ bucket.torrents) :
    bucket.leadByte :: torrent.hash.toList.drop 1 = torrent.hash.toList := by
  have home := bucket.home torrent member
  have size : torrent.hash.toList.length = 20 := by simp
  rw [bucketOfHash] at home
  cases bytes : torrent.hash.toList with
  | nil => simp [bytes] at size
  | cons byte rest =>
    have length : (rest.take 3).length = 3 := by
      rw [bytes, List.length_cons] at size
      rw [List.length_take]
      omega
    have low := bigEndian_lt (rest.take 3)
    rw [bytes, List.take_succ_cons, bigEndian_cons, length] at home
    rw [length] at low
    have same : bucket.bucket * 2 ^ 8 / 2 ^ otBucketCountBits = byte.toNat := by
      rw [← home]
      clear home
      simp only [otBucketCountShift, otBucketCountBits, Nat.reduceSub, Nat.reducePow] at low ⊢
      omega
    rw [leadByte, same]
    simp

theorem record_tells {torrent : Torrent} (member : torrent ∈ bucket.torrents) :
    (recordOf torrent).tells bucket.leadByte = torrentTells torrent := by
  simp only [Record.tells, recordOf, bucket.hash_eq member, List.map_map, torrentTells]
  rfl

theorem block_tells (type : UInt8) (place : Place) : (bucket.block type place).tells = (bucket.going place).flatMap torrentTells := by
  simp only [Block.tells, block, List.flatMap_map]
  refine List.flatMap_congr ?_
  intro torrent member
  exact bucket.record_tells (List.mem_of_mem_filter member)

private theorem part_tells (type : UInt8) (place : Place) {shown : Prop} [Decidable shown] {count : Nat}
    (length : (bucket.going place).length = if shown then count else 0) :
    (if shown then [bucket.block type place] else []).flatMap Block.tells = (bucket.going place).flatMap torrentTells := by
  by_cases holds : shown
  · simp [holds, block_tells]
  · have none : bucket.going place = [] := by simpa [holds] using length
    simp [holds, none]

theorem blocks_tells : (bucket.blocks.flatMap Block.tells).Perm bucket.tells := by
  obtain ⟨one, two, -⟩ := bucket.going_length
  have nothing : ∀ torrent ∈ bucket.torrents, peerCountOf torrent = 0 → torrentTells torrent = [] := by
    intro torrent member zero
    have none := bucket.plain torrent member
    rw [zero, List.length_eq_zero_iff] at none
    simp [torrentTells, none]
  by_cases none : bucket.torrents = []
  · simp [blocks, tells, none]
  · rw [blocks, if_neg none, List.flatMap_append, List.flatMap_append, bucket.part_tells 1 .one one, bucket.part_tells 2 .two two,
      bucket.part_tells 0 .many bucket.many_length]
    exact tells_perm bucket.blockOne bucket.blockTwo nothing

private theorem record_valid {torrent : Torrent} {place : Place} (type : UInt8) (member : torrent ∈ bucket.going place)
    (kind : place = .one ∧ type = 1 ∨ place = .two ∧ type = 2 ∨ place = .many ∧ type = 0) : (recordOf torrent).Valid type := by
  obtain ⟨stored, goes⟩ := List.mem_filter.mp member
  have plain := bucket.plain torrent stored
  have place_spec := placeOf_spec bucket.blockOne bucket.blockTwo (peerCountOf torrent)
  rw [of_decide_eq_true goes] at place_spec
  have count : 0 < peerCountOf torrent ∧ (type ≠ 0 → peerCountOf torrent = type.toNat) := by
    rcases kind with ⟨rfl, rfl⟩ | ⟨rfl, rfl⟩ | ⟨rfl, rfl⟩
    · exact ⟨by simp_all, fun _ => place_spec⟩
    · exact ⟨by simp_all, fun _ => place_spec⟩
    · exact ⟨place_spec, fun other => absurd rfl other⟩
  have tail : (recordOf torrent).tail.length = 19 := by simp [recordOf]
  have length : (recordOf torrent).peers.length = peerCountOf torrent := by rw [recordOf, List.length_map, plain]
  have sized : ∀ peer ∈ (recordOf torrent).peers, peer.length = peerSize := by
    intro peer known
    obtain ⟨original, -, rfl⟩ := List.mem_map.mp known
    simp [peerBytes, peerSize, otIpSize]
  refine ⟨tail, sized, ?_, ?_, ?_, ?_⟩
  · exact List.ne_nil_of_length_pos (by omega)
  · rw [length]
    exact count.2
  · rw [length]
    exact bucket.counted torrent stored
  · have fits := bucket.fits torrent stored
    rw [Record.bytes, List.length_append, List.length_append, tail, length_flatten_of sized, length]
    split
    · omega
    · simp only [List.length_nil]
      omega

theorem blocks_valid : ∀ block ∈ bucket.blocks, block.Valid := by
  intro block member
  have few : ∀ place, ((bucket.going place).map recordOf).length < 65536 := by
    intro place
    rw [List.length_map]
    exact lt_of_le_of_lt (List.length_filter_le _ _) bucket.few
  have known : block = bucket.block 1 .one ∨ block = bucket.block 2 .two ∨
      block = bucket.block 0 .many ∧ bucket.going .many ≠ [] := by
    unfold blocks at member
    split at member
    · cases member
    · simp only [List.mem_append] at member
      rcases member with one | two | many
      · split at one <;> simp_all
      · split at two <;> simp_all
      · split at many <;> simp_all
  rcases known with rfl | rfl | ⟨rfl, some⟩
  · refine ⟨few _, ?_, .inl rfl⟩
    exact List.forall_mem_map.mpr fun torrent going => bucket.record_valid 1 going (.inl ⟨rfl, rfl⟩)
  · refine ⟨few _, ?_, .inr (.inl rfl)⟩
    exact List.forall_mem_map.mpr fun torrent going => bucket.record_valid 2 going (.inr (.inl ⟨rfl, rfl⟩))
  · refine ⟨few _, ?_, .inr (.inr ⟨rfl, by simpa [SyncBucket.block] using some⟩)⟩
    exact List.forall_mem_map.mpr fun torrent going => bucket.record_valid 0 going (.inr (.inr ⟨rfl, rfl⟩))

/-- What the counts of a bucket make of its blocks. -/
inductive Shape : Prop where
  | nothing (none : bucket.torrents = []) (blocks : bucket.blocks = [])
  | pair (some : bucket.torrents ≠ []) (few : bucket.countDef = 0)
      (one : (bucket.block 1 .one).records = [] ↔ bucket.countOne = 0) (two : (bucket.block 2 .two).records = [] ↔ bucket.countTwo = 0)
      (blocks : bucket.blocks = [bucket.block 1 .one, bucket.block 2 .two])
  | full (front : List Block) (several : bucket.countDef ≠ 0) (blocks : bucket.blocks = front ++ [bucket.block 0 .many])
      (records : ∀ block ∈ bucket.blocks, block.records ≠ []) (long : 33 ≤ (bucket.block 0 .many).bytes.length)

private theorem records_nil (type : UInt8) (place : Place) : (bucket.block type place).records = [] ↔ (bucket.going place).length = 0 := by
  simp [block]

private theorem many_long (several : bucket.countDef ≠ 0) : 33 ≤ (bucket.block 0 .many).bytes.length := by
  obtain ⟨torrent, stored, large⟩ := List.countP_pos_iff.mp (Nat.pos_of_ne_zero several)
  have large : 2 < peerCountOf torrent := of_decide_eq_true large
  have goes : torrent ∈ bucket.going .many := by
    refine List.mem_filter.mpr ⟨stored, decide_eq_true ?_⟩
    obtain ⟨more, same⟩ : ∃ more, peerCountOf torrent = more + 3 := ⟨peerCountOf torrent - 3, by omega⟩
    rw [same, placeOf_many]
  obtain ⟨before, after, split⟩ := List.append_of_mem goes
  have valid := bucket.record_valid 0 goes (.inr (.inr ⟨rfl, rfl⟩))
  have count : (recordOf torrent).peers.length = peerCountOf torrent := by
    rw [recordOf, List.length_map, bucket.plain torrent stored]
  have length := valid.length
  rw [count, show peerSize = 7 from rfl] at length
  simp only [Block.bytes, block, split, List.map_append, List.map_cons, List.flatMap_append, List.flatMap_cons, List.length_append]
  omega

theorem shape : bucket.Shape := by
  obtain ⟨one, two, many⟩ := bucket.going_length
  by_cases none : bucket.torrents = []
  · exact .nothing none (by simp [blocks, none])
  by_cases few : bucket.countDef = 0
  · have first : bucket.blockOne = true := by simp [blockOne, few]
    have second : bucket.blockTwo = true := by simp [blockTwo, first, few]
    rw [first] at one many
    rw [second] at two many
    have nobody : bucket.going .many = [] := List.eq_nil_of_length_eq_zero (by simpa [few] using many)
    refine .pair none few ?_ ?_ ?_
    · rw [records_nil, one, if_pos rfl]
    · rw [records_nil, two, if_pos rfl]
    · simp [blocks, none, first, second, nobody]
  · have some : bucket.going .many ≠ [] := List.ne_nil_of_length_pos (by omega)
    refine .full _ few (by rw [blocks, if_neg none, if_pos some, ← List.append_assoc]) ?_ (bucket.many_long few)
    intro block member
    rw [blocks, if_neg none, if_pos some] at member
    simp only [List.mem_append, List.mem_singleton] at member
    rcases member with first | second | rfl
    · split at first
      next shown =>
        have above : 4 < bucket.countOne := by simpa [blockOne, few] using shown
        rw [List.mem_singleton.mp first, ne_eq, records_nil, one, if_pos shown]
        omega
      next => cases first
    · split at second
      next shown =>
        have above : 4 < bucket.countTwo := by
          rcases of_decide_eq_true shown with above | nobody
          · exact above
          · split at nobody <;> omega
        rw [List.mem_singleton.mp second, ne_eq, records_nil, two, if_pos shown]
        omega
      next => cases second
    · simpa [records_nil] using some

end SyncBucket

end BtServer.Proofs.StreamBuckets

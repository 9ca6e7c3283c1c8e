import BtServer.StreamSync

/-! Turns of `process_indata` on a stream of well-formed blocks. A torrent is told when
all of it has come in and at least 27 bytes are there; a header is read when its four
bytes are there. -/

namespace BtServer.Proofs.StreamTurns
open Lib

section Counts

private theorem low_group {m : Nat} (small : m < 128) : ((m.toUInt8 &&& 0x7f).toNat = m ∧ m.toUInt8 &&& 0x80 = 0) ∧
    (((0x80 ||| m).toUInt8 &&& 0x7f).toNat = m ∧ (0x80 ||| m).toUInt8 &&& 0x80 ≠ 0) := by
  revert m
  decide

private theorem join_groups (count : Nat) : count % 128 ||| (count >>> 7) <<< 7 = count := by
  have low : count % 128 < 2 ^ 7 := Nat.mod_lt _ (by decide)
  have join := Nat.two_pow_add_eq_or_of_lt low (count / 128)
  rw [Nat.shiftRight_eq_div_pow, Nat.shiftLeft_eq, Nat.or_comm, Nat.mul_comm, ← join]
  omega

theorem readCount_writeCount {fuel groups count : Nat} (shift : Nat) (rest : Bytes) (enough : groups ≤ fuel) (positive : 0 < count)
    (small : count < 2 ^ (7 * groups)) (few : shift + groups ≤ 7) :
    readCount shift (writeCount fuel count ++ rest) = (count <<< (7 * shift), rest) := by
  induction groups generalizing fuel count shift with
  | zero => omega
  | succ groups ih =>
    obtain ⟨fuel, rfl⟩ : ∃ more, fuel = more + 1 := ⟨fuel - 1, by omega⟩
    have written := low_group (Nat.mod_lt count (by decide : 0 < 128))
    have mask : count &&& 0x7f = count % 128 := Nat.and_two_pow_sub_one_eq_mod count 7
    rw [writeCount, if_neg (by omega), mask]
    by_cases last : count ≤ 0x7f
    · have same : count % 128 = count := Nat.mod_eq_of_lt (by omega)
      have done : count >>> 7 = 0 := by rw [Nat.shiftRight_eq_div_pow]; omega
      have nothing : writeCount fuel 0 = [] := by cases fuel <;> simp [writeCount]
      rw [same] at written
      simp [readCount, last, done, nothing, written.1.1, written.1.2]
    · have more : count >>> 7 < 2 ^ (7 * groups) := by
        rw [Nat.shiftRight_eq_div_pow, Nat.div_lt_iff_lt_mul (by decide), ← pow_add]
        exact lt_of_lt_of_eq small (by ring)
      have left : 0 < count >>> 7 := by rw [Nat.shiftRight_eq_div_pow]; omega
      have later := ih (shift + 1) (by omega : groups ≤ fuel) left more (by omega)
      have early : shift < 6 := by
        by_contra late
        obtain rfl : groups = 0 := by omega
        omega
      simp only [if_neg last, List.cons_append, readCount, written.2.1, written.2.2, ne_eq, not_false_eq_true, early, and_self,
        if_true, later, Prod.mk.injEq, and_true]
      rw [Nat.mul_add, Nat.mul_one, Nat.add_comm, Nat.shiftLeft_add, ← Nat.shiftLeft_or_distrib, join_groups]

theorem writeCount_length (fuel : Nat) {groups count : Nat} (small : count < 2 ^ (7 * groups)) :
    (writeCount fuel count).length ≤ groups := by
  induction groups generalizing fuel count with
  | zero =>
    obtain rfl : count = 0 := by omega
    cases fuel <;> simp [writeCount]
  | succ groups ih =>
    cases fuel with
    | zero => simp [writeCount]
    | succ fuel =>
      have more : count >>> 7 < 2 ^ (7 * groups) := by
        rw [Nat.shiftRight_eq_div_pow, Nat.div_lt_iff_lt_mul (by decide), ← pow_add]
        exact lt_of_lt_of_eq small (by ring)
      rw [writeCount]
      split
      · simp
      · have later := ih fuel more
        simp only [List.length_cons]
        omega

theorem writeCount_positive {fuel count : Nat} (positive : 0 < count) : 0 < (writeCount (fuel + 1) count).length := by
  rw [writeCount, if_neg (by omega)]
  simp

end Counts

section Lists
variable {α : Type}

theorem append_split {front back first rest : List α} (same : front ++ back = first ++ rest)
    (fits : first.length ≤ front.length) : ∃ middle, front = first ++ middle ∧ middle ++ back = rest := by
  rcases List.append_eq_append_iff.mp same with ⟨middle, long, short⟩ | ⟨middle, long, short⟩
  · have none : middle = [] := by
      have length := congrArg List.length long
      rw [List.length_append] at length
      exact List.eq_nil_of_length_eq_zero (by omega)
    subst none
    exact ⟨[], by simpa using long.symm, by simpa using short⟩
  · exact ⟨middle, long, short.symm⟩

variable {size : Nat} {pieces : List (List α)} (sized : ∀ piece ∈ pieces, piece.length = size)
include sized

theorem length_flatten_of :
    pieces.flatten.length = size * pieces.length := by
  induction pieces with
  | nil => simp
  | cons piece rest ih =>
    have first := sized piece (by simp)
    have later := ih fun other member => sized other (by simp [member])
    rw [List.flatten_cons, List.length_append, first, later, List.length_cons, Nat.mul_add, Nat.mul_one, Nat.add_comm]

theorem cut_pieces (rest : List α) :
    ((List.range pieces.length).map fun i => ((pieces.flatten ++ rest).drop (size * i)).take size) = pieces := by
  induction pieces with
  | nil => rfl
  | cons piece others ih =>
    have first := sized piece (by simp)
    have later := ih fun other member => sized other (by simp [member])
    rw [List.length_cons, List.range_succ_eq_map, List.map_cons, List.map_map]
    congr 1
    · simp [← first]
    · refine Eq.trans (List.map_congr_left ?_) later
      intro i _
      have shift : size * Nat.succ i = piece.length + size * i := by rw [first, Nat.succ_eq_add_one, Nat.mul_add]; omega
      rw [Function.comp_apply, List.flatten_cons, List.append_assoc, shift, ← List.drop_drop, List.drop_left]

end Lists

structure Record where
  tail : Bytes
  peers : List Bytes

namespace Record

def bytes (type : UInt8) (record : Record) : Bytes :=
  record.tail ++ ((if type = 0 then writeCount 10 record.peers.length else []) ++ record.peers.flatten)

def tells (leadByte : UInt8) (record : Record) : List Tell := record.peers.map fun peer => ⟨leadByte :: record.tail, peer⟩

structure Valid (type : UInt8) (record : Record) : Prop where
  tail : record.tail.length = 19
  sized : ∀ peer ∈ record.peers, peer.length = peerSize
  some : record.peers ≠ []
  counted : type ≠ 0 → record.peers.length = type.toNat
  few : record.peers.length < 2 ^ 28
  fits : (record.bytes type).length ≤ indataSize

variable {type : UInt8} {record : Record}
variable (valid : record.Valid type)
include valid

theorem Valid.positive : 0 < record.peers.length :=
  List.length_pos_of_ne_nil valid.some

theorem Valid.count_length :
    (if type = 0 then writeCount 10 record.peers.length else []).length ≤ 4 ∧
    (type = 0 → 0 < (if type = 0 then writeCount 10 record.peers.length else []).length) := by
  split
  next zero => exact ⟨writeCount_length 10 valid.few, fun _ => writeCount_positive valid.positive⟩
  next other => exact ⟨by simp, fun zero => absurd zero other⟩

theorem Valid.length : (record.bytes type).length =
      19 + (if type = 0 then writeCount 10 record.peers.length else []).length + peerSize * record.peers.length := by
  rw [bytes, List.length_append, List.length_append, valid.tail, length_flatten_of valid.sized]
  omega

theorem Valid.least : 26 ≤ (record.bytes type).length := by
  have positive := valid.positive
  rw [valid.length, show peerSize = 7 from rfl]
  omega

end Record

section Turns
variable {incoming : Incoming} {unread more : Bytes} {record : Record}

theorem turn_record (inside : incoming.packetTcount ≠ 0) (valid : record.Valid incoming.packetType)
    (data : incoming.indata ++ unread = record.bytes incoming.packetType ++ more) :
    processTurn incoming =
      if incoming.indata.length < 27 ∨ incoming.indata.length < (record.bytes incoming.packetType).length then
        .postponed incoming
      else
        .told { incoming with
            indata := incoming.indata.drop (record.bytes incoming.packetType).length
            packetTcount := subSize incoming.packetTcount 1 } (record.tells incoming.packetTprefix) false := by
  have header : readHeader incoming = some incoming := by simp [readHeader, inside]
  have minimal : 20 + peerSize = 27 := rfl
  by_cases short : incoming.indata.length < 27
  · simp [processTurn, header, minimal, short]
  obtain ⟨count, counts⟩ : ∃ count, (if incoming.packetType = 0 then writeCount 10 record.peers.length else []) = count := ⟨_, rfl⟩
  have length := valid.length
  have small := valid.count_length.1
  rw [counts] at length small
  rw [Record.bytes, counts, List.append_assoc, List.append_assoc] at data
  obtain ⟨body, front, data⟩ := append_split data (by rw [valid.tail]; omega)
  have size : incoming.indata.length = 19 + body.length := by rw [front, List.length_append, valid.tail]
  obtain ⟨rest, split, data⟩ := append_split data (by omega)
  have parsed : (if incoming.packetType = 0 then readCount 0 (incoming.indata.drop 19)
      else (incoming.packetType.toNat, incoming.indata.drop 19)) = (record.peers.length, rest) := by
    have dropped : incoming.indata.drop 19 = count ++ rest := by rw [front, ← split, ← valid.tail, List.drop_left]
    rw [dropped, ← counts]
    split
    next zero =>
      rw [readCount_writeCount 0 rest (by decide : 4 ≤ 10) valid.positive valid.few (by decide)]
      simp
    next other => rw [valid.counted other, List.nil_append]
  have taken : incoming.indata.take 19 = record.tail := by rw [front, ← valid.tail, List.take_left]
  have bodySize : body.length = count.length + rest.length := by rw [split, List.length_append]
  rw [length]
  by_cases missing : rest.length < peerSize * record.peers.length
  · simp only [processTurn, header, minimal, if_neg short, parsed, missing, if_true]
    rw [if_pos (by omega)]
  · have total := length_flatten_of valid.sized
    obtain ⟨left, whole, _⟩ := append_split data (by omega)
    have cut := cut_pieces valid.sized left
    have dropped : rest.drop (peerSize * record.peers.length) = left := by rw [whole, ← total, List.drop_left]
    have gone : incoming.indata.drop (19 + count.length + peerSize * record.peers.length) = left := by
      rw [front, split, ← List.append_assoc, ← List.drop_drop, ← valid.tail, ← List.length_append, List.drop_left, dropped]
    simp only [processTurn, header, minimal, if_neg short, parsed, missing, if_false, taken, inside, decide_false]
    rw [if_neg (by omega), gone, dropped, Record.tells]
    congr 1
    calc (List.range record.peers.length).map (fun i =>
          (⟨incoming.packetTprefix :: record.tail, (rest.drop (peerSize * i)).take peerSize⟩ : Tell))
        = ((List.range record.peers.length).map fun i => (rest.drop (peerSize * i)).take peerSize).map
            fun peer => (⟨incoming.packetTprefix :: record.tail, peer⟩ : Tell) := by rw [List.map_map]; rfl
      _ = record.peers.map fun peer => ⟨incoming.packetTprefix :: record.tail, peer⟩ := by rw [whole, cut]

end Turns

structure Block where
  type : UInt8
  leadByte : UInt8
  records : List Record

namespace Block

def header (block : Block) : Bytes :=
  [block.type, block.leadByte, (block.records.length / 256).toUInt8, (block.records.length % 256).toUInt8]

def bytes (block : Block) : Bytes := block.header ++ block.records.flatMap (Record.bytes block.type)

def tells (block : Block) : List Tell := block.records.flatMap (Record.tells block.leadByte)

structure Valid (block : Block) : Prop where
  few : block.records.length < 65536
  records : ∀ record ∈ block.records, record.Valid block.type
  kind : block.type = 1 ∨ block.type = 2 ∨ block.type = 0 ∧ block.records ≠ []

/-- The bytes that may follow an empty block without being taken for a torrent. -/
def limit (block : Block) : Nat := if block.type = 1 then 26 else 32

def opened (block : Block) (indata : Bytes) : Incoming :=
  ⟨indata, block.records.length, block.leadByte, block.type⟩

end Block

section Headers
variable {incoming : Incoming} {block : Block}
variable (outside : incoming.packetTcount = 0)
include outside

theorem turn_short (short : incoming.indata.length < 4) :
    processTurn incoming = .postponed incoming := by
  have none : readHeader incoming = none := by
    rw [readHeader, if_neg (by simp [outside])]
    match known : incoming.indata with
    | [] | [_] | [_, _] | [_, _, _] => rfl
    | _ :: _ :: _ :: _ :: rest =>
      simp only [known, List.length_cons] at short
      omega
  rw [processTurn, none]

theorem readHeader_opened (few : block.records.length < 65536) {body : Bytes}
    (data : incoming.indata = block.header ++ body) : readHeader incoming = some (block.opened body) := by
  have count : (block.records.length / 256).toUInt8.toNat * 256 + (block.records.length % 256).toUInt8.toNat =
      block.records.length := by
    simp only [UInt8.toNat_ofNat', Nat.toUInt8]
    omega
  rw [readHeader, if_neg (by simp [outside]), data]
  simp only [Block.header, List.cons_append, List.nil_append, count]
  rfl

theorem turn_opened (valid : block.Valid) (full : block.records ≠ []) {body : Bytes}
    (data : incoming.indata = block.header ++ body) : processTurn incoming = processTurn (block.opened body) := by
  have count : block.records.length ≠ 0 := by simpa using full
  have again : readHeader (block.opened body) = some (block.opened body) := by simp [readHeader, Block.opened, count]
  rw [processTurn, processTurn, readHeader_opened outside valid.few data, again]

theorem turn_empty (valid : block.Valid) (empty : block.records = []) {body : Bytes}
    (data : incoming.indata = block.header ++ body) :
    (body.length ≤ block.limit ∧ processTurn incoming = .postponed (block.opened body)) ∨
    (block.limit < body.length ∧ ∃ next tells, processTurn incoming = .told next tells true) := by
  have header := readHeader_opened outside valid.few data
  have minimal : 20 + peerSize = 27 := rfl
  have none : block.records.length = 0 := by simp [empty]
  have kind : block.type = 1 ∨ block.type = 2 := by
    rcases valid.kind with one | two | ⟨_, full⟩
    · exact .inl one
    · exact .inr two
    · exact absurd empty full
  have notZero : block.type ≠ 0 := by
    rcases kind with type | type <;> simp [type]
  have turn : processTurn incoming = if body.length < 27 then .postponed (block.opened body)
      else if body.length - 19 < peerSize * block.type.toNat then .postponed (block.opened body)
      else .told { block.opened body with
          indata := (body.drop 19).drop (peerSize * block.type.toNat), packetTcount := subSize 0 1 }
        ((List.range block.type.toNat).map fun i =>
          ⟨block.leadByte :: body.take 19, ((body.drop 19).drop (peerSize * i)).take peerSize⟩) true := by
    simp only [processTurn, header, minimal, Block.opened, none, notZero, if_false, List.length_drop, decide_true]
  rw [turn]
  have size : peerSize = 7 := rfl
  have width : block.limit = max 26 (18 + peerSize * block.type.toNat) := by
    rcases kind with type | type <;> simp [Block.limit, type, size]
  by_cases little : body.length ≤ block.limit
  · refine .inl ⟨little, ?_⟩
    by_cases short : body.length < 27
    · rw [if_pos short]
    · rw [if_neg short, if_pos (by omega)]
  · refine .inr ⟨by omega, ?_⟩
    rw [if_neg (by omega), if_neg (by omega)]
    exact ⟨_, _, rfl⟩

end Headers

end BtServer.Proofs.StreamTurns

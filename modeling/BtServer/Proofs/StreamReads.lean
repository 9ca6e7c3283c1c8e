import BtServer.Proofs.StreamTurns

/-! Reads of a stream of blocks. Between two reads the decoder stands before a torrent or a block; however the stream is cut it
tells all torrents before that place, unless an empty block makes it lose count. -/

namespace BtServer.Proofs.StreamReads
open Lib StreamTurns

def remaining (type : UInt8) (records : List Record) (blocks : List Block) : Bytes :=
  records.flatMap (Record.bytes type) ++ blocks.flatMap Block.bytes

def toTell (incoming : Incoming) (records : List Record) (blocks : List Block) : List Tell :=
  records.flatMap (Record.tells incoming.packetTprefix) ++ blocks.flatMap Block.tells

/-- The decoder stands before these torrents and blocks, and `extra` follows them. -/
structure At (incoming : Incoming) (unread : Bytes) (records : List Record) (blocks : List Block) (extra : Bytes) :
    Prop where
  data : incoming.indata ++ unread = remaining incoming.packetType records blocks ++ extra
  count : incoming.packetTcount = records.length
  records : ∀ record ∈ records, record.Valid incoming.packetType
  blocks : ∀ block ∈ blocks, block.Valid

theorem subSize_succ (count : Nat) : subSize (count + 1) 1 = count := by simp [subSize]

section Turns
variable {incoming : Incoming} {unread extra : Bytes} {record : Record} {records : List Record} {blocks : List Block}

theorem turn_inside (at_record : At incoming unread (record :: records) blocks extra) :
    (processTurn incoming = .postponed incoming ∧
      (incoming.indata.length < 27 ∨ incoming.indata.length < (record.bytes incoming.packetType).length)) ∨
    ∃ next, processTurn incoming = .told next (record.tells incoming.packetTprefix) false ∧
      At next unread records blocks extra ∧ next.packetType = incoming.packetType ∧
      next.packetTprefix = incoming.packetTprefix ∧
      next.indata.length + (record.bytes incoming.packetType).length = incoming.indata.length ∧ 27 ≤ incoming.indata.length := by
  have valid := at_record.records record (by simp)
  have inside : incoming.packetTcount ≠ 0 := by simp [at_record.count]
  have data := at_record.data
  rw [remaining, List.flatMap_cons, List.append_assoc, List.append_assoc] at data
  have turn := turn_record inside valid data
  by_cases missing : incoming.indata.length < 27 ∨ incoming.indata.length < (record.bytes incoming.packetType).length
  · exact .inl ⟨by rw [turn, if_pos missing], missing⟩
  · rw [if_neg missing] at turn
    push Not at missing
    obtain ⟨rest, front, data⟩ := append_split data missing.2
    have dropped : incoming.indata.drop (record.bytes incoming.packetType).length = rest := by rw [front, List.drop_left]
    refine .inr ⟨_, turn, ⟨?_, ?_, fun other member => at_record.records other (by simp [member]), at_record.blocks⟩, rfl, rfl, ?_,
      missing.1⟩
    · simp only [dropped, data, remaining, List.append_assoc]
    · simp only [at_record.count, List.length_cons, subSize_succ]
    · simp only [List.length_drop]
      omega

theorem header_length (block : Block) : block.header.length = 4 := rfl

theorem at_header {block : Block} (at_block : At incoming unread [] (block :: blocks) extra) (there : 4 ≤ incoming.indata.length) :
    ∃ body, incoming.indata = block.header ++ body ∧ At (block.opened body) unread block.records blocks extra := by
  have valid := at_block.blocks block (by simp)
  have data := at_block.data
  simp only [remaining, List.flatMap_nil, List.nil_append, List.flatMap_cons, Block.bytes, List.append_assoc] at data
  obtain ⟨body, front, data⟩ := append_split data there
  refine ⟨body, front, ?_, rfl, valid.records, fun other member => at_block.blocks other (by simp [member])⟩
  simp only [Block.opened, data, remaining, List.append_assoc]

end Turns

def Within (all : List Block) (incoming : Incoming) (records : List Record) (blocks : List Block) : Prop :=
  (records = [] ∧ all = blocks) ∨
  ∃ done block read, all = done ++ block :: blocks ∧ block.records = read ++ records ∧ block.type = incoming.packetType

inductive Stopped (all : List Block) (incoming : Incoming) : List Record → List Block → Prop where
  | torrent {record : Record} {records : List Record} {blocks : List Block}
      (missing : incoming.indata.length < 27 ∨ incoming.indata.length < (record.bytes incoming.packetType).length) :
      Stopped all incoming (record :: records) blocks
  | header {blocks : List Block} (missing : incoming.indata.length < 4) : Stopped all incoming [] blocks
  | empty {done blocks : List Block} {block : Block} (split : all = done ++ block :: blocks) (none : block.records = []) :
      Stopped all incoming [] blocks

/-- No empty block that has been received is followed by more than its limit. -/
def Quiet (incoming : Incoming) (records : List Record) (blocks : List Block) : Prop :=
  ∀ before block after, blocks = before ++ block :: after → block.records = [] →
    incoming.indata.length ≤ (remaining incoming.packetType records before).length + 4 + block.limit

section Spec
variable {all : List Block} {incoming : Incoming} {unread : Bytes} {records : List Record} {blocks : List Block}

structure Moves (all : List Block) (unread : Bytes) (incoming next : Incoming) (tells : List Tell) (records : List Record)
    (blocks : List Block) (records' : List Record) (blocks' : List Block) : Prop where
  place : At next unread records' blocks' []
  within : Within all next records' blocks'
  tells : tells ++ toTell next records' blocks' = toTell incoming records blocks

private theorem turn_torrent {record : Record} (place : At incoming unread (record :: records) blocks [])
    (within : Within all incoming (record :: records) blocks) (quiet : Quiet incoming (record :: records) blocks) :
    (processTurn incoming = .postponed incoming ∧ Stopped all incoming (record :: records) blocks) ∨
    ∃ next, processTurn incoming = .told next (record.tells incoming.packetTprefix) false ∧
      Moves all unread incoming next (record.tells incoming.packetTprefix) (record :: records) blocks records blocks ∧
      Quiet next records blocks ∧ next.indata.length < incoming.indata.length := by
  have bytes := (place.records record (by simp)).length
  rcases turn_inside place with ⟨turn, missing⟩ | ⟨next, turn, moved, type, leadByte, size, _⟩
  · exact .inl ⟨turn, .torrent missing⟩
  · refine .inr ⟨next, turn, ⟨moved, ?_, ?_⟩, ?_, by omega⟩
    · rcases within with ⟨none, _⟩ | ⟨done, block, read, split, has, same⟩
      · cases none
      · exact .inr ⟨done, block, read ++ [record], split, by simpa using has, same.trans type.symm⟩
    · simp only [toTell, leadByte, List.flatMap_cons, List.append_assoc]
    · intro before block after split none
      have bound := quiet before block after split none
      simp only [remaining, List.flatMap_cons, List.length_append] at bound
      simp only [remaining, List.length_append, type]
      omega

private theorem Within.next {block : Block} (within : Within all incoming records (block :: blocks)) :
    ∃ done, all = done ++ block :: blocks := by
  rcases within with ⟨_, rfl⟩ | ⟨done, other, read, split, _, _⟩
  · exact ⟨[], rfl⟩
  · exact ⟨done ++ [other], by simpa using split⟩

theorem turn_spec (place : At incoming unread records blocks []) (within : Within all incoming records blocks)
    (quiet : Quiet incoming records blocks) :
    (∃ next records' blocks', processTurn incoming = .postponed next ∧
      Moves all unread incoming next [] records blocks records' blocks' ∧ Stopped all next records' blocks') ∨
    ∃ next tells records' blocks', processTurn incoming = .told next tells false ∧
      Moves all unread incoming next tells records blocks records' blocks' ∧ Quiet next records' blocks' ∧
      next.indata.length < incoming.indata.length := by
  cases records with
  | cons record records =>
    rcases turn_torrent place within quiet with ⟨turn, stopped⟩ | ⟨next, turn, moves, quiet', shorter⟩
    · exact .inl ⟨incoming, _, _, turn, ⟨place, within, rfl⟩, stopped⟩
    · exact .inr ⟨next, _, _, _, turn, moves, quiet', shorter⟩
  | nil =>
    have outside : incoming.packetTcount = 0 := place.count
    by_cases there : 4 ≤ incoming.indata.length
    · cases blocks with
      | nil =>
        have data := congrArg List.length place.data
        simp only [remaining, List.flatMap_nil, List.append_nil, List.length_append, List.length_nil] at data
        omega
      | cons block blocks =>
        obtain ⟨body, front, opened⟩ := at_header place there
        have good := place.blocks block (by simp)
        have size : incoming.indata.length = 4 + body.length := by rw [front, List.length_append, header_length]
        obtain ⟨done, split⟩ := within.next
        have inside : Within all (block.opened body) block.records blocks := .inr ⟨done, block, [], split, rfl, rfl⟩
        have same : toTell (block.opened body) block.records blocks = toTell incoming [] (block :: blocks) := by
          simp [toTell, Block.opened, Block.tells]
        cases known : block.records with
        | nil =>
          have bound := quiet [] block blocks rfl known
          simp only [remaining, List.flatMap_nil, List.append_nil, List.length_nil] at bound
          rcases turn_empty outside good known front with ⟨_, turn⟩ | ⟨much, _⟩
          · rw [known] at opened inside same
            exact .inl ⟨_, _, _, turn, ⟨opened, inside, same⟩, .empty split known⟩
          · omega
        | cons record records =>
          rw [known] at opened inside same
          have turn := turn_opened outside good (by simp [known]) front
          have quiet' : Quiet (block.opened body) (record :: records) blocks := by
            intro before other after split none
            have bound := quiet (block :: before) other after (by simp [split]) none
            simp only [remaining, List.flatMap_nil, List.nil_append, List.flatMap_cons, Block.bytes, List.length_append,
              header_length, known] at bound
            simp only [remaining, List.flatMap_cons, List.length_append, Block.opened]
            omega
          rcases turn_torrent opened inside quiet' with ⟨again, stopped⟩ | ⟨next, again, moves, quiet'', shorter⟩
          · exact .inl ⟨_, _, _, turn.trans again, ⟨opened, inside, same⟩, stopped⟩
          · refine .inr ⟨next, _, _, _, turn.trans again, ⟨moves.place, moves.within, moves.tells.trans same⟩, quiet'', ?_⟩
            have front' : (block.opened body).indata.length = body.length := rfl
            omega
    · exact .inl ⟨incoming, [], blocks, turn_short outside (by omega), ⟨place, within, rfl⟩, .header (by omega)⟩

theorem loop_spec {fuel : Nat} (enough : incoming.indata.length < fuel) (place : At incoming unread records blocks [])
    (within : Within all incoming records blocks) (quiet : Quiet incoming records blocks) :
    (processLoop fuel incoming).wrapped = false ∧
    ∃ records' blocks', Stopped all (processLoop fuel incoming).incoming records' blocks' ∧
      Moves all unread incoming (processLoop fuel incoming).incoming (processLoop fuel incoming).tells records blocks
        records' blocks' := by
  induction fuel generalizing incoming records blocks with
  | zero => omega
  | succ fuel ih =>
    rcases turn_spec place within quiet with
      ⟨next, records', blocks', turn, moves, stopped⟩ | ⟨next, tells, records', blocks', turn, moves, quiet', shorter⟩
    · simp only [processLoop, turn]
      exact ⟨trivial, records', blocks', stopped, moves⟩
    · obtain ⟨unwrapped, records'', blocks'', stopped, later⟩ := ih (by omega) moves.place moves.within quiet'
      simp only [processLoop, turn, unwrapped, Bool.or_self, true_and]
      refine ⟨records'', blocks'', stopped, later.place, later.within, ?_⟩
      rw [List.append_assoc, later.tells, moves.tells]

end Spec

/-- Every empty block is near the end of the stream. -/
def Settled (all : List Block) : Prop :=
  ∀ done block after, all = done ++ block :: after → block.records = [] → (after.flatMap Block.bytes).length ≤ block.limit

section Reads
variable {all : List Block} {incoming : Incoming} {unread : Bytes} {records : List Record} {blocks : List Block}

theorem Settled.quiet (settled : Settled all) (place : At incoming unread records blocks [])
    (within : Within all incoming records blocks) : Quiet incoming records blocks := by
  intro before block after split none
  have suffix : ∃ done, all = done ++ block :: after := by
    rcases within with ⟨_, rfl⟩ | ⟨done, other, read, same, _, _⟩
    · exact ⟨before, split⟩
    · exact ⟨done ++ other :: before, by simp [same, split]⟩
  obtain ⟨done, whole⟩ := suffix
  have bound := settled done block after whole none
  have data := congrArg List.length place.data
  have header : block.bytes.length = 4 := by simp [Block.bytes, none, header_length]
  simp only [remaining, split, List.flatMap_append, List.flatMap_cons, List.length_append, List.length_nil, header] at data
  simp only [remaining, List.length_append]
  omega

theorem read_spec (settled : Settled all) {read : Bytes} (place : At incoming (read ++ unread) records blocks [])
    (within : Within all incoming records blocks) :
    (processIndata { incoming with indata := incoming.indata ++ read }).wrapped = false ∧
    ∃ records' blocks', Stopped all (processIndata { incoming with indata := incoming.indata ++ read }).incoming records' blocks' ∧
      Moves all unread incoming (processIndata { incoming with indata := incoming.indata ++ read }).incoming
        (processIndata { incoming with indata := incoming.indata ++ read }).tells records blocks records' blocks' := by
  have filled : At { incoming with indata := incoming.indata ++ read } unread records blocks [] :=
    ⟨by simpa using place.data, place.count, place.records, place.blocks⟩
  obtain ⟨unwrapped, records', blocks', stopped, moves⟩ :=
    loop_spec (Nat.lt_succ_self _) filled within (settled.quiet filled within)
  exact ⟨unwrapped, records', blocks', stopped, moves.place, moves.within, moves.tells⟩

theorem feed_spec (settled : Settled all) {reads : List Bytes} (place : At incoming (reads.flatten ++ unread) records blocks [])
    (within : Within all incoming records blocks) (stopped : Stopped all incoming records blocks) :
    (feed incoming reads).wrapped = false ∧
    ∃ records' blocks', Stopped all (feed incoming reads).incoming records' blocks' ∧
      Moves all unread incoming (feed incoming reads).incoming (feed incoming reads).tells records blocks records' blocks' := by
  induction reads generalizing incoming records blocks with
  | nil => exact ⟨rfl, records, blocks, stopped, place, within, rfl⟩
  | cons read rest ih =>
    rw [List.flatten_cons, List.append_assoc] at place
    obtain ⟨unwrapped, records', blocks', waiting, moves⟩ := read_spec settled place within
    obtain ⟨later, records'', blocks'', end', last⟩ := ih moves.place moves.within waiting
    simp only [feed, unwrapped, later, Bool.or_self, true_and]
    refine ⟨records'', blocks'', end', last.place, last.within, ?_⟩
    rw [List.append_assoc, last.tells, moves.tells]

end Reads

/-- A block of type 1 with torrents is not the last one, and after an empty block there
are only empty ones. -/
def Framed (all : List Block) : Prop :=
  ∀ done block after, all = done ++ block :: after →
    (block.type = 1 → block.records ≠ [] → after ≠ []) ∧ (block.records = [] → ∀ other ∈ after, other.records = [])

section Ends
variable {all : List Block} {incoming : Incoming} {unread : Bytes} {records : List Record} {blocks : List Block}

theorem block_length (block : Block) : 4 ≤ block.bytes.length := by
  rw [Block.bytes, List.length_append, header_length]
  omega

theorem record_length {type : UInt8} {record : Record} (valid : record.Valid type) (kind : type = 1 ∨ type = 2 ∨ type = 0)
    (other : type ≠ 1) : 27 ≤ (record.bytes type).length := by
  have positive := valid.positive
  rw [valid.length, show peerSize = 7 from rfl]
  rcases kind with one | two | zero
  · exact absurd one other
  · have counted := valid.counted (by simp [two])
    simp only [two, UInt8.reduceToNat] at counted
    omega
  · have count := valid.count_length.2 zero
    omega

theorem finished (valid : ∀ block ∈ all, block.Valid) (framed : Framed all) (place : At incoming [] records blocks [])
    (within : Within all incoming records blocks) (stopped : Stopped all incoming records blocks) :
    records = [] ∧ ∀ block ∈ blocks, block.records = [] := by
  have data := congrArg List.length place.data
  simp only [List.append_nil, remaining, List.length_append] at data
  cases stopped with
  | @torrent record records blocks missing =>
    exfalso
    rcases within with ⟨none, _⟩ | ⟨done, block, read, split, has, type⟩
    · cases none
    have kind : incoming.packetType = 1 ∨ incoming.packetType = 2 ∨ incoming.packetType = 0 := by
      have kind := (valid block (by simp [split])).kind
      rw [type] at kind
      tauto
    have least := (place.records record (by simp)).least
    simp only [List.flatMap_cons, List.length_append] at data
    by_cases one : incoming.packetType = 1
    · -- The torrent is there, and with it at least a header.
      have more := (framed done block blocks split).1 (type.trans one) (by simp [has])
      obtain ⟨next, others, rfl⟩ := List.exists_cons_of_ne_nil more
      have header := block_length next
      simp only [List.flatMap_cons, List.length_append] at data
      omega
    · have long := record_length (place.records record (by simp)) kind one
      omega
  | header missing =>
    refine ⟨rfl, ?_⟩
    cases blocks with
    | nil => simp
    | cons block others =>
      have header := block_length block
      simp only [List.flatMap_cons, List.length_append] at data
      omega
  | empty split none => exact ⟨rfl, (framed _ _ _ split).2 none⟩

theorem room_left (settled : Settled all) (place : At incoming unread records blocks []) (stopped : Stopped all incoming records blocks) :
    incoming.indata.length < indataSize := by
  have size : indataSize = 131072 := rfl
  cases stopped with
  | @torrent record records blocks missing =>
    have fits := (place.records record (by simp)).fits
    omega
  | header missing => omega
  | @empty done blocks block split none =>
    have bound := settled done block blocks split none
    have data := congrArg List.length place.data
    simp only [remaining, List.flatMap_nil, List.nil_append, List.append_nil, List.length_append] at data
    have limit : block.limit ≤ 32 := by
      unfold Block.limit
      split <;> omega
    omega

end Ends

section Bytes
variable {incoming : Incoming} {unread extra : Bytes} {records : List Record} {blocks : List Block}

/-- The decoder waits for the end of the next torrent or header, when the bytes of the
stream come one by one. -/
def Tight (incoming : Incoming) (records : List Record) : Prop :=
  match records with
  | [] => incoming.indata.length < 4
  | record :: _ => incoming.indata.length < max 27 (record.bytes incoming.packetType).length

private theorem loop_postponed {fuel : Nat} {next : Incoming} (turn : processTurn incoming = .postponed next) :
    (processLoop (fuel + 1) incoming).incoming = next := by simp [processLoop, turn]

private theorem loop_told {fuel : Nat} {first next : Incoming} {tells : List Tell} {wrapped : Bool}
    (turn : processTurn incoming = .told first tells wrapped) (again : processTurn first = .postponed next) :
    (processLoop (fuel + 2) incoming).incoming = next := by simp [processLoop, turn, again]

theorem read_byte {byte : UInt8} (little : extra.length < 4) (place : At incoming (byte :: unread) records blocks extra)
    (tight : Tight incoming records) :
    ∃ records' blocks', At (processIndata { incoming with indata := incoming.indata ++ [byte] }).incoming unread records' blocks' extra ∧
      Tight (processIndata { incoming with indata := incoming.indata ++ [byte] }).incoming records' := by
  obtain ⟨filled, same⟩ : ∃ filled, { incoming with indata := incoming.indata ++ [byte] } = filled := ⟨_, rfl⟩
  have place' : At filled unread records blocks extra := by
    subst same
    exact ⟨by simpa using place.data, place.count, place.records, place.blocks⟩
  have size : filled.indata.length = incoming.indata.length + 1 := by simp [← same]
  rw [same]
  unfold processIndata
  cases records with
  | nil =>
    have outside : filled.packetTcount = 0 := place'.count
    simp only [Tight] at tight
    by_cases short : filled.indata.length < 4
    · rw [loop_postponed (turn_short outside short)]
      exact ⟨[], blocks, place', short⟩
    · cases blocks with
      | nil =>
        have data := congrArg List.length place'.data
        simp only [remaining, List.flatMap_nil, List.append_nil, List.nil_append, List.length_append] at data
        omega
      | cons block blocks =>
        obtain ⟨body, front, opened⟩ := at_header place' (by omega)
        have none : body = [] := by
          rw [front, List.length_append, header_length] at size
          exact List.eq_nil_of_length_eq_zero (by omega)
        subst none
        have valid := place.blocks block (by simp)
        have turn : processTurn filled = .postponed (block.opened []) := by
          cases known : block.records with
          | nil =>
            rcases turn_empty outside valid known front with ⟨_, turn⟩ | ⟨much, _⟩
            · exact turn
            · simp at much
          | cons record others =>
            rw [turn_opened outside valid (by simp [known]) front]
            rw [known] at opened
            rcases turn_inside opened with ⟨turn, _⟩ | ⟨_, _, _, _, _, _, long⟩
            · exact turn
            · simp [Block.opened] at long
        rw [loop_postponed turn]
        refine ⟨block.records, blocks, opened, ?_⟩
        cases known : block.records <;> simp [Tight, Block.opened]
  | cons record records =>
    simp only [Tight] at tight
    have type : filled.packetType = incoming.packetType := by rw [← same]
    rcases turn_inside place' with ⟨turn, missing⟩ | ⟨next, turn, moved, kept, _, left, long⟩
    · rw [loop_postponed turn]
      refine ⟨record :: records, blocks, place', ?_⟩
      simp only [Tight]
      omega
    · have least := (place'.records record (by simp)).least
      rw [type] at left least
      have rest : next.indata.length ≤ 1 := by omega
      have again : processTurn next = .postponed next := by
        cases records with
        | nil => exact turn_short moved.count (by omega)
        | cons other others =>
          rcases turn_inside moved with ⟨again, _⟩ | ⟨_, _, _, _, _, _, enough⟩
          · exact again
          · omega
      obtain ⟨fuel, known⟩ : ∃ fuel, filled.indata.length + 1 = fuel + 2 := ⟨filled.indata.length - 1, by omega⟩
      rw [known, loop_told turn again]
      refine ⟨records, blocks, moved, ?_⟩
      cases records <;> simp only [Tight] <;> omega

theorem Tight.room (place : At incoming unread records blocks extra) (tight : Tight incoming records) :
    incoming.indata.length < indataSize := by
  have size : indataSize = 131072 := rfl
  cases records with
  | nil =>
    simp only [Tight] at tight
    omega
  | cons record records =>
    have fits := (place.records record (by simp)).fits
    simp only [Tight] at tight
    omega

theorem feed_append (incoming : Incoming) (first second : List Bytes) : (feed incoming (first ++ second)).wrapped =
      ((feed incoming first).wrapped || (feed (feed incoming first).incoming second).wrapped) := by
  induction first generalizing incoming with
  | nil => simp [feed]
  | cons read rest ih => simp [feed, ih, Bool.or_assoc]

theorem fitting_append {incoming : Incoming} {first second : List Bytes} :
    Fitting incoming (first ++ second) ↔ Fitting incoming first ∧ Fitting (feed incoming first).incoming second := by
  induction first generalizing incoming with
  | nil => simp [feed, Fitting]
  | cons read rest ih => simp [feed, Fitting, ih, and_assoc]

theorem feed_bytes {bytes : Bytes} (little : extra.length < 4) (place : At incoming (bytes ++ unread) records blocks extra)
    (tight : Tight incoming records) :
    Fitting incoming (bytes.map ([·])) ∧
    ∃ records' blocks', At (feed incoming (bytes.map ([·]))).incoming unread records' blocks' extra ∧
      Tight (feed incoming (bytes.map ([·]))).incoming records' := by
  induction bytes generalizing incoming records blocks with
  | nil => exact ⟨trivial, records, blocks, place, tight⟩
  | cons byte rest ih =>
    obtain ⟨records', blocks', place', tight'⟩ := read_byte little place tight
    obtain ⟨fits, later⟩ := ih place' tight'
    have room := tight.room place
    exact ⟨⟨by simp, by simpa using room, fits⟩, later⟩

/-- An empty block with too much behind it is misread when its header and what follows
come in one read. -/
theorem overrun {all done after : List Block} {block : Block} (valid : ∀ block ∈ all, block.Valid) (split : all = done ++ block :: after)
    (none : block.records = []) (much : block.limit < (after.flatMap Block.bytes).length) :
    ∃ reads, reads.flatten <+: all.flatMap Block.bytes ∧ Fitting .initial reads ∧ (feed .initial reads).wrapped = true := by
  obtain ⟨start, known⟩ : ∃ start, start = done.flatMap Block.bytes ++ block.header.take 3 := ⟨_, rfl⟩
  obtain ⟨last, final⟩ : ∃ last, last = block.header.drop 3 ++ (after.flatMap Block.bytes).take (block.limit + 1) := ⟨_, rfl⟩
  have place : At .initial (start ++ []) [] done (block.header.take 3) :=
    ⟨by simp [Incoming.initial, remaining, known], rfl, by simp, fun other member => valid other (by simp [split, member])⟩
  obtain ⟨fits, records, blocks, reached, tight⟩ := feed_bytes (by simp [Block.header]) place (by simp [Tight, Incoming.initial])
  obtain ⟨state, same⟩ : ∃ state, (feed .initial (start.map ([·]))).incoming = state := ⟨_, rfl⟩
  rw [same] at reached tight
  -- Three bytes of the header are there, and nothing before them.
  have data := reached.data
  have size := congrArg List.length data
  simp only [List.append_nil, remaining, List.length_append, List.length_take, header_length] at size
  have outside : records = [] := by
    cases records with
    | nil => rfl
    | cons record others =>
      have least := (reached.records record (by simp)).least
      simp only [Tight] at tight
      simp only [List.flatMap_cons, List.length_append] at size
      omega
  subst outside
  have nothing : blocks = [] := by
    cases blocks with
    | nil => rfl
    | cons other others =>
      have header := block_length other
      simp only [Tight] at tight
      simp only [List.flatMap_cons, List.length_append] at size
      omega
  subst nothing
  simp only [remaining, List.flatMap_nil, List.append_nil, List.nil_append] at data
  obtain ⟨filled, made⟩ : ∃ filled, { state with indata := state.indata ++ last } = filled := ⟨_, rfl⟩
  have closed : filled.packetTcount = 0 := made ▸ reached.count
  have front : filled.indata = block.header ++ (after.flatMap Block.bytes).take (block.limit + 1) := by
    simp only [← made, data, final, ← List.append_assoc, List.take_append_drop]
  have long : ((after.flatMap Block.bytes).take (block.limit + 1)).length = block.limit + 1 := by
    rw [List.length_take]
    omega
  have limit : block.limit ≤ 32 := by
    unfold Block.limit
    split <;> omega
  have room : indataSize = 131072 := rfl
  refine ⟨start.map ([·]) ++ [last], ?_, ?_, ?_⟩
  · have flat : (start.map ([·])).flatten = start := List.flatMap_def.symm.trans (List.flatMap_singleton' start)
    rw [List.flatten_append, flat, List.flatten_singleton, known, final, split, List.flatMap_append, List.flatMap_cons,
      Block.bytes, none]
    refine ⟨(after.flatMap Block.bytes).drop (block.limit + 1), ?_⟩
    simp only [List.flatMap_nil, List.append_nil, List.append_assoc, List.take_append_drop]
    rw [← List.append_assoc (block.header.take 3), List.take_append_drop]
  · refine fitting_append.mpr ⟨fits, ?_⟩
    rw [same]
    refine ⟨?_, ?_, trivial⟩
    · rw [final]
      simp [Block.header]
    · rw [data, final, List.length_append, long, List.length_take, List.length_drop, header_length]
      omega
  · rcases turn_empty closed (valid block (by simp [split])) none front with ⟨little, _⟩ | ⟨_, next, tells, turn⟩
    · omega
    · rw [feed_append, same]
      simp [feed, processIndata, processLoop, made, turn]

end Bytes

end BtServer.Proofs.StreamReads

import BtServer.Proofs.StreamBuckets

/-! What `process_indata` makes of the stream of some buckets. The decoder takes what
follows an empty block for a torrent, so a stream is read back when so little follows
every empty block that it waits for more. -/

namespace BtServer.Proofs.StreamCodec
open Lib StreamTurns StreamReads StreamBuckets

section Lists
variable {block : Block} {blocks before : List Block}

private theorem cons_split {first block : Block} {rest done after : List Block} : first :: rest = done ++ block :: after ↔
      (done = [] ∧ first = block ∧ rest = after) ∨ ∃ more, done = first :: more ∧ rest = more ++ block :: after := by
  rw [List.cons_eq_append_iff]
  simp only [List.cons.injEq]
  tauto

theorem settled_cons :
    Settled (block :: blocks) ↔ (block.records = [] → (blocks.flatMap Block.bytes).length ≤ block.limit) ∧ Settled blocks := by
  constructor
  · intro settled
    exact ⟨settled [] block blocks rfl, fun done other after split => settled (block :: done) other after (by rw [split]; rfl)⟩
  · intro parts done other after split
    obtain ⟨first, later⟩ := parts
    rcases cons_split.mp split with ⟨-, rfl, rfl⟩ | ⟨more, -, same⟩
    · exact first
    · exact later more other after same

theorem settled_full (full : ∀ block ∈ before, block.records ≠ []) : Settled (before ++ blocks) ↔ Settled blocks := by
  induction before with
  | nil => rfl
  | cons first rest ih =>
    have some := full first (by simp)
    rw [List.cons_append, settled_cons, ih fun other member => full other (by simp [member])]
    simp [some]

theorem framed_cons (first : block.type = 1 → block.records ≠ [] → blocks ≠ [])
    (empty : block.records = [] → ∀ other ∈ blocks, other.records = []) (framed : Framed blocks) : Framed (block :: blocks) := by
  intro done other after split
  rcases cons_split.mp split with ⟨-, rfl, rfl⟩ | ⟨more, -, same⟩
  · exact ⟨first, empty⟩
  · exact framed more other after same

theorem framed_full (full : ∀ block ∈ before, block.records ≠ []) (some : blocks ≠ []) (framed : Framed blocks) :
    Framed (before ++ blocks) := by
  induction before with
  | nil => exact framed
  | cons first rest ih =>
    refine framed_cons ?_ ?_ (ih fun other member => full other (by simp [member]))
    · intro _ _
      simp [some]
    · intro none
      exact absurd none (full first (by simp))

theorem full_length (valid : block.Valid) (some : block.records ≠ []) :
    30 ≤ block.bytes.length ∧ (block.type ≠ 1 → 31 ≤ block.bytes.length) := by
  obtain ⟨record, rest, split⟩ := List.exists_cons_of_ne_nil some
  have record_valid := valid.records record (by simp [split])
  have least := record_valid.least
  simp only [Block.bytes, split, List.flatMap_cons, List.length_append, header_length]
  refine ⟨by omega, ?_⟩
  intro other
  have long := record_length record_valid (by have kind := valid.kind; tauto) other
  omega

end Lists

def stream (buckets : List SyncBucket) : Bytes := buckets.flatMap SyncBucket.sent

def expected (buckets : List SyncBucket) : List Tell := buckets.flatMap SyncBucket.tells

def allBlocks (buckets : List SyncBucket) : List Block := buckets.flatMap SyncBucket.blocks

/-- No empty block is sent unless so little follows it in the stream that it is never
taken for a torrent. -/
def Decodable : List SyncBucket → Prop
  | [] => True
  | bucket :: rest =>
    (bucket.torrents ≠ [] → bucket.countDef = 0 →
      (bucket.countOne = 0 → bucket.countTwo = 0 ∧ (stream rest).length ≤ 22) ∧
      (bucket.countTwo = 0 → (stream rest).length ≤ 32)) ∧
    Decodable rest

section Buckets
variable {bucket : SyncBucket} {buckets : List SyncBucket}

theorem stream_eq (buckets : List SyncBucket) : stream buckets = (allBlocks buckets).flatMap Block.bytes := by
  induction buckets with
  | nil => rfl
  | cons bucket rest ih =>
    simp only [stream, allBlocks, List.flatMap_cons, List.flatMap_append, bucket.sent_eq] at ih ⊢
    rw [ih]

theorem allBlocks_valid : ∀ block ∈ allBlocks buckets, block.Valid := by
  intro block member
  obtain ⟨bucket, -, sent⟩ := List.mem_flatMap.mp member
  exact bucket.blocks_valid block sent

theorem allBlocks_tells (buckets : List SyncBucket) : ((allBlocks buckets).flatMap Block.tells).Perm (expected buckets) := by
  induction buckets with
  | nil => exact .nil
  | cons bucket rest ih =>
    simp only [allBlocks, expected, List.flatMap_cons, List.flatMap_append] at ih ⊢
    exact bucket.blocks_tells.append ih

private theorem second_length (valid : (bucket.block 2 .two).Valid) (two : (bucket.block 2 .two).records = [] ↔ bucket.countTwo = 0) :
    (bucket.countTwo = 0 ∧ (bucket.block 2 .two).bytes.length = 4) ∨ (bucket.countTwo ≠ 0 ∧ 31 ≤ (bucket.block 2 .two).bytes.length) := by
  by_cases none : (bucket.block 2 .two).records = []
  · exact .inl ⟨two.mp none, by simp [Block.bytes, none, header_length]⟩
  · exact .inr ⟨fun zero => none (two.mpr zero), (full_length valid none).2 (by simp [SyncBucket.block])⟩

theorem settled_iff (buckets : List SyncBucket) : Settled (allBlocks buckets) ↔ Decodable buckets := by
  induction buckets with
  | nil => simp [allBlocks, Settled, Decodable]
  | cons bucket rest ih =>
    rw [allBlocks, List.flatMap_cons, ← allBlocks, Decodable, stream_eq]
    cases bucket.shape with
    | nothing none blocks =>
      rw [blocks, List.nil_append, ih]
      simp [none]
    | pair some few one two blocks =>
      have size := second_length (bucket.blocks_valid _ (by simp [blocks])) two
      rw [blocks, List.cons_append, List.cons_append, List.nil_append, settled_cons, settled_cons, one, two, ih, List.flatMap_cons,
        List.length_append, show (bucket.block 1 .one).limit = 26 from rfl, show (bucket.block 2 .two).limit = 32 from rfl]
      constructor
      · intro settled
        obtain ⟨first, next, later⟩ := settled
        refine ⟨fun _ _ => ⟨?_, next⟩, later⟩
        intro zero
        have bound := first zero
        omega
      · intro decodable
        obtain ⟨here, later⟩ := decodable
        obtain ⟨first, next⟩ := here some few
        refine ⟨?_, next, later⟩
        intro zero
        have bound := first zero
        omega
    | full front several blocks records long =>
      rw [settled_full records, ih]
      simp [several]

theorem short_empty (short : (stream buckets).length ≤ 32) : ∀ block ∈ allBlocks buckets, block.records = [] := by
  intro block member
  obtain ⟨bucket, stored, sent⟩ := List.mem_flatMap.mp member
  have part : bucket.sent.length ≤ 32 := by
    obtain ⟨before, after, split⟩ := List.append_of_mem stored
    simp only [stream, split, List.flatMap_append, List.flatMap_cons, List.length_append] at short
    omega
  rw [bucket.sent_eq] at part
  cases bucket.shape with
  | nothing none blocks =>
    rw [blocks] at sent
    cases sent
  | pair some few one two blocks =>
    simp only [blocks, List.flatMap_cons, List.flatMap_nil, List.append_nil, List.length_append] at part
    have header := block_length (bucket.block 1 .one)
    have header' := block_length (bucket.block 2 .two)
    by_contra some
    have long := full_length (bucket.blocks_valid block sent) some
    simp only [blocks, List.mem_cons, List.not_mem_nil, or_false] at sent
    rcases sent with rfl | rfl
    · omega
    · have type := long.2 (by simp [SyncBucket.block])
      omega
  | full front several blocks records long =>
    simp only [blocks, List.flatMap_append, List.flatMap_cons, List.flatMap_nil, List.append_nil, List.length_append] at part
    omega

theorem framed_of (decodable : Decodable buckets) : Framed (allBlocks buckets) := by
  induction buckets with
  | nil =>
    intro done block after split
    simp [allBlocks] at split
  | cons bucket rest ih =>
    obtain ⟨here, later⟩ := decodable
    rw [allBlocks, List.flatMap_cons, ← allBlocks]
    cases bucket.shape with
    | nothing none blocks =>
      rw [blocks]
      exact ih later
    | pair some few one two blocks =>
      obtain ⟨first, next⟩ := here some few
      rw [blocks]
      refine framed_cons (fun _ _ => by simp) ?_ (framed_cons (fun type => absurd type (by simp [SyncBucket.block])) ?_ (ih later))
      · intro none
        obtain ⟨zero, short⟩ := first (one.mp none)
        exact List.forall_mem_cons.mpr ⟨two.mpr zero, short_empty (by omega)⟩
      · intro none
        exact short_empty (next (two.mp none))
    | full front several blocks records long =>
      rw [blocks, List.append_assoc]
      rw [blocks] at records
      refine framed_full (fun block member => records block (by simp [member])) (by simp) (framed_cons ?_ ?_ (ih later))
      · intro type
        exact absurd type (by simp [SyncBucket.block])
      · intro none
        exact absurd none (records _ (by simp))

end Buckets

structure Told (buckets : List SyncBucket) (reads : List Bytes) : Prop where
  counted : (feed .initial reads).wrapped = false
  room : (feed .initial reads).incoming.indata.length < indataSize
  once : ∃ later, ((feed .initial reads).tells ++ later).Perm (expected buckets)
  -- When the stream is complete everything has been told, and what is left are headers
  -- of blocks without torrents.
  all : reads.flatten = stream buckets →
    (feed .initial reads).tells.Perm (expected buckets) ∧ (feed .initial reads).incoming.packetTcount = 0 ∧
    ∃ headers : List (UInt8 × UInt8),
      (feed .initial reads).incoming.indata = headers.flatMap fun header => [header.1, header.2, 0, 0]

/-- The stream of these buckets is decoded, however it is split into reads. -/
def RoundTrip (buckets : List SyncBucket) : Prop :=
  ∀ reads, Fitting .initial reads → reads.flatten <+: stream buckets → Told buckets reads

section RoundTrip
variable {buckets : List SyncBucket} {reads : List Bytes}

private theorem empty_bytes {blocks : List Block} (none : ∀ block ∈ blocks, block.records = []) : blocks.flatMap Block.bytes =
      (blocks.map fun block => (block.type, block.leadByte)).flatMap fun header => [header.1, header.2, 0, 0] := by
  rw [List.flatMap_map]
  refine List.flatMap_congr ?_
  intro block member
  simp [Block.bytes, Block.header, none block member]

theorem told_of (decodable : Decodable buckets) (begun : reads.flatten <+: stream buckets) : Told buckets reads := by
  have settled := (settled_iff buckets).mpr decodable
  obtain ⟨unread, whole⟩ := begun
  rw [stream_eq] at whole
  have start : At .initial (reads.flatten ++ unread) [] (allBlocks buckets) [] :=
    ⟨by simp [Incoming.initial, remaining, whole], rfl, by simp, allBlocks_valid⟩
  obtain ⟨unwrapped, records, blocks, stopped, moves⟩ := feed_spec settled start (.inl ⟨rfl, rfl⟩) (.header (by decide))
  have tells := moves.tells
  simp only [toTell, List.flatMap_nil, List.nil_append] at tells
  refine ⟨unwrapped, room_left settled moves.place stopped, ⟨_, tells ▸ allBlocks_tells buckets⟩, ?_⟩
  intro complete
  rw [complete, stream_eq] at whole
  obtain rfl : unread = [] := by simpa using whole
  obtain ⟨rfl, none⟩ := finished allBlocks_valid (framed_of decodable) moves.place moves.within stopped
  have data := moves.place.data
  simp only [remaining, List.flatMap_nil, List.nil_append, List.append_nil, empty_bytes none] at data
  have nothing : blocks.flatMap Block.tells = [] := by
    rw [List.flatMap_eq_nil_iff]
    intro block member
    simp [Block.tells, none block member]
  rw [List.flatMap_nil, List.nil_append, nothing, List.append_nil] at tells
  exact ⟨tells ▸ allBlocks_tells buckets, moves.place.count, _, data⟩

/-- A stream is decoded however it is split exactly when every empty block in it is
close enough to its end. -/
theorem round_trip_iff (buckets : List SyncBucket) : RoundTrip buckets ↔ Decodable buckets := by
  constructor
  · intro trip
    rw [← settled_iff]
    intro done block after split none
    by_contra much
    obtain ⟨reads, begun, fits, wrapped⟩ := overrun allBlocks_valid split none (by omega)
    rw [← stream_eq] at begun
    have counted := (trip reads fits begun).counted
    rw [wrapped] at counted
    cases counted
  · intro decodable reads _ begun
    exact told_of decodable begun

end RoundTrip

def twoPeers : Torrent :=
  ⟨Vector.replicate 20 0, some ⟨0, 0, 2, 0,
    ⟨.members [⟨.replicate 4 10, .replicate 2 26, 0, 0⟩, ⟨.replicate 4 11, .replicate 2 26, 0, 0⟩], 8⟩⟩⟩

def loneTorrent : SyncBucket where
  bucket := 0
  torrents := [twoPeers]
  few := by decide
  home := by decide
  plain := by decide
  counted := by decide
  fits := by decide

/-- The empty block for torrents with one peer comes first: its header is skipped, the
next header and the beginning of the hash are told as a torrent, and the count wraps. -/
theorem lone_torrent_misread : Fitting .initial [loneTorrent.sent] ∧
    loneTorrent.sent = [1, 0, 0, 0] ++ [2, 0, 0, 1] ++ List.replicate 19 0 ++ ([10, 10, 10, 10, 26, 26, 0] ++ [11, 11, 11, 11, 26, 26, 0]) ∧
    (feed .initial [loneTorrent.sent]).wrapped = true ∧ (feed .initial [loneTorrent.sent]).incoming.packetTcount = 2 ^ 64 - 1 ∧
    (feed .initial [loneTorrent.sent]).tells = [⟨[0, 2, 0, 0, 1] ++ List.replicate 15 0, [0, 0, 0, 0, 10, 10, 10]⟩] ∧
    loneTorrent.tells = [⟨List.replicate 20 0, [10, 10, 10, 10, 26, 26, 0]⟩, ⟨List.replicate 20 0, [11, 11, 11, 11, 26, 26, 0]⟩] := by
  refine ⟨⟨by decide, by decide, trivial⟩, by decide, by decide, by decide, by decide, by decide⟩

end BtServer.Proofs.StreamCodec

import BtServer.SavedState
import BtServer.Proofs.FullScrapeOutput

/-! A tracker's state survives a dump and a load. The dump has one line for each torrent in
ascending order, every line is read back as it was written, and torrents that come in
ascending order are appended to their buckets. -/

namespace BtServer.Proofs.StateRoundTrip
open Lib VectorSearch TorrentTable TrackerSteps TrackerRefinement FullScrapeOutput

def bareList (peerList : PeerList) : PeerList := { PeerList.zero with base := peerList.base, downCount := peerList.downCount }

def bare (torrent : Torrent) : Torrent := ⟨torrent.hash, torrent.peerList.map bareList⟩

def InRange (peerList : PeerList) : Prop := (0 ≤ peerList.base ∧ peerList.base < 2 ^ 63) ∧ peerList.downCount < 2 ^ 63

def stateLine (hash : Hash) (base downCount : Nat) : Bytes :=
  toHex hash.toList ++ 58 :: (decimal base ++ 58 :: (decimal downCount ++ [10]))

section Lines

theorem entryText_trackerState {hash : Hash} {peerList : PeerList} (inRange : InRange peerList) :
    entryText .trackerState ⟨hash, some peerList⟩ = stateLine hash peerList.base.toNat peerList.downCount := by
  obtain ⟨⟨low, high⟩, downs⟩ := inRange
  have base : timeDecimal peerList.base = decimal peerList.base.toNat := by
    have same : peerList.base.bmod (2 ^ 64) = peerList.base := Int.bmod_eq_of_le (by omega) (by omega)
    rw [timeDecimal, same, signedDecimal, if_neg (by omega), show peerList.base.natAbs = peerList.base.toNat by omega]
  have texts : ascii ":" = [58] ∧ ascii "\n" = [10] := by decide
  simp [entryText, scrapeEntry, sprintfWrite, stateLine, base, sizeDecimal_small downs, texts]

theorem fgets_line {room : Nat} {body : Bytes} (inner : ∀ c ∈ body, c ≠ 10) (short : body.length < room) (rest : Bytes) :
    fgets room (body ++ 10 :: rest) = (body ++ [10], rest) := by
  induction body generalizing room with
  | nil =>
    obtain ⟨room, rfl⟩ := Nat.exists_eq_add_of_lt short
    simp [fgets]
  | cons c body ih =>
    obtain ⟨more, rfl⟩ : ∃ more, room = more + 1 := ⟨room - 1, by simp at short; omega⟩
    rw [List.forall_mem_cons] at inner
    rw [List.cons_append, fgets, if_neg inner.1, ih inner.2 (by simpa using short)]
    rfl

theorem scanFromhex_hexUpper (n : Fin 16) : scanFromhex (hexUpper n) = n.val := by
  revert n
  decide

theorem toHex_getD {bytes tail : Bytes} {i : Nat} (inside : i < bytes.length) :
    (toHex bytes ++ tail).getD (2 * i) 0 = hexUpper ((bytes.getD i 0).toNat / 16) ∧
    (toHex bytes ++ tail).getD (1 + 2 * i) 0 = hexUpper ((bytes.getD i 0).toNat % 16) := by
  induction bytes generalizing i with
  | nil => simp at inside
  | cons byte rest ih =>
    cases i with
    | zero => exact ⟨rfl, rfl⟩
    | succ i =>
      have later := @ih i (by simpa using inside)
      rw [show 2 * (i + 1) = 2 * i + 1 + 1 by omega, show 1 + (2 * i + 1 + 1) = (1 + 2 * i) + 1 + 1 by omega]
      exact later

theorem scanHash_toHex (hash infohash : Hash) (tail : Bytes) : scanHash (toHex hash.toList ++ tail) infohash = hash := by
  ext i bound
  have inside : i < hash.toList.length := by simpa using bound
  obtain ⟨first, second⟩ := @toHex_getD hash.toList tail i inside
  have small : (hash.toList.getD i 0).toNat < 256 := UInt8.toNat_lt _
  have high := scanFromhex_hexUpper ⟨(hash.toList.getD i 0).toNat / 16, by omega⟩
  have low := scanFromhex_hexUpper ⟨(hash.toList.getD i 0).toNat % 16, by omega⟩
  have here : hash.toList.getD i 0 = hash[i] := by simp [List.getD_eq_getElem?_getD, bound]
  simp only [scanHash, Vector.getElem_ofFn, first, second, high, low]
  rw [here] at small ⊢
  rw [if_neg (by omega), show (16 * ((hash[i].toNat / 16 : Nat) : Int) + ((hash[i].toNat % 16 : Nat) : Int)) % 256 = hash[i].toNat by omega]
  simp

theorem parseDecimal_from (digits : Bytes) (value : Nat) :
    value ≤ digits.foldl (fun value c => 10 * value + (c.toNat - 48)) value := by
  induction digits generalizing value with
  | nil => exact le_refl _
  | cons c digits ih =>
    have later := ih (10 * value + (c.toNat - 48))
    rw [List.foldl_cons]
    omega

private theorem scanUlonglongFrom_fits (text : Bytes) (value : Nat)
    (fits : (text.takeWhile isDigit).foldl (fun value c => 10 * value + (c.toNat - 48)) value < 2 ^ 64) :
    scanUlonglongFrom value text = ((text.takeWhile isDigit).length,
      (text.takeWhile isDigit).foldl (fun value c => 10 * value + (c.toNat - 48)) value) := by
  induction text generalizing value with
  | nil => rfl
  | cons c text ih =>
    cases digit : isDigit c with
    | false => simp [scanUlonglongFrom, digit]
    | true =>
      rw [List.takeWhile_cons_of_pos digit, List.foldl_cons] at fits ⊢
      have grows := parseDecimal_from (text.takeWhile isDigit) (10 * value + (c.toNat - 48))
      rw [scanUlonglongFrom, if_pos ⟨digit, by omega⟩, ih _ fits]
      rfl

theorem scanUlonglong_fits {text : Bytes} (fits : parseDecimal (text.takeWhile isDigit) < 2 ^ 64) :
    scanUlonglong text = ((text.takeWhile isDigit).length, parseDecimal (text.takeWhile isDigit)) :=
  scanUlonglongFrom_fits text 0 fits

theorem scanUlonglong_decimal {n : Nat} (bound : n < 2 ^ 64) {c : UInt8} (other : isDigit c = false) (rest : Bytes) :
    scanUlonglong (decimal n ++ c :: rest) = ((decimal n).length, n) := by
  have digits := takeWhile_decimal n other rest
  have value := parseDecimal_decimal n
  rw [scanUlonglong_fits (by rw [digits, value]; exact bound), digits, value]

theorem colon_behind (before after : Bytes) {n : Nat} (length : before.length = n) :
    (before ++ 58 :: after).getD n 0 = 58 ∧ (before ++ 58 :: after).drop (n + 1) = after := by
  subst length
  simp [List.getD_eq_getElem?_getD]

theorem loadLine_stateLine {hash infohash : Hash} {base downCount : Nat} (baseBound : base < 2 ^ 63) (downBound : downCount < 2 ^ 63)
    (heap : Heap) (tail : Bytes) (tracker : Tracker) :
    loadLine heap (stateLine hash base downCount ++ tail) infohash tracker =
      addTorrentFromSavedState tracker heap infohash base downCount := by
  have hex : (toHex hash.toList).length = 40 := by simp [length_toHex]
  have line : stateLine hash base downCount ++ tail =
      toHex hash.toList ++ 58 :: (decimal base ++ 58 :: (decimal downCount ++ 10 :: tail)) := by
    simp [stateLine]
  obtain ⟨first, behind⟩ := colon_behind (toHex hash.toList) (decimal base ++ 58 :: (decimal downCount ++ 10 :: tail)) hex
  obtain ⟨second, behind'⟩ := colon_behind (toHex hash.toList ++ 58 :: decimal base) (decimal downCount ++ 10 :: tail)
    (show _ = 40 + 1 + (decimal base).length by simp [hex]; omega)
  have digits := decimal_ne_nil base
  have digits' := decimal_ne_nil downCount
  have time : toTime base = base := Int.bmod_eq_of_le (by omega) (by omega)
  simp only [List.append_assoc, List.cons_append] at second behind'
  rw [line, loadLine]
  simp only [Nat.reduceMul, first, behind, ne_eq, not_true_eq_false, if_false,
    scanUlonglong_decimal (show base < 2 ^ 64 by omega) (by decide : isDigit 58 = false), List.length_eq_zero_iff, digits, second, behind',
    scanUlonglong_decimal (show downCount < 2 ^ 64 by omega) (by decide : isDigit 10 = false), digits', time]

private theorem length_decimal_le {n : Nat} (small : n < 2 ^ 63) : (decimal n).length ≤ 21 := by
  rw [← sizeDecimal_small small]
  exact length_sizeDecimal_le n

theorem fgets_stateLine {base downCount : Nat} (baseBound : base < 2 ^ 63) (downBound : downCount < 2 ^ 63) (hash : Hash)
    (rest : Bytes) : fgets 511 (stateLine hash base downCount ++ rest) = (stateLine hash base downCount, rest) := by
  have body : ∀ tail, stateLine hash base downCount ++ tail =
      (toHex hash.toList ++ 58 :: (decimal base ++ 58 :: decimal downCount)) ++ 10 :: tail := by
    intro tail
    simp [stateLine]
  have digits : ∀ n, ∀ c ∈ decimal n, c ≠ 10 := by
    rintro n c inside rfl
    exact absurd (decimal_digits n 10 inside).1 (by decide)
  have hex : ∀ c ∈ toHex hash.toList, c ≠ 10 := by
    have digit : ∀ n : Fin 16, hexUpper n ≠ 10 := by decide
    intro c inside
    obtain ⟨byte, _, here⟩ := List.mem_flatMap.mp inside
    have small := byte.toNat_lt
    have high := digit ⟨byte.toNat / 16, by omega⟩
    have low := digit ⟨byte.toNat % 16, by omega⟩
    simp only [List.mem_cons, List.not_mem_nil, or_false] at here
    rcases here with rfl | rfl
    · exact high
    · exact low
  have whole := body []
  rw [List.append_nil] at whole
  rw [body, whole]
  apply fgets_line
  · intro c inside
    simp only [List.mem_append, List.mem_cons] at inside
    rcases inside with inside | rfl | inside | rfl | inside
    · exact hex c inside
    · decide
    · exact digits base c inside
    · decide
    · exact digits downCount c inside
  · have first := length_decimal_le baseBound
    have second := length_decimal_le downBound
    simp only [List.length_append, List.length_cons, length_toHex, Vector.length_toList]
    omega

end Lines

section Loading

def restore (tracker : Tracker) (torrent : Torrent) : Tracker :=
  addTorrentFromSavedState tracker [] torrent.hash (torrent.peerList.getD .zero).base (torrent.peerList.getD .zero).downCount

def Dumpable (torrent : Torrent) : Prop := ∃ peerList, torrent.peerList = some peerList ∧ InRange peerList

theorem dump_lines {torrents : List Torrent} (dumpable : ∀ torrent ∈ torrents, Dumpable torrent) :
    torrents.length ≤ (torrents.flatMap (entryText .trackerState)).length := by
  induction torrents with
  | nil => exact Nat.zero_le _
  | cons torrent rest ih =>
    rw [List.forall_mem_cons] at dumpable
    obtain ⟨⟨peerList, has, inRange⟩, others⟩ := dumpable
    obtain ⟨hash, list⟩ := torrent
    subst has
    have later := ih others
    rw [List.flatMap_cons, List.length_append, entryText_trackerState inRange, stateLine]
    simp only [List.length_append, List.length_cons]
    omega

theorem loadLines_dump {torrents : List Torrent} (dumpable : ∀ torrent ∈ torrents, Dumpable torrent) {fuel : Nat}
    (enough : torrents.length < fuel) (inbuf : Bytes) (infohash : Hash) (tracker : Tracker) :
    loadLines fuel (torrents.flatMap (entryText .trackerState)) [] inbuf infohash tracker = torrents.foldl restore tracker := by
  induction torrents generalizing fuel inbuf infohash tracker with
  | nil =>
    obtain ⟨more, rfl⟩ : ∃ more, fuel = more + 1 := ⟨fuel - 1, by simp at enough; omega⟩
    rfl
  | cons torrent rest ih =>
    rw [List.forall_mem_cons] at dumpable
    obtain ⟨more, rfl⟩ : ∃ more, fuel = more + 1 := ⟨fuel - 1, by omega⟩
    obtain ⟨⟨peerList, has, inRange⟩, others⟩ := dumpable
    obtain ⟨hash, list⟩ := torrent
    subst has
    have later := @ih others more (by simpa using enough)
    obtain ⟨⟨low, high⟩, downs⟩ := id inRange
    have base : peerList.base.toNat < 2 ^ 63 := by omega
    have line := fgets_stateLine base downs hash (rest.flatMap (entryText .trackerState))
    have written : stateLine hash peerList.base.toNat peerList.downCount ≠ [] := by simp [stateLine]
    have buffer : overwrite inbuf 0 (stateLine hash peerList.base.toNat peerList.downCount ++ [0]) =
        stateLine hash peerList.base.toNat peerList.downCount ++
          (0 :: inbuf.drop ((stateLine hash peerList.base.toNat peerList.downCount).length + 1)) := by
      simp [overwrite]
    have scanned : ∀ tail, scanHash (stateLine hash peerList.base.toNat peerList.downCount ++ tail) infohash = hash := by
      intro tail
      rw [stateLine, List.append_assoc]
      exact scanHash_toHex hash infohash _
    rw [List.flatMap_cons, entryText_trackerState inRange, loadLines, line, List.foldl_cons]
    split
    next empty => exact absurd (congrArg Prod.fst empty) written
    next read equal =>
      obtain ⟨rfl, rfl⟩ := Prod.mk.inj equal
      simp only [buffer, scanned, loadLine_stateLine base downs, List.tail_nil, later]
      simp [restore, Int.toNat_of_nonneg low]

variable {done : List Torrent} {torrent : Torrent} {tracker : Tracker}

/-- The tracker with these torrents loaded, bucket by bucket in the order they came in. -/
structure Loaded (done : List Torrent) (tracker : Tracker) : Prop where
  data : ∀ bucket, (tracker.allTorrents bucket).data = (done.filter fun torrent => bucketOfHash torrent.hash = bucket).map bare
  fits : ∀ bucket, (tracker.allTorrents bucket).size ≤ (tracker.allTorrents bucket).space
  counted : tracker.torrentCount = done.length

theorem loaded_initial : Loaded [] .initial := ⟨fun _ => rfl, fun _ => le_refl _, rfl⟩

theorem loaded_restore (loaded : Loaded done tracker) (sorted : Sorted (done ++ [torrent])) (complete : torrent.peerList.isSome)
    (countable : (done ++ [torrent]).length < 2 ^ 64) : Loaded (done ++ [torrent]) (restore tracker torrent) := by
  obtain ⟨peerList, has⟩ := Option.isSome_iff_exists.mp complete
  obtain ⟨hash, list⟩ := torrent
  subst has
  obtain ⟨data, fits, counted⟩ := loaded
  have ordered := List.pairwise_append.mp sorted
  have kept : Sorted (tracker.allTorrents (bucketOfHash hash)).data := by
    rw [data]
    exact List.pairwise_map.mpr (ordered.1.sublist List.filter_sublist)
  have below : ∀ other ∈ (tracker.allTorrents (bucketOfHash hash)).data, rank Torrent.bytes other < bigEndian hash.toList := by
    rw [data]
    intro other inside
    obtain ⟨old, member, rfl⟩ := List.mem_map.mp inside
    exact ordered.2.2 old (List.mem_of_mem_filter member) _ (List.mem_singleton_self _)
  have missed := binarySearch_beyond (fun _ => by simp [Torrent.bytes]) kept below
  generalize vector : tracker.allTorrents (bucketOfHash hash) = torrents at missed
  have room := fits (bucketOfHash hash)
  rw [vector, OtVector.size] at room
  obtain ⟨stored, space⟩ := torrents
  obtain ⟨again, enough, opened⟩ := @vectorFindOrInsert_opens _ stored [] space ⟨hash, none⟩ Torrent.bytes (by simpa using room)
    (by rw [List.append_nil]; exact missed)
  rw [List.append_nil] at opened
  have result : restore tracker ⟨hash, some peerList⟩ =
      tracker.unlock (bucketOfHash hash) ⟨stored ++ [⟨hash, some (bareList peerList)⟩], again⟩ 1 := by
    simp [restore, addTorrentFromSavedState, vector, opened, allocate, bareList]
  rw [result]
  refine ⟨fun bucket => ?_, fun bucket => ?_, ?_⟩
  · rw [unlock_data, List.filter_append, List.map_append, ← data]
    split
    next here =>
      subst here
      rw [vector]
      simp [bare]
    next other => simp [Ne.symm other]
  · by_cases here : bucket = bucketOfHash hash
    · simp only [Tracker.unlock, here, Function.update_self, OtVector.size]
      simpa using enough
    · simp only [Tracker.unlock, Function.update_of_ne here]
      exact fits bucket
  · rw [List.length_append, List.length_singleton] at countable ⊢
    simp only [Tracker.unlock, counted]
    omega

theorem loaded_all {torrents : List Torrent} (sorted : Sorted torrents) (complete : Complete torrents)
    (countable : torrents.length < 2 ^ 64) : Loaded torrents (torrents.foldl restore .initial) := by
  induction torrents using List.reverseRecOn with
  | nil => exact loaded_initial
  | append_singleton done torrent ih =>
    have shorter : done.length < 2 ^ 64 := by
      rw [List.length_append] at countable
      omega
    have before := ih (List.pairwise_append.mp sorted).1 (fun other inside => complete other (by simp [inside])) shorter
    rw [List.foldl_append]
    exact loaded_restore before sorted (complete torrent (by simp)) countable

theorem filter_buckets {torrents : Nat → List Torrent}
    (home : ∀ bucket, ∀ torrent ∈ torrents bucket, bucketOfHash torrent.hash = bucket) (count bucket : Nat) :
    (((List.range count).map torrents).flatten.filter fun torrent => bucketOfHash torrent.hash = bucket) =
      if bucket < count then torrents bucket else [] := by
  induction count with
  | zero => simp
  | succ count ih =>
    rw [List.range_succ, List.map_append, List.flatten_append, List.filter_append, ih]
    simp only [List.map_singleton, List.flatten_singleton]
    rcases Nat.lt_trichotomy bucket count with less | rfl | more
    · have none : (torrents count).filter (fun torrent => bucketOfHash torrent.hash = bucket) = [] := by
        refine List.filter_eq_nil_iff.mpr fun torrent inside => ?_
        simp [home count torrent inside, Nat.ne_of_gt less]
      rw [if_pos less, if_pos (by omega), none, List.append_nil]
    · have all : (torrents bucket).filter (fun torrent => bucketOfHash torrent.hash = bucket) = torrents bucket := by
        refine List.filter_eq_self.mpr fun torrent inside => ?_
        simp [home bucket torrent inside]
      rw [if_neg (lt_irrefl _), if_pos (by omega), all, List.nil_append]
    · have none : (torrents count).filter (fun torrent => bucketOfHash torrent.hash = bucket) = [] := by
        refine List.filter_eq_nil_iff.mpr fun torrent inside => ?_
        simp [home count torrent inside, Nat.ne_of_lt more]
      rw [if_neg (by omega), if_neg (by omega), none, List.append_nil]

theorem length_buckets (torrents : Nat → List Torrent) (count : Nat) :
    ((List.range count).map torrents).flatten.length = ∑ bucket ∈ Finset.range count, (torrents bucket).length := by
  induction count with
  | zero => rfl
  | succ count ih =>
    rw [List.range_succ, List.map_append, List.flatten_append, List.length_append, ih, Finset.sum_range_succ]
    simp

theorem placed_buckets {torrents : Nat → List Torrent}
    (home : ∀ bucket, ∀ torrent ∈ torrents bucket, bucketOfHash torrent.hash = bucket) (count : Nat) :
    Placed (fun torrent : Torrent => bucketOfHash torrent.hash) ((List.range count).map torrents) := by
  intro i bucket here torrent inside
  obtain ⟨j, found, rfl⟩ := List.getElem?_map.symm.trans here |> Option.map_eq_some_iff.mp
  have same : j = i := by
    obtain ⟨bound, value⟩ := List.getElem?_eq_some_iff.mp found
    simpa using value.symm
  exact same ▸ home j torrent inside

end Loading

/-- The table as it is between two operations: sorted buckets that hold their own torrents, each of
them with a peer list, and a `size_t` that counts them. -/
structure Consistent (tracker : Tracker) : Prop where
  housed : Housed tracker
  indexed : Indexed tracker
  counted : tracker.torrentCount = ∑ bucket ∈ Finset.range otBucketCount, (tracker.allTorrents bucket).size
  countable : tracker.torrentCount < 2 ^ 64

def allOf (tracker : Tracker) : List Torrent :=
  ((List.range otBucketCount).map fun bucket => (tracker.allTorrents bucket).data).flatten

section
variable {tracker : Tracker}

theorem allOf_members (housed : Housed tracker) {torrent : Torrent} (inside : torrent ∈ allOf tracker) :
    ∃ peerList, torrent = ⟨torrent.hash, some peerList⟩ ∧ Holds tracker torrent.hash peerList := by
  obtain ⟨members, listed, inside⟩ := List.mem_flatten.mp inside
  obtain ⟨bucket, _, rfl⟩ := List.mem_map.mp listed
  obtain ⟨peerList, has⟩ := Option.isSome_iff_exists.mp (housed.complete bucket torrent inside)
  have same : torrent = ⟨torrent.hash, some peerList⟩ := by rw [← has]
  refine ⟨peerList, same, ?_⟩
  rw [Holds, housed.home bucket torrent inside, ← same]
  exact inside

theorem allOf_sorted (housed : Housed tracker) (indexed : Indexed tracker) : Sorted (allOf tracker) := by
  apply flatten_sorted (placed_buckets housed.home otBucketCount)
  intro members listed
  obtain ⟨bucket, _, rfl⟩ := List.mem_map.mp listed
  exact indexed bucket

theorem allOf_bucket (housed : Housed tracker) (bucket : Nat) :
    ((allOf tracker).filter fun torrent => bucketOfHash torrent.hash = bucket) = (tracker.allTorrents bucket).data := by
  rw [allOf, filter_buckets housed.home]
  split
  next => rfl
  next outside =>
    refine (List.eq_nil_iff_forall_not_mem.mpr fun torrent inside => outside ?_).symm
    rw [← housed.home bucket torrent inside]
    exact BucketThreads.bucketOfHash_lt torrent.hash

end

/-- The dump of a state, loaded into an empty tracker, gives its torrents without their peers, whatever
`inbuf` and `infohash` held before. -/
theorem state_restored {tracker : Tracker} (consistent : Consistent tracker)
    (inRange : ∀ hash peerList, Holds tracker hash peerList → InRange peerList) (k : Nat) (inbuf : Bytes) (infohash : Hash) :
    ∃ iovector contents, fullscrapeMake (2 ^ k) .trackerState [] (fun bucket => (tracker.allTorrents bucket).data) = .returned iovector ∧
      iovector.mapM IoVec.content = some contents ∧
      (∀ bucket, ((loadState contents.flatten [] inbuf infohash .initial).allTorrents bucket).data =
        (tracker.allTorrents bucket).data.map bare) ∧
      (loadState contents.flatten [] inbuf infohash .initial).torrentCount = (allOf tracker).length := by
  obtain ⟨housed, indexed, counted, countable⟩ := consistent
  obtain ⟨iovector, made, read, text⟩ := @fullscrapeMake_text k .trackerState trivial _ housed
  refine ⟨iovector, _, made, mapM_content read, ?_⟩
  have dump : (iovector.map IoVec.bytes).flatten = (allOf tracker).flatMap (entryText .trackerState) := by
    rw [← List.flatMap_def, text]
    simp [header, trailer, allOf]
  have few : (allOf tracker).length < 2 ^ 64 := by
    rw [allOf, length_buckets]
    exact counted ▸ countable
  have complete : Complete (allOf tracker) := by
    intro torrent inside
    obtain ⟨peerList, same, _⟩ := allOf_members housed inside
    rw [same]
    rfl
  have dumpable : ∀ torrent ∈ allOf tracker, Dumpable torrent := by
    intro torrent inside
    obtain ⟨peerList, same, held⟩ := allOf_members housed inside
    exact ⟨peerList, congrArg Torrent.peerList same, inRange _ _ held⟩
  have loaded := loaded_all (allOf_sorted housed indexed) complete few
  rw [dump, loadState, loadLines_dump dumpable (Nat.lt_succ_of_le (dump_lines dumpable))]
  refine ⟨fun bucket => ?_, loaded.counted⟩
  rw [loaded.data, allOf_bucket housed]

open TrackerInvariant

def downloaded : Event := ⟨600, [], .announce .udp zeroHash (flaggedAt 0xC0 7) 2 []⟩

/-- A peer completes its download in the tenth minute. -/
theorem state_restored_download : ∃ iovector contents, fullscrapeMake (2 ^ 12) .trackerState []
      (fun bucket => ((Tracker.initial.apply downloaded).allTorrents bucket).data) = .returned iovector ∧
    iovector.mapM IoVec.content = some contents ∧
    ((loadState contents.flatten [] [] zeroHash .initial).allTorrents 0).data =
      [⟨zeroHash, some { PeerList.zero with base := 10, downCount := 1 }⟩] ∧
    (loadState contents.flatten [] [] zeroHash .initial).torrentCount = 1 := by
  have only : Only zeroHash (Tracker.initial.apply downloaded) := (only_initial _).apply (by decide)
  have counted : (Tracker.initial.apply downloaded).torrentCount =
      ∑ bucket ∈ Finset.range otBucketCount, ((Tracker.initial.apply downloaded).allTorrents bucket).size := by
    rw [Finset.sum_eq_single 0 (fun bucket _ other => by rw [only.elsewhere bucket other]; rfl) (by simp [otBucketCount])]
    rfl
  have consistent : Consistent (Tracker.initial.apply downloaded) :=
    ⟨only.housed, apply_indexed housed_initial (fun _ => .nil) (fun _ => Nat.two_pow_pos 32) _, counted, by decide⟩
  have inRange : ∀ hash peerList, Holds (Tracker.initial.apply downloaded) hash peerList → InRange peerList := by
    intro hash peerList held
    obtain rfl := List.mem_singleton.mp (only.lists ⟨_, hash, held⟩)
    exact ⟨by decide, by decide⟩
  obtain ⟨iovector, contents, made, read, data, count⟩ := state_restored consistent inRange 12 [] zeroHash
  refine ⟨iovector, contents, made, read, data 0, ?_⟩
  rw [count, allOf, length_buckets]
  exact counted.symm

end BtServer.Proofs.StateRoundTrip

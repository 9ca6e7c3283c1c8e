import Mathlib.Data.List.GetD
import BtServer.Proofs.InPlaceTokens

/-! The hashes of a scrape are collected at the beginning of the request while the rest of it is still read.
What is written never reaches what is left to read, so the hashes are those of the request that came in. -/

namespace BtServer.Proofs.ScrapeOverlay
open Lib RequestMemory QueryScan PercentDecoding KeywordMatch InPlaceTokens

variable {c : UInt8} {text rest bytes : Bytes} {parameter : Parameter}

section Parameters

def percentDecode : Bytes → Option Bytes
  | [] => some []
  | c :: text =>
    if c = 37 then
      match text with
      | high :: low :: text =>
        match hexValue high, hexValue low, percentDecode text with
        | some first, some second, some bytes => some ((16 * first + second).toUInt8 :: bytes)
        | _, _, _ => none
      | _ => none
    else (percentDecode text).map (c :: ·)

/-- A parameter as it is written, and where its value starts. -/
structure Parameter where
  name : Bytes
  position : Nat
  value : Bytes
deriving DecidableEq, Repr

def isHard (c : UInt8) : Bool := isUnreserved c &&& scanTerminator != 0

def valueStart (position : Nat) (c : UInt8) : Nat := if c = 61 then position + 1 else position

def nextStart (position : Nat) (c : UInt8) : Nat := if isHard c then position else position + 1

def nameAt (request : Bytes) (position : Nat) : Bytes := (request.drop position).takeWhile ScanFlag.param.accepts

def valueAt (request : Bytes) (position : Nat) : Bytes := (request.drop position).takeWhile ScanFlag.value.accepts

/-- The parameters of a request from a position on. A value may be missing; it ends with the first character it cannot have,
and the next name starts behind that, unless the query ends with it. -/
def parametersFrom (request : Bytes) : (fuel position : Nat) → List Parameter
  | 0, _ => []
  | fuel + 1, position =>
    let name := nameAt request position
    if name = [] ∧ isHard (request.getD position 0) then []
    else
      let start := valueStart (position + name.length) (request.getD (position + name.length) 0)
      let stop := start + (valueAt request start).length
      ⟨name, start, valueAt request start⟩ :: parametersFrom request fuel (nextStart stop (request.getD stop 0))

def parameters (request : Bytes) (start : Nat) : List Parameter := parametersFrom request (request.length + 1) start

def Parameter.decoded (parameter : Parameter) : Bytes := (percentDecode parameter.value).getD []

def Parameter.isInfoHash (parameter : Parameter) : Bool := percentDecode parameter.name = some (cString "info_hash").chars

/-- `scan_find_keywords` takes the name for `info_hash`, given what it finds behind the keyword. -/
def Parameter.taken (behind : Behind) (parameter : Parameter) : Bool :=
  match percentDecode parameter.name with
  | none => false
  | some token =>
    match (keywordOf behind (compiled keywordsScrape) token : Access HttpError (Keyword Unit)) with
    | .ok (.found _) => true
    | _ => false

def Parameter.Overruns (parameter : Parameter) : Prop :=
  ∃ token, percentDecode parameter.name = some token ∧ QueryScan.Overruns (cString "info_hash") token

theorem percentDecode_encodes {flag : ScanFlag} (encodes : Encodes flag text bytes) :
    percentDecode text = some bytes := by
  rw [← encoding_iff] at encodes
  induction encodes with
  | nil => rfl
  | literal admitted raw rest ih =>
    unfold percentDecode
    rw [if_neg raw, ih]
    rfl
  | @escaped high low byte text bytes first second upper lower value rest ih =>
    have same : (16 * first + second).toUInt8 = byte := by
      rw [← value]
      simp
    simp [percentDecode, upper, lower, ih, same]

end Parameters

section Watched
variable {flag : ScanFlag} {memory : Bytes} {string deststring : Nat} {behind : Behind}

def storeBehind {ε : Type} (memory : Bytes) (s d : Nat) (value : UInt8) : Access ε Bytes :=
  if d ≤ s then store memory d value else .error .outside

/-- The loop of `scan_urlencoded_query`, stopped when a write passes the read position. -/
def watchedLoop {ε : Type} (flag : ScanFlag) (string deststring : Nat) :
    (fuel : Nat) → (memory : Bytes) → (s d : Nat) → Access ε Scan
  | 0, _, _, _ => .error .unfinished
  | fuel + 1, memory, s, d => do
    let c ← fetch memory s
    if flag.accepts c then
      if c = 37 then
        let high ← fetch memory (s + 1)
        if fromhex high = 0xff then .ok ⟨-1, string, memory⟩
        else
          let low ← fetch memory (s + 2)
          if fromhex low = 0xff then .ok ⟨-1, string, memory⟩
          else
            let memory ← storeBehind memory s d (fromhex low ||| fromhex high <<< 4)
            watchedLoop flag string deststring fuel memory (s + 3) (d + 1)
      else
        let memory ← storeBehind memory s d c
        watchedLoop flag string deststring fuel memory (s + 1) (d + 1)
    else .ok (RequestMemory.scanStop flag string deststring memory (s + 1) d c)

def watchedHash (memory : Bytes) (read deststring : Nat) : Access HttpError Scan := do
  let scan ← watchedLoop .value read deststring (memory.length + 1) memory read deststring
  if scan.returned ≠ 20 then raise .param400 else .ok scan

/-- The loop of `http_handle_scrape` with watched writes: where the values were read, and the memory. -/
def watchedScrape (behind : Behind) :
    (fuel : Nat) → (sources : List Nat) → (memory : Bytes) → (read : Nat) → Access HttpError (List Nat × Bytes)
  | 0, _, _, _ => .error .unfinished
  | fuel + 1, sources, memory, read => do
    let search ← RequestMemory.scanFindKeywords behind (compiled keywordsScrape) memory read .param
    match search.returned with
    | .terminator => .ok (sources, search.memory)
    | .error => raise .param400
    | .unknown =>
      let read ← RequestMemory.scanUrlencodedSkipvalue search.memory search.string
      watchedScrape behind fuel sources search.memory read
    | .found _ =>
      let scan ← watchedHash search.memory search.string (20 * sources.length)
      watchedScrape behind fuel (sources ++ [search.string]) scan.memory scan.string

theorem watchedLoop_eq {ε : Type} (fuel : Nat) {s d : Nat} (before : d ≤ s) :
    (watchedLoop flag string deststring fuel memory s d : Access ε Scan) = scanLoop flag string deststring fuel memory s d := by
  induction fuel generalizing memory s d with
  | zero => rfl
  | succ fuel ih =>
    have later : ∀ memory value next, s < next →
        (storeBehind memory s d value >>= fun memory => watchedLoop flag string deststring fuel memory next (d + 1) : Access ε Scan) =
          store memory d value >>= fun memory => scanLoop flag string deststring fuel memory next (d + 1) := by
      intro memory value next further
      rw [storeBehind, if_pos before]
      exact congrArg _ (funext fun memory => ih (by omega))
    rw [watchedLoop, scanLoop]
    apply congrArg
    funext c
    rw [later _ _ _ (Nat.lt_succ_self s)]
    simp only [later _ _ _ (show s < s + 3 by omega)]

theorem watchedHash_eq {read : Nat} (before : deststring ≤ read) :
    watchedHash memory read deststring = takeHash memory read deststring := by
  rw [watchedHash, watchedLoop_eq _ before]
  rfl

theorem watchedScrape_eq (fuel : Nat) {sources : List Nat} {read : Nat} (collected : 20 * sources.length ≤ read) :
    scrapeLoop behind fuel sources.length memory read =
      (watchedScrape behind fuel sources memory read).map fun done => (done.1.length, done.2) := by
  induction fuel generalizing sources memory read with
  | zero => rfl
  | succ fuel ih =>
    rw [scrapeLoop, watchedScrape]
    cases searched : (RequestMemory.scanFindKeywords behind (compiled keywordsScrape) memory read .param :
        Access HttpError (Search Unit)) with
    | error stop => rfl
    | ok search =>
      simp only [bind, Except.bind]
      cases returned : search.returned with
      | terminator => rfl
      | error => rfl
      | unknown =>
        obtain ⟨text, _, c, _, _, _, _, moved, _⟩ := search_token (by decide) searched (by simp [returned]) (by simp [returned])
        have least := TokenAt.cursor_least .param (read + text.length) c
        cases skipping : (RequestMemory.scanUrlencodedSkipvalue search.memory search.string : Access HttpError Nat) with
        | error stop => rfl
        | ok next =>
          obtain ⟨_, _, _, _, _, _, further⟩ := skip_ok skipping
          apply ih
          split at further <;> omega
      | found key =>
        obtain ⟨text, _, c, _, _, _, _, moved, _⟩ := search_token (by decide) searched (by simp [returned]) (by simp [returned])
        have least := TokenAt.cursor_least .param (read + text.length) c
        have before : 20 * sources.length ≤ search.string := by omega
        simp only [watchedHash_eq before]
        cases hashing : takeHash search.memory search.string (20 * sources.length) with
        | error stop => rfl
        | ok scan =>
          obtain ⟨value, bytes, c, _, occurs, length, rfl⟩ := takeHash_ok before hashing
          have further := TokenAt.cursor_least .value (search.string + value.length) c
          have shorter := occurs.shorter
          have next := @ih (overwrite search.memory (20 * sources.length) bytes) (sources ++ [search.string])
            (cursor .value (search.string + value.length) c) (by rw [List.length_append, List.length_singleton]; omega)
          rw [List.length_append, List.length_singleton] at next
          exact next

end Watched

section Turns
variable {request memory : Bytes} {read position fuel : Nat}

private theorem takeWhile_stop {p : UInt8 → Bool} (goes : ∀ c ∈ text, p c = true)
    (stops : p c = false) : (text ++ c :: rest).takeWhile p = text := by
  rw [List.takeWhile_append_of_pos goes, List.takeWhile_cons_of_neg (by simp [stops]), List.append_nil]

private theorem getD_stop {text rest : Bytes} {c : UInt8} (here : request.drop position = text ++ c :: rest) :
    request.getD (position + text.length) 0 = c := by
  rw [List.getD_eq_getElem?_getD, ← List.getElem?_drop, here]
  simp

theorem not_accepted_of_hard : ∀ c : UInt8, isHard c = true → ScanFlag.param.accepts c = false := forall_byte (by decide +kernel)

theorem parametersFrom_end (hard : isHard (request.getD position 0) = true) : parametersFrom request fuel position = [] := by
  cases fuel with
  | zero => rfl
  | succ fuel =>
    have name : nameAt request position = [] := by
      rw [nameAt]
      rcases Nat.lt_or_ge position request.length with inside | outside
      · rw [List.getD_eq_getElem _ _ inside] at hard
        rw [List.drop_eq_getElem_cons inside, List.takeWhile_cons_of_neg (by simp [not_accepted_of_hard _ hard])]
      · rw [List.drop_of_length_le outside, List.takeWhile_nil]
    simp only [parametersFrom, name, hard, and_self, if_true]

theorem isHard_of_terminates (ends : Terminates c) : isHard c = true := by
  rcases ends with rfl | rfl | rfl | rfl <;> decide

theorem parametersFrom_turn {name value more : Bytes} {d : UInt8} (here : request.drop position = name ++ c :: rest)
    (named : ∀ c ∈ name, ScanFlag.param.accepts c = true) (ends : ScanFlag.param.accepts c = false)
    (some : ¬ (name = [] ∧ isHard c = true)) (there : request.drop (valueStart (position + name.length) c) = value ++ d :: more)
    (valued : ∀ c ∈ value, ScanFlag.value.accepts c = true) (stops : ScanFlag.value.accepts d = false) :
    parametersFrom request (fuel + 1) position = ⟨name, valueStart (position + name.length) c, value⟩ ::
        parametersFrom request fuel (nextStart (valueStart (position + name.length) c + value.length) d) := by
  have first : nameAt request position = name := by rw [nameAt, here, takeWhile_stop named ends]
  have last := getD_stop here
  have second : valueAt request (valueStart (position + name.length) c) = value := by
    rw [valueAt, there, takeWhile_stop valued stops]
  have behind := getD_stop there
  have goes : ¬ (name = [] ∧ isHard (request.getD position 0) = true) := by
    rintro ⟨rfl, hard⟩
    rw [List.length_nil, Nat.add_zero] at last
    exact some ⟨rfl, last ▸ hard⟩
  rw [parametersFrom]
  simp only [first, last, second, behind, if_neg goes]

structure Unread (request memory : Bytes) (read : Nat) : Prop where
  length : memory.length = request.length
  same : memory.drop read = request.drop read

theorem Unread.later (unread : Unread request memory read) {next : Nat} (further : read ≤ next) :
    memory.drop next = request.drop next := by
  obtain ⟨more, rfl⟩ := Nat.exists_eq_add_of_le further
  rw [← List.drop_drop, unread.same, List.drop_drop]

theorem Unread.overwritten (unread : Unread request memory read) {bytes : Bytes} {write next : Nat}
    (before : write + bytes.length ≤ next) (room : write + bytes.length ≤ memory.length) (further : read ≤ next) :
    Unread request (overwrite memory write bytes) next := by
  refine ⟨(length_overwrite room).trans unread.length, ?_⟩
  rw [drop_overwrite before room, unread.later further]

end Turns

section Collected
variable {behind : Behind} {request memory : Bytes} {read fuel : Nat} {sources : List Nat}

theorem cursor_param (position : Nat) (c : UInt8) : cursor .param position c = valueStart position c := by
  simp [cursor, valueStart]

theorem cursor_value (ends : EndsToken .value c) (position : Nat) : cursor .value position c = nextStart position c := by
  rcases ends with rfl | hard | ⟨mode, _⟩
  · simp [cursor, nextStart, show isHard 38 = false by decide]
  · rw [nextStart, if_pos (isHard_of_terminates hard)]
    rcases hard with rfl | rfl | rfl | rfl <;> simp [cursor]
  · cases mode

theorem name_some {token : Bytes} (encodes : Encodes .param text token) (ends : EndsToken .param c)
    (some : token ≠ [] ∨ ¬ Terminates c) : ¬ (text = [] ∧ isHard c = true) := by
  rintro ⟨rfl, hard⟩
  cases encodes
  rcases ends with rfl | last | ⟨_, rfl⟩
  · exact absurd hard (by decide)
  · exact some.elim (fun other => other rfl) fun soft => soft last
  · exact absurd hard (by decide)

/-- A name was read that is no keyword, or is one: its value starts where the next scan does, and whatever that finds there is
the value of the parameter. -/
structure NameRead (behind : Behind) (request memory : Bytes) (read : Nat) (search : Search Unit) (text : Bytes) : Prop where
  taken : ∀ position value, (⟨text, position, value⟩ : Parameter).taken behind = true ↔ ∃ key, search.returned = .found key
  moved : read ≤ search.string
  unread : Unread request search.memory search.string
  front : ∀ n ≤ read, search.memory.take n = memory.take n
  turn : ∀ fuel value d more, search.memory.drop search.string = value ++ d :: more →
    (∀ c ∈ value, ScanFlag.value.accepts c = true) → ScanFlag.value.accepts d = false →
    parametersFrom request (fuel + 1) read =
      ⟨text, search.string, value⟩ :: parametersFrom request fuel (nextStart (search.string + value.length) d)

theorem name_read (unread : Unread request memory read) {search : Search Unit}
    (searched : (RequestMemory.scanFindKeywords behind (compiled keywordsScrape) memory read .param :
      Access HttpError (Search Unit)) = .ok search) (known : search.returned ≠ .terminator) (well : search.returned ≠ .error) :
    ∃ text, NameRead behind request memory read search text := by
  obtain ⟨text, token, c, rest, occurs, some, found, moved, changed⟩ := search_token (by decide) searched known well
  rw [cursor_param] at moved
  have least : read + text.length ≤ search.string := by
    rw [moved, valueStart]
    split <;> omega
  have shorter := occurs.shorter
  have length := occurs.length
  have kept : Unread request search.memory search.string :=
    changed ▸ unread.overwritten (by omega) (occurs.room (le_refl read)) (by omega)
  refine ⟨text, ?_, by omega, kept, ?_, ?_⟩
  · intro position value
    simp only [Parameter.taken, percentDecode_encodes occurs.encodes, found]
    cases search.returned <;> simp
  · intro n before
    rw [changed, take_overwrite_before before (by omega)]
  · intro fuel value d more there valued stops
    rw [kept.same, moved] at there
    rw [moved]
    exact parametersFrom_turn (unread.same ▸ occurs.here) (encodes_accepted occurs.encodes) (endsToken_stops (by decide) occurs.ends)
      (name_some occurs.encodes occurs.ends some) there valued stops

theorem at_end (unread : Unread request memory read) (here : memory.drop read = c :: rest)
    (ends : Terminates c) : isHard (request.getD read 0) = true := by
  rw [unread.same] at here
  have last := @getD_stop request read [] rest c here
  rw [List.length_nil, Nat.add_zero] at last
  rw [last]
  exact isHard_of_terminates ends

/-- What a run of the loop has collected: where it has read values, and the bytes at the beginning of the request. -/
structure Collects (behind : Behind) (parameters : List Parameter) (sources : List Nat) (memory : Bytes) (all : List Nat)
    (after : Bytes) : Prop where
  places : all = sources ++ (parameters.filter (Parameter.taken behind)).map Parameter.position
  bytes : after.take (20 * all.length) =
    memory.take (20 * sources.length) ++ (parameters.filter (Parameter.taken behind)).flatMap Parameter.decoded
  lengths : ∀ parameter ∈ parameters.filter (Parameter.taken behind), parameter.decoded.length = 20

theorem watchedScrape_collects (unread : Unread request memory read) (room : 20 * sources.length ≤ read) {all : List Nat}
    {after : Bytes} (ran : watchedScrape behind fuel sources memory read = .ok (all, after)) :
    Collects behind (parametersFrom request fuel read) sources memory all after := by
  induction fuel generalizing sources memory read with
  | zero => cases ran
  | succ fuel ih =>
    rw [watchedScrape] at ran
    obtain ⟨search, searched, ran⟩ := Access.bind_ok.mp ran
    cases returned : search.returned with
    | terminator =>
      obtain ⟨⟨c, rest, here, ends⟩, same⟩ := search_finished searched returned
      rw [returned] at ran
      cases ran
      rw [parametersFrom_end (at_end unread here ends), same]
      exact ⟨by simp, by simp, by simp⟩
    | error =>
      rw [returned] at ran
      cases ran
    | unknown =>
      obtain ⟨text, name⟩ := name_read unread searched (by simp [returned]) (by simp [returned])
      rw [returned] at ran
      obtain ⟨next, skipping, ran⟩ := Access.bind_ok.mp ran
      obtain ⟨value, d, more, there, valued, stops, further⟩ := skip_ok skipping
      have passed : ¬ (⟨text, search.string, value⟩ : Parameter).taken behind = true := by
        rw [name.taken, returned]
        rintro ⟨_, ⟨⟩⟩
      have forward : search.string ≤ next := by
        rw [further]
        split <;> omega
      have moved := name.moved
      obtain ⟨places, bytes, lengths⟩ := ih ⟨name.unread.length, name.unread.later forward⟩ (by omega) ran
      rw [name.turn fuel value d more there valued stops, show nextStart _ d = next from further.symm]
      rw [name.front _ room] at bytes
      exact ⟨by rw [List.filter_cons_of_neg passed]; exact places, by rw [List.filter_cons_of_neg passed]; exact bytes,
        by rw [List.filter_cons_of_neg passed]; exact lengths⟩
    | found key =>
      obtain ⟨text, name⟩ := name_read unread searched (by simp [returned]) (by simp [returned])
      rw [returned] at ran
      obtain ⟨scan, hashing, ran⟩ := Access.bind_ok.mp ran
      have before : 20 * sources.length ≤ search.string := room.trans name.moved
      rw [watchedHash_eq before] at hashing
      obtain ⟨value, hash, d, more, occurs, length, rfl⟩ := takeHash_ok before hashing
      have taken : (⟨text, search.string, value⟩ : Parameter).taken behind = true := (name.taken _ _).mpr ⟨key, returned⟩
      have decoded : (⟨text, search.string, value⟩ : Parameter).decoded = hash := by
        simp [Parameter.decoded, percentDecode_encodes occurs.encodes]
      have shorter := occurs.shorter
      have whole := occurs.length
      have forward := TokenAt.cursor_least .value (search.string + value.length) d
      dsimp only at ran
      obtain ⟨places, bytes, lengths⟩ := ih (name.unread.overwritten (by omega) (occurs.room before) (by omega))
        (by rw [List.length_append, List.length_singleton]; omega) ran
      have count : 20 * (sources ++ [search.string]).length = 20 * sources.length + hash.length := by
        rw [List.length_append, List.length_singleton]
        omega
      rw [count, take_overwrite (by omega), name.front _ room] at bytes
      rw [name.turn fuel value d more occurs.here (encodes_accepted occurs.encodes) (endsToken_stops (by decide) occurs.ends),
        ← cursor_value occurs.ends]
      refine ⟨?_, ?_, ?_⟩
      · rw [List.filter_cons_of_pos taken, List.map_cons, places, List.append_assoc]
        rfl
      · rw [List.filter_cons_of_pos taken, List.flatMap_cons, decoded, bytes, List.append_assoc]
      · rw [List.filter_cons_of_pos taken, List.forall_mem_cons, decoded]
        exact ⟨length, lengths⟩

theorem parametersFrom_positions (request : Bytes) (fuel position : Nat) :
    (∀ parameter ∈ parametersFrom request fuel position, position ≤ parameter.position) ∧
      (parametersFrom request fuel position).Pairwise fun first second => first.position < second.position := by
  induction fuel generalizing position with
  | zero => simp [parametersFrom]
  | succ fuel ih =>
    rw [parametersFrom]
    dsimp only
    split
    next => simp
    next =>
      generalize first : valueStart _ _ = start
      generalize last : start + (valueAt request start).length = stop
      have started : position ≤ start := by
        rw [← first, valueStart]
        split <;> omega
      obtain ⟨least, ordered⟩ := ih (nextStart stop (request.getD stop 0))
      have behind : ∀ parameter ∈ parametersFrom request fuel (nextStart stop (request.getD stop 0)), start < parameter.position := by
        intro parameter member
        have later := least parameter member
        rw [nextStart] at member later
        by_cases hard : isHard (request.getD stop 0) = true
        · rw [if_pos hard, parametersFrom_end hard] at member
          cases member
        · rw [if_neg hard] at later
          omega
      refine ⟨?_, List.pairwise_cons.mpr ⟨behind, ordered⟩⟩
      intro parameter member
      rcases List.mem_cons.mp member with rfl | later
      · exact started
      · exact started.trans (behind parameter later).le

end Collected

section Handed
variable {behind : Behind} {request memory : Bytes} {read : Nat} {outcome : Outcome}

def infoHashParameters (request : Bytes) (start : Nat) : List Parameter :=
  (parameters request start).filter Parameter.isInfoHash

def takenParameters (behind : Behind) (request : Bytes) (start : Nat) : List Parameter :=
  (parameters request start).filter (Parameter.taken behind)

/-- The run of `http_handle_scrape` from `start` on: no write passes the read position, and the hashes handed over are the values
of the first `info_hash` parameters of the request, each read where it stands. -/
def HandsOver (behind : Behind) (request : Bytes) (start : Nat) (outcome : Outcome) : Prop :=
  ∃ sources after hashes, watchedScrape behind (request.length + 1) [] request start = .ok (sources, after) ∧
    scrapeLoop behind (request.length + 1) 0 request start = .ok (sources.length, after) ∧
    outcome = .call (.tcpScrape hashes) ∧
    sources.take otMaxmultiscrapeCount = ((infoHashParameters request start).take otMaxmultiscrapeCount).map Parameter.position ∧
    hashes.map Vector.toList = ((infoHashParameters request start).take otMaxmultiscrapeCount).map Parameter.decoded

theorem taken_of_isInfoHash (named : parameter.isInfoHash = true) : parameter.taken behind = true := by
  have name : percentDecode parameter.name = some (cString "info_hash").chars := by simpa [Parameter.isInfoHash] using named
  have clean : ¬ QueryScan.Overruns (cString "info_hash") (cString "info_hash").chars := by
    intro overruns
    have longer := overruns.length_le
    rw [List.length_append, List.length_singleton] at longer
    omega
  have found : (findKeyword behind (cString "info_hash").chars (compiled keywordsScrape) : Access HttpError (Keyword Unit)) =
      .ok (.found ()) := by
    rw [findKeyword_exact _ (by intro keyword member; rw [List.mem_singleton.mp member]; exact clean)]
    rfl
  have some : (cString "info_hash").chars ≠ [] := by decide
  simp [Parameter.taken, name, keywordOf, some, found]

theorem overruns_of_taken (taken : parameter.taken behind = true) (other : ¬ parameter.isInfoHash = true) :
    parameter.Overruns := by
  cases name : percentDecode parameter.name with
  | none => simp [Parameter.taken, name] at taken
  | some token =>
    refine ⟨token, name, ?_⟩
    by_contra clean
    have different : ¬ (cString "info_hash").chars = token := by
      rintro rfl
      exact other (by simp [Parameter.isInfoHash, name])
    have found : (findKeyword behind token (compiled keywordsScrape) : Access HttpError (Keyword Unit)) = .ok .unknown := by
      rw [findKeyword_exact _ (by intro keyword member; rw [List.mem_singleton.mp member]; exact clean), exactly,
        List.find?_eq_none.mpr (by intro keyword member; rw [List.mem_singleton.mp member]; simpa using different)]
    by_cases empty : token = []
    · simp [Parameter.taken, name, keywordOf, empty] at taken
    · simp [Parameter.taken, name, keywordOf, empty, found] at taken

theorem isInfoHash_clean (named : parameter.isInfoHash = true) : ¬ parameter.Overruns := by
  rintro ⟨token, name, overruns⟩
  have same : token = (cString "info_hash").chars := by simpa [Parameter.isInfoHash, name] using named
  have longer := overruns.length_le
  rw [same, List.length_append, List.length_singleton] at longer
  omega

private theorem take_filter {α : Type} {p q : α → Bool} (implies : ∀ a, p a = true → q a = true) {entries : List α} {n : Nat}
    (all : ∀ a ∈ (entries.filter q).take n, p a = true) : (entries.filter q).take n = (entries.filter p).take n := by
  induction entries generalizing n with
  | nil => rfl
  | cons a entries ih =>
    by_cases second : q a = true
    · cases n with
      | zero => rfl
      | succ n =>
        rw [List.filter_cons_of_pos second, List.take_succ_cons, List.forall_mem_cons] at all
        rw [List.filter_cons_of_pos second, List.filter_cons_of_pos all.1, List.take_succ_cons, List.take_succ_cons, ih all.2]
    · have first : ¬ p a = true := fun holds => second (implies a holds)
      rw [List.filter_cons_of_neg second] at all ⊢
      rw [List.filter_cons_of_neg first, ih all]

theorem hashes_of_values {values : List Bytes} (lengths : ∀ value ∈ values, value.length = 20) {buffer : Bytes}
    (flat : buffer.take (20 * values.length) = values.flatten) :
    ((List.range values.length).map fun i => hashAt buffer (20 * i)).map Vector.toList = values := by
  have back : ∀ value ∈ values, (readBytes 20 value 0).toList = value := fun value member => toList_readBytes (lengths value member)
  have blocks : (values.map fun value => readBytes 20 value 0).map Vector.toList = values := by
    rw [List.map_map]
    exact (List.map_congr_left back).trans (List.map_id' values)
  have flat' : buffer.take (20 * (values.map fun value => readBytes 20 value 0).length) =
      (values.map fun value => readBytes 20 value 0).flatMap Vector.toList := by
    rw [List.length_map, flat, List.flatMap_def, blocks]
  have read := readBytes_blocks flat'
  rw [List.length_map] at read
  exact (congrArg (List.map Vector.toList) read).trans blocks

private theorem length_flatten {values : List Bytes} (lengths : ∀ value ∈ values, value.length = 20) :
    values.flatten.length = 20 * values.length := by
  induction values with
  | nil => rfl
  | cons value values ih =>
    rw [List.forall_mem_cons] at lengths
    rw [List.flatten_cons, List.length_append, ih lengths.2, lengths.1, List.length_cons]
    omega

theorem first_hashes {taken : List Parameter} {block : Bytes} {most : Nat}
    (flat : bytes.take (20 * taken.length) = taken.flatMap Parameter.decoded)
    (lengths : ∀ parameter ∈ taken, parameter.decoded.length = 20)
    (fetched : (fetchBlock bytes 0 (20 * min taken.length most) : Access HttpError Bytes) = .ok block) :
    ((List.range (min taken.length most)).map fun i => hashAt block (20 * i)).map Vector.toList =
      (taken.take most).map Parameter.decoded := by
  have few : ∀ value ∈ (taken.take most).map Parameter.decoded, value.length = 20 := by
    intro value member
    obtain ⟨parameter, inside, rfl⟩ := List.mem_map.mp member
    exact lengths parameter (List.mem_of_mem_take inside)
  have count : ((taken.take most).map Parameter.decoded).length = min taken.length most := by
    rw [List.length_map, List.length_take, Nat.min_comm]
  have front : taken.flatMap Parameter.decoded =
      ((taken.take most).map Parameter.decoded).flatten ++ (taken.drop most).flatMap Parameter.decoded := by
    rw [← List.flatMap_def, ← List.flatMap_append, List.take_append_drop]
  have contents : block = ((taken.take most).map Parameter.decoded).flatten := by
    unfold fetchBlock at fetched
    split at fetched
    next =>
      rw [← Except.ok.inj fetched, List.drop_zero, ← Nat.min_eq_left (Nat.mul_le_mul_left 20 (Nat.min_le_left taken.length most)),
        ← List.take_take, flat, front, List.take_left' (by rw [length_flatten few, count])]
    next => cases fetched
  have read := @hashes_of_values _ few block (by
    rw [List.take_of_length_le (by rw [contents, length_flatten few]), contents])
  rw [count] at read
  exact read

/-- A request that is accepted hands over the values of the parameters that are taken for `info_hash`. -/
theorem accepted_takes (accepted : RequestMemory.httpHandleScrape behind request read = .ok outcome) :
    ∃ start sources after hashes, RequestMemory.seekQuery request read = .ok start ∧
      watchedScrape behind (request.length + 1) [] request start = .ok (sources, after) ∧
      scrapeLoop behind (request.length + 1) 0 request start = .ok (sources.length, after) ∧
      outcome = .call (.tcpScrape hashes) ∧ sources = (takenParameters behind request start).map Parameter.position ∧
      hashes.map Vector.toList = ((takenParameters behind request start).take otMaxmultiscrapeCount).map Parameter.decoded := by
  rw [RequestMemory.httpHandleScrape] at accepted
  obtain ⟨start, sought, accepted⟩ := Access.bind_ok.mp accepted
  obtain ⟨⟨numwant, after⟩, looped, accepted⟩ := Access.bind_ok.mp accepted
  have same := @watchedScrape_eq request behind (request.length + 1) [] start (Nat.zero_le _)
  cases watched : watchedScrape behind (request.length + 1) [] request start with
  | error stop =>
    rw [List.length_nil, looped, watched] at same
    cases same
  | ok done =>
    obtain ⟨sources, bytes⟩ := done
    rw [List.length_nil, looped, watched] at same
    cases same
    obtain ⟨places, flat, lengths⟩ := @watchedScrape_collects behind request request start (request.length + 1) [] ⟨rfl, rfl⟩
      (Nat.zero_le _) sources bytes watched
    rw [List.nil_append] at places
    rw [List.length_nil, Nat.mul_zero, List.take_zero, List.nil_append] at flat
    have count : sources.length = (takenParameters behind request start).length := by
      rw [places, List.length_map]
      rfl
    rw [count] at flat
    dsimp only at accepted
    by_cases none : sources.length = 0
    · rw [if_pos none] at accepted
      cases accepted
    · rw [if_neg none, count] at accepted
      obtain ⟨block, fetched, accepted⟩ := Access.bind_ok.mp accepted
      exact ⟨start, sources, bytes, _, sought, watched, looped, (Except.ok.inj accepted).symm, places,
        first_hashes flat lengths fetched⟩

/-- The multi-scrape of a request that is accepted: the hashes are those of the request exactly if no name among the first that
are taken for `info_hash` goes on behind it and a NUL. -/
theorem scrape_overlay_iff (accepted : RequestMemory.httpHandleScrape behind request read = .ok outcome) :
    ∃ start, RequestMemory.seekQuery request read = .ok start ∧ (HandsOver behind request start outcome ↔
        ∀ parameter ∈ (takenParameters behind request start).take otMaxmultiscrapeCount, ¬ parameter.Overruns) := by
  obtain ⟨start, sources, after, hashes, sought, watched, looped, handed, places, values⟩ := accepted_takes accepted
  refine ⟨start, sought, ?_⟩
  constructor
  · rintro ⟨sources', after', hashes', watched', _, _, listed, _⟩ parameter member
    rw [watched] at watched'
    obtain ⟨rfl, rfl⟩ := Prod.mk.inj (Except.ok.inj watched')
    rw [places, ← List.map_take] at listed
    have there : parameter.position ∈ ((takenParameters behind request start).take otMaxmultiscrapeCount).map Parameter.position :=
      List.mem_map_of_mem member
    rw [listed] at there
    obtain ⟨other, named, same⟩ := List.mem_map.mp there
    obtain ⟨inside, isInfoHash⟩ := List.mem_filter.mp (List.mem_of_mem_take named)
    have within := (List.mem_filter.mp (List.mem_of_mem_take member)).1
    have different : ((parameters request start).map Parameter.position).Nodup :=
      List.pairwise_map.mpr ((parametersFrom_positions request (request.length + 1) start).2.imp fun less => less.ne)
    rw [← List.inj_on_of_nodup_map different inside within same]
    exact isInfoHash_clean isInfoHash
  · intro clean
    have same : (takenParameters behind request start).take otMaxmultiscrapeCount =
        (infoHashParameters request start).take otMaxmultiscrapeCount := by
      apply take_filter fun _ => taken_of_isInfoHash
      intro parameter member
      by_contra other
      have taken := (List.mem_filter.mp (List.mem_of_mem_take member)).2
      exact clean parameter member (overruns_of_taken taken other)
    refine ⟨sources, after, hashes, watched, looped, handed, ?_, ?_⟩
    · rw [places, ← List.map_take, same]
    · rw [values, same]

def twoHashes : Bytes := ascii "GET /sc?x=1&info_hash=AAAAAAAAAAAAAAAAAAAA&x&info_hash=%42BBBBBBBBBBBBBBBBBBB\n\n"

/-- Other parameters stand before both hashes, and one of the hashes is escaped. -/
theorem scrape_overlay_two :
    ∃ outcome, RequestMemory.httpHandleScrape (fun _ _ => none) twoHashes 8 = .ok outcome ∧
      outcome = .call (.tcpScrape [Vector.replicate 20 65, Vector.replicate 20 66]) ∧
      ∃ start, RequestMemory.seekQuery twoHashes 8 = .ok start ∧ HandsOver (fun _ _ => none) twoHashes start outcome := by
  have accepted : RequestMemory.httpHandleScrape (fun _ _ => none) twoHashes 8 =
      .ok (.call (.tcpScrape [Vector.replicate 20 65, Vector.replicate 20 66])) := by
    rfl
  obtain ⟨start, sought, handed⟩ := scrape_overlay_iff accepted
  have query : RequestMemory.seekQuery twoHashes 8 = .ok 8 := by rfl
  obtain rfl := Except.ok.inj (query.symm.trans sought)
  have named : (takenParameters (fun _ _ => none) twoHashes 8).all Parameter.isInfoHash = true := by decide +kernel
  refine ⟨_, accepted, rfl, 8, sought, handed.mpr ?_⟩
  intro parameter member
  exact isInfoHash_clean (List.all_eq_true.mp named parameter (List.mem_of_mem_take member))

/-- The name `info_hash%00` is taken for `info_hash` if a NUL is found behind the keyword. -/
theorem mistaken_info_hash :
    RequestMemory.httpHandleScrape (fun _ _ => some 0) (ascii "GET /sc?info_hash%00=AAAAAAAAAAAAAAAAAAAA\n\n") 8 =
        .ok (.call (.tcpScrape [Vector.replicate 20 65])) ∧
      infoHashParameters (ascii "GET /sc?info_hash%00=AAAAAAAAAAAAAAAAAAAA\n\n") 8 = [] := by
  exact ⟨by rfl, by decide +kernel⟩

end Handed

end BtServer.Proofs.ScrapeOverlay

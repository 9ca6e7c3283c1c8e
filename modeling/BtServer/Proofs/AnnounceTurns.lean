import BtServer.Proofs.AnnounceQuery
import BtServer.Proofs.InPlaceTokens

/-! The loop of `http_handle_announce` on its buffer performs the parameters of a query one after the other. The
hash and the id of the peer are kept as pointers, and stay in front of all that is written later. -/

namespace BtServer.Proofs.AnnounceTurns
open Lib RequestMemory QueryScan AnnounceQuery PercentDecoding KeywordMatch InPlaceTokens

variable {memory : Bytes} {read : Nat} {key : AnnounceKey}

section Parameters
variable (behind : Behind)

def raising : Except HttpError Query → Access HttpError Query
  | .error error => raise error
  | .ok query => .ok query

def performKey (query : Query) (value : Bytes) : AnnounceKey → Access HttpError Query
  | .event => do
    match ← keywordOf behind (compiled keywordsAnnounceEvent) value with
    | .found event => .ok { query with flag := query.flag ||| event.flag }
    | _ => .ok query
  | key =>
    if value = [] then raise .param400 else raising (query.setValue key value)

theorem performKey_set (query : Query) (value : Bytes) (set : key ≠ .event) :
    performKey behind query value key = if value = [] then raise .param400 else raising (query.setValue key value) := by
  cases key with
  | event => exact absurd rfl set
  | port | left | numwant | compact | infoHash | peerId => rfl

def perform (query : Query) (param : Param) : Access HttpError Query := do
  match ← keywordOf behind (compiled keywordsAnnounce) param.name with
  | .found key => performKey behind query param.value key
  | _ => .ok query

end Parameters

section States
variable {state : Announce} {query : Query} {text more bytes : Bytes} {position : Nat}

def found (state : Announce) : Query :=
  { state.query with
    hash := state.hash.map (hashAt state.memory)
    peerId := state.peerId.map fun position => (state.memory.drop position).take 20 }

structure Shows (state : Announce) (query : Query) (text : Bytes) : Prop where
  found : found state = query
  left : state.memory.drop state.read = text
  inside : state.read ≤ state.memory.length
  hash : ∀ position ∈ state.hash, position + 20 ≤ state.read
  peerId : ∀ position ∈ state.peerId, position + 20 ≤ state.read

theorem hashAt_take (memory : Bytes) (position : Nat) : hashAt ((memory.drop position).take 20) 0 = hashAt memory position := by
  ext i inside
  simp [hashAt, List.getD_eq_getElem?_getD]

theorem drop_take_before {other : Bytes} (same : memory.take position = other.take position) {start : Nat}
    (before : start + 20 ≤ position) : (memory.drop start).take 20 = (other.drop start).take 20 := by
  have cut : ∀ bytes : Bytes, (bytes.drop start).take 20 = ((bytes.take position).drop start).take 20 := by
    intro bytes
    rw [List.drop_take, List.take_take, Nat.min_eq_left (by omega)]
  rw [cut memory, cut other, same]

theorem Shows.moved (shows : Shows state query (text ++ more)) (short : bytes.length ≤ text.length) :
    Shows { state with read := state.read + text.length, memory := overwrite state.memory state.read bytes } query more := by
  obtain ⟨rfl, left, inside, hash, peerId⟩ := shows
  have length := congrArg List.length left
  rw [List.length_drop, List.length_append] at length
  have room : state.read + bytes.length ≤ state.memory.length := by omega
  have front : (overwrite state.memory state.read bytes).take state.read = state.memory.take state.read :=
    take_overwrite_before le_rfl inside
  have hashes : state.hash.map (hashAt (overwrite state.memory state.read bytes)) = state.hash.map (hashAt state.memory) := by
    apply Option.map_congr
    intro position member
    rw [← hashAt_take, drop_take_before front (hash position member), hashAt_take]
  have ids : (state.peerId.map fun position => ((overwrite state.memory state.read bytes).drop position).take 20) =
      state.peerId.map fun position => (state.memory.drop position).take 20 := by
    apply Option.map_congr
    intro position member
    exact drop_take_before front (peerId position member)
  refine ⟨?_, ?_, ?_, ?_, ?_⟩
  · simp only [AnnounceTurns.found, hashes, ids]
  · dsimp only
    rw [drop_overwrite (by omega) room, ← List.drop_drop, left, List.drop_left]
  · dsimp only
    rw [length_overwrite room]
    omega
  · intro position member
    have before := hash position member
    dsimp only
    omega
  · intro position member
    have before := peerId position member
    dsimp only
    omega

theorem setValue_number (query : Query) (hash : Option Hash) (peerId : Option Bytes) (value : Bytes)
    (number : key ≠ .infoHash) (other : key ≠ .peerId) :
    ({ query with hash := hash, peerId := peerId } : Query).setValue key value =
      (query.setValue key value).map fun query => { query with hash := hash, peerId := peerId } := by
  cases key with
  | infoHash => exact absurd rfl number
  | peerId => exact absurd rfl other
  | port | left | event | numwant | compact =>
    simp only [Query.setValue]
    try split_ifs
    all_goals rfl

end States

section Turns
variable {behind : Behind} {state : Announce} {query : Query} {param : Param} {tail next : Bytes}

/-- A run of the code and what it should do stop alike, or the state it leaves shows the query. -/
inductive Matches (next : Bytes) : Access HttpError Query → Access HttpError Announce → Prop where
  | stops (stop : Stop HttpError) : Matches next (.error stop) (.error stop)
  | shows {query : Query} {state : Announce} (shown : Shows state query next) : Matches next (.ok query) (.ok state)

theorem follows_separator (follows : Follows tail next) :
    ∃ c rest separator, tail = c :: rest ∧ EndsToken .value c ∧ tail = separator ++ next ∧
      (∀ position, cursor .value position c = position + separator.length) ∧
      (∀ position, (if isUnreserved c &&& scanTerminator != 0 then position else position + 1) = position + separator.length) ∧
      (Terminates c → separator = []) := by
  cases follows with
  | next rest => exact ⟨38, next, [38], rfl, .inl rfl, rfl, fun _ => rfl, fun _ => rfl, by decide⟩
  | @done c ends rest =>
    refine ⟨c, rest, [], rfl, .inr (.inl ends), rfl, ?_, ?_, fun _ => rfl⟩
    all_goals
      intro position
      rcases ends with rfl | rfl | rfl | rfl <;> rfl

theorem valueText_nil (param : Param) (empty : param.value = []) : param.valueText = [] := by
  have valued := param.valued
  rw [empty] at valued
  generalize param.valueText = text at valued
  cases valued
  rfl

theorem Shows.passed (shows : Shows state query (param.valueText ++ tail)) {separator : Bytes} (split : tail = separator ++ next) :
    Shows { state with
      read := state.read + (param.valueText ++ separator).length
      memory := overwrite state.memory state.read param.value } query next := by
  rw [split, ← List.append_assoc] at shows
  apply shows.moved
  have shorter := encodes_length param.valued
  rw [List.length_append]
  omega

theorem Shows.twenty (shows : Shows state query (param.valueText ++ tail)) (twenty : param.value.length = 20) :
    param.value ≠ [] ∧ ((overwrite state.memory state.read param.value).drop state.read).take 20 = param.value ∧
      ∀ separator, state.read + 20 ≤ state.read + (param.valueText ++ separator).length := by
  have length := congrArg List.length shows.left
  have shorter := encodes_length param.valued
  have inside := shows.inside
  rw [List.length_drop, List.length_append] at length
  refine ⟨fun empty => ?_, ?_, fun separator => ?_⟩
  · rw [empty] at twenty
    cases twenty
  · rw [← twenty]
    exact token_at (by omega)
  · rw [List.length_append]
    omega

section Values
variable (param) (left : memory.drop read = param.valueText ++ tail) (follows : Follows tail next)
include left follows

theorem value_scanned :
    ∃ (returned : Int) (separator : Bytes), tail = separator ++ next ∧
      (returned = param.value.length ∨ param.value = [] ∧ returned = -2) ∧
      (RequestMemory.scanUrlencodedQuery memory read read .value : Access HttpError Scan) =
        .ok ⟨returned, read + (param.valueText ++ separator).length, overwrite memory read param.value⟩ := by
  obtain ⟨c, rest, separator, rfl, ends, split, cursors, _, hard⟩ := follows_separator follows
  by_cases last : param.value = [] ∧ Terminates c
  · obtain ⟨empty, terminates⟩ := last
    have none := valueText_nil param empty
    refine ⟨-2, separator, split, .inr ⟨empty, rfl⟩, ?_⟩
    rw [none, List.nil_append] at left
    rw [scan_end .value left terminates, none, empty, hard terminates, overwrite_nil]
    rfl
  · have occurs : TokenAt .value memory read param.valueText param.value c rest := ⟨left, param.valued, ends⟩
    refine ⟨param.value.length, separator, split, .inl rfl, ?_⟩
    rw [occurs.scanned (by decide) le_rfl (not_and_or.mp last), cursors, List.length_append, Nat.add_assoc]

theorem value_skipped :
    ∃ separator, tail = separator ++ next ∧ (RequestMemory.scanUrlencodedSkipvalue memory read : Access HttpError Nat) =
      .ok (read + (param.valueText ++ separator).length) := by
  obtain ⟨c, rest, separator, rfl, ends, split, _, skips, _⟩ := follows_separator follows
  have length := congrArg List.length left
  rw [List.length_drop, List.length_append, List.length_cons] at length
  refine ⟨separator, split, ?_⟩
  rw [RequestMemory.scanUrlencodedSkipvalue, skipped left (encodes_accepted param.valued) (endsToken_stops (by decide) ends) (by omega),
    skips, List.length_append, Nat.add_assoc]

theorem takeValue_shown :
    ∃ separator, tail = separator ++ next ∧ takeValue memory read = if param.value = [] then raise .param400
      else .ok (param.value, ⟨param.value.length, read + (param.valueText ++ separator).length, overwrite memory read param.value⟩) := by
  obtain ⟨returned, separator, split, counts, scanned⟩ := value_scanned param left follows
  refine ⟨separator, split, ?_⟩
  by_cases empty : param.value = []
  · have none : returned ≤ 0 := by
      rcases counts with rfl | ⟨_, rfl⟩
      · rw [empty]
        rfl
      · decide
    simp only [takeValue, scanned, bind, Except.bind, if_pos none, if_pos empty]
  · have count : returned = param.value.length := counts.resolve_right fun absent => empty absent.1
    have positive : 0 < param.value.length := List.length_pos_of_ne_nil empty
    subst count
    have length := congrArg List.length left
    have shorter := encodes_length param.valued
    rw [List.length_drop, List.length_append] at length
    have room : read + param.value.length ≤ memory.length := by omega
    have block : (fetchBlock (overwrite memory read param.value) read param.value.length : Access HttpError Bytes) =
        .ok param.value := by
      rw [fetchBlock_eq (by rw [length_overwrite room]; exact room), token_at room]
    have some : ¬ (param.value.length : Int) ≤ 0 := by omega
    simp only [takeValue, scanned, bind, Except.bind, if_neg some, if_neg empty, Int.toNat_natCast, block]

theorem takeHash_shown :
    ∃ separator, tail = separator ++ next ∧ takeHash memory read read = if param.value.length ≠ 20 then raise .param400
      else .ok ⟨20, read + (param.valueText ++ separator).length, overwrite memory read param.value⟩ := by
  obtain ⟨returned, separator, split, counts, scanned⟩ := value_scanned param left follows
  refine ⟨separator, split, ?_⟩
  by_cases twenty : param.value.length = 20
  · have count : returned = 20 := by
      rcases counts with rfl | ⟨empty, _⟩
      · rw [twenty]
        rfl
      · rw [empty] at twenty
        cases twenty
    subst count
    simp only [takeHash, scanned, bind, Except.bind, ne_eq, not_true_eq_false, if_false, twenty]
  · have other : returned ≠ 20 := by
      rcases counts with rfl | ⟨_, rfl⟩
      · omega
      · decide
    simp only [takeHash, scanned, bind, Except.bind, if_pos other, ne_eq, twenty, not_false_eq_true, if_true]

theorem event_searched {κ : Type} (behind : Behind) (keywords : List (CString × κ)) :
    ∃ separator, tail = separator ++ next ∧
      ((RequestMemory.scanFindKeywords behind keywords memory read .value : Access HttpError (Search κ)) =
          (keywordOf behind keywords param.value >>= fun returned =>
            .ok ⟨returned, read + (param.valueText ++ separator).length, overwrite memory read param.value⟩) ∨
        param.value = [] ∧ (RequestMemory.scanFindKeywords behind keywords memory read .value : Access HttpError (Search κ)) =
          .ok ⟨.terminator, read + (param.valueText ++ separator).length, overwrite memory read param.value⟩) := by
  obtain ⟨c, rest, separator, rfl, ends, split, cursors, _, hard⟩ := follows_separator follows
  refine ⟨separator, split, ?_⟩
  by_cases last : param.value = [] ∧ Terminates c
  · obtain ⟨empty, terminates⟩ := last
    have none := valueText_nil param empty
    rw [none, List.nil_append] at left
    rw [search_end left terminates, none, empty, hard terminates, overwrite_nil]
    exact .inr ⟨rfl, rfl⟩
  · have occurs : TokenAt .value memory read param.valueText param.value c rest := ⟨left, param.valued, ends⟩
    rw [occurs.searched (by decide) (not_and_or.mp last), cursors, List.length_append, Nat.add_assoc]
    exact .inl rfl

end Values

section Cases
variable (shows : Shows state query (param.valueText ++ tail)) (follows : Follows tail next)
include shows follows

theorem numberCase_matches (number : key ≠ .infoHash) (other : key ≠ .peerId) (set : key ≠ .event) :
    Matches next (performKey behind query param.value key) (numberCase state key) := by
  obtain ⟨separator, split, taken⟩ := takeValue_shown param shows.left follows
  rw [performKey_set behind query param.value set, numberCase, taken]
  by_cases empty : param.value = []
  · rw [if_pos empty, if_pos empty]
    exact .stops _
  · have passed := shows.passed split
    obtain rfl := shows.found
    have same := setValue_number state.query (state.hash.map (hashAt state.memory))
      (state.peerId.map fun position => (state.memory.drop position).take 20) param.value number other
    rw [if_neg empty, if_neg empty, found, same]
    simp only [bind, Except.bind]
    cases set : state.query.setValue key param.value with
    | error error => exact .stops _
    | ok changed =>
      have kept := passed.found
      simp only [found] at kept
      injection kept with _ _ _ hash peerId
      refine .shows ⟨?_, passed.left, passed.inside, passed.hash, passed.peerId⟩
      simp only [found, hash, peerId]

theorem eventCase_matches :
    Matches next (performKey behind query param.value .event) (announceCase behind state .event) := by
  obtain ⟨separator, split, searched⟩ := event_searched param shows.left follows behind (compiled keywordsAnnounceEvent)
  have passed := shows.passed split
  rw [performKey, announceCase]
  rcases searched with searched | ⟨empty, searched⟩
  · rw [searched]
    cases returns : (keywordOf behind (compiled keywordsAnnounceEvent) param.value : Access HttpError (Keyword AnnounceEvent)) with
    | error stop => exact .stops stop
    | ok returned =>
      rcases keywordOf_returns returns with rfl | ⟨event, rfl⟩
      · exact .shows passed
      · refine .shows ⟨?_, passed.left, passed.inside, passed.hash, passed.peerId⟩
        have kept := passed.found
        simp only [found] at kept ⊢
        rw [← kept]
  · have unknown : (keywordOf behind (compiled keywordsAnnounceEvent) param.value : Access HttpError (Keyword AnnounceEvent)) =
        .ok .unknown := by
      rw [keywordOf, if_pos empty]
    rw [searched, unknown]
    exact .shows passed

theorem hashCase_matches :
    Matches next (performKey behind query param.value .infoHash) (announceCase behind state .infoHash) := by
  have shown := shows.found
  have carried : query.hash = state.hash.map (hashAt state.memory) := by rw [← shown, found]
  simp only [performKey, announceCase, Query.setValue]
  cases hashed : state.hash with
  | some position =>
    rw [hashed] at carried
    simp only [carried, Option.map_some, Option.isSome_some, if_true]
    split <;> exact .stops _
  | none =>
    rw [hashed] at carried
    obtain ⟨separator, split, taken⟩ := takeHash_shown param shows.left follows
    have passed := shows.passed split
    simp only [carried, Option.map_none, Option.isSome_none, Bool.false_eq_true, if_false, taken]
    by_cases twenty : param.value.length = 20
    · obtain ⟨some, stands, before⟩ := shows.twenty twenty
      simp only [ne_eq, twenty, not_true_eq_false, if_false, if_neg some]
      refine .shows ⟨?_, passed.left, passed.inside, ?_, passed.peerId⟩
      · have kept := passed.found
        simp only [found] at kept ⊢
        rw [← kept, Option.map_some, ← hashAt_take, stands]
      · rintro position ⟨⟩
        exact before separator
    · simp only [ne_eq, twenty, not_false_eq_true, if_true]
      split <;> exact .stops _

theorem peerIdCase_matches :
    Matches next (performKey behind query param.value .peerId) (announceCase behind state .peerId) := by
  obtain ⟨separator, split, taken⟩ := takeHash_shown param shows.left follows
  have passed := shows.passed split
  simp only [performKey, announceCase, Query.setValue, taken]
  by_cases twenty : param.value.length = 20
  · obtain ⟨some, stands, before⟩ := shows.twenty twenty
    simp only [ne_eq, twenty, not_true_eq_false, if_false, if_neg some]
    refine .shows ⟨?_, passed.left, passed.inside, passed.hash, ?_⟩
    · have kept := passed.found
      simp only [found] at kept ⊢
      rw [← kept, Option.map_some, stands]
    · rintro position ⟨⟩
      exact before separator
  · simp only [ne_eq, twenty, not_false_eq_true, if_true]
    split <;> exact .stops _

theorem announceCase_matches (key : AnnounceKey) :
    Matches next (performKey behind query param.value key) (announceCase behind state key) := by
  cases key with
  | event => exact eventCase_matches shows follows
  | infoHash => exact hashCase_matches shows follows
  | peerId => exact peerIdCase_matches shows follows
  | port => exact numberCase_matches shows follows (by decide) (by decide) (by decide)
  | left => exact numberCase_matches shows follows (by decide) (by decide) (by decide)
  | numwant => exact numberCase_matches shows follows (by decide) (by decide) (by decide)
  | compact => exact numberCase_matches shows follows (by decide) (by decide) (by decide)

end Cases

theorem announceLoop_turn (fuel : Nat) (shows : Shows state query (param.text ++ tail)) (follows : Follows tail next) :
    ∃ turned, Matches next (perform behind query param) turned ∧
      announceLoop behind (fuel + 1) state = turned >>= announceLoop behind fuel := by
  have text : param.text ++ tail = (param.nameText ++ [61]) ++ (param.valueText ++ tail) := by simp [Param.text]
  rw [text] at shows
  have left : state.memory.drop state.read = param.nameText ++ 61 :: (param.valueText ++ tail) := by simpa using shows.left
  have occurs : TokenAt .param state.memory state.read param.nameText param.name 61 (param.valueText ++ tail) :=
    ⟨left, param.named, .inr (.inr ⟨rfl, rfl⟩)⟩
  have named := shows.moved (show param.name.length ≤ (param.nameText ++ [61]).length by
    have shorter := encodes_length param.named
    rw [List.length_append]
    omega)
  rw [List.length_append, List.length_singleton, ← Nat.add_assoc] at named
  rw [perform, announceLoop, occurs.searched (by decide) (.inr (by decide))]
  cases returns : (keywordOf behind (compiled keywordsAnnounce) param.name : Access HttpError (Keyword AnnounceKey)) with
  | error stop => exact ⟨.error stop, .stops stop, rfl⟩
  | ok returned =>
    rcases keywordOf_returns returns with rfl | ⟨key, rfl⟩
    · obtain ⟨separator, split, skipped⟩ := value_skipped param named.left follows
      have passed := @Shows.moved _ _ (param.valueText ++ separator) next [] (by
        rw [List.append_assoc, ← split]
        exact named) (Nat.zero_le _)
      rw [overwrite_nil] at passed
      refine ⟨_, .shows passed, ?_⟩
      have behindName : cursor .param (state.read + param.nameText.length) 61 = state.read + param.nameText.length + 1 := rfl
      simp only [bind, Except.bind, behindName, skipped]
    · refine ⟨_, announceCase_matches named follows key, rfl⟩

theorem announceLoop_performs (params : List Param) (fuel : Nat) (enough : params.length < fuel) {c : UInt8} {rest : Bytes}
    (ends : Terminates c) (shows : Shows state query (queryText params ++ c :: rest)) :
    Matches (c :: rest) (params.foldlM (perform behind) query) (announceLoop behind fuel state) := by
  induction params generalizing fuel state query with
  | nil =>
    obtain ⟨more, rfl⟩ := Nat.exists_eq_add_of_lt enough
    rw [announceLoop, search_end shows.left ends]
    exact .shows shows
  | cons param params ih =>
    obtain ⟨tail, text, follows⟩ := queryText_cons param params ends rest
    cases fuel with
    | zero => cases enough
    | succ fuel =>
      rw [text] at shows
      obtain ⟨turned, matched, turns⟩ := @announceLoop_turn behind _ _ _ _ _ fuel shows follows
      rw [turns, List.foldlM_cons]
      generalize perform behind query param = performed at matched ⊢
      cases matched with
      | stops stop => exact .stops stop
      | shows shown => exact ih fuel (Nat.lt_of_succ_lt_succ enough) shown

end Turns

end BtServer.Proofs.AnnounceTurns

import BtServer.Proofs.AnnounceTurns

/-! The order of the parameters of an announce. They are performed one after the other, and two of them can be
exchanged unless both set the same thing to different values, or both are taken for the hash. -/

namespace BtServer.Proofs.ParameterOrder
open Lib RequestMemory QueryScan AnnounceQuery KeywordMatch InPlaceTokens AnnounceTurns

section Effects
variable {behind : Behind} {query : Query} {param : Param} {value : Bytes} {key : AnnounceKey}

inductive Effect where
  | nothing
  | port (port : Vector UInt8 2)
  | flag (flag : UInt8)
  | numwant (numwant : Int)
  | hash (hash : Hash)
  | peerId (peerId : Bytes)
deriving DecidableEq

def Effect.apply (query : Query) : Effect → Access HttpError Query
  | .nothing => .ok query
  | .port bytes => .ok { query with port := bytes }
  | .flag bits => .ok { query with flag := query.flag ||| bits }
  | .numwant count => .ok { query with numwant := count }
  | .hash bytes => if query.hash.isSome then raise .param400 else .ok { query with hash := some bytes }
  | .peerId bytes => .ok { query with peerId := some bytes }

/-- Two parameters can both be there, in any order. -/
def Effect.Agrees : Effect → Effect → Prop
  | .port first, .port second => first = second
  | .numwant first, .numwant second => first = second
  | .hash _, .hash _ => False
  | .peerId first, .peerId second => first = second
  | _, _ => True

def Effect.Holds (query : Query) : Effect → Prop
  | .port bytes => query.port = bytes
  | .numwant count => query.numwant = count
  | .hash bytes => query.hash = some bytes
  | .peerId bytes => query.peerId = some bytes
  | .nothing | .flag _ => True

theorem Effect.exchange {first second : Effect} (agree : first.Agrees second) (query : Query) :
    (first.apply query >>= fun query => second.apply query) = second.apply query >>= fun query => first.apply query := by
  cases first <;> cases second <;> simp only [Effect.Agrees] at agree
  case flag.flag first second => simp only [Effect.apply, bind, Except.bind, UInt8.or_assoc, UInt8.or_comm first second]
  all_goals
    subst_vars
    simp only [Effect.apply, bind, Except.bind]
    try split_ifs
    all_goals rfl

theorem Effect.holds {effect : Effect} {after : Query} (applied : effect.apply query = .ok after) : effect.Holds after := by
  cases effect with
  | hash hash =>
    rw [Effect.apply] at applied
    split at applied
    · cases applied
    · cases applied
      rfl
  | nothing | port | flag | numwant | peerId =>
    cases applied
    first | rfl | trivial

theorem Effect.agrees_of_holds {first second : Effect} (held : first.Holds query) (other : second.Holds query)
    (single : ∀ hash another, first = .hash hash → second ≠ .hash another) : first.Agrees second := by
  cases first <;> cases second <;> first | trivial | exact held.symm.trans other | exact (single _ _ rfl rfl).elim | skip
  case peerId.peerId => exact Option.some.inj (held.symm.trans other)

def keyEffect (behind : Behind) (value : Bytes) : AnnounceKey → Effect
  | .port => .port (htons (scanFixedInt value).1)
  | .left => if (scanFixedInt value).2 ≠ 0 ∨ (scanFixedInt value).1 = 0 then .flag peerFlagSeeding else .nothing
  | .event =>
    match (keywordOf behind (compiled keywordsAnnounceEvent) value : Access HttpError (Keyword AnnounceEvent)) with
    | .ok (.found event) => .flag event.flag
    | _ => .nothing
  | .numwant =>
    let numwant := if (scanFixedInt value).1 < 0 then 50 else (scanFixedInt value).1
    .numwant (if numwant > 200 then 200 else numwant.toInt)
  | .compact => .nothing
  | .infoHash => .hash (hashAt value 0)
  | .peerId => .peerId value

def effectOf (behind : Behind) (param : Param) : Effect :=
  match (keywordOf behind (compiled keywordsAnnounce) param.name : Access HttpError (Keyword AnnounceKey)) with
  | .ok (.found key) => keyEffect behind param.value key
  | _ => .nothing

theorem raising_ok {result : Except HttpError Query} {after : Query} (accepted : raising result = .ok after) :
    ∃ query, result = .ok query := by
  cases result with
  | error error => cases accepted
  | ok query => exact ⟨query, rfl⟩

variable {start after : Query} (unset : start.hash = none)
include unset

theorem setValue_effect (accepted : start.setValue key value = .ok after)
    (set : key ≠ .event) (query : Query) : raising (query.setValue key value) = (keyEffect behind value key).apply query := by
  cases key with
  | event => exact absurd rfl set
  | left =>
    simp only [Query.setValue, keyEffect]
    by_cases unparsed : (scanFixedInt value).2 = 0
    · by_cases zero : (scanFixedInt value).1 = 0 <;> simp [unparsed, zero, raising, Effect.apply]
    · simp [unparsed, raising, Effect.apply]
  | port | numwant | compact | infoHash | peerId =>
    simp only [Query.setValue, unset, Option.isSome_none, Bool.false_eq_true, if_false, keyEffect, Effect.apply] at accepted ⊢
    split_ifs at accepted ⊢
    all_goals rfl

theorem performKey_effect (accepted : performKey behind start value key = .ok after) (query : Query) :
    performKey behind query value key = (keyEffect behind value key).apply query := by
  cases key with
  | event =>
    simp only [performKey, keyEffect] at accepted ⊢
    cases returns : (keywordOf behind (compiled keywordsAnnounceEvent) value : Access HttpError (Keyword AnnounceEvent)) with
    | error stop =>
      rw [returns] at accepted
      cases accepted
    | ok returned => cases returned <;> rfl
  | port | left | numwant | compact | infoHash | peerId =>
    rw [performKey_set behind _ _ (by decide)] at accepted ⊢
    by_cases empty : value = []
    · rw [if_pos empty] at accepted
      cases accepted
    · rw [if_neg empty] at accepted ⊢
      obtain ⟨changed, set⟩ := raising_ok accepted
      exact setValue_effect unset set (by decide) query

theorem perform_effect (accepted : AnnounceTurns.perform behind start param = .ok after) (query : Query) :
    AnnounceTurns.perform behind query param = (effectOf behind param).apply query := by
  rw [AnnounceTurns.perform, effectOf] at *
  cases returns : (keywordOf behind (compiled keywordsAnnounce) param.name : Access HttpError (Keyword AnnounceKey)) with
  | error stop =>
    rw [returns] at accepted
    cases accepted
  | ok returned =>
    rw [returns] at accepted
    cases returned with
    | found key => exact performKey_effect unset accepted query
    | error | terminator | unknown => rfl

end Effects

section Orders
variable {behind : Behind} {params order : List Param} {query after : Query} {param : Param}

def Accepted (behind : Behind) (param : Param) : Prop := ∃ after, AnnounceTurns.perform behind .initial param = .ok after

theorem Accepted.performs (accepted : Accepted behind param) (query : Query) :
    AnnounceTurns.perform behind query param = (effectOf behind param).apply query := by
  obtain ⟨after, performed⟩ := accepted
  exact perform_effect rfl performed query

theorem foldlM_foldl (params : List Param) (start : Access HttpError Query) :
    (start >>= fun query => params.foldlM (AnnounceTurns.perform behind) query) =
      params.foldl (fun done param => done >>= fun query => AnnounceTurns.perform behind query param) start := by
  induction params generalizing start with
  | nil => cases start <;> rfl
  | cons param params ih =>
    rw [List.foldl_cons, ← ih]
    cases start <;> rfl

theorem performs_perm (accepted : ∀ param ∈ params, Accepted behind param)
    (agree : ∀ first ∈ params, ∀ second ∈ params, first = second ∨ (effectOf behind first).Agrees (effectOf behind second))
    (perm : params.Perm order) (query : Query) :
    order.foldlM (AnnounceTurns.perform behind) query = params.foldlM (AnnounceTurns.perform behind) query := by
  have folded : ∀ params : List Param, params.foldlM (AnnounceTurns.perform behind) query =
      params.foldl (fun done param => done >>= fun query => AnnounceTurns.perform behind query param) (.ok query) :=
    fun params => foldlM_foldl params (.ok query)
  rw [folded, folded]
  symm
  apply perm.foldl_eq'
  intro first member second other done
  rcases agree first member second other with rfl | agree
  · rfl
  · cases done with
    | error stop => rfl
    | ok query =>
      have exchanged := Effect.exchange agree query
      simp only [← (accepted first member).performs, ← (accepted second other).performs] at exchanged
      exact exchanged

theorem Effect.applied {effect : Effect} (free : query.hash = none ∨ ∀ hash, effect ≠ .hash hash) :
    ∃ after, effect.apply query = .ok after ∧ (after.hash = query.hash ∨ ∃ hash, effect = .hash hash) := by
  cases effect with
  | hash hash =>
    have unset : query.hash = none := free.resolve_right fun other => other hash rfl
    exact ⟨{ query with hash := some hash }, by simp [Effect.apply, unset], .inr ⟨hash, rfl⟩⟩
  | nothing | port | flag | numwant | peerId => exact ⟨_, rfl, .inl rfl⟩

theorem performs_ok (accepted : ∀ param ∈ params, Accepted behind param)
    (agree : params.Pairwise fun first second => (effectOf behind first).Agrees (effectOf behind second))
    (free : query.hash = none ∨ ∀ param ∈ params, ∀ hash, effectOf behind param ≠ .hash hash) :
    ∃ after, params.foldlM (AnnounceTurns.perform behind) query = .ok after := by
  induction params generalizing query with
  | nil => exact ⟨query, rfl⟩
  | cons param params ih =>
    obtain ⟨first, others⟩ := List.forall_mem_cons.mp accepted
    obtain ⟨here, later⟩ := List.pairwise_cons.mp agree
    obtain ⟨middle, applied, hashed⟩ := @Effect.applied query (effectOf behind param)
      (free.imp_right fun none => none param List.mem_cons_self)
    rw [List.foldlM_cons, first.performs, applied]
    apply ih others later
    rcases hashed with same | ⟨hash, set⟩
    · rw [same]
      exact free.imp_right fun none other member => none other (List.mem_cons_of_mem _ member)
    · refine .inr fun other member another equal => ?_
      have agree := here other member
      rw [set, equal] at agree
      exact agree

theorem last_holds (accepted : Accepted behind param)
    (ran : (params ++ [param]).foldlM (AnnounceTurns.perform behind) query = .ok after) :
    (effectOf behind param).Holds after := by
  rw [List.foldlM_append] at ran
  obtain ⟨middle, _, ran⟩ := Access.bind_ok.mp ran
  rw [List.foldlM_cons] at ran
  obtain ⟨last, applied, ran⟩ := Access.bind_ok.mp ran
  cases ran
  rw [accepted.performs] at applied
  exact Effect.holds applied

theorem second_hash {first second : Param} (accepted : Accepted behind first) (also : Accepted behind second) {hash another : Hash}
    (set : effectOf behind first = .hash hash) (again : effectOf behind second = .hash another) (rest : List Param) :
    (first :: second :: rest).foldlM (AnnounceTurns.perform behind) query ≠ .ok after := by
  intro ran
  rw [List.foldlM_cons] at ran
  obtain ⟨middle, applied, ran⟩ := Access.bind_ok.mp ran
  rw [List.foldlM_cons] at ran
  obtain ⟨last, repeated, _⟩ := Access.bind_ok.mp ran
  rw [accepted.performs] at applied
  have held := Effect.holds applied
  rw [set] at held
  rw [also.performs, again, Effect.apply, if_pos (by rw [show middle.hash = some hash from held]; rfl)] at repeated
  cases repeated

theorem same_orders_iff (names : (params.map Param.name).Nodup) (accepted : ∀ param ∈ params, Accepted behind param) :
    (∃ after, ∀ order, params.Perm order → order.foldlM (AnnounceTurns.perform behind) .initial = .ok after) ↔
      ∀ first ∈ params, ∀ second ∈ params, first.name ≠ second.name →
        (effectOf behind first).Agrees (effectOf behind second) := by
  constructor
  · rintro ⟨after, same⟩ first member second other different
    -- Each of the parameters can come last.
    have holds : ∀ param ∈ params, (effectOf behind param).Holds after := by
      intro param member
      obtain ⟨before, later, rfl⟩ := List.append_of_mem member
      apply @last_holds _ (before ++ later) .initial _ _ (accepted param member)
      apply same
      rw [List.append_assoc]
      exact List.Perm.append_left before (List.perm_append_singleton _ _).symm
    apply Effect.agrees_of_holds (holds first member) (holds second other)
    intro hash another set again
    -- Two hashes could come first.
    obtain ⟨before, later, rfl⟩ := List.append_of_mem member
    have left : second ∈ before ++ later := by
      rcases List.mem_append.mp other with here | here
      · exact List.mem_append_left _ here
      · rcases List.mem_cons.mp here with rfl | here
        · exact absurd rfl different
        · exact List.mem_append_right _ here
    obtain ⟨early, late, rest⟩ := List.append_of_mem left
    apply second_hash (accepted first member) (accepted second other) set again (early ++ late)
    apply same
    apply List.perm_middle.trans
    rw [rest]
    exact List.perm_middle.cons first
  · intro agree
    have agreed : params.Pairwise fun first second => (effectOf behind first).Agrees (effectOf behind second) :=
      (List.pairwise_map.mp names).imp_of_mem fun member other different => agree _ member _ other different
    obtain ⟨after, ran⟩ := performs_ok accepted agreed (.inl rfl : Query.initial.hash = none ∨ _)
    refine ⟨after, fun order perm => ?_⟩
    rw [performs_perm accepted ?_ perm, ran]
    intro first member second other
    by_cases different : first.name = second.name
    · exact .inl (List.inj_on_of_nodup_map names member other different)
    · exact .inr (agree first member second other different)

end Orders

section Keys
variable {behind : Behind} {param first second : Param} {key : AnnounceKey}

def Effect.slot : Effect → Option AnnounceKey
  | .port _ => some .port
  | .numwant _ => some .numwant
  | .hash _ => some .infoHash
  | .peerId _ => some .peerId
  | .nothing | .flag _ => none

theorem Effect.agrees_of_slots {first second : Effect} (apart : ∀ key, first.slot = some key → second.slot ≠ some key) :
    first.Agrees second := by
  cases first <;> cases second <;> first | trivial | exact (apart _ rfl rfl).elim

theorem keyEffect_slot {slot : AnnounceKey} {value : Bytes} (set : (keyEffect behind value key).slot = some slot) :
    key = slot ∧ slot ≠ .compact := by
  cases key with
  | event =>
    rw [keyEffect] at set
    split at set <;> cases set
  | left =>
    rw [keyEffect] at set
    split at set <;> cases set
  | compact => cases set
  | port | numwant | infoHash | peerId =>
    cases set
    exact ⟨rfl, by decide⟩

theorem effectOf_slot {slot : AnnounceKey} (set : (effectOf behind param).slot = some slot) :
    (keywordOf behind (compiled keywordsAnnounce) param.name : Access HttpError (Keyword AnnounceKey)) = .ok (.found slot) ∧
      slot ≠ .compact := by
  rw [effectOf] at set
  split at set
  next key found =>
    obtain ⟨rfl, other⟩ := keyEffect_slot set
    exact ⟨found, other⟩
  next => cases set

def NameOverruns (param : Param) : Prop := ∃ keyword ∈ compiled keywordsAnnounce, Overruns keyword.1 param.name

theorem found_name (clean : ¬ NameOverruns param)
    (found : (keywordOf behind (compiled keywordsAnnounce) param.name : Access HttpError (Keyword AnnounceKey)) = .ok (.found key)) :
    ∃ keyword ∈ compiled keywordsAnnounce, keyword.1.chars = param.name ∧ keyword.2 = key := by
  rw [keywordOf] at found
  split at found
  next => cases found
  next =>
    rw [findKeyword_exact _ fun keyword member overruns => clean ⟨keyword, member, overruns⟩, exactly] at found
    split at found
    next => cases found
    next keyword sought =>
      cases found
      exact ⟨keyword, List.mem_of_find?_eq_some sought, by simpa using List.find?_some sought, rfl⟩

theorem keyword_once : ∀ keyword ∈ compiled keywordsAnnounce, ∀ other ∈ compiled keywordsAnnounce, keyword.2 = other.2 →
    keyword.2 ≠ .compact → keyword.1.chars = other.1.chars := by
  decide +kernel

/-- Names that do not go on behind a keyword and a NUL are mistaken for none. -/
theorem agrees_of_clean (clean : ¬ NameOverruns first) (other : ¬ NameOverruns second) (different : first.name ≠ second.name) :
    (effectOf behind first).Agrees (effectOf behind second) := by
  apply Effect.agrees_of_slots
  intro key set again
  obtain ⟨found, single⟩ := effectOf_slot set
  obtain ⟨keyword, member, named, rfl⟩ := found_name clean found
  obtain ⟨another, within, called, same⟩ := found_name other (effectOf_slot again).1
  apply different
  rw [← named, ← called]
  exact keyword_once keyword member another within same.symm single

end Keys

section Requests
variable {behind : Behind} {ip : Ip6} {age : UInt8} {front rest : Bytes} {c : UInt8} {read : Nat} {params : List Param}

/-- What stands when `http_handle_announce` has scanned the whole query. -/
structure Dispatch where
  peer : Peer
  hash : Option Hash
  peerId : Option Bytes
  numwant : Int
deriving DecidableEq

def hashShown (state : Announce) : Access HttpError (Option Hash) :=
  match state.hash with
  | none => .ok none
  | some position => do
    let hash ← fetchBlock state.memory position 20
    .ok (some (hashAt hash 0))

/-- `http_handle_announce` up to where the announce is dispatched. -/
def dispatched (behind : Behind) (ip : Ip6) (age : UInt8) (memory : Bytes) (read : Nat) : Access HttpError Dispatch := do
  let read ← RequestMemory.seekQuery memory read
  let state ← announceLoop behind (memory.length + 1) ⟨.initial, none, none, read, memory⟩
  let hash ← hashShown state
  .ok ⟨⟨otSetip ip, state.query.port, state.query.flag, age⟩, hash, (found state).peerId, state.query.numwant⟩

def Dispatch.outcome (random : List Nat) (dispatch : Dispatch) : Outcome :=
  match dispatch.hash with
  | none => .missingHash
  | some hash => .call (announceCall .tcp random hash dispatch.peer dispatch.numwant.toNat)

theorem httpHandleAnnounce_dispatched (random : List Nat) (memory : Bytes) :
    RequestMemory.httpHandleAnnounce behind random ip age memory read =
      dispatched behind ip age memory read >>= fun dispatch => .ok (dispatch.outcome random) := by
  rw [RequestMemory.httpHandleAnnounce, dispatched]
  cases RequestMemory.seekQuery memory read with
  | error stop => rfl
  | ok start =>
    simp only [bind, Except.bind]
    cases announceLoop behind (memory.length + 1) ⟨.initial, none, none, start, memory⟩ with
    | error stop => rfl
    | ok state =>
      simp only [hashShown]
      cases state.hash with
      | none => rfl
      | some position =>
        simp only [bind, Except.bind]
        cases (fetchBlock state.memory position 20 : Access HttpError Bytes) <;> rfl

def dispatchOf (ip : Ip6) (age : UInt8) (query : Query) : Dispatch :=
  ⟨⟨otSetip ip, query.port, query.flag, age⟩, query.hash, query.peerId, query.numwant⟩

theorem dispatchOf_injective {first second : Query} (same : dispatchOf ip age first = dispatchOf ip age second) : first = second := by
  obtain ⟨port, flag, numwant, hash, peerId⟩ := first
  simp only [dispatchOf, Dispatch.mk.injEq, Peer.mk.injEq] at same
  obtain ⟨⟨_, rfl, rfl, _⟩, rfl, rfl, rfl⟩ := same
  rfl

def request (front : Bytes) (params : List Param) (c : UInt8) (rest : Bytes) : Bytes :=
  front ++ 63 :: (queryText params ++ c :: rest)

def Seeks (front : Bytes) (read : Nat) : Prop :=
  read = front.length + 1 ∨
    0 < read ∧ read ≤ front.length ∧ front[read - 1]? ≠ some 63 ∧ ∀ c ∈ front.drop read, c ≠ 63 ∧ c ≠ 10

theorem seekLoop_found (tail : Bytes) (fuel : Nat) (before : read ≤ front.length) (enough : front.length < read + fuel)
    (plain : ∀ c ∈ front.drop read, c ≠ 63 ∧ c ≠ 10) :
    seekLoop (front ++ 63 :: tail) fuel read = .ok (front.length + 1) := by
  induction fuel generalizing read with
  | zero => omega
  | succ fuel ih =>
    by_cases last : read = front.length
    · have mark : (fetch (front ++ 63 :: tail) read : Access HttpError UInt8) = .ok 63 := by
        apply fetch_eq
        rw [last]
        simp
      rw [seekLoop, mark, last]
      rfl
    · have inside : read < front.length := by omega
      have here : (fetch (front ++ 63 :: tail) read : Access HttpError UInt8) = .ok front[read] := by
        apply fetch_eq
        rw [List.getElem?_append_left inside, List.getElem?_eq_getElem inside]
      rw [List.drop_eq_getElem_cons inside, List.forall_mem_cons] at plain
      simp only [seekLoop, here, bind, Except.bind, if_pos plain.1]
      exact ih inside (by omega) plain.2

theorem seekQuery_found (seeks : Seeks front read) (tail : Bytes) :
    RequestMemory.seekQuery (front ++ 63 :: tail) read = .ok (front.length + 1) := by
  rcases seeks with rfl | ⟨positive, before, other, plain⟩
  · have mark : (fetch (front ++ 63 :: tail) front.length : Access HttpError UInt8) = .ok 63 := by
      apply fetch_eq
      simp
    simp only [RequestMemory.seekQuery, mark, bind, Except.bind]
    rfl
  · obtain ⟨earlier, rfl⟩ := Nat.exists_eq_add_of_lt positive
    simp only [Nat.zero_add, Nat.add_sub_cancel] at before other plain ⊢
    have inside : earlier < front.length := before
    have here : (fetch (front ++ 63 :: tail) earlier : Access HttpError UInt8) = .ok front[earlier] := by
      apply fetch_eq
      rw [List.getElem?_append_left inside, List.getElem?_eq_getElem inside]
    have differs : front[earlier] ≠ 63 := by
      intro same
      rw [List.getElem?_eq_getElem inside, same] at other
      exact other rfl
    simp only [RequestMemory.seekQuery, here, bind, Except.bind, if_pos differs]
    apply seekLoop_found tail _ before _ plain
    rw [List.length_append]
    omega

theorem hashShown_found {state : Announce} {query : Query} {text : Bytes} (shows : Shows state query text) :
    hashShown state = .ok query.hash := by
  obtain rfl := shows.found
  rw [hashShown, found]
  cases hashed : state.hash with
  | none => rfl
  | some position =>
    have before := shows.hash position hashed
    have inside := shows.inside
    simp only [fetchBlock_eq (show position + 20 ≤ state.memory.length by omega), bind, Except.bind, hashAt_take, Option.map_some]

theorem dispatched_params (seeks : Seeks front read) (ends : Terminates c) :
    dispatched behind ip age (request front params c rest) read =
      (params.foldlM (AnnounceTurns.perform behind) .initial >>= fun query => .ok (dispatchOf ip age query)) := by
  have started : Shows ⟨.initial, none, none, front.length + 1, request front params c rest⟩ .initial
      (queryText params ++ c :: rest) := by
    refine ⟨rfl, ?_, ?_, ?_, ?_⟩
    · simp [request]
    · simp [request]
    · intro position member
      cases member
    · intro position member
      cases member
  have enough : params.length < (request front params c rest).length + 1 := by
    have some := length_queryText params
    simp only [request, List.length_append, List.length_cons]
    omega
  have matched := @announceLoop_performs behind _ _ params _ enough c rest ends started
  rw [dispatched, request, seekQuery_found seeks, ← request]
  simp only [bind, Except.bind]
  generalize params.foldlM (AnnounceTurns.perform behind) .initial = performed at matched ⊢
  generalize announceLoop behind _ _ = ran at matched ⊢
  cases matched with
  | stops stop => rfl
  | @shows query state shown =>
    simp only [hashShown_found shown]
    obtain rfl := shown.found
    rfl

/-- Each of the pairs is accepted in a query of its own. -/
def Alone (behind : Behind) (ip : Ip6) (age : UInt8) (front : Bytes) (params : List Param) (c : UInt8) (rest : Bytes)
    (read : Nat) : Prop :=
  ∀ param ∈ params, ∃ dispatch, dispatched behind ip age (request front [param] c rest) read = .ok dispatch

/-- Every order of the pairs is accepted and dispatched alike. -/
def Unordered (behind : Behind) (ip : Ip6) (age : UInt8) (front : Bytes) (params : List Param) (c : UInt8) (rest : Bytes)
    (read : Nat) : Prop :=
  ∃ dispatch, ∀ order, params.Perm order → dispatched behind ip age (request front order c rest) read = .ok dispatch

theorem unordered_iff (seeks : Seeks front read) (ends : Terminates c) (names : (params.map Param.name).Nodup)
    (alone : Alone behind ip age front params c rest read) :
    Unordered behind ip age front params c rest read ↔ ∀ first ∈ params, ∀ second ∈ params, first.name ≠ second.name →
        (effectOf behind first).Agrees (effectOf behind second) := by
  have accepted : ∀ param ∈ params, Accepted behind param := by
    intro param member
    obtain ⟨dispatch, ran⟩ := alone param member
    rw [dispatched_params seeks ends] at ran
    obtain ⟨after, performed, _⟩ := Access.bind_ok.mp ran
    rw [List.foldlM_cons] at performed
    obtain ⟨middle, first, _⟩ := Access.bind_ok.mp performed
    exact ⟨middle, first⟩
  rw [← same_orders_iff names accepted, Unordered]
  simp only [dispatched_params seeks ends]
  constructor
  · rintro ⟨dispatch, same⟩
    obtain ⟨after, performed, shown⟩ := Access.bind_ok.mp (same params (.refl params))
    refine ⟨after, fun order perm => ?_⟩
    obtain ⟨other, ran, also⟩ := Access.bind_ok.mp (same order perm)
    rw [ran, dispatchOf_injective ((Except.ok.inj also).trans (Except.ok.inj shown).symm)]
  · rintro ⟨after, same⟩
    refine ⟨dispatchOf ip age after, fun order perm => ?_⟩
    rw [same order perm]
    rfl

/-- The order does not matter exactly if no two of the pairs set one thing to different values or are both taken for the hash.
There are such pairs only when a key goes on behind a keyword and a NUL. -/
theorem announce_order_iff (seeks : Seeks front read) (ends : Terminates c) (names : (params.map Param.name).Nodup)
    (alone : Alone behind ip age front params c rest read) :
    (Unordered behind ip age front params c rest read ↔ ∀ first ∈ params, ∀ second ∈ params, first.name ≠ second.name →
          (effectOf behind first).Agrees (effectOf behind second)) ∧
      ((∀ param ∈ params, ¬ NameOverruns param) → Unordered behind ip age front params c rest read) := by
  have exchange := unordered_iff seeks ends names alone
  refine ⟨exchange, fun clean => exchange.mpr ?_⟩
  intro first member second other different
  exact agrees_of_clean (clean first member) (clean second other) different

theorem encodes_plain {flag : ScanFlag} {text : Bytes} (plain : ∀ c ∈ text, flag.accepts c = true ∧ c ≠ 37) :
    Encodes flag text text := by
  induction text with
  | nil => exact .nil
  | cons c text ih =>
    obtain ⟨here, later⟩ := List.forall_mem_cons.mp plain
    exact .plain here.1 here.2 (ih later)

private theorem encodes_port : Encodes .param (ascii "port") (ascii "port") := encodes_plain (by decide +kernel)

private theorem encodes_one : Encodes .value (ascii "1") (ascii "1") := encodes_plain (by decide +kernel)

private theorem encodes_left : Encodes .param (ascii "left") (ascii "left") := encodes_plain (by decide +kernel)

private theorem encodes_zero : Encodes .value (ascii "0") (ascii "0") := encodes_plain (by decide +kernel)

def portOne : Param where
  name := ascii "port"
  value := ascii "1"
  nameText := ascii "port"
  valueText := ascii "1"
  named := encodes_port
  valued := encodes_one

def nothingLeft : Param where
  name := ascii "left"
  value := ascii "0"
  nameText := ascii "left"
  valueText := ascii "0"
  named := encodes_left
  valued := encodes_zero

def portEnded : Param where
  name := [112, 111, 114, 116, 0]
  value := ascii "2"
  nameText := [112, 111, 114, 116, 37, 48, 48]
  valueText := ascii "2"
  named := .plain (by decide) (by decide) (.plain (by decide) (by decide) (.plain (by decide) (by decide)
    (.plain (by decide) (by decide) (@Encodes.escaped _ 48 48 [] [] (by decide) (by decide) .nil))))
  valued := encodes_plain (by decide +kernel)

theorem announce_order_port :
    Unordered (fun _ _ => none) (Vector.replicate 16 0) 0 (ascii "GET /a") [portOne, nothingLeft] 10 [] 7 := by
  have alone : Alone (fun _ _ => none) (Vector.replicate 16 0) 0 (ascii "GET /a") [portOne, nothingLeft] 10 [] 7 := by
    intro param member
    rcases List.mem_pair.mp member with rfl | rfl <;> exact ⟨_, rfl⟩
  apply (announce_order_iff (.inl rfl) (by decide) (by decide) alone).1.mpr
  intro first member second other different
  rcases List.mem_pair.mp member with rfl | rfl <;> rcases List.mem_pair.mp other with rfl | rfl
  · exact absurd rfl different
  · trivial
  · trivial
  · exact absurd rfl different

/-- The key `port%00` is another one than `port`, but it is taken for it if a NUL is found behind the keyword. Then the one that
comes last sets the port. -/
theorem order_sets_port : ([portOne, portEnded].map Param.name).Nodup ∧
      Alone (fun _ _ => some 0) (Vector.replicate 16 0) 0 (ascii "GET /a") [portOne, portEnded] 10 [] 7 ∧
      ∃ first second,
        dispatched (fun _ _ => some 0) (Vector.replicate 16 0) 0 (request (ascii "GET /a") [portOne, portEnded] 10 []) 7 =
          .ok first ∧
        dispatched (fun _ _ => some 0) (Vector.replicate 16 0) 0 (request (ascii "GET /a") [portEnded, portOne] 10 []) 7 =
          .ok second ∧
        first.peer.port ≠ second.peer.port := by
  refine ⟨by decide, ?_, _, _, rfl, rfl, by decide⟩
  intro param member
  rcases List.mem_pair.mp member with rfl | rfl <;> exact ⟨_, rfl⟩

end Requests

end BtServer.Proofs.ParameterOrder

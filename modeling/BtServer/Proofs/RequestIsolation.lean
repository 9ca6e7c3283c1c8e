import BtServer.HttpServer
import BtServer.Proofs.AnnounceRecord

/-! What of the shared work structure reaches the next request: nothing once `ws->keep_alive` is set for it, but an error
page that goes out earlier is sent the way the last request, of whatever client, asked for. -/

namespace BtServer.Proofs.RequestIsolation
open Lib

variable {kept dropped left right : HttpState} {request memory memory' rest read : Bytes} {turn : HttpTurn}
  {error : HttpError} {turns : List HttpTurn} {before after server : HttpServer} {events : List HttpEvent}
  {old old' : Counters}

/-- The statistics that are printed from the counters. -/
def printsCounters (mode : Nat) : Bool := mode &&& taskTaskMask ∈ [0x1, 0x2, 0x3, 0x4, 0x7, 0xa, 0xb, 0xc]

theorem stats_unprinted {mode : Nat} (unprinted : printsCounters mode = false) (counters counters' : Counters) (t : Int) :
    counters.returnStatsForTracker t mode = counters'.returnStatsForTracker t mode := by
  unfold Counters.returnStatsForTracker
  unfold printsCounters at unprinted
  generalize mode &&& taskTaskMask = task at unprinted
  split
  all_goals first | rfl | simp at unprinted

section Answers
variable (setup : HttpSetup) (request : Bytes)

/-- The requests whose answer does not depend on the store: an error, or the mode of a statistic. -/
def settled : HttpOutcome → Option (Except HttpError Nat)
  | .error error => some (.error error)
  | .stats read => some (statsScan setup.literals (read.length + 1) taskStatsPeers read)
  | .missingHash | .call _ => none

def verdict : Option (Except HttpError Nat) :=
  settled setup (httpHandleRequest setup.literals setup.redirecturl.isSome setup.statsPath [] (Vector.replicate 16 0) 0 request)

/-- The error a request is answered with before `ws->keep_alive` is set for it. -/
def earlyError : Option HttpError :=
  match verdict setup request with
  | some (.error error) => some error
  | _ => none

def AsksCounters : Prop := ∃ mode, verdict setup request = some (.ok mode) ∧ printsCounters mode = true

def IsError : HttpAnswer → Prop
  | .refused _ | .failed _ => True
  | .delivered _ | .content _ => False

theorem request_shape :
    (∃ outcome, ∀ random ip age,
      httpHandleRequest setup.literals setup.redirecturl.isSome setup.statsPath random ip age request = outcome) ∨
    ∃ hash port flag numwant, ∀ random ip age,
      httpHandleRequest setup.literals setup.redirecturl.isSome setup.statsPath random ip age request =
        .call (announceCall .tcp random hash ⟨otSetip ip, port, flag, age⟩ numwant) := by
  unfold httpHandleRequest
  by_cases get : request.take 5 ≠ ascii "GET /"
  · exact .inl ⟨_, fun _ _ _ => if_pos get⟩
  simp only [if_neg get]
  cases scanned : scanUrlencodedQuery .path ((request.drop 4).dropWhile fun c => c = 47) with
  | terminator => exact .inl ⟨_, fun _ _ _ => rfl⟩
  | error => exact .inl ⟨_, fun _ _ _ => rfl⟩
  | text decoded read =>
    dsimp only
    by_cases empty : decoded = []
    · exact .inl ⟨_, fun _ _ _ => if_pos empty⟩
    simp only [if_neg empty]
    by_cases announce : decoded.head? = some 97 ∨ decoded.head? = some 63
    · simp only [if_pos announce, httpHandleAnnounce]
      split
      next => exact .inl ⟨_, fun _ _ _ => rfl⟩
      next query _ =>
        cases query.hash with
        | none => exact .inl ⟨_, fun _ _ _ => rfl⟩
        | some hash => exact .inr ⟨_, _, _, _, fun _ _ _ => rfl⟩
    · simp only [if_neg announce]
      exact .inl ⟨_, fun _ _ _ => rfl⟩

theorem outcome_settled (random : List Nat) (ip : Ip6) (age : UInt8) :
    settled setup (httpHandleRequest setup.literals setup.redirecturl.isSome setup.statsPath random ip age request) =
      verdict setup request := by
  unfold verdict
  rcases request_shape setup request with ⟨outcome, same⟩ | ⟨hash, port, flag, numwant, same⟩
  · rw [same, same]
  · rw [same, same]
    rfl

def settledAnswer (counters : Counters) (t : Int) : Except HttpError Nat → HttpAnswer
  | .error error => error.answer
  | .ok mode =>
    if mode &&& taskClassMask = taskStats then .delivered mode else .content (counters.returnStatsForTracker t mode)

variable {setup request} {scanned : Except HttpError Nat} {ip : Ip6} {age age' : UInt8} {tracker : Tracker}
  {counters counters' : Counters}

theorem answer_settled (found : verdict setup request = some scanned) :
    setup.answer turn ip age tracker counters request =
      some (settledAnswer counters turn.uptime scanned, tracker, [], age) := by
  rw [← outcome_settled setup request turn.random ip age] at found
  unfold HttpSetup.answer
  split
  next outcome => rw [outcome] at found; cases found; rfl
  next outcome => rw [outcome] at found; cases found
  next outcome =>
    rw [outcome] at found
    simp only [HttpSetup.httpHandleStats, Option.some.inj found]
    cases scanned <;> rfl
  next outcome => rw [outcome] at found; cases found

theorem verdict_early (early : earlyError setup request = some error) : verdict setup request = some (.error error) := by
  unfold earlyError at early
  split at early <;> cases early
  assumption

theorem answer_late (late : earlyError setup request = none) {answered : HttpAnswer × Tracker × List StatsEvent × UInt8}
    (found : setup.answer turn ip age tracker counters request = some answered) : ¬ IsError answered.1 := by
  cases told : verdict setup request with
  | some scanned =>
    rw [answer_settled told] at found
    cases found
    cases scanned with
    | error error => simp [earlyError, told] at late
    | ok mode => simp only [settledAnswer]; split <;> exact id
  | none =>
    rw [← outcome_settled setup request turn.random ip age] at told
    unfold HttpSetup.answer at found
    split at found
    next outcome => rw [outcome] at told; cases told
    next => cases found; exact id
    next outcome => rw [outcome] at told; cases told
    next =>
      obtain ⟨bytes, _, rfl⟩ := Option.map_eq_some_iff.mp found
      exact id

theorem answer_alike (told : counters = counters' ∨ ¬ AsksCounters setup request) :
    (setup.answer turn ip age tracker counters request).map (fun answered => (answered.1, answered.2.1, answered.2.2.1)) =
      (setup.answer turn ip age' tracker counters' request).map
        (fun answered => (answered.1, answered.2.1, answered.2.2.1)) := by
  cases found : verdict setup request with
  | some scanned =>
    rw [answer_settled found, answer_settled found]
    cases scanned with
    | error error => rfl
    | ok mode =>
      rcases told with rfl | quiet
      · rfl
      · have unprinted : printsCounters mode = false := by
          by_contra prints
          exact quiet ⟨mode, found, by simpa using prints⟩
        simp only [settledAnswer, stats_unprinted unprinted counters counters', Option.map_some]
  | none =>
    rcases request_shape setup request with ⟨outcome, same⟩ | ⟨hash, port, flag, numwant, same⟩
    · simp only [HttpSetup.answer, same]
      rw [verdict, same] at found
      cases outcome with
      | error | stats => cases found
      | missingHash => rfl
      | call made => simp only [Option.map_map, Function.comp_def]
    · have added := fun age => AnnounceRecord.addPeer_time tracker turn.heap turn.random .tcp hash
        ⟨otSetip ip, port, flag, 0⟩ age (gNowMinutes turn.gNowSeconds) numwant
      have removed := fun age => AnnounceRecord.removePeer_time tracker turn.random .tcp hash ⟨otSetip ip, port, flag, 0⟩ age
      simp only at added removed
      simp only [HttpSetup.answer, same, announceCall]
      by_cases stops : flag &&& peerFlagStopped ≠ 0
      · simp only [if_pos stops, Tracker.answer, Tracker.apply, Tracker.served, Tracker.issued, removed, Option.map_some]
      · simp only [if_neg stops, Tracker.answer, Tracker.apply, Tracker.served, Tracker.issued, Event.now, added,
          Option.map_map, Function.comp_def]

end Answers

/-- Two states that differ in the work structure at most, and in the counters as far as they did before. -/
structure Alike (old old' : Counters) (left right : HttpState) : Prop where
  tracker : left.tracker = right.tracker
  counters : ∃ events : List StatsEvent,
    left.counters = events.foldl Counters.statsIssueEvent old ∧ right.counters = events.foldl Counters.statsIssueEvent old'
  cookie : left.cookie = right.cookie
  sent : left.sent = right.sent
  tasks : left.tasks = right.tasks

section Alike
variable (alike : Alike old old' left right)
include alike

theorem Alike.set (work work' : WorkStruct) (cookie : Option HttpData) :
    Alike old old' { left with work := work, cookie := cookie } { right with work := work', cookie := cookie } :=
  ⟨alike.tracker, alike.counters, rfl, alike.sent, alike.tasks⟩

theorem Alike.work (work work' : WorkStruct) :
    Alike old old' { left with work := work } { right with work := work' } :=
  ⟨alike.tracker, alike.counters, alike.cookie, alike.sent, alike.tasks⟩

theorem Alike.counted (issued : List StatsEvent) :
    ∃ events : List StatsEvent, issued.foldl Counters.statsIssueEvent left.counters = events.foldl Counters.statsIssueEvent old ∧
      issued.foldl Counters.statsIssueEvent right.counters = events.foldl Counters.statsIssueEvent old' := by
  obtain ⟨events, counted, counted'⟩ := alike.counters
  exact ⟨events ++ issued, by rw [List.foldl_append, counted], by rw [List.foldl_append, counted']⟩

theorem Alike.issue (event : StatsEvent) :
    Alike old old' (left.issue event) (right.issue event) :=
  ⟨alike.tracker, alike.counted [event], alike.cookie, alike.sent, alike.tasks⟩

theorem Alike.counters_eq (same : old = old') : left.counters = right.counters := by
  obtain ⟨events, counted, counted'⟩ := alike.counters
  rw [counted, counted', same]

structure SameRequest (left right : WorkStruct) : Prop where
  headerSize : left.headerSize = right.headerSize
  requestSize : left.requestSize = right.requestSize
  atInbuf : left.atInbuf = right.atInbuf

/-- Two results nobody but the next request can tell apart, and not even that. -/
inductive AlikeResult (old old' : Counters) : HttpResult → HttpResult → Prop where
  | returned {left right : HttpState} (alike : Alike old old' left right)
      (keepAlive : left.work.keepAlive = right.work.keepAlive) : AlikeResult old old' (.returned left) (.returned right)
  | freed {left right : HttpState} (alike : Alike old old' left right) : AlikeResult old old' (.freed left) (.freed right)
  | unfinished {left right : HttpState} (alike : Alike old old' left right) :
      AlikeResult old old' (.unfinished left) (.unfinished right)

theorem Alike.observe (ending : HttpEnding) :
    left.observe ending = right.observe ending := by
  simp only [HttpState.observe, alike.sent, alike.tasks, alike.cookie]

end Alike

theorem AlikeResult.observe {left right : HttpResult} (alike : AlikeResult old old' left right) : left.observe = right.observe := by
  cases alike with
  | returned alike _ => exact alike.observe _
  | freed alike => exact alike.observe _
  | unfinished alike => exact alike.observe _

theorem senddata_same {left right : WorkStruct} (same : SameRequest left right)
    (keepAlive : left.keepAlive = right.keepAlive) (turn : HttpTurn) (bytes : Bytes) (cookie : HttpData) (reply : Bytes) :
    left.httpSenddata turn bytes cookie reply = right.httpSenddata turn bytes cookie reply := by
  simp only [WorkStruct.httpSenddata, same.headerSize, same.requestSize, keepAlive]

section Requests
variable {left right : HttpState} (setup : HttpSetup) (turn : HttpTurn)
variable (alike : Alike old old' left right) (same : SameRequest left.work right.work)
include alike same

theorem send_alike (keepAlive : left.work.keepAlive = right.work.keepAlive) (bytes : Bytes) (cookie : HttpData)
    (reply : Bytes) : Alike old old' (left.send turn bytes cookie reply) (right.send turn bytes cookie reply) :=
  ⟨alike.tracker, alike.counters, senddata_same same keepAlive turn bytes cookie reply,
    congrArg (· ++ [reply]) alike.sent, alike.tasks⟩

theorem afterError_alike (buffer : Bytes) :
    AlikeResult old old' (left.afterError buffer) (right.afterError buffer) := by
  simp only [HttpState.afterError, same.atInbuf, same.headerSize, alike.cookie]
  split
  next => exact .returned (alike.work _ _) rfl
  next =>
    cases right.cookie.bind HttpData.request with
    | none => exact .freed alike
    | some rest => exact .returned (alike.work _ _) rfl

/-- What is left of earlier requests matters to a reply only through `ws->keep_alive`,
and to none but an error. -/
theorem reply_alike (cookie : HttpData) (buffer : Bytes) (answer : HttpAnswer)
    (told : left.work.keepAlive = right.work.keepAlive ∨ ¬ IsError answer) :
    AlikeResult old old' (left.reply setup turn cookie buffer answer) (right.reply setup turn cookie buffer answer) := by
  cases answer with
  | refused error =>
    have keepAlive := told.resolve_right fun late => late trivial
    exact .returned (send_alike turn (alike.issue _) same keepAlive ..) keepAlive
  | failed error =>
    have keepAlive := told.resolve_right fun late => late trivial
    exact afterError_alike (send_alike turn (alike.issue _) same keepAlive ..) same buffer
  | delivered mode =>
    simp only [HttpState.reply, same.headerSize]
    exact .returned ⟨alike.tracker, alike.counters, rfl, alike.sent, congrArg (· ++ [mode]) alike.tasks⟩ rfl
  | content bytes =>
    have sent : ∀ {left right : HttpState}, Alike old old' left right → SameRequest left.work right.work →
        ∀ keepAlive reply, AlikeResult old old' (.returned ((left.setKeepAlive keepAlive).send turn buffer cookie reply))
          (.returned ((right.setKeepAlive keepAlive).send turn buffer cookie reply)) := by
      intro left right alike same keepAlive reply
      have set : Alike old old' (left.setKeepAlive keepAlive) (right.setKeepAlive keepAlive) := alike.work _ _
      exact .returned (send_alike turn set ⟨same.headerSize, same.requestSize, same.atInbuf⟩ rfl ..) rfl
    simp only [HttpState.reply, same.headerSize]
    split
    next => exact sent (alike.issue _) same _ _
    next => exact sent alike same _ _

theorem request_alike (cookie : HttpData)
    (request : Bytes) (told : left.work.keepAlive = right.work.keepAlive ∨ earlyError setup request = none)
    (quiet : old = old' ∨ ¬ AsksCounters setup request) :
    AlikeResult old old' (left.httpHandleRequest setup turn cookie request)
      (right.httpHandleRequest setup turn cookie request) := by
  simp only [HttpState.httpHandleRequest, same.atInbuf, alike.tracker]
  generalize (if right.work.atInbuf = true then cookie
    else { cookie with request := some (decodeInPlace setup.literals setup.statsPath request) }) = cookie
  have ages := @answer_alike turn setup request cookie.ip left.work.age right.work.age right.tracker _ _
    (quiet.imp_left alike.counters_eq)
  cases found : setup.answer turn cookie.ip left.work.age right.tracker left.counters request with
  | none =>
    rw [found] at ages
    rw [Option.map_eq_none_iff.mp ages.symm]
    exact .unfinished alike
  | some answered =>
    obtain ⟨answer, tracker, events, age⟩ := answered
    rw [found] at ages
    obtain ⟨⟨answer', tracker', events', age'⟩, found', equal⟩ := Option.map_eq_some_iff.mp ages.symm
    cases equal
    rw [found']
    apply reply_alike setup turn
    · exact ⟨rfl, alike.counted events, alike.cookie, alike.sent, alike.tasks⟩
    · exact ⟨same.headerSize, same.requestSize, rfl⟩
    · exact told.imp_right fun late => answer_late late found

end Requests

theorem pending_alike (alike : Alike old old' left right) :
    (∃ result result', left.pending = .error result ∧ right.pending = .error result' ∧
      (left.work.keepAlive = right.work.keepAlive → AlikeResult old old' result result') ∧ result.observe = result'.observe) ∨
    ∃ cookie request left' right', left.pending = .ok (cookie, request, left') ∧
      right.pending = .ok (cookie, request, right') ∧ Alike old old' left' right' ∧ SameRequest left'.work right'.work ∧
      left'.work.keepAlive = left.work.keepAlive ∧ right'.work.keepAlive = right.work.keepAlive ∧
      left'.work.atInbuf = false := by
  unfold HttpState.pending
  rw [alike.cookie]
  cases right.cookie with
  | none => exact .inl ⟨_, _, rfl, rfl, fun _ => .freed alike, (AlikeResult.freed alike).observe⟩
  | some cookie =>
    dsimp only
    split
    next =>
      exact .inl ⟨_, _, rfl, rfl, fun keepAlive => .returned (alike.set _ _ _) keepAlive, (alike.set _ _ _).observe _⟩
    next => exact .inr ⟨_, _, _, _, rfl, rfl, alike.set _ _ _, ⟨rfl, rfl, rfl⟩, rfl, rfl, rfl⟩

/-- The requests the loop of `handle_read` handles. -/
def requests (setup : HttpSetup) : List HttpTurn → HttpState → List Bytes
  | [], _ => []
  | turn :: turns, state =>
    match state.pending with
    | .error _ => []
    | .ok (cookie, request, state) => request ::
      match state.httpHandleRequest setup turn cookie request with
      | .returned state => if state.work.keepAlive then requests setup turns state else []
      | _ => []

/-- The histories leave the same counters, or none of the requests asks for them. -/
def Quiet (setup : HttpSetup) (old old' : Counters) (asked : List Bytes) : Prop :=
  old = old' ∨ ∀ request ∈ asked, ¬ AsksCounters setup request

section Loop
variable {setup : HttpSetup} {cookie : HttpData} {left' right' : HttpState}

/-- One request of the loop, when the rest of it goes alike. -/
theorem turn_alike (handled : AlikeResult old old' (left'.httpHandleRequest setup turn cookie request)
      (right'.httpHandleRequest setup turn cookie request))
    (first : left.pending = .ok (cookie, request, left')) (second : right.pending = .ok (cookie, request, right'))
    (quiet : Quiet setup old old' (requests setup (turn :: turns) left))
    (rest : ∀ {left right : HttpState}, Alike old old' left right → left.work.keepAlive = right.work.keepAlive →
      (Quiet setup old old' (requests setup turns left)) →
      AlikeResult old old' (left.readLoop setup turns) (right.readLoop setup turns)) :
    AlikeResult old old' (left.readLoop setup (turn :: turns)) (right.readLoop setup (turn :: turns)) := by
  simp only [requests, first] at quiet
  simp only [HttpState.readLoop, first, second]
  generalize left'.httpHandleRequest setup turn cookie request = result at handled quiet ⊢
  generalize right'.httpHandleRequest setup turn cookie request = result' at handled ⊢
  cases handled with
  | returned alike keepAlive =>
    dsimp only at quiet ⊢
    rw [keepAlive] at quiet ⊢
    split at quiet
    next on =>
      rw [if_pos on, if_pos on]
      exact rest alike keepAlive (quiet.imp_right fun quiet => (List.forall_mem_cons.mp quiet).2)
    next off =>
      rw [if_neg off, if_neg off]
      exact .returned alike keepAlive
  | freed alike => exact .freed alike
  | unfinished alike => exact .unfinished alike

theorem requests_first (pending : left.pending = .ok (cookie, request, left'))
    (quiet : Quiet setup old old' (requests setup (turn :: turns) left)) :
    old = old' ∨ ¬ AsksCounters setup request := by
  simp only [requests, pending] at quiet
  exact quiet.imp_right fun quiet => quiet request List.mem_cons_self

theorem loop_alike (turns : List HttpTurn) {left right : HttpState} (alike : Alike old old' left right)
    (keepAlive : left.work.keepAlive = right.work.keepAlive) (quiet : Quiet setup old old' (requests setup turns left)) :
    AlikeResult old old' (left.readLoop setup turns) (right.readLoop setup turns) := by
  induction turns generalizing left right with
  | nil =>
    simp only [HttpState.readLoop]
    rcases pending_alike alike with ⟨_, _, first, second, same, _⟩ | ⟨_, _, _, _, first, second, same, _⟩
    · rw [first, second]
      exact same keepAlive
    · rw [first, second]
      exact .unfinished same
  | cons turn turns ih =>
    rcases pending_alike alike with
      ⟨_, _, first, second, same, _⟩ | ⟨cookie, request, left', right', first, second, same, described, kept, kept', _⟩
    · simp only [HttpState.readLoop, first, second]
      exact same keepAlive
    · exact turn_alike (request_alike setup turn same described cookie request
        (.inl ((kept.trans keepAlive).trans kept'.symm)) (requests_first first quiet)) first second quiet ih

end Loop

def ofHandler : HttpError → Bool
  | .param400 | .compact400 => true
  | .found302 | .badRequest400 | .notFound404 => false

/-- The reply is not taken, and the connection is closed whatever the client wanted. -/
def Unsent (turn : HttpTurn) (reply : Bytes) : Prop :=
  turn.written = none ∨ turn.outbuf = false ∧ ∃ taken, turn.written = some taken ∧ taken < reply.length

theorem senddata_unsent {reply : Bytes} (unsent : Unsent turn reply) (work : WorkStruct)
    (bytes : Bytes) (cookie : HttpData) : work.httpSenddata turn bytes cookie reply = none := by
  unfold WorkStruct.httpSenddata
  rcases unsent with failed | ⟨full, taken, partly, short⟩
  · rw [failed]
  · rw [partly]
    simp [full, short]

section Errors
variable (state : HttpState) (setup : HttpSetup) (turn : HttpTurn) (cookie : HttpData) {request : Bytes}
  {error : HttpError}

theorem request_early (early : earlyError setup request = some error) :
    ∃ work bytes cookie', work.keepAlive = state.work.keepAlive ∧ work.headerSize = state.work.headerSize ∧
      work.requestSize = state.work.requestSize ∧ work.atInbuf = state.work.atInbuf ∧
      cookie'.wantRead = cookie.wantRead ∧
      state.httpHandleRequest setup turn cookie request =
        HttpState.reply { state with work := work } setup turn cookie' bytes error.answer := by
  simp only [HttpState.httpHandleRequest, answer_settled (verdict_early early)]
  refine ⟨_, _, _, ?_, ?_, ?_, ?_, ?_, rfl⟩
  case refine_5 => split <;> rfl
  all_goals rfl

theorem refused_answer (own : ofHandler error = false) : error.answer = .refused error := by
  cases error <;> first | rfl | cases own

theorem failed_answer (handlers : ofHandler error = true) : error.answer = .failed error := by
  cases error <;> first | rfl | cases handlers

variable (early : earlyError setup request = some error) (unsent : Unsent turn (setup.errorPage error))
include early unsent

theorem request_unsent (first : state.work.atInbuf = true) :
    (state.httpHandleRequest setup turn cookie request).observe =
      ⟨.returned, state.sent ++ [setup.errorPage error], state.tasks, none⟩ := by
  obtain ⟨work, bytes, cookie', _, _, _, inbuf, _, handled⟩ := request_early state setup turn cookie early
  rw [handled]
  cases handlers : ofHandler error with
  | false =>
    simp only [refused_answer handlers, HttpState.reply, HttpState.httpIssueError, HttpState.send, HttpState.issue,
      senddata_unsent unsent, HttpResult.observe,
      HttpState.observe]
  | true =>
    simp only [failed_answer handlers, HttpState.reply, HttpState.httpIssueError, HttpState.send, HttpState.issue,
      senddata_unsent unsent, HttpState.afterError,
      inbuf, first, if_true]
    rfl

theorem request_freed (inArray : state.work.atInbuf = false) (handlers : ofHandler error = true) :
    ∃ ended, state.httpHandleRequest setup turn cookie request = .freed ended ∧
      ended.observe .freed = ⟨.freed, state.sent ++ [setup.errorPage error], state.tasks, none⟩ := by
  obtain ⟨work, bytes, cookie', _, _, _, inbuf, _, handled⟩ := request_early state setup turn cookie early
  rw [handled]
  simp only [failed_answer handlers, HttpState.reply, HttpState.httpIssueError, HttpState.send, HttpState.issue,
      senddata_unsent unsent, HttpState.afterError,
    inbuf, inArray, Option.bind_none]
  exact ⟨_, rfl, rfl⟩

end Errors

/-- What bytes that were read ask of the requests before: that the error page sent before `ws->keep_alive` is set, if there is
one, is not taken by the socket anyway. An error of `http_handle_request` itself always matters when its request came in
parts. -/
def Calm (setup : HttpSetup) (cookie : HttpData) (bytes : Bytes) (turn : HttpTurn) : Prop :=
  match cookie.request with
  | none => headerComplete bytes ≠ 0 → ∀ error, earlyError setup bytes = some error → Unsent turn (setup.errorPage error)
  | some collected =>
    if (collected ++ bytes).length > maxRequestBytes then Unsent turn internalErrorPage
    else headerComplete (collected ++ bytes) ≠ 0 → ∀ error, earlyError setup (collected ++ bytes) = some error →
      ofHandler error = true ∧ Unsent turn (setup.errorPage error)

def Undisturbed (setup : HttpSetup) (cookie : HttpData) : HttpInput → Prop
  | .read arrived turns => cookie.wantRead = true → arrived.take gInbufSize ≠ [] →
    ∀ turn ∈ turns.head?, Calm setup cookie (arrived.take gInbufSize) turn
  | .result entries header turn => entries = [] ∨ header = false → Unsent turn internalErrorPage

/-- The requests that are handled when bytes have been read. -/
def readRequests (setup : HttpSetup) (cookie : HttpData) (state : HttpState) (bytes : Bytes) (turns : List HttpTurn) :
    List Bytes :=
  match cookie.request with
  | none => if headerComplete bytes = 0 then [] else (turns.take 1).map fun _ => bytes
  | some collected =>
    if (collected ++ bytes).length > maxRequestBytes then []
    else requests setup turns
      { state with
        work := { state.work with inbuf := overwrite state.work.inbuf 0 bytes }
        cookie := some { cookie with request := some (collected ++ bytes) } }

def handled (setup : HttpSetup) (cookie : HttpData) (state : HttpState) : HttpInput → List Bytes
  | .read arrived turns =>
    if arrived.take gInbufSize = [] then [] else readRequests setup cookie state (arrived.take gInbufSize) turns
  | .result _ _ _ => []

theorem internalError_unsent (unsent : Unsent turn internalErrorPage) (state : HttpState) (memory : Bytes) (cookie : HttpData) :
    (state.internalError turn memory cookie).observe .returned =
      ⟨.returned, state.sent ++ [internalErrorPage], state.tasks, none⟩ := by
  simp only [HttpState.internalError, HttpState.httpIssueError, HttpState.send, HttpState.issue, HttpState.observe,
    senddata_unsent unsent]

section Inputs
variable {left right : HttpState} (setup : HttpSetup) (memory memory' : Bytes)

/-- The loop from states that may differ in `ws->keep_alive`: the first request has to be
answered late, or to close the connection. -/
theorem loop_same (turns : List HttpTurn) (alike : Alike old old' left right)
    (calm : ∀ turn ∈ turns.head?, ∀ cookie request next, left.pending = .ok (cookie, request, next) →
      ∀ error, earlyError setup request = some error → ofHandler error = true ∧ Unsent turn (setup.errorPage error))
    (quiet : Quiet setup old old' (requests setup turns left)) :
    (left.readLoop setup turns).observe = (right.readLoop setup turns).observe := by
  cases turns with
  | nil =>
    simp only [HttpState.readLoop]
    rcases pending_alike alike with ⟨_, _, first, second, _, same⟩ | ⟨_, _, _, _, first, second, same, _⟩
    · rw [first, second]
      exact same
    · rw [first, second]
      exact same.observe _
  | cons turn turns =>
    rcases pending_alike alike with
      ⟨_, _, first, second, _, same⟩ | ⟨cookie, request, left', right', first, second, same, described, _, _, inArray⟩
    · simp only [HttpState.readLoop, first, second]
      exact same
    cases early : earlyError setup request with
    | none =>
      have handled := request_alike setup turn same described cookie request (.inr early) (requests_first first quiet)
      exact (turn_alike handled first second quiet fun alike keepAlive => loop_alike turns alike keepAlive).observe
    | some error =>
      simp only [HttpState.readLoop, first, second]
      obtain ⟨handlers, unsent⟩ := calm turn rfl cookie request left' first error early
      obtain ⟨one, ended, seen⟩ := request_freed left' setup turn cookie early unsent inArray handlers
      obtain ⟨other, ended', seen'⟩ :=
        request_freed right' setup turn cookie early unsent (described.atInbuf.symm.trans inArray) handlers
      rw [ended, ended']
      change one.observe .freed = other.observe .freed
      rw [seen, seen', same.sent, same.tasks]

theorem handleRead_same (cookie : HttpData) (bytes : Bytes) (turns : List HttpTurn) (alike : Alike old old' left right)
    (calm : ∀ turn ∈ turns.head?, Calm setup cookie bytes turn)
    (quiet : Quiet setup old old' (readRequests setup cookie left bytes turns)) :
    (left.handleRead setup memory cookie bytes turns).observe =
      (right.handleRead setup memory' cookie bytes turns).observe := by
  unfold HttpState.handleRead
  unfold Calm at calm
  unfold readRequests at quiet
  cases collecting : cookie.request with
  | none =>
    simp only [collecting] at calm quiet
    dsimp only
    split
    next => exact (alike.set _ _ _).observe .returned
    next complete =>
      cases turns with
      | nil => exact (alike.work _ _).observe .unfinished
      | cons turn turns =>
        cases early : earlyError setup bytes with
        | none =>
          rw [if_neg complete] at quiet
          refine (request_alike setup turn ?_ ?_ cookie bytes (.inr early)
            (quiet.imp_right fun quiet => quiet bytes (by simp))).observe
          · exact alike.work _ _
          · exact ⟨rfl, rfl, rfl⟩
        | some error =>
          have unsent := calm turn rfl complete error early
          have seen := fun state => request_unsent state setup turn cookie early unsent
          rw [seen _ rfl, seen _ rfl, alike.sent, alike.tasks]
  | some collected =>
    simp only [collecting] at calm quiet
    dsimp only
    split
    next long =>
      cases turns with
      | nil => exact (alike.set _ _ _).observe .unfinished
      | cons turn turns =>
        have unsent := calm turn rfl
        rw [if_pos long] at unsent
        have seen := internalError_unsent unsent
        simp only [HttpResult.observe, seen, alike.sent, alike.tasks]
    next fits =>
      rw [if_neg fits] at quiet
      refine loop_same setup turns (alike.set _ _ _) ?_ quiet
      intro turn asked found request next awaited error early
      have settled := calm turn asked
      rw [if_neg fits] at settled
      simp only [HttpState.pending, Option.getD_some] at awaited
      split at awaited
      next => cases awaited
      next complete =>
        cases awaited
        exact settled complete error early

theorem input_same (alike : Alike old old' left right) (cookie : HttpData) (input : HttpInput)
    (possible : input.possible cookie = true) (calm : Undisturbed setup cookie input)
    (quiet : Quiet setup old old' (handled setup cookie left input)) :
    (left.input setup memory cookie input).observe = (right.input setup memory' cookie input).observe := by
  cases input with
  | read arrived turns =>
    simp only [HttpState.input]
    simp only [handled] at quiet
    split
    next => exact (alike.set _ _ _).observe .returned
    next some =>
      rw [if_neg some] at quiet
      exact handleRead_same setup memory memory' cookie _ turns alike (calm possible some) quiet
  | result entries header turn =>
    simp only [HttpState.input, HttpState.httpSendiovecdata]
    split
    next missing =>
      have seen := internalError_unsent (calm missing)
      simp only [HttpResult.observe, seen, alike.sent, alike.tasks]
    next => exact (alike.set _ _ _).observe .returned

end Inputs

section Histories
variable (setup : HttpSetup)

def Others (sock : Nat) (_ : HttpServer) (event : HttpEvent) : Prop := event.sock ≠ sock

theorem step_cookies {event : HttpEvent} (moved : HttpServer.Step setup before event after) :
    ∃ cookie, after.cookies = Function.update before.cookies event.sock cookie := by
  unfold HttpServer.Step HttpServer.apply at moved
  cases event with
  | accept sock ip =>
    dsimp only at moved
    split at moved <;> cases moved
    exact ⟨_, rfl⟩
  | input sock input memory =>
    dsimp only at moved
    split at moved <;> cases moved
    exact ⟨_, rfl⟩
  | progress sock written =>
    dsimp only at moved
    split at moved
    next => cases moved
    next =>
      split at moved <;> cases moved
      exact ⟨_, rfl⟩
  | dead sock =>
    cases moved
    exact ⟨_, rfl⟩

theorem others_cookie {sock : Nat}
    (run : Run (HttpServer.Step setup) (Others sock) before events after) : after.cookies sock = before.cookies sock := by
  refine run.invariant (fun server => server.cookies sock = before.cookies sock) ?_ rfl
  intro current event next kept other moved
  obtain ⟨cookie, changed⟩ := step_cookies setup moved
  rw [changed, Function.update_of_ne (Ne.symm other), kept]

end Histories

def sampleSetup : HttpSetup := ⟨fun _ _ => 0, none, ascii "stats"⟩

def idleServer : HttpServer := ⟨⟨[], true, 0, 0, false, 0⟩, .initial, .initial, fun _ => none⟩

def client : HttpData := ⟨Vector.replicate 16 0, none, [], true⟩

def connecting (server : HttpServer) (sock : Nat) : HttpServer :=
  { server with
    counters := server.counters.statsIssueEvent (.accept .tcp)
    cookies := Function.update server.cookies sock (some client) }

def oneClient : HttpServer := connecting idleServer 0

theorem oneClient_reached : Run (HttpServer.Step sampleSetup) free idleServer [.accept 0 (Vector.replicate 16 0)] oneClient :=
  .next trivial rfl (.done _)

def plainRequest : Bytes := ascii "GET /a? HTTP/1.1\n\n"

def passing : HttpTurn := ⟨0, 0, [], [], none, false⟩

section Visits

def keepRequest : Bytes := ascii "GET /a? HTTP/1.1\nconnection:k\n\nx"

def visited (work : WorkStruct) (request : Bytes) : WorkStruct :=
  ⟨overwrite (overwrite work.inbuf 0 request) 0 (decodeInPlace (fun _ _ => 0) (ascii "stats") request), true, request.length,
    headerComplete request, wantsKeepAlive (decodeInPlace (fun _ _ => 0) (ascii "stats") request) (headerComplete request), work.age⟩

theorem visit (server : HttpServer) (unused : server.cookies 1 = none)
    (missing : httpHandleRequest (fun _ _ => 0) false (ascii "stats") [] (Vector.replicate 16 0) 0 request = .missingHash)
    (whole : request.take gInbufSize = request ∧ request ≠ []) (complete : headerComplete request ≠ 0) :
    ∃ after events, Run (HttpServer.Step sampleSetup) (Others 0) server events after ∧ after.tracker = server.tracker ∧
      after.work = visited server.work request := by
  have missing : ∀ age, httpHandleRequest (fun _ _ => 0) false (ascii "stats") [] (Vector.replicate 16 0) age request =
      .missingHash := by
    rcases request_shape sampleSetup request with ⟨outcome, same⟩ | ⟨_, _, _, _, same⟩
    · exact fun age => (same _ _ age).trans ((same _ _ 0).symm.trans missing)
    · have other := (same [] (Vector.replicate 16 0) 0).symm.trans missing
      cases other
  have accepted : HttpServer.Step sampleSetup server (.accept 1 (Vector.replicate 16 0)) (connecting server 1) := by
    simp only [HttpServer.Step, HttpServer.apply, unused, connecting, client]
  obtain ⟨after, moved, kept⟩ : ∃ after, HttpServer.Step sampleSetup (connecting server 1)
      (.input 1 (.read request [passing]) []) after ∧ after.tracker = server.tracker ∧
      after.work = visited server.work request := by
    simp only [HttpServer.Step, HttpServer.apply, HttpServer.result, connecting, client, Function.update_self,
      HttpInput.possible, if_true, HttpState.input, whole, if_false, HttpState.handleRead, HttpServer.state, if_neg complete,
      HttpState.httpHandleRequest, HttpSetup.answer, sampleSetup, passing, Option.isSome_none, missing, HttpState.reply]
    exact ⟨_, rfl, rfl, rfl⟩
  exact ⟨after, [.accept 1 (Vector.replicate 16 0), .input 1 (.read request [passing]) []],
    .next Nat.one_ne_zero accepted (.next Nat.one_ne_zero moved (.done after)), kept⟩

theorem visit_inbuf (inbuf : Bytes) :
    ((overwrite (overwrite (overwrite inbuf 0 keepRequest) 0 (decodeInPlace (fun _ _ => 0) (ascii "stats") keepRequest)) 0
      [97]).drop 31).take 1 = [120] := by
  have decoded : decodeInPlace (fun _ _ => 0) (ascii "stats") keepRequest =
      ascii "GET /a? HTTP/1.1\nconnection:k\n\n" ++ [120] := by decide +kernel
  have length : (ascii "GET /a? HTTP/1.1\nconnection:k\n\n").length = 31 := by decide +kernel
  obtain ⟨c, rest, split⟩ := List.exists_cons_of_length_pos (l := ascii "GET /a? HTTP/1.1\nconnection:k\n\n") (by omega)
  rw [split] at decoded length
  rw [decoded]
  simp only [List.length_cons] at length
  simp [overwrite, show 31 = rest.length + 1 by omega]

theorem visits (server : HttpServer) (unused : server.cookies 1 = none) :
    ∃ after after' events events', Run (HttpServer.Step sampleSetup) (Others 0) server events after ∧
      Run (HttpServer.Step sampleSetup) (Others 0) server events' after' ∧ after.tracker = after'.tracker ∧
      after.work = ⟨overwrite (overwrite server.work.inbuf 0 keepRequest) 0
        (decodeInPlace (fun _ _ => 0) (ascii "stats") keepRequest), true, 32, 31, true, server.work.age⟩ ∧
      after'.work.keepAlive = false := by
  have evaluated : keepRequest.length = 32 ∧ headerComplete keepRequest = 31 ∧
      wantsKeepAlive (decodeInPlace (fun _ _ => 0) (ascii "stats") keepRequest) 31 = true ∧
      wantsKeepAlive (decodeInPlace (fun _ _ => 0) (ascii "stats") plainRequest) (headerComplete plainRequest) = false := by
    decide +kernel
  obtain ⟨size, header, keeps, closes⟩ := evaluated
  obtain ⟨after, events, run, tracker, work⟩ :=
    @visit keepRequest server unused (by decide +kernel) (by decide +kernel) (by simp [header])
  obtain ⟨after', events', run', tracker', work'⟩ :=
    @visit plainRequest server unused (by decide +kernel) (by decide +kernel) (by decide +kernel)
  refine ⟨after, after', events, events', run, run', tracker.trans tracker'.symm, ?_, by simp only [work', visited, closes]⟩
  rw [work, visited, size, header, keeps]

end Visits

/-- After two histories of the other clients that leave the same store, the first client sees different answers. -/
def Influenced (server : HttpServer) (input : HttpInput) (seen seen' : Observation) : Prop :=
  ∃ one other after after', Run (HttpServer.Step sampleSetup) (Others 0) server one after ∧
    Run (HttpServer.Step sampleSetup) (Others 0) server other after' ∧ after.tracker = after'.tracker ∧
    ∀ memory, after.observe sampleSetup 0 input memory = some seen ∧ after'.observe sampleSetup 0 input memory = some seen'

def wrongRequest : Bytes := ascii "GET /x HTTP/1.1\n\n"

def taking : HttpTurn := ⟨0, 0, [], [], some 8192, false⟩

theorem wrong_observed (connected : server.cookies 0 = some client) (memory : Bytes) :
    server.observe sampleSetup 0 (.read wrongRequest [taking]) memory =
      some ⟨.returned, [errorPage "404" "Not Found"], [], if server.work.keepAlive then some client else none⟩ := by
  have early : verdict sampleSetup wrongRequest = some (.error .notFound404) := by decide +kernel
  have whole : wrongRequest.take gInbufSize = wrongRequest ∧ wrongRequest ≠ [] ∧
      headerComplete wrongRequest = wrongRequest.length ∧ wrongRequest.length ≠ 0 := by decide +kernel
  have short : ¬ 8192 < (sampleSetup.errorPage .notFound404).length := by decide +kernel
  obtain ⟨taken, some, header, length⟩ := whole
  simp only [HttpServer.observe, HttpServer.result, connected, HttpInput.possible, client, if_true, HttpState.input, taken,
    if_neg some, HttpState.handleRead, header, if_neg length, HttpState.httpHandleRequest,
    answer_settled early, settledAnswer, HttpError.answer, HttpState.reply, HttpState.httpIssueError, HttpState.issue,
    HttpState.send, WorkStruct.httpSenddata, taking, if_neg short, HttpServer.state, ne_eq, not_true_eq_false, and_false,
    if_false]
  cases server.work.keepAlive <;> rfl

theorem headerFrom_plain (plain : ∀ c ∈ request, ¬ (c ≤ 13 ∨ 128 ≤ c)) (fuel i : Nat) :
    headerFrom request fuel i = 0 := by
  induction fuel generalizing i with
  | zero => rfl
  | succ fuel ih =>
    unfold headerFrom
    cases found : request[i]? with
    | none => rfl
    | some c => simp only [if_neg (plain c (List.mem_of_getElem? found)), ih]

section Full
variable {line : Bytes}

def fullClient (line : Bytes) : HttpData := { client with request := some line }

def fullServer (line : Bytes) : HttpServer :=
  ⟨⟨overwrite [] 0 line, true, 0, 0, false, 0⟩, .initial, oneClient.counters,
    Function.update oneClient.cookies 0 (some (fullClient line))⟩

variable (full : line.length = maxRequestBytes)
include full

theorem fullServer_reached (plain : ∀ c ∈ line, ¬ (c ≤ 13 ∨ 128 ≤ c)) :
    Run (HttpServer.Step sampleSetup) free idleServer [.accept 0 (Vector.replicate 16 0), .input 0 (.read line []) []]
      (fullServer line) := by
  have whole : line.take gInbufSize = line := List.take_of_length_le full.le
  have some : line ≠ [] := by
    rintro rfl
    cases full
  have alive : headerComplete line = 0 := headerFrom_plain plain _ _
  have connected : oneClient.cookies 0 = Option.some client := rfl
  have moved : HttpServer.Step sampleSetup oneClient (.input 0 (.read line []) []) (fullServer line) := by
    simp only [HttpServer.Step, HttpServer.apply, HttpServer.result, connected, HttpInput.possible, client, if_true,
      HttpState.input, whole, if_neg some, HttpState.handleRead, alive, HttpServer.state]
    rfl
  exact oneClient_reached.snoc trivial moved

/-- One byte more than the array may hold: the error page goes out with what another
client's request left behind. -/
theorem long_observed (connected : server.cookies 0 = some (fullClient line)) (memory : Bytes) :
    server.observe sampleSetup 0 (.read [97] [taking]) memory =
      some ⟨.returned, [internalErrorPage], [], WorkStruct.httpSenddata
        { server.work with inbuf := overwrite server.work.inbuf 0 [97] } taking
        (if server.work.atInbuf then overwrite server.work.inbuf 0 [97] else memory)
        (fullClient (line ++ [97])) internalErrorPage⟩ := by
  have whole : ([97] : Bytes).take gInbufSize = [97] := by decide
  have long : (line ++ [97]).length > maxRequestBytes := by simp [full]
  simp only [HttpServer.observe, HttpServer.result, connected, HttpInput.possible, fullClient, client, if_true,
    HttpState.input, whole, reduceCtorEq, if_false, HttpState.handleRead, if_pos long, HttpServer.state,
    HttpResult.observe, HttpState.observe, HttpState.internalError, HttpState.httpIssueError, HttpState.issue, HttpState.send,
    HttpState.oldRequest, Option.map_some, List.nil_append]

theorem long_influenced : Influenced (fullServer line) (.read [97] [taking])
    ⟨.returned, [internalErrorPage], [], some { client with request := some [120] }⟩ ⟨.returned, [internalErrorPage], [], none⟩ := by
  have short : ¬ 8192 < internalErrorPage.length := by decide +kernel
  obtain ⟨after, after', one, other, first, second, tracker, work, off⟩ := visits (fullServer line) rfl
  refine ⟨one, other, after, after', first, second, tracker, fun memory => ⟨?_, ?_⟩⟩
  · have retained := visit_inbuf (fullServer line).work.inbuf
    rw [long_observed full (others_cookie sampleSetup first) memory, work]
    simp only [WorkStruct.httpSenddata, taking, if_neg short, if_true, retained, true_and, ne_eq, Nat.reduceSub]
    rfl
  · rw [long_observed full (others_cookie sampleSetup second) memory]
    simp only [WorkStruct.httpSenddata, taking, if_neg short, off, Bool.false_eq_true, if_false]

end Full

def errorsRequest : Bytes := ascii "GET /stats?mode=herr HTTP/1.1\n\n"

theorem errors_observed (connected : server.cookies 0 = some client) {text : Bytes}
    (printed : server.counters.statsHttperrorsTxt = text) (filled : text ≠ []) (short : ¬ 8192 < (contentReply text).length)
    (memory : Bytes) : server.observe sampleSetup 0 (.read errorsRequest [taking]) memory =
      some ⟨.returned, [contentReply text], [], none⟩ := by
  have asked : verdict sampleSetup errorsRequest = Option.some (.ok 7) := by decide +kernel
  have whole : errorsRequest.take gInbufSize = errorsRequest ∧ errorsRequest ≠ [] ∧ headerComplete errorsRequest ≠ 0 ∧
      wantsKeepAlive (decodeInPlace sampleSetup.literals sampleSetup.statsPath errorsRequest) (headerComplete errorsRequest) =
        false := by decide +kernel
  have answer : settledAnswer server.counters 0 (.ok 7) = .content text := by
    rw [← printed]
    rfl
  obtain ⟨taken, nonempty, header, closes⟩ := whole
  simp only [HttpServer.observe, HttpServer.result, connected, HttpInput.possible, client, if_true, HttpState.input, taken,
    if_neg nonempty, HttpState.handleRead, if_neg header, HttpState.httpHandleRequest, HttpServer.state, answer_settled asked,
    List.foldl_nil, answer, HttpState.reply, if_neg filled, closes, HttpState.setKeepAlive, HttpState.send,
    WorkStruct.httpSenddata, taking, if_neg short, Bool.false_eq_true, if_false]
  rfl

end BtServer.Proofs.RequestIsolation

import BtServer.Proofs.ReplyBodies
import BtServer.Proofs.CleaningTwice

/-! Replies to HTTP requests. What the parser accepts asks for no more than 200 peers or 64 torrents, so the handlers stay
in the work buffer; the header is put in front of the body so that its last byte is the one before it. -/

namespace BtServer.Proofs.ReplyFraming
open Lib Access RequestMemory ReplyBuffer PeerRoom PeerTally ReplyBodies TorrentTable TrackerSteps TrackerInvariant CleaningTwice

section Requests
variable {query : Query} {behind : Behind}

def Clamped (query : Query) : Prop := 0 ≤ query.numwant ∧ query.numwant ≤ 200

theorem clamp_between (tmp : Int32) :
    0 ≤ (if (if tmp < 0 then 50 else tmp) > 200 then 200 else (if tmp < 0 then 50 else tmp).toInt) ∧
      (if (if tmp < 0 then 50 else tmp) > 200 then 200 else (if tmp < 0 then 50 else tmp).toInt) ≤ 200 := by
  have fifty : (50 : Int32).toInt = 50 := by decide
  have zero : (0 : Int32).toInt = 0 := by decide
  have most : (200 : Int32).toInt = 200 := by decide
  simp only [gt_iff_lt, Int32.lt_iff_toInt_lt, zero, most]
  split <;> split <;> omega

theorem setValue_clamped (clamped : Clamped query) (key : AnnounceKey) (value : Bytes) {after : Query}
    (set : query.setValue key value = .ok after) : Clamped after := by
  simp only [Query.setValue] at set
  cases key with
  | port =>
    dsimp only at set
    split at set <;> cases set
    exact clamped
  | left =>
    cases set
    split <;> split <;> exact clamped
  | numwant =>
    dsimp only at set
    split at set <;> cases set
    exact clamp_between _
  | compact =>
    dsimp only at set
    split at set
    · cases set
    · split at set <;> cases set
      exact clamped
  | infoHash =>
    dsimp only at set
    split at set
    · cases set
    · split at set <;> cases set
      exact clamped
  | peerId =>
    dsimp only at set
    split at set <;> cases set
    exact clamped
  | event =>
    cases set
    exact clamped

theorem numberCase_clamped {state : Announce} (clamped : Clamped state.query) (key : AnnounceKey) :
    (numberCase state key).Gives fun after => Clamped after.query := by
  refine .after fun taken => ?_
  cases set : state.query.setValue key taken.1 with
  | error error => exact .raised error
  | ok query => exact .ok (setValue_clamped clamped key taken.1 set)

theorem announceCase_clamped {state : Announce} (clamped : Clamped state.query) (key : AnnounceKey) :
    (announceCase behind state key).Gives fun after => Clamped after.query := by
  cases key with
  | event =>
    refine .after fun search => ?_
    cases search.returned with
    | error => exact .raised _
    | found event => exact .ok clamped
    | terminator => exact .ok clamped
    | unknown => exact .ok clamped
  | infoHash =>
    simp only [announceCase]
    split
    · exact .raised _
    · exact .after fun scan => .ok clamped
  | peerId => exact .after fun scan => .ok clamped
  | port => exact numberCase_clamped clamped .port
  | left => exact numberCase_clamped clamped .left
  | numwant => exact numberCase_clamped clamped .numwant
  | compact => exact numberCase_clamped clamped .compact

theorem announceLoop_clamped (fuel : Nat) {state : Announce} (clamped : Clamped state.query) :
    (announceLoop behind fuel state).Gives fun after => Clamped after.query := by
  induction fuel generalizing state with
  | zero =>
    intro _ same
    cases same
  | succ fuel ih =>
    refine .after fun search => ?_
    dsimp only
    cases search.returned with
    | terminator => exact .ok clamped
    | error => exact .raised _
    | unknown => exact .after fun read => ih clamped
    | found key =>
      have next := @announceCase_clamped behind { state with read := search.string, memory := search.memory } clamped key
      exact next.bind fun after kept => ih kept

/-- What an accepted request comes to. -/
def Admitted : Outcome → Prop
  | .call call => Permitted call
  | .missingHash | .stats _ => True

theorem httpHandleAnnounce_admitted (random : List Nat) (ip : Ip6) (age : UInt8) (memory : Bytes) (read : Nat) :
    (RequestMemory.httpHandleAnnounce behind random ip age memory read).Gives Admitted := by
  refine .after fun read => ?_
  have initial : Clamped Query.initial := by simp [Clamped, Query.initial]
  refine (announceLoop_clamped _ initial).bind fun state clamped => ?_
  cases state.hash with
  | none => exact .ok trivial
  | some position =>
    refine .after fun hash => .ok ?_
    have few : state.query.numwant.toNat ≤ 200 := by
      obtain ⟨low, high⟩ := clamped
      omega
    simp only [Admitted, announceCall]
    split
    · exact .stop
    · exact .announce few

theorem httpHandleScrape_admitted (memory : Bytes) (read : Nat) :
    (RequestMemory.httpHandleScrape behind memory read).Gives Admitted := by
  refine .after fun read => .after fun scraped => ?_
  dsimp only
  split
  · exact .raised _
  · refine .after fun hashes => .ok (.scrape ?_)
    rw [List.length_map, List.length_range]
    exact Nat.min_le_right _ _

theorem httpHandleRequest_admitted (machine : Machine) (request : Bytes) :
    (RequestMemory.httpHandleRequest machine request).Gives Admitted := by
  refine .after fun different => ?_
  split
  · exact .raised _
  refine .after fun write => .after fun scan => ?_
  split
  · exact .raised _
  split
  · exact .raised _
  refine .after fun c => ?_
  split
  · exact httpHandleAnnounce_admitted _ _ _ _ _
  refine .after fun other => ?_
  split
  · split
    · refine .after fun different => ?_
      split
      · exact .raised _
      · exact .after fun mode => .ok trivial
    · exact .raised _
  · exact httpHandleScrape_admitted _ _

end Requests

section Header
variable {front body outbuf : Bytes}

/-- A status line and headers, of which one is the length of the body in decimal, an empty line and the body. -/
def framed (status type : String) (body : Bytes) : Bytes :=
  ascii status ++ ascii "\r\nContent-Type: " ++ ascii type ++ ascii "\r\nContent-Length: " ++ decimal body.length ++
    ascii "\r\n\r\n" ++ body

/-- What is sent for the body that a handler has produced. There is none when it had no memory. -/
def reply (body : Bytes) : Bytes :=
  if body = [] then framed "HTTP/1.0 500 Internal Server Error" "text/html" (ascii "<title>Internal Server Error</title>\n")
  else framed "HTTP/1.1 200 OK" "text/plain" body

theorem internalErrorPage_framed : internalErrorPage =
      framed "HTTP/1.0 500 Internal Server Error" "text/html" (ascii "<title>Internal Server Error</title>\n") := by
  decide

theorem successText_framed (small : body.length < 2 ^ 63) :
    successText body.length ++ [10] ++ body = framed "HTTP/1.1 200 OK" "text/plain" body := by
  have head : ascii "HTTP/1.1 200 OK\r\nContent-Type: text/plain\r\nContent-Length: " =
      ascii "HTTP/1.1 200 OK" ++ ascii "\r\nContent-Type: " ++ ascii "text/plain" ++ ascii "\r\nContent-Length: " := by
    decide
  have newline : ascii "\r\n\r\n" = ascii "\r\n\r" ++ [10] := by decide
  rw [successText, framed, sizeDecimal_small small, head, newline]
  simp only [List.append_assoc]

theorem length_successText {size : Nat} (short : (sizeDecimal size).length ≤ successHttpSizeOff) :
    successHttpSizeOff - (sizeDecimal size).length + (successText size).length = successHttpHeaderLength - 1 := by
  have texts : (ascii "HTTP/1.1 200 OK\r\nContent-Type: text/plain\r\nContent-Length: ").length = 59 ∧
      (ascii "\r\n\r").length = 3 := by
    decide
  have sizes : successHttpSizeOff = 17 ∧ successHttpHeaderLength = 80 := ⟨rfl, rfl⟩
  simp only [successText, List.length_append]
  omega

theorem httpIssueError_sends {page : Bytes} (size : outbuf.length = gOutbufSize) (fits : page.length < gOutbufSize) :
    ∃ after, httpIssueError outbuf page = .ok (after, page) ∧ after.length = gOutbufSize := by
  have whole : page.take (gOutbufSize - 1) = page := List.take_of_length_le (by omega)
  have filled : Filled [] outbuf := ⟨List.nil_prefix, size⟩
  have room : ([] : Bytes).length + (page ++ [0]).length ≤ gOutbufSize := by
    rw [List.length_append, List.length_singleton, List.length_nil]
    omega
  obtain ⟨after, stored, ⟨spare, rfl⟩, length⟩ := filled.block room
  refine ⟨_, ?_, length⟩
  have fetched : (fetchBlock ([] ++ (page ++ ([0] ++ spare))) 0 page.length : Access Trap Bytes) = .ok page :=
    fetchBlock_between rfl rfl
  rw [List.length_nil] at stored
  rw [httpIssueError, whole, stored, Access.ok_bind, List.append_assoc, List.append_assoc, fetched, Access.ok_bind]

theorem header_space (start : front.length = successHttpHeaderLength) {size : Nat}
    (short : (sizeDecimal size).length ≤ successHttpSizeOff) :
    ∃ before old, front = before ++ old ∧ before.length = successHttpSizeOff - (sizeDecimal size).length ∧
      old.length = (successText size ++ [0]).length := by
  have ends := length_successText short
  have sizes : successHttpSizeOff = 17 ∧ successHttpHeaderLength = 80 := ⟨rfl, rfl⟩
  refine ⟨front.take (successHttpSizeOff - (sizeDecimal size).length),
    front.drop (successHttpSizeOff - (sizeDecimal size).length), (List.take_append_drop _ _).symm, ?_, ?_⟩
  · rw [List.length_take]
    omega
  · rw [List.length_drop, List.length_append, List.length_singleton]
    omega

theorem httpSendReply_framed (filled : Filled (front ++ body) outbuf) (start : front.length = successHttpHeaderLength) :
    ∃ after, httpSendReply outbuf body.length = .ok (after, reply body) ∧ after.length = gOutbufSize := by
  have sizes : successHttpSizeOff = 17 ∧ successHttpHeaderLength = 80 ∧ gOutbufSize = 8192 := ⟨rfl, rfl, rfl⟩
  by_cases empty : body = []
  · have length : internalErrorPage.length = 120 := rfl
    obtain ⟨after, sent, kept⟩ := @httpIssueError_sends _ internalErrorPage filled.size (by omega)
    refine ⟨after, ?_, kept⟩
    rw [httpSendReply, if_pos (by rw [empty, List.length_nil]), reply, if_pos empty, ← internalErrorPage_framed]
    exact sent
  obtain ⟨⟨spare, rfl⟩, size⟩ := filled
  simp only [List.length_append] at size
  have digits : (sizeDecimal body.length).length ≤ 4 := by
    rw [sizeDecimal_small (by omega)]
    exact length_decimal_le (by decide) (by omega)
  obtain ⟨before, old, rfl, free, taken⟩ := @header_space _ start body.length (by omega)
  have ends := @length_successText body.length (by omega)
  have header : before.length + (successText body.length).length = successHttpHeaderLength - 1 := by omega
  have behind : (successText body.length ++ [10] ++ body).length = body.length + (1 + (successText body.length).length) := by
    simp only [List.length_append, List.length_singleton]
    omega
  have nonzero : ¬ body.length = 0 := fun none => empty (List.eq_nil_of_length_eq_zero none)
  have printed : sprintf (before ++ old ++ body ++ spare) before.length (successText body.length) =
      .ok (before ++ (successText body.length ++ [0] ++ (body ++ spare)), before.length + (successText body.length).length) := by
    rw [sprintf, List.append_assoc, List.append_assoc, storeBlock_between rfl taken, Access.ok_bind]
  have patched : (store (before ++ (successText body.length ++ [0] ++ (body ++ spare))) (successHttpHeaderLength - 1) 10 :
      Access Trap Bytes) = .ok (before ++ (successText body.length ++ [10] ++ body ++ spare)) := by
    have stored := @store_between Trap _ (before ++ successText body.length) (body ++ spare) (0 : UInt8) 10
      (successHttpHeaderLength - 1) (by rw [List.length_append, header])
    simpa only [List.append_assoc, List.singleton_append, List.cons_append, List.nil_append] using stored
  refine ⟨before ++ (successText body.length ++ [10] ++ body ++ spare), ?_, ?_⟩
  · rw [httpSendReply, if_neg nonzero, if_neg (by omega)]
    dsimp only
    rw [← free, printed, Access.ok_bind]
    dsimp only
    rw [patched, Access.ok_bind, Nat.add_sub_cancel_left, fetchBlock_between rfl behind.symm, Access.ok_bind, reply,
      if_neg empty, successText_framed (by omega)]
  · simp only [List.length_append, List.length_singleton] at size taken ⊢
    omega

end Header

section Replies
variable {outbuf : Bytes} {tracker : Tracker}

def bodyOf (gNowSeconds : Int) (heap : Heap) (tracker : Tracker) : Outcome → Option Bytes
  | .missingHash => some (ascii forgotHash)
  | .call call => tracker.answer ⟨gNowSeconds, heap, call⟩
  | .stats _ => none

/-- The reply made of a body is sent, and the buffer is as large as before. -/
def Sent (body : Bytes) (response : Option Response) : Prop :=
  ∃ sent, response = some sent ∧ sent.sent = reply body ∧ sent.outbuf.length = gOutbufSize

theorem handled_sent {front : Bytes} (start : front.length = successHttpHeaderLength) {after : Tracker}
    {body : Option Bytes} {ran : Access Trap (Tracker × Bytes × Nat)} (handled : Follows (Handled front after) body ran) :
    Follows Sent body (finish ran) := by
  cases handled with
  | stops other => exact .stops other
  | @returns body result handled =>
    obtain ⟨_, outbuf, size⟩ := result
    obtain ⟨rfl, ⟨filled⟩⟩ := handled
    obtain ⟨last, sent, length⟩ := httpSendReply_framed filled start
    rw [finish, Access.ok_bind]
    dsimp only
    rw [sent, Access.ok_bind]
    exact .returns ⟨_, rfl, rfl, length⟩

section Accepted
variable {machine : Machine} {request : Bytes} {outcome : Outcome}
  (accepted : RequestMemory.httpHandleRequest machine request = .ok outcome) (answered : ∀ mode, outcome ≠ .stats mode)
  (gNowSeconds : Int) (heap : Heap) (housed : Housed tracker)
  (distinct : ∀ hash peerList, Holds tracker hash peerList → Distinct peerList) (size : outbuf.length = gOutbufSize)
include accepted answered housed distinct size

theorem respond_follows :
    Follows Sent (bodyOf gNowSeconds heap tracker outcome) (respond gNowSeconds heap tracker outbuf outcome) := by
  have admitted := httpHandleRequest_admitted machine request outcome accepted
  obtain ⟨front, start, filled⟩ : ∃ front, front.length = successHttpHeaderLength ∧ Filled front outbuf := by
    refine ⟨outbuf.take successHttpHeaderLength, ?_, List.take_prefix _ _, size⟩
    rw [List.length_take, size]
    rfl
  cases outcome with
  | missingHash =>
    rw [respond, ← start]
    exact handled_sent start (forgetHash_handled filled start)
  | call call =>
    rw [respond, ← start]
    exact handled_sent start (handleCall_handled filled start admitted housed distinct)
  | stats mode => exact absurd rfl (answered mode)

omit accepted size in
theorem bodyOf_isSome_iff : (bodyOf gNowSeconds heap tracker outcome).isSome ↔
    ∀ call, outcome = .call call → Repliable tracker ⟨gNowSeconds, heap, call⟩ := by
  cases outcome with
  | missingHash => simp [bodyOf]
  | call call =>
    rw [bodyOf, answer_isSome_iff housed distinct]
    exact ⟨fun repliable _ same => by cases same; exact repliable, fun all => all call rfl⟩
  | stats mode => exact absurd rfl (answered mode)

/-- Every request that is accepted, other than for the statistics, stays in the work buffer, and what is sent is the reply to it
in its frame. It is sent exactly if the peers that an announce is to name can be selected. -/
theorem http_replies_framed :
    Follows Sent (bodyOf gNowSeconds heap tracker outcome) (respond gNowSeconds heap tracker outbuf outcome) ∧
      ((∃ body response, bodyOf gNowSeconds heap tracker outcome = some body ∧
          respond gNowSeconds heap tracker outbuf outcome = .ok (some response) ∧ response.sent = reply body) ↔
        ∀ call, outcome = .call call → Repliable tracker ⟨gNowSeconds, heap, call⟩) := by
  have follows := respond_follows accepted answered gNowSeconds heap housed distinct size
  refine ⟨follows, ?_⟩
  rw [← bodyOf_isSome_iff answered gNowSeconds heap housed distinct]
  constructor
  · rintro ⟨body, response, made, -⟩
    rw [made]
    rfl
  · intro made
    obtain ⟨body, made⟩ := Option.isSome_iff_exists.mp made
    rw [made] at follows ⊢
    generalize respond gNowSeconds heap tracker outbuf outcome = ran at follows ⊢
    cases follows with
    | returns sent =>
      obtain ⟨response, rfl, whole, _⟩ := sent
      exact ⟨body, response, rfl, rfl, whole⟩

end Accepted

def hashOfAs : Hash := Vector.replicate 20 65

/-- A store with one torrent and `n` peers in it. -/
def oneTorrent (n : Nat) : Tracker := Tracker.initial.unlock (bucketOfHash hashOfAs) ⟨[⟨hashOfAs, some (crowd n)⟩], 1⟩ 1

theorem housed_oneTorrent (n : Nat) : Housed (oneTorrent n) := by
  have inserted : Edited hashOfAs [] none (some (crowd n)) ([] ++ ⟨hashOfAs, some (crowd n)⟩ :: []) :=
    .inserted rfl fun _ _ => ⟨by simp, by simp⟩
  exact housed_edited housed_initial inserted

theorem held_oneTorrent {n : Nat} {hash : Hash} {peerList : PeerList} (held : Holds (oneTorrent n) hash peerList) :
    peerList = crowd n := by
  rcases holds_unlock held with before | ⟨_, member⟩
  · cases before
  · cases List.mem_singleton.mp member
    rfl

theorem distinct_oneTorrent {n : Nat} (bound : n ≤ 2 ^ 32) (hash : Hash) (peerList : PeerList)
    (held : Holds (oneTorrent n) hash peerList) : Distinct peerList :=
  held_oneTorrent held ▸ Sound.to_distinct (crowd_sound bound)

/-- An announce for two of the three peers. -/
theorem http_replies_framed_announce :
    ∃ outcome, RequestMemory.httpHandleRequest ⟨0, fun _ _ => none, false, [], [], Vector.replicate 16 0, 0⟩
        (ascii "GET /announce?info_hash=AAAAAAAAAAAAAAAAAAAA&numwant=2 HTTP/1.1\n\n") = .ok outcome ∧
      ∃ body response, bodyOf 0 [] (oneTorrent 3) outcome = some body ∧
        respond 0 [] (oneTorrent 3) (List.replicate gOutbufSize 0) outcome = .ok (some response) ∧ response.sent = reply body := by
  have accepted : RequestMemory.httpHandleRequest ⟨0, fun _ _ => none, false, [], [], Vector.replicate 16 0, 0⟩
      (ascii "GET /announce?info_hash=AAAAAAAAAAAAAAAAAAAA&numwant=2 HTTP/1.1\n\n") =
        .ok (.call (.announce .tcp hashOfAs ⟨Vector.replicate 4 0, Vector.replicate 2 0, 0, 0⟩ 2 [])) := by
    rfl
  have framed := http_replies_framed accepted (by rintro _ ⟨⟩) 0 [] (housed_oneTorrent 3) (distinct_oneTorrent (by norm_num))
    (List.length_replicate (n := gOutbufSize) (a := (0 : UInt8)))
  refine ⟨_, accepted, framed.2.mpr fun call _ => ?_⟩
  refine repliable_few (housed_oneTorrent 3) (distinct_oneTorrent (by norm_num)) (fun hash peerList held => ?_) _
  rw [held_oneTorrent held]
  decide

theorem crowd_unanswered {n : Nat} (bound : n < 2 ^ 32) (many : 50 < n) (endless : shiftPeerCount 32 ((n + 1) % 2 ^ 32) 0 = none) :
    (oneTorrent n).answer ⟨0, [], .announce .tcp hashOfAs (peerAt n) 50 []⟩ = none := by
  obtain ⟨room, _, announced⟩ := @flooded_announce 0 n n (by decide) bound (le_refl n)
  have single : (oneTorrent n).allTorrents (bucketOfHash hashOfAs) = ⟨[⟨hashOfAs, some (floodedList 0 n n)⟩], 1⟩ := by
    simp only [oneTorrent, Tracker.unlock, Function.update_self]
    rfl
  have added := addPeer_single rfl single .tcp (peerAt n) 50
  have selected : BtServer.returnPeersForTorrent [] (floodedList 0 (n + 1) room) 50 .tcp = none := by
    have count : (floodedList 0 (n + 1) room).peerCount = n + 1 := rfl
    simp only [BtServer.returnPeersForTorrent, count, if_neg (show ¬ 50 > n + 1 by omega), if_neg (show ¬ 50 = 0 by omega),
      if_neg (show ¬ 50 = n + 1 by omega), BtServer.returnPeersSelection, endless, Option.map_none]
  rw [show peerAt n = flaggedAt 0 n from rfl, announced] at added
  simp only [Tracker.answer, Event.now, gNowMinutes, Int.zero_tdiv, show peerAt n = flaggedAt 0 n from rfl, added,
    Option.map_some, selected, Option.map_none]

/-- The peer with which a torrent has 2 ^ 30 peers gets no reply: the loop that shifts their number never ends. -/
theorem http_reply_missing : ∃ outcome,
    RequestMemory.httpHandleRequest ⟨0, fun _ _ => none, false, [], [], #v[0, 0, 0, 0, 0, 0, 0, 0, 0, 0, 0, 0, 63, 255, 255, 255], 0⟩
        (ascii "GET /announce?info_hash=AAAAAAAAAAAAAAAAAAAA&port=0 HTTP/1.1\n\n") = .ok outcome ∧
      Housed (oneTorrent (2 ^ 30 - 1)) ∧ (∀ hash peerList, Holds (oneTorrent (2 ^ 30 - 1)) hash peerList → Distinct peerList) ∧
      ∀ response, respond 0 [] (oneTorrent (2 ^ 30 - 1)) (List.replicate gOutbufSize 0) outcome ≠ .ok response := by
  have distinct := @distinct_oneTorrent (2 ^ 30 - 1) (by norm_num)
  have accepted : RequestMemory.httpHandleRequest
      ⟨0, fun _ _ => none, false, [], [], #v[0, 0, 0, 0, 0, 0, 0, 0, 0, 0, 0, 0, 63, 255, 255, 255], 0⟩
      (ascii "GET /announce?info_hash=AAAAAAAAAAAAAAAAAAAA&port=0 HTTP/1.1\n\n") =
        .ok (.call (.announce .tcp hashOfAs (peerAt (2 ^ 30 - 1)) 50 [])) := by
    rfl
  have unanswered := @crowd_unanswered (2 ^ 30 - 1) (by norm_num) (by norm_num) (by decide)
  have follows := respond_follows accepted (by rintro _ ⟨⟩) 0 [] (housed_oneTorrent _) distinct
    (List.length_replicate (n := gOutbufSize) (a := (0 : UInt8)))
  rw [bodyOf, unanswered] at follows
  refine ⟨_, accepted, housed_oneTorrent _, distinct, fun response responded => ?_⟩
  rw [responded] at follows
  cases follows

end Replies

end BtServer.Proofs.ReplyFraming

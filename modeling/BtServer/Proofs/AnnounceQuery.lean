import BtServer.Proofs.QueryScan

/-! Announces over HTTP: the call of the tracker that a request with the values of an announcement becomes, whatever the order
and the encoding of its parameters. `left` is an `int`: a multiple of 2^32 bytes left is read as none. -/

namespace BtServer.Proofs.AnnounceQuery
open Lib QueryScan

/-- The values an announce carries. An event that is neither `completed` nor
`stopped` is none. -/
structure Announcement where
  hash : Hash
  port : UInt16
  left : UInt64
  event : Option AnnounceEvent
deriving DecidableEq

def valuesOf (key : AnnounceKey) (params : List Param) : List Bytes :=
  (params.filter fun param => keyOf keywordsAnnounce param.name = some key).map Param.value

def eventsOf (params : List Param) : List AnnounceEvent :=
  (valuesOf .event params).filterMap (keyOf keywordsAnnounceEvent)

/-- The parameters of `http_handle_announce` that do not reach the store are such that
it does not refuse them. -/
structure Acceptable (params : List Param) : Prop where
  numwant : ∀ value ∈ valuesOf .numwant params, ∃ n, value = signedDecimal n
  compact : ∀ value ∈ valuesOf .compact params, value = decimal 1
  peerId : ∀ value ∈ valuesOf .peerId params, value.length = 20

structure Announcement.InQuery (announcement : Announcement) (params : List Param) : Prop where
  hash : valuesOf .infoHash params = [announcement.hash.toList]
  port : valuesOf .port params = [decimal announcement.port.toNat]
  left : valuesOf .left params = [decimal announcement.left.toNat]
  event : eventsOf params = announcement.event.toList
  acceptable : Acceptable params
  plain : ∀ param ∈ params, param.Plain

/-- A request whose path is one of an announce and whose query has the values of an
announcement. -/
inductive Announcement.InRequest (announcement : Announcement) : Bytes → Prop where
  | mk {pathText path : Bytes} {params : List Param} {c : UInt8} (located : Encodes .path pathText path)
      (announce : path.head? = some 97) (query : announcement.InQuery params) (ends : Terminates c)
      (rest : Bytes) :
      announcement.InRequest (ascii "GET /" ++ (pathText ++ 63 :: (queryText params ++ c :: rest)))

def Announcement.portBytes (announcement : Announcement) : Vector UInt8 2 :=
  #v[(announcement.port.toNat / 256).toUInt8, (announcement.port.toNat % 256).toUInt8]

def Announcement.eventFlag (announcement : Announcement) : UInt8 := announcement.event.elim 0 AnnounceEvent.flag

def Announcement.flag (announcement : Announcement) (complete : Bool) : UInt8 :=
  (if complete then peerFlagSeeding else 0) ||| announcement.eventFlag

section Query
variable {announcement : Announcement} {params : List Param}

theorem valuesOf_cons (key : AnnounceKey) (param : Param) (params : List Param) : valuesOf key (param :: params) =
      if keyOf keywordsAnnounce param.name = some key then param.value :: valuesOf key params else valuesOf key params := by
  by_cases named : keyOf keywordsAnnounce param.name = some key <;> simp [valuesOf, named]

/-- What has been found so far and what the parameters that are left still say. -/
structure Pending (announcement : Announcement) (query : Query) (params : List Param) : Prop where
  hash : query.hash.toList.map Vector.toList ++ valuesOf .infoHash params = [announcement.hash.toList]
  port : valuesOf .port params = [decimal announcement.port.toNat] ∨
    valuesOf .port params = [] ∧ query.port = announcement.portBytes
  flags : ∃ seeding event, query.flag = seeding ||| event ∧
    (valuesOf .left params = [decimal announcement.left.toNat] ∧ seeding = 0 ∨
      valuesOf .left params = [] ∧ seeding = if decide (2 ^ 32 ∣ announcement.left.toNat) then peerFlagSeeding else 0) ∧
    (eventsOf params = announcement.event.toList ∧ event = 0 ∨ eventsOf params = [] ∧ event = announcement.eventFlag)
  acceptable : Acceptable params

private theorem Pending.of_inQuery (carried : announcement.InQuery params) : Pending announcement .initial params :=
  ⟨by simp [Query.initial, carried.hash], .inl carried.port,
    ⟨0, 0, rfl, .inl ⟨carried.left, rfl⟩, .inl ⟨carried.event, rfl⟩⟩, carried.acceptable⟩

private theorem applyParam_key {query : Query} {param : Param} {key : AnnounceKey}
    (known : keyOf keywordsAnnounce param.name = some key) (valued : key ≠ .event) (text : param.value ≠ []) :
    applyParam query param = query.setValue key param.value := by
  cases key <;> simp_all [applyParam]

private theorem setValue_port (query : Query) (announcement : Announcement) :
    query.setValue .port (decimal announcement.port.toNat) = .ok { query with port := announcement.portBytes } := by
  have bound := announcement.port.toNat_lt
  have value : (Int32.ofNat announcement.port.toNat).toInt = announcement.port.toNat := by
    have wrapped := toInt32_eq_bmod announcement.port.toNat
    rw [Int.bmod_def] at wrapped
    exact wrapped.trans (by omega)
  have inRange : ¬ Int32.ofNat announcement.port.toNat > 0xffff := by
    rw [gt_iff_lt, Int32.lt_iff_toInt_lt, value]
    simpa using Nat.le_of_lt_succ bound
  have low : ((announcement.port.toNat : Int) % 2 ^ 16).toNat = announcement.port.toNat := by omega
  simp only [Query.setValue, scanFixedInt_decimal, inRange, ne_eq, not_true_eq_false, or_self, if_false, htons, value, low,
    Announcement.portBytes]

private theorem setValue_left (query : Query) (left : Nat) :
    query.setValue .left (decimal left) =
      .ok { query with flag := query.flag ||| if decide (2 ^ 32 ∣ left) then peerFlagSeeding else 0 } := by
  simp only [Query.setValue, scanFixedInt_decimal, ne_eq, not_true_eq_false, if_false, ofNat_eq_zero_iff, decide_eq_true_eq]
  split
  next => rfl
  next => simp

private theorem setValue_numwant (query : Query) (n : Int) :
    ∃ numwant, query.setValue .numwant (signedDecimal n) = .ok { query with numwant := numwant } := by
  simp only [Query.setValue, scanFixedInt_signedDecimal, ne_eq, not_true_eq_false, if_false]
  exact ⟨_, rfl⟩

private theorem setValue_compact (query : Query) : query.setValue .compact (decimal 1) = .ok query := by
  simp only [Query.setValue, scanFixedInt_decimal]
  rfl

theorem hashAt_toList {buffer : Bytes} {offset : Nat} {hash : Hash}
    (stored : (buffer.drop offset).take 20 = hash.toList) : hashAt buffer offset = hash := by
  ext i inside
  have byte : hash.toList[i]? = some hash[i] := by simp [inside]
  rw [← stored] at byte
  simp only [hashAt, Vector.getElem_ofFn, List.getD_eq_getElem?_getD]
  simp [inside] at byte
  simp [byte]

private theorem setValue_infoHash {query : Query} (missing : query.hash = none) (hash : Hash) :
    query.setValue .infoHash hash.toList = .ok { query with hash := some hash } := by
  have same : hashAt hash.toList 0 = hash := hashAt_toList (by simp)
  simp [Query.setValue, missing, same]

private theorem Pending.step {query : Query} {param : Param} (pending : Pending announcement query (param :: params)) :
    ∃ next, applyParam query param = .ok next ∧ Pending announcement next params := by
  obtain ⟨hash, port, ⟨seeding, event, flag, left, events⟩, ⟨numwant, compact, peerId⟩⟩ := pending
  simp only [valuesOf_cons, eventsOf] at hash port left events numwant compact peerId
  cases known : keyOf keywordsAnnounce param.name with
  | none =>
    simp only [known, reduceCtorEq, if_false] at hash port left events numwant compact peerId
    exact ⟨query, by simp [applyParam, known], hash, port, ⟨seeding, event, flag, left, events⟩, numwant, compact,
      peerId⟩
  | some key =>
    simp only [known, Option.some.injEq] at hash port left events numwant compact peerId
    cases key with
    | port =>
      simp only [reduceCtorEq, if_false, if_true, List.cons.injEq, false_and, or_false] at *
      refine ⟨{ query with port := announcement.portBytes }, ?_, hash, .inr ⟨port.2, rfl⟩,
        ⟨seeding, event, flag, left, events⟩, numwant, compact, peerId⟩
      rw [applyParam_key known (by decide) (by rw [port.1]; exact decimal_ne_nil _), port.1, setValue_port]
    | left =>
      simp only [reduceCtorEq, if_false, if_true, List.cons.injEq, false_and, or_false] at *
      obtain ⟨⟨value, last⟩, rfl⟩ := left
      refine ⟨{ query with flag := query.flag ||| if decide (2 ^ 32 ∣ announcement.left.toNat) then peerFlagSeeding else 0 },
        ?_, hash, port, ⟨_, event, ?_, .inr ⟨last, rfl⟩, events⟩, numwant, compact, peerId⟩
      · rw [applyParam_key known (by decide) (by rw [value]; exact decimal_ne_nil _), value, setValue_left]
      · simp only [flag, UInt8.zero_or, UInt8.or_comm event]
    | event =>
      simp only [reduceCtorEq, if_false, if_true, List.filterMap_cons] at *
      cases named : keyOf keywordsAnnounceEvent param.value with
      | none =>
        simp only [named] at events
        exact ⟨query, by simp [applyParam, known, named], hash, port, ⟨seeding, event, flag, left, events⟩, numwant,
          compact, peerId⟩
      | some occurred =>
        simp only [named, reduceCtorEq, false_and, or_false] at events
        obtain ⟨only, rfl⟩ := events
        cases said : announcement.event with
        | none => simp [said] at only
        | some stated =>
          simp only [said, Option.toList_some, List.cons.injEq] at only
          obtain ⟨rfl, last⟩ := only
          refine ⟨{ query with flag := query.flag ||| occurred.flag }, by simp [applyParam, known, named], hash, port,
            ⟨seeding, occurred.flag, by simp [flag], left, .inr ⟨last, by simp [Announcement.eventFlag, said]⟩⟩, numwant,
            compact, peerId⟩
    | numwant =>
      simp only [reduceCtorEq, if_false, if_true, List.forall_mem_cons] at *
      obtain ⟨⟨n, value⟩, numwant⟩ := numwant
      obtain ⟨amount, taken⟩ := setValue_numwant query n
      refine ⟨{ query with numwant := amount }, ?_, hash, port, ⟨seeding, event, flag, left, events⟩, numwant, compact,
        peerId⟩
      rw [applyParam_key known (by decide) (by rw [value]; exact signedDecimal_ne_nil _), value, taken]
    | compact =>
      simp only [reduceCtorEq, if_false, if_true, List.forall_mem_cons] at *
      refine ⟨query, ?_, hash, port, ⟨seeding, event, flag, left, events⟩, numwant, compact.2, peerId⟩
      rw [applyParam_key known (by decide) (by rw [compact.1]; exact decimal_ne_nil _), compact.1, setValue_compact]
    | infoHash =>
      simp only [reduceCtorEq, if_false, if_true] at *
      cases missing : query.hash with
      | some other => simp [missing] at hash
      | none =>
        simp only [missing, Option.toList_none, List.map_nil, List.nil_append, List.cons.injEq] at hash
        refine ⟨{ query with hash := some announcement.hash }, ?_, by simp [hash.2], port,
          ⟨seeding, event, flag, left, events⟩, numwant, compact, peerId⟩
        have text : param.value ≠ [] := fun empty => by simpa [empty] using congrArg List.length hash.1
        rw [applyParam_key known (by decide) text, hash.1, setValue_infoHash missing]
    | peerId =>
      simp only [reduceCtorEq, if_false, if_true, List.forall_mem_cons] at *
      have text : param.value ≠ [] := fun empty => by simp [empty] at peerId
      refine ⟨{ query with peerId := some param.value }, ?_, hash, port, ⟨seeding, event, flag, left, events⟩, numwant,
        compact, peerId.2⟩
      rw [applyParam_key known (by decide) text]
      simp [Query.setValue, peerId.1]

theorem query_found (carried : announcement.InQuery params) :
    ∃ query, params.foldlM applyParam Query.initial = .ok query ∧ query.hash = some announcement.hash ∧
      query.port = announcement.portBytes ∧
      query.flag = announcement.flag (2 ^ 32 ∣ announcement.left.toNat) := by
  have taken : ∀ (params : List Param) (query : Query), Pending announcement query params →
      ∃ final, params.foldlM applyParam query = .ok final ∧ Pending announcement final [] := by
    intro params
    induction params with
    | nil => exact fun query pending => ⟨query, rfl, pending⟩
    | cons param params ih =>
      intro query pending
      obtain ⟨next, step, pending⟩ := pending.step
      obtain ⟨final, rest, pending⟩ := ih next pending
      exact ⟨final, by rw [List.foldlM_cons, step]; exact rest, pending⟩
  obtain ⟨query, final, ⟨hash, port, ⟨seeding, event, flag, left, events⟩, _⟩⟩ :=
    taken params .initial (.of_inQuery carried)
  refine ⟨query, final, ?_, ?_, ?_⟩
  · cases found : query.hash with
    | none => simp [found, valuesOf] at hash
    | some other =>
      have same : other.toList = announcement.hash.toList := by simpa [found, valuesOf] using hash
      rw [Vector.toList_inj.mp same]
  · simpa [valuesOf] using port
  · have complete : seeding = if decide (2 ^ 32 ∣ announcement.left.toNat) then peerFlagSeeding else 0 := by
      simpa [valuesOf] using left
    have happened : event = announcement.eventFlag := by
      rcases events with ⟨none, rfl⟩ | ⟨_, same⟩
      · cases said : announcement.event with
        | none => simp [Announcement.eventFlag, said]
        | some stated => simp [eventsOf, valuesOf, said] at none
      · exact same
    rw [flag, complete, happened, Announcement.flag]

end Query

theorem length_queryText (params : List Param) : params.length ≤ (queryText params).length := by
  induction params with
  | nil => simp
  | cons param params ih =>
    cases params with
    | nil =>
      simp only [queryText, Param.text, List.length_append, List.length_cons, List.length_nil]
      omega
    | cons next params =>
      simp only [queryText, Param.text, List.length_append, List.length_cons] at ih ⊢
      omega

private theorem httpHandleRequest_announce {pathText path : Bytes} (located : Encodes .path pathText path)
    (announce : path.head? = some 97) (read : Bytes) (literals : Literals) (redirecturl : Bool) (statsPath : Bytes)
    (random : List Nat) (ip : Ip6) (age : UInt8) :
    httpHandleRequest literals redirecturl statsPath random ip age (ascii "GET /" ++ (pathText ++ 63 :: read)) =
      httpHandleAnnounce literals random ip age (some 63) read := by
  have get : ascii "GET /" = [71, 69, 84, 32, 47] := by decide
  have start : (pathText ++ 63 :: read).dropWhile (fun c => c = 47) = pathText ++ 63 :: read := by
    cases located with
    | nil => simp at announce
    | plain => simp_all
    | escaped => simp
  have text : scanUrlencodedQuery .path (pathText ++ 63 :: read) = .text path read := by
    have scanned := scanFrom_encodes located [] (by decide : ScanFlag.path.accepts 63 = false) read
    simpa [scanUrlencodedQuery, scanStop] using scanned
  have previous : ((pathText ++ 63 :: read).take ((pathText ++ 63 :: read).length - read.length)).getLast? = some 63 := by
    have whole : pathText ++ 63 :: read = (pathText ++ [63]) ++ read := by simp
    have length : (pathText ++ 63 :: read).length - read.length = (pathText ++ [63]).length := by
      rw [whole, List.length_append, Nat.add_sub_cancel]
    rw [length, whole, List.take_left]
    simp
  have nonempty : path ≠ [] := fun empty => by simp [empty] at announce
  simp only [List.length_append, List.length_cons] at previous
  simp [httpHandleRequest, get, start, text, previous, nonempty, announce]

theorem http_call {announcement : Announcement} {request : Bytes} (carried : announcement.InRequest request)
    (literals : Literals) (redirecturl : Bool) (statsPath : Bytes) (random : List Nat) (ip : Ip6) (age : UInt8) :
    ∃ numwant, httpHandleRequest literals redirecturl statsPath random ip age request =
      .call (announceCall .tcp random announcement.hash
        ⟨otSetip ip, announcement.portBytes, announcement.flag (2 ^ 32 ∣ announcement.left.toNat), age⟩ numwant) := by
  cases carried with
  | @mk _ _ params c located announce query ends rest =>
    obtain ⟨found, folded, hash, port, flag⟩ := query_found query
    have fuel : params.length < (queryText params ++ c :: rest).length + 1 := by
      have bound := length_queryText params
      simp only [List.length_append]
      omega
    have scanned := (@announceScan_query c literals params query.plain _ fuel .initial ends rest).trans folded
    refine ⟨found.numwant.toNat, ?_⟩
    rw [httpHandleRequest_announce located announce]
    simp only [httpHandleAnnounce, seekQuery, if_true, bind, Except.bind, scanned, hash, port, flag]

end BtServer.Proofs.AnnounceQuery

import BtServer.Proofs.KeywordMatch

/-! Tokens that are decoded over the request they are read from. A scan never writes further than it has
read, so what is left to read is still the text that came in. -/

namespace BtServer.Proofs.InPlaceTokens
open Lib RequestMemory QueryScan PercentDecoding KeywordMatch

variable {ε κ : Type}

section Memory
variable {memory bytes : Bytes} {position s : Nat}

theorem drop_overwrite (before : position + bytes.length ≤ s) (room : position + bytes.length ≤ memory.length) :
    (overwrite memory position bytes).drop s = memory.drop s := by
  have size : (memory.take position ++ bytes).length = position + bytes.length := by
    rw [List.length_append, List.length_take]
    omega
  obtain ⟨more, rfl⟩ := Nat.exists_eq_add_of_le before
  rw [overwrite, ← List.drop_drop, List.drop_left' size, List.drop_drop]

theorem take_overwrite_before (before : s ≤ position) (inside : position ≤ memory.length) :
    (overwrite memory position bytes).take s = memory.take s := by
  rw [overwrite, List.append_assoc, List.take_append_of_le_length (by rw [List.length_take]; omega), List.take_take,
    Nat.min_eq_left before]

end Memory

section Scans
variable {flag : ScanFlag} {memory text token rest : Bytes} {string deststring : Nat} {c : UInt8} {scan : Scan}

/-- A token at a position: its text, what it stands for, and the character that ends it. -/
structure TokenAt (flag : ScanFlag) (memory : Bytes) (string : Nat) (text token : Bytes) (c : UInt8) (rest : Bytes) :
    Prop where
  here : memory.drop string = text ++ c :: rest
  encodes : Encodes flag text token
  ends : EndsToken flag c

namespace TokenAt

theorem length (occurs : TokenAt flag memory string text token c rest) : string + text.length + 1 + rest.length = memory.length := by
  have whole := congrArg List.length occurs.here
  rw [List.length_drop, List.length_append, List.length_cons] at whole
  omega

theorem shorter (occurs : TokenAt flag memory string text token c rest) : token.length ≤ text.length := encodes_length occurs.encodes

theorem room (occurs : TokenAt flag memory string text token c rest) (before : deststring ≤ string) :
    deststring + token.length ≤ memory.length := by
  have length := occurs.length
  have shorter := occurs.shorter
  omega

theorem cursor_least (flag : ScanFlag) (position : Nat) (c : UInt8) : position ≤ cursor flag position c := by
  rw [cursor]
  split <;> omega

theorem scanned (mode : flag ≠ .path) (occurs : TokenAt flag memory string text token c rest) (before : deststring ≤ string)
    (some : token ≠ [] ∨ ¬ Terminates c) :
    (RequestMemory.scanUrlencodedQuery memory string deststring flag : Access ε Scan) =
      .ok ⟨token.length, cursor flag (string + text.length) c, overwrite memory deststring token⟩ := by
  have length := occurs.length
  have count : token.length ≠ 0 ∨ ¬ Terminates c := some.imp_left fun some => by simpa using some
  rw [RequestMemory.scanUrlencodedQuery, scanLoop_encodes occurs.encodes (endsToken_stops mode occurs.ends) _ (stands_drop occurs.here)
    (.inl before) (occurs.room before) (by omega), scanStop_ends mode occurs.ends count]

end TokenAt

theorem scan_end (flag : ScanFlag) (here : memory.drop string = c :: rest) (ends : Terminates c) :
    (RequestMemory.scanUrlencodedQuery memory string deststring flag : Access ε Scan) = .ok ⟨-2, string, memory⟩ := by
  have stops : flag.accepts c = false := by rcases ends with rfl | rfl | rfl | rfl <;> cases flag <;> decide
  have found : memory[string]? = some c := by
    rw [← Nat.add_zero string, ← List.getElem?_drop, here]
    rfl
  rw [RequestMemory.scanUrlencodedQuery, scanLoop_stop found stops, RequestMemory.scanStop,
    if_pos (show c = 0 ∨ c = 13 ∨ c = 10 ∨ c = 32 from ends), if_pos rfl]

theorem scan_known (mode : flag ≠ .path) (before : deststring ≤ string)
    (ran : (RequestMemory.scanUrlencodedQuery memory string deststring flag : Access ε Scan) = .ok scan) (known : 0 ≤ scan.returned) :
    ∃ text token c rest, TokenAt flag memory string text token c rest ∧ (token ≠ [] ∨ ¬ Terminates c) ∧
      scan = ⟨token.length, cursor flag (string + text.length) c, overwrite memory deststring token⟩ := by
  obtain ⟨text, token, c, stands, encodes, stops, rfl⟩ := scanLoop_decodes _ ran known (.inl before)
  obtain ⟨ends, some⟩ := scanStop_known mode known
  obtain ⟨rest, here⟩ := stands.drop
  refine ⟨text, token, c, rest, ⟨here, encodes, ends⟩, some.imp_left fun some => by simpa using some, ?_⟩
  exact scanStop_ends mode ends some

private theorem scanStop_finished {s d : Nat} (started : deststring ≤ d)
    (finished : (RequestMemory.scanStop flag string deststring memory s d c).returned = -2) : d = deststring ∧ Terminates c := by
  have failed : ¬ (-1 : Int) = -2 := by decide
  have counted : ¬ (d : Int) - deststring = -2 := by omega
  unfold RequestMemory.scanStop at finished
  dsimp only at finished
  by_cases hard : c = 0 ∨ c = 13 ∨ c = 10 ∨ c = 32
  · by_cases first : d = deststring
    · exact ⟨first, hard⟩
    · rw [if_pos hard, if_neg first] at finished
      exact absurd finished counted
  · rw [if_neg hard] at finished
    split_ifs at finished
    all_goals first | exact absurd finished failed | exact absurd finished counted

private theorem scanLoop_finished (fuel : Nat) {s d : Nat} (started : deststring ≤ d)
    (ran : (scanLoop flag string deststring fuel memory s d : Access ε Scan) = .ok scan) (finished : scan.returned = -2) :
    d = deststring ∧ ∃ c, memory[s]? = some c ∧ Terminates c := by
  have failed : ¬ (.ok ⟨-1, string, memory⟩ : Access ε Scan) = .ok scan := by
    rintro ⟨⟩
    exact absurd finished (show ¬ (-1 : Int) = -2 by decide)
  induction fuel generalizing memory s d with
  | zero => cases ran
  | succ fuel ih =>
    have later : ∀ value next, (store memory d value >>= fun memory => scanLoop flag string deststring fuel memory next (d + 1) :
        Access ε Scan) = .ok scan → False := by
      intro value next ran
      obtain ⟨after, _, ran⟩ := Access.bind_ok.mp ran
      have again : ¬ (.ok ⟨-1, string, after⟩ : Access ε Scan) = .ok scan := by
        rintro ⟨⟩
        exact absurd finished (show ¬ (-1 : Int) = -2 by decide)
      have first := (ih (Nat.le_succ_of_le started) ran again).1
      omega
    rw [scanLoop] at ran
    obtain ⟨c, found, ran⟩ := Access.bind_ok.mp ran
    split at ran
    next =>
      split at ran
      next =>
        obtain ⟨high, _, ran⟩ := Access.bind_ok.mp ran
        split at ran
        next => exact absurd ran failed
        next =>
          obtain ⟨low, _, ran⟩ := Access.bind_ok.mp ran
          split at ran
          next => exact absurd ran failed
          next => exact (later _ _ ran).elim
      next => exact (later _ _ ran).elim
    next =>
      cases ran
      obtain ⟨first, hard⟩ := scanStop_finished started finished
      exact ⟨first, c, fetch_ok.mp found, hard⟩

theorem scan_finished (ran : (RequestMemory.scanUrlencodedQuery memory string deststring flag : Access ε Scan) = .ok scan)
    (finished : scan.returned = -2) : ∃ c rest, memory.drop string = c :: rest ∧ Terminates c := by
  obtain ⟨_, c, found, ends⟩ := scanLoop_finished _ (le_refl _) ran finished
  obtain ⟨inside, rfl⟩ := List.getElem?_eq_some_iff.mp found
  exact ⟨_, _, List.drop_eq_getElem_cons inside, ends⟩

end Scans

section Keywords
variable {flag : ScanFlag} {memory text token rest : Bytes} {string : Nat} {c : UInt8} {behind : Behind}
  {keywords : List (CString × κ)} {search : Search κ}

/-- What the search returns for a token; there is no keyword without a character. -/
def keywordOf (behind : Behind) (keywords : List (CString × κ)) (token : Bytes) : Access ε (Keyword κ) :=
  if token = [] then .ok .unknown else findKeyword behind token keywords

theorem findKeyword_returns {returned : Keyword κ} (found : (findKeyword behind token keywords : Access ε (Keyword κ)) = .ok returned) :
    returned = .unknown ∨ ∃ key, returned = .found key := by
  induction keywords with
  | nil =>
    cases found
    exact .inl rfl
  | cons keyword keywords ih =>
    rw [findKeyword] at found
    obtain ⟨same, _, found⟩ := Access.bind_ok.mp found
    cases same with
    | true =>
      cases found
      exact .inr ⟨_, rfl⟩
    | false => exact ih found

theorem keywordOf_returns {returned : Keyword κ} (found : (keywordOf behind keywords token : Access ε (Keyword κ)) = .ok returned) :
    returned = .unknown ∨ ∃ key, returned = .found key := by
  rw [keywordOf] at found
  split at found
  next =>
    cases found
    exact .inl rfl
  next => exact findKeyword_returns found

theorem TokenAt.searched (mode : flag ≠ .path) (occurs : TokenAt flag memory string text token c rest)
    (some : token ≠ [] ∨ ¬ Terminates c) :
    (RequestMemory.scanFindKeywords behind keywords memory string flag : Access ε (Search κ)) =
      (keywordOf behind keywords token >>= fun returned =>
        .ok ⟨returned, cursor flag (string + text.length) c, overwrite memory string token⟩) := by
  have room := occurs.room (le_refl string)
  have block : (fetchBlock (overwrite memory string token) string token.length : Access ε Bytes) = .ok token := by
    rw [fetchBlock_eq (by rw [length_overwrite room]; exact room), token_at room]
  have count : ((token.length : Int)).toNat = token.length := Int.toNat_natCast _
  have scanned : (RequestMemory.scanUrlencodedQuery memory string string flag : Access ε Scan) = .ok _ :=
    occurs.scanned mode (le_refl string) some
  by_cases empty : token = []
  · subst empty
    simp [RequestMemory.scanFindKeywords, scanned, keywordOf, bind, Except.bind]
  · have positive : 0 < token.length := List.length_pos_of_ne_nil empty
    simp only [RequestMemory.scanFindKeywords, scanned, bind, Except.bind, keywordOf, if_neg empty, count, block,
      if_neg (show ¬ (token.length : Int) = -2 by omega), if_neg (show ¬ (token.length : Int) < 0 by omega),
      if_neg (show ¬ (token.length : Int) = 0 by omega)]

theorem search_end (here : memory.drop string = c :: rest) (ends : Terminates c) :
    (RequestMemory.scanFindKeywords behind keywords memory string flag : Access ε (Search κ)) =
      .ok ⟨.terminator, string, memory⟩ := by
  simp only [RequestMemory.scanFindKeywords, scan_end flag here ends, bind, Except.bind, if_true]

section Agreement
variable (literals : Literals) (words : List (String × κ))

theorem findKeyword_agrees :
    (findKeyword (fun key index => some (literals key index)) token (compiled words) : Access ε (Keyword κ)) =
      .ok (match words.find? fun word => (cString word.1).takenFor literals token with
        | none => .unknown
        | some word => .found word.2) := by
  induction words with
  | nil => rfl
  | cons word words ih =>
    rw [compiled, List.map_cons, findKeyword, found_takenFor fun _ => .inr rfl, List.find?_cons]
    cases (cString word.1).takenFor literals token with
    | true => rfl
    | false => exact ih

theorem scanStop_ends_text (mode : flag ≠ .path) (ends : EndsToken flag c) (some : token ≠ [] ∨ ¬ Terminates c) :
    BtServer.scanStop flag token c rest = .text token ((c :: rest).drop (cursor flag 0 c)) := by
  by_cases hard : Terminates c
  · rw [BtServer.scanStop, if_pos (show c = 0 ∨ c = 13 ∨ c = 10 ∨ c = 32 from hard),
      if_neg (some.resolve_right (not_not.mpr hard))]
    rcases hard with rfl | rfl | rfl | rfl <;> simp [cursor]
  · rw [BtServer.scanStop, if_neg (show ¬ (c = 0 ∨ c = 13 ∨ c = 10 ∨ c = 32) from hard)]
    rcases ends with rfl | terminates | ⟨rfl, rfl⟩
    · cases flag with
      | path => exact absurd rfl mode
      | param | value => simp [cursor]
    · exact absurd terminates hard
    · simp [cursor]

/-- The search in a buffer finds what the search in the text that is left finds, and goes on where that does. -/
theorem TokenAt.search_agrees (mode : flag ≠ .path) (occurs : TokenAt flag memory string text token c rest)
    (some : token ≠ [] ∨ ¬ Terminates c) :
    ∃ next, (RequestMemory.scanFindKeywords (fun key index => Option.some (literals key index)) (compiled words) memory string flag :
        Access ε (Search κ)) =
          .ok ⟨(BtServer.scanFindKeywords literals words flag (memory.drop string)).1, next, overwrite memory string token⟩ ∧
      (overwrite memory string token).drop next = (BtServer.scanFindKeywords literals words flag (memory.drop string)).2 := by
  have shorter := occurs.shorter
  have room := occurs.room (le_refl string)
  have scanned : BtServer.scanUrlencodedQuery flag (memory.drop string) = .text token ((c :: rest).drop (cursor flag 0 c)) := by
    rw [occurs.here]
    exact (scanFrom_encodes occurs.encodes [] (endsToken_stops mode occurs.ends) rest).trans (scanStop_ends_text mode occurs.ends some)
  have left : (overwrite memory string token).drop (cursor flag (string + text.length) c) = (c :: rest).drop (cursor flag 0 c) := by
    have behind : cursor flag (string + text.length) c = string + text.length + cursor flag 0 c := by
      simp only [cursor]
      split <;> omega
    rw [drop_overwrite (by omega) room, behind, ← List.drop_drop, ← List.drop_drop, occurs.here, List.drop_left]
  refine ⟨cursor flag (string + text.length) c, ?_, ?_⟩
  · rw [occurs.searched mode some, keywordOf]
    simp only [BtServer.scanFindKeywords, scanned]
    split
    next => rfl
    next =>
      rw [findKeyword_agrees]
      cases words.find? fun word => (cString word.1).takenFor literals token <;> rfl
  · rw [left]
    simp only [BtServer.scanFindKeywords, scanned]
    split
    next => rfl
    next => cases words.find? fun word => (cString word.1).takenFor literals token <;> rfl

end Agreement

theorem search_token (mode : flag ≠ .path)
    (ran : (RequestMemory.scanFindKeywords behind keywords memory string flag : Access ε (Search κ)) = .ok search)
    (known : search.returned ≠ .terminator) (well : search.returned ≠ .error) :
    ∃ text token c rest, TokenAt flag memory string text token c rest ∧ (token ≠ [] ∨ ¬ Terminates c) ∧
      (keywordOf behind keywords token : Access ε (Keyword κ)) = .ok search.returned ∧
      search.string = cursor flag (string + text.length) c ∧ search.memory = overwrite memory string token := by
  have again := ran
  rw [RequestMemory.scanFindKeywords] at ran
  obtain ⟨scan, scanned, ran⟩ := Access.bind_ok.mp ran
  by_cases finished : scan.returned = -2
  · rw [if_pos finished] at ran
    cases ran
    exact absurd rfl known
  · rw [if_neg finished] at ran
    by_cases failed : scan.returned < 0
    · rw [if_pos failed] at ran
      cases ran
      exact absurd rfl well
    · obtain ⟨text, token, c, rest, occurs, some, _⟩ := scan_known mode (le_refl string) scanned (not_lt.mp failed)
      rw [occurs.searched mode some] at again
      obtain ⟨returned, found, same⟩ := Access.bind_ok.mp again
      cases same
      exact ⟨text, token, c, rest, occurs, some, found, rfl, rfl⟩

theorem search_finished
    (ran : (RequestMemory.scanFindKeywords behind keywords memory string flag : Access ε (Search κ)) = .ok search)
    (finished : search.returned = .terminator) : (∃ c rest, memory.drop string = c :: rest ∧ Terminates c) ∧ search.memory = memory := by
  have again := ran
  rw [RequestMemory.scanFindKeywords] at ran
  obtain ⟨scan, scanned, ran⟩ := Access.bind_ok.mp ran
  by_cases done : scan.returned = -2
  · obtain ⟨c, rest, here, ends⟩ := scan_finished scanned done
    rw [search_end here ends] at again
    cases again
    exact ⟨⟨c, rest, here, ends⟩, rfl⟩
  · rw [if_neg done] at ran
    by_cases failed : scan.returned < 0
    · rw [if_pos failed] at ran
      cases ran
      cases finished
    · rw [if_neg failed] at ran
      by_cases empty : scan.returned = 0
      · rw [if_pos empty] at ran
        cases ran
        cases finished
      · rw [if_neg empty] at ran
        obtain ⟨token, _, ran⟩ := Access.bind_ok.mp ran
        obtain ⟨returned, found, same⟩ := Access.bind_ok.mp ran
        cases same
        rcases findKeyword_returns found with rfl | ⟨key, rfl⟩ <;> cases finished

end Keywords

section Values
variable {memory text value rest : Bytes} {read deststring : Nat} {c : UInt8} {scan : Scan}

theorem takeHash_ok (before : deststring ≤ read) (ran : takeHash memory read deststring = .ok scan) :
    ∃ text value c rest, TokenAt .value memory read text value c rest ∧ value.length = 20 ∧
      scan = ⟨20, cursor .value (read + text.length) c, overwrite memory deststring value⟩ := by
  rw [takeHash] at ran
  obtain ⟨scan, scanned, ran⟩ := Access.bind_ok.mp ran
  by_cases twenty : scan.returned = 20
  · rw [if_neg (not_not.mpr twenty)] at ran
    cases ran
    obtain ⟨text, value, c, rest, occurs, _, rfl⟩ := scan_known (by decide) before scanned (by omega)
    have length : value.length = 20 := by
      dsimp only at twenty
      omega
    refine ⟨text, value, c, rest, occurs, length, ?_⟩
    rw [length]
    rfl
  · rw [if_pos twenty] at ran
    cases ran

theorem skipped {memory text rest : Bytes} {s : Nat} {c : UInt8} (here : memory.drop s = text ++ c :: rest)
    (accepted : ∀ c ∈ text, ScanFlag.value.accepts c = true) (stops : ScanFlag.value.accepts c = false) {fuel : Nat}
    (enough : text.length < fuel) :
    (skipLoop memory fuel s : Access ε Nat) =
      .ok (if isUnreserved c &&& scanTerminator != 0 then s + text.length else s + text.length + 1) := by
  induction text generalizing s fuel with
  | nil =>
    obtain ⟨fuel, rfl⟩ := Nat.exists_eq_add_of_lt enough
    have found : memory[s]? = some c := by
      rw [← Nat.add_zero s, ← List.getElem?_drop, here]
      rfl
    simp only [skipLoop, fetch_eq found, bind, Except.bind, stops, Bool.false_eq_true, if_false, List.length_nil, Nat.add_zero,
      Nat.zero_add]
    split <;> rfl
  | cons first text ih =>
    obtain ⟨fuel, rfl⟩ : ∃ more, fuel = more + 1 := ⟨fuel - 1, by omega⟩
    rw [List.forall_mem_cons] at accepted
    have found : memory[s]? = some first := by
      rw [← Nat.add_zero s, ← List.getElem?_drop, here]
      rfl
    have next : memory.drop (s + 1) = text ++ c :: rest := by
      rw [← List.drop_drop, here]
      rfl
    simp only [skipLoop, fetch_eq found, bind, Except.bind, accepted.1, if_true]
    rw [ih next accepted.2 (by simpa using enough), List.length_cons]
    congr 1
    split <;> omega

theorem skip_ok {s next : Nat} (ran : (RequestMemory.scanUrlencodedSkipvalue memory s : Access ε Nat) = .ok next) :
    ∃ text c rest, memory.drop s = text ++ c :: rest ∧ (∀ c ∈ text, ScanFlag.value.accepts c = true) ∧
      ScanFlag.value.accepts c = false ∧
      next = if isUnreserved c &&& scanTerminator != 0 then s + text.length else s + text.length + 1 := by
  rw [RequestMemory.scanUrlencodedSkipvalue] at ran
  have stands : ∃ text c rest, memory.drop s = text ++ c :: rest ∧ (∀ c ∈ text, ScanFlag.value.accepts c = true) ∧
      ScanFlag.value.accepts c = false := by
    generalize memory.length + 1 = fuel at ran
    induction fuel generalizing s with
    | zero => cases ran
    | succ fuel ih =>
      rw [skipLoop] at ran
      obtain ⟨c, found, ran⟩ := Access.bind_ok.mp ran
      obtain ⟨inside, rfl⟩ := List.getElem?_eq_some_iff.mp (fetch_ok.mp found)
      have here := List.drop_eq_getElem_cons inside
      by_cases accepted : ScanFlag.value.accepts memory[s] = true
      · rw [if_pos accepted] at ran
        obtain ⟨text, c, rest, there, goes, stops⟩ := ih ran
        refine ⟨memory[s] :: text, c, rest, by rw [here, there]; rfl, ?_, stops⟩
        exact List.forall_mem_cons.mpr ⟨accepted, goes⟩
      · exact ⟨[], memory[s], memory.drop (s + 1), here, by simp, by simpa using accepted⟩
  obtain ⟨text, c, rest, here, accepted, stops⟩ := stands
  have length := congrArg List.length here
  rw [List.length_drop, List.length_append] at length
  rw [skipped here accepted stops (by omega)] at ran
  exact ⟨text, c, rest, here, accepted, stops, (Except.ok.inj ran).symm⟩

end Values

end BtServer.Proofs.InPlaceTokens

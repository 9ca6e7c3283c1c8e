import BtServer.Announce

/-! Query strings as they are written: what the scanner makes of encoded text, and what
`http_handle_announce` makes of a list of encoded parameters. -/

namespace BtServer.Proofs.QueryScan
open Lib

variable {tail next : Bytes} {c : UInt8}

/-- A text that stands for some bytes at a place of a URL: every character is the byte
itself or its code. -/
inductive Encodes (flag : ScanFlag) : Bytes → Bytes → Prop where
  | nil : Encodes flag [] []
  | plain {c : UInt8} {text bytes : Bytes} (accepted : flag.accepts c = true) (raw : c ≠ 37)
      (rest : Encodes flag text bytes) : Encodes flag (c :: text) (c :: bytes)
  | escaped {high low : UInt8} {text bytes : Bytes} (first : fromhex high ≠ 0xff) (second : fromhex low ≠ 0xff)
      (rest : Encodes flag text bytes) :
      Encodes flag (37 :: high :: low :: text) ((fromhex low ||| fromhex high <<< 4) :: bytes)

def Terminates (c : UInt8) : Prop := c = 0 ∨ c = 13 ∨ c = 10 ∨ c = 32

section Text
variable {flag : ScanFlag} {text bytes : Bytes}

theorem scanFrom_encodes (encodes : Encodes flag text bytes) (decoded : Bytes) (stops : flag.accepts c = false) (rest : Bytes) :
    scanFrom flag decoded (text ++ c :: rest) = scanStop flag (decoded ++ bytes) c rest := by
  induction encodes generalizing decoded with
  | nil =>
    unfold scanFrom
    simp [stops]
  | plain accepted raw _ ih =>
    unfold scanFrom
    simp [accepted, raw, ih]
  | escaped first second _ ih =>
    have percent : flag.accepts 37 = true := by cases flag <;> decide
    simp [scanFrom, percent, first, second, ih]

theorem accepts_hex : ∀ c : UInt8, fromhex c ≠ 0xff → ScanFlag.value.accepts c = true :=
  forall_byte (by decide +kernel)

theorem skipvalue_encodes (encodes : Encodes .value text bytes) (rest : Bytes) :
    scanUrlencodedSkipvalue (text ++ rest) = scanUrlencodedSkipvalue rest := by
  induction encodes with
  | nil => rfl
  | plain accepted _ _ ih => simpa [scanUrlencodedSkipvalue, accepted] using ih
  | escaped first second _ ih =>
    have percent : ScanFlag.value.accepts 37 = true := by decide
    simpa [scanUrlencodedSkipvalue, percent, accepts_hex _ first, accepts_hex _ second] using ih

/-- What may follow a value, and where the scanner goes on: behind an ampersand, or at
the end of the query. -/
inductive Follows : Bytes → Bytes → Prop where
  | next (rest : Bytes) : Follows (38 :: rest) rest
  | done {c : UInt8} (ends : Terminates c) (rest : Bytes) : Follows (c :: rest) (c :: rest)

theorem scan_name (encodes : Encodes .param text bytes) (rest : Bytes) :
    scanUrlencodedQuery .param (text ++ 61 :: rest) = .text bytes rest := by
  have scanned := scanFrom_encodes encodes [] (by decide : ScanFlag.param.accepts 61 = false) rest
  simpa [scanUrlencodedQuery, scanStop] using scanned

theorem scan_end (flag : ScanFlag) (ends : Terminates c) (rest : Bytes) :
    scanUrlencodedQuery flag (c :: rest) = .terminator := by
  have stops : flag.accepts c = false := by rcases ends with rfl | rfl | rfl | rfl <;> cases flag <;> decide
  have scanned := scanFrom_encodes (.nil : Encodes flag [] []) [] stops rest
  rcases ends with rfl | rfl | rfl | rfl <;> simpa [scanUrlencodedQuery, scanStop] using scanned

theorem scan_value (encodes : Encodes .value text bytes) (follows : Follows tail next) :
    scanUrlencodedQuery .value (text ++ tail) = .text bytes next ∨
      bytes = [] ∧ text ++ tail = next ∧ scanUrlencodedQuery .value (text ++ tail) = .terminator := by
  cases follows with
  | next rest =>
    have scanned := scanFrom_encodes encodes [] (by decide : ScanFlag.value.accepts 38 = false) next
    exact .inl (by simpa [scanUrlencodedQuery, scanStop] using scanned)
  | @done c ends rest =>
    have stops : ScanFlag.value.accepts c = false := by rcases ends with rfl | rfl | rfl | rfl <;> decide
    have scanned := scanFrom_encodes encodes [] stops rest
    have stopped : scanStop .value ([] ++ bytes) c rest = if bytes = [] then .terminator else .text bytes (c :: rest) := by
      rcases ends with rfl | rfl | rfl | rfl <;> simp [scanStop]
    cases encodes with
    | nil => exact .inr ⟨rfl, rfl, scanned.trans stopped⟩
    | plain | escaped => exact .inl (scanned.trans stopped)

theorem skip_value (encodes : Encodes .value text bytes) (follows : Follows tail next) :
    scanUrlencodedSkipvalue (text ++ tail) = next := by
  rw [skipvalue_encodes encodes]
  cases follows with
  | next rest => rfl
  | done ends rest => rcases ends with rfl | rfl | rfl | rfl <;> rfl

end Text

section Keywords
variable {key : CString} {token : Bytes}

/-- The token goes on behind the keyword and a NUL. -/
def Overruns (key : CString) (token : Bytes) : Prop := key.chars ++ [0] <+: token

theorem strncmpEqual_iff (chars token : Bytes) (plain : 0 ∉ chars) :
    strncmpEqual (chars ++ [0]) token = true ↔ token <+: chars ++ [0] ∨ chars ++ [0] <+: token := by
  induction chars generalizing token with
  | nil =>
    cases token with
    | nil => simp [strncmpEqual]
    | cons c token =>
      by_cases zero : 0 = c
      · subst zero
        simp [strncmpEqual]
      · simp [strncmpEqual, zero, Ne.symm zero]
  | cons k chars ih =>
    rw [List.mem_cons, not_or] at plain
    cases token with
    | nil => simp [strncmpEqual]
    | cons c token =>
      have rest := ih token plain.2
      by_cases same : k = c
      · subst same
        simp only [List.cons_append, strncmpEqual, ne_eq, not_true_eq_false, if_false, if_neg (Ne.symm plain.1), rest,
          List.cons_prefix_cons, true_and]
      · simp [strncmpEqual, same, Ne.symm same]

theorem compared_inside (clean : ¬ Overruns key token) (equal : strncmpEqual (key.chars ++ [0]) token = true) :
    ∃ c rest, key.chars ++ [0] = token ++ c :: rest := by
  obtain ⟨rest, whole⟩ := ((strncmpEqual_iff key.chars token key.plain).mp equal).resolve_right clean
  cases rest with
  | nil =>
    rw [List.append_nil] at whole
    exact absurd ⟨[], by rw [List.append_nil, whole]⟩ clean
  | cons c rest => exact ⟨c, rest, whole.symm⟩

theorem takenFor_exact (literals : Literals) (clean : ¬ Overruns key token) :
    key.takenFor literals token = decide (key.chars = token) := by
  by_cases equal : strncmpEqual (key.chars ++ [0]) token = true
  · obtain ⟨c, rest, whole⟩ := compared_inside clean equal
    have there : (key.chars ++ [0])[token.length]? = some c := by
      rw [whole, List.getElem?_append_right (le_refl _), Nat.sub_self, List.getElem?_cons_zero]
    have zero : c = 0 ↔ key.chars = token := by
      constructor
      · rintro rfl
        rcases List.eq_nil_or_concat rest with rfl | ⟨front, last, rfl⟩
        · exact List.append_inj_left' whole rfl
        · -- A NUL inside of the keyword.
          have inside : key.chars = token ++ 0 :: front := by
            rw [List.concat_eq_append, ← List.cons_append, ← List.append_assoc] at whole
            exact List.append_inj_left' whole rfl
          exact absurd (show 0 ∈ key.chars by rw [inside]; simp) key.plain
      · intro same
        rw [← same] at whole
        exact (List.cons.inj (List.append_cancel_left whole)).1.symm
    rw [CString.takenFor, equal, there, Bool.true_and, Option.getD_some, beq_eq_decide, decide_eq_decide]
    exact zero
  · have other : key.chars ≠ token := by
      intro same
      exact equal ((strncmpEqual_iff key.chars token key.plain).mpr (.inl ⟨[0], by rw [same]⟩))
    rw [CString.takenFor, Bool.eq_false_iff.mpr equal, Bool.false_and, decide_eq_false other]

theorem plain_clean (plain : 0 ∉ token) : ¬ Overruns key token := fun overruns => plain (overruns.subset (by simp))

end Keywords

structure Param where
  name : Bytes
  value : Bytes
  nameText : Bytes
  valueText : Bytes
  named : Encodes .param nameText name
  valued : Encodes .value valueText value

def Param.text (param : Param) : Bytes := param.nameText ++ 61 :: param.valueText

def queryText : List Param → Bytes
  | [] => []
  | [param] => param.text
  | param :: rest => param.text ++ 38 :: queryText rest

def keyOf {κ : Type} (keywords : List (String × κ)) (name : Bytes) : Option κ :=
  (keywords.find? fun keyword => (cString keyword.1).chars = name).map Prod.snd

/-- No name and no event goes on behind a NUL. -/
def Param.Plain (param : Param) : Prop :=
  0 ∉ param.name ∧ (keyOf keywordsAnnounce param.name = some .event → 0 ∉ param.value)

def applyParam (query : Query) (param : Param) : Except HttpError Query :=
  match keyOf keywordsAnnounce param.name with
  | none => .ok query
  | some .event =>
    match keyOf keywordsAnnounceEvent param.value with
    | none => .ok query
    | some event => .ok { query with flag := query.flag ||| event.flag }
  | some key => if param.value = [] then .error .param400 else query.setValue key param.value

section Turns
variable {literals : Literals}

private theorem find_name {param : Param} (plain : param.Plain) (rest : Bytes) :
    scanFindKeywords literals keywordsAnnounce .param (param.nameText ++ 61 :: rest) =
      ((keyOf keywordsAnnounce param.name).elim .unknown .found, rest) := by
  simp only [scanFindKeywords, scan_name param.named, keyOf, takenFor_exact literals (plain_clean plain.1)]
  split
  next empty =>
    have none : keywordsAnnounce.find? (fun keyword => decide ((cString keyword.1).chars = param.name)) = none := by
      rw [empty]
      decide
    simp [none]
  next => cases keywordsAnnounce.find? (fun keyword => decide ((cString keyword.1).chars = param.name)) <;> rfl

private theorem scanValue_valued (param : Param) (follows : Follows tail next) :
    scanValue (param.valueText ++ tail) = if param.value = [] then .error .param400 else .ok (param.value, next) := by
  rcases scan_value param.valued follows with scanned | ⟨empty, _, scanned⟩
  · simp [scanValue, scanned]
  · simp [scanValue, scanned, empty]

private theorem find_event (literals : Literals) (param : Param) (plain : 0 ∉ param.value) (follows : Follows tail next) :
    ∃ found, scanFindKeywords literals keywordsAnnounceEvent .value (param.valueText ++ tail) = (found, next) ∧
      match keyOf keywordsAnnounceEvent param.value with
      | none => found = .unknown ∨ found = .terminator
      | some event => found = .found event := by
  rcases scan_value param.valued follows with scanned | ⟨empty, same, scanned⟩
  · by_cases empty : param.value = []
    · exact ⟨.unknown, by simp [scanFindKeywords, scanned, empty], by rw [empty]; exact .inl rfl⟩
    · simp only [scanFindKeywords, scanned, if_neg empty, keyOf, takenFor_exact literals (plain_clean plain)]
      cases keywordsAnnounceEvent.find? (fun keyword => decide ((cString keyword.1).chars = param.value)) with
      | none => exact ⟨_, rfl, .inl rfl⟩
      | some keyword => exact ⟨_, rfl, rfl⟩
  · exact ⟨.terminator, by simp only [scanFindKeywords, scanned]; rw [same], by rw [empty]; exact .inr rfl⟩

private theorem announceParam_valued (query : Query) {param : Param} (plain : param.Plain) {key : AnnounceKey}
    (known : keyOf keywordsAnnounce param.name = some key) (follows : Follows tail next) :
    announceParam literals query key (param.valueText ++ tail) = (applyParam query param).map fun query => (query, next) := by
  have value := scanValue_valued param follows
  cases key with
  | event =>
    obtain ⟨found, scanned, means⟩ := find_event literals param (plain.2 known) follows
    simp only [announceParam, scanned, applyParam, known]
    cases event : keyOf keywordsAnnounceEvent param.value with
    | none =>
      rw [event] at means
      rcases means with rfl | rfl <;> rfl
    | some event' =>
      rw [event] at means
      subst means
      rfl
  | port | left | numwant | compact | infoHash | peerId =>
    simp only [announceParam, value, applyParam, known]
    split <;> rfl

private theorem announceScan_turn (fuel : Nat) (query : Query) {param : Param} (plain : param.Plain) (follows : Follows tail next) :
    announceScan literals (fuel + 1) query (param.text ++ tail) =
      (applyParam query param).bind fun query => announceScan literals fuel query next := by
  simp only [announceScan, Param.text, List.append_assoc, List.cons_append, find_name plain]
  cases known : keyOf keywordsAnnounce param.name with
  | none => simp [applyParam, known, skip_value param.valued follows, Except.bind]
  | some key =>
    simp only [Option.elim_some, announceParam_valued query plain known follows]
    cases applyParam query param <;> rfl

theorem queryText_cons (param : Param) (params : List Param) (ends : Terminates c) (rest : Bytes) :
    ∃ tail, queryText (param :: params) ++ c :: rest = param.text ++ tail ∧ Follows tail (queryText params ++ c :: rest) := by
  cases params with
  | nil => exact ⟨c :: rest, rfl, .done ends rest⟩
  | cons next params => exact ⟨_, by simp [queryText], .next _⟩

theorem announceScan_query {params : List Param} (plain : ∀ param ∈ params, param.Plain) (fuel : Nat)
    (enough : params.length < fuel) (query : Query) (ends : Terminates c) (rest : Bytes) :
    announceScan literals fuel query (queryText params ++ c :: rest) = params.foldlM applyParam query := by
  induction params generalizing fuel query with
  | nil =>
    obtain ⟨more, rfl⟩ := Nat.exists_eq_add_of_lt enough
    simp only [queryText, List.nil_append, announceScan, scanFindKeywords, scan_end .param ends rest]
    rfl
  | cons param params ih =>
    rw [List.forall_mem_cons] at plain
    obtain ⟨tail, text, follows⟩ := queryText_cons param params ends rest
    cases fuel with
    | zero => cases enough
    | succ fuel =>
      rw [text, announceScan_turn fuel query plain.1 follows, List.foldlM_cons]
      exact congrArg _ (funext fun query => ih plain.2 fuel (Nat.lt_of_succ_lt_succ enough) query)

end Turns

private theorem scanDigits_append (tmp : Int32) (digits rest : Bytes) (all : ∀ c ∈ digits, 48 ≤ c ∧ c ≤ 57) :
    scanDigits tmp (digits ++ rest) = scanDigits (scanDigits tmp digits).1 rest := by
  induction digits generalizing tmp with
  | nil => rfl
  | cons c digits ih =>
    have here := all c (by simp)
    simp only [List.cons_append, scanDigits, if_pos here]
    exact ih _ (fun c held => all c (by simp [held]))

private theorem scanDigits_decimal (n : Nat) : scanDigits 0 (decimal n) = (Int32.ofNat n, []) := by
  have digit : ∀ d : Fin 10, 48 ≤ (48 + d.val).toUInt8 ∧ (48 + d.val).toUInt8 ≤ 57 ∧
      Int32.ofNat (48 + d.val).toUInt8.toNat - 48 = Int32.ofNat d.val := by decide
  induction n using Nat.strong_induction_on with
  | _ n ih =>
    obtain ⟨low, high, value⟩ := digit ⟨n % 10, Nat.mod_lt _ (by decide)⟩
    rw [decimal_eq]
    split
    next small =>
      simp only [List.nil_append, scanDigits, if_pos (And.intro low high), value]
      simp [Nat.mod_eq_of_lt small]
    next large =>
      have whole : Int32.ofNat n = 10 * Int32.ofNat (n / 10) + Int32.ofNat (n % 10) := by
        conv => lhs; rw [← Nat.div_add_mod n 10, Int32.ofNat_add, Int32.ofNat_mul]
        rfl
      rw [scanDigits_append _ _ _ (decimal_digits _), ih (n / 10) (by omega), whole]
      simp only [scanDigits, if_pos (And.intro low high), value]

theorem scanFixedInt_decimal (n : Nat) : scanFixedInt (decimal n) = (Int32.ofNat n, 0) := by
  have digits := decimal_digits n
  unfold scanFixedInt
  split
  next data text =>
    have sign := digits 45 (by simp [text])
    exact absurd sign.1 (by decide)
  next => simp [scanDigits_decimal]

theorem scanFixedInt_signedDecimal (n : Int) : (scanFixedInt (signedDecimal n)).2 = 0 := by
  unfold signedDecimal
  split
  next =>
    have minus : ascii "-" = [45] := by decide
    simp [minus, scanFixedInt, scanDigits_decimal]
  next => rw [scanFixedInt_decimal]

theorem ofNat_eq_zero_iff (n : Nat) : Int32.ofNat n = 0 ↔ 2 ^ 32 ∣ n := by
  rw [← Int32.toInt_inj]
  simp [Int.bmod_def]
  omega

end BtServer.Proofs.QueryScan

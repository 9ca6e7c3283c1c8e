import BtServer.Proofs.AnnounceQuery
import BtServer.Proofs.HeaderEnd

/-! The port of an announce. `scan_fixed_int` takes a sign and counts in an `int`, and
only numbers above 65535 are refused: what is stored is a numeral's value unless the
value is a sign with digits or has wrapped around. -/

namespace BtServer.Proofs.PortValues
open Lib QueryScan AnnounceQuery HeaderEnd

variable {c : UInt8} {s value : Bytes} {query after : Query} {key : AnnounceKey} {literals : Literals}

def Digits (value : Bytes) : Prop := ∀ c ∈ value, 48 ≤ c ∧ c ≤ 57

instance (value : Bytes) : Decidable (Digits value) := inferInstanceAs (Decidable (∀ c ∈ value, 48 ≤ c ∧ c ≤ 57))

def IsPort (value : Bytes) : Prop := value ≠ [] ∧ Digits value ∧ parseDecimal value ≤ 65535

instance (value : Bytes) : Decidable (IsPort value) := inferInstanceAs (Decidable (_ ∧ _ ∧ _))

def networkOrder (port : Nat) : Vector UInt8 2 := #v[(port / 256).toUInt8, (port % 256).toUInt8]

def wrapped (n : Int) : Int := n.bmod (2 ^ 32)

/-- No numeral of a port, though what `scan_fixed_int` makes of it is at most 65535:
digits behind a sign, or a number that is too large. -/
def Misread (value : Bytes) : Prop :=
  (∃ digits, value = 45 :: digits ∧ Digits digits ∧ wrapped (-parseDecimal digits) ≤ 65535) ∨
    (Digits value ∧ 65535 < parseDecimal value ∧ wrapped (parseDecimal value) ≤ 65535)

section Numbers
variable {value digits : Bytes} {query : Query}

theorem scanDigits_all (tmp : Nat) (all : Digits digits) : scanDigits (Int32.ofNat tmp) digits =
      (Int32.ofNat (digits.foldl (fun value c => 10 * value + (c.toNat - 48)) tmp), []) := by
  induction digits generalizing tmp with
  | nil => rfl
  | cons c digits ih =>
    have here := all c List.mem_cons_self
    have low : 48 ≤ c.toNat := UInt8.le_iff_toNat_le.mp here.1
    have next : 10 * Int32.ofNat tmp + (Int32.ofNat c.toNat - 48) = Int32.ofNat (10 * tmp + (c.toNat - 48)) := by
      rw [Int32.ofNat_add, Int32.ofNat_mul, Int32.ofNat_sub _ _ low]
      rfl
    rw [scanDigits, if_pos here, next, ih _ fun other member => all other (List.mem_cons_of_mem _ member)]
    rfl

theorem scanDigits_rest (tmp : Int32) (other : ¬ Digits digits) : (scanDigits tmp digits).2 ≠ [] := by
  induction digits generalizing tmp with
  | nil => simp [Digits] at other
  | cons c digits ih =>
    rw [scanDigits]
    split
    next here =>
      refine ih _ fun all => other fun d member => ?_
      rcases List.mem_cons.mp member with rfl | rest
      · exact here
      · exact all d rest
    next => simp

theorem digits_zero (all : Digits digits) : scanDigits 0 digits = (Int32.ofNat (parseDecimal digits), []) :=
  scanDigits_all 0 all

theorem sign_not_digits : ¬ Digits (45 :: digits) := fun all => absurd (all 45 List.mem_cons_self) (by decide)

theorem scanFixedInt_digits (all : Digits value) : scanFixedInt value = (Int32.ofNat (parseDecimal value), 0) := by
  unfold scanFixedInt
  split
  next => exact absurd all sign_not_digits
  next => simp [digits_zero all]

theorem scanFixedInt_sign (all : Digits digits) : scanFixedInt (45 :: digits) = (-Int32.ofNat (parseDecimal digits), 0) := by
  simp [scanFixedInt, digits_zero all]

theorem scanFixedInt_other (unsigned : ¬ Digits value) (signed : ∀ digits, value = 45 :: digits → ¬ Digits digits) :
    (scanFixedInt value).2 ≠ 0 := by
  unfold scanFixedInt
  split
  next digits => simpa using scanDigits_rest 0 (signed digits rfl)
  next => simpa using scanDigits_rest 0 unsigned

theorem toInt_ofNat_wrapped (n : Nat) : (Int32.ofNat n).toInt = wrapped n := Int32.toInt_ofNat'

theorem toInt_neg_wrapped (n : Nat) : (-Int32.ofNat n).toInt = wrapped (-n) := by
  rw [Int32.toInt_neg, Int32.toInt_ofNat']
  exact Int.bmod_neg_bmod

theorem refused_iff (number : Int32) : number > 0xffff ↔ ¬ number.toInt ≤ 65535 := by
  rw [gt_iff_lt, Int32.lt_iff_toInt_lt, not_le]
  rfl

theorem setValue_port {number : Int32} (parsed : scanFixedInt value = (number, 0)) :
    query.setValue .port value =
      if number.toInt ≤ 65535 then .ok { query with port := htons number } else .error .param400 := by
  simp only [Query.setValue, parsed, ne_eq, not_true_eq_false, false_or, refused_iff]
  by_cases small : number.toInt ≤ 65535
  · rw [if_pos small, if_neg (not_not.mpr small)]
  · rw [if_neg small, if_pos small]

theorem htons_port {port : Nat} (small : port ≤ 65535) : htons (Int32.ofNat port) = networkOrder port := by
  have unwrapped : wrapped port = port := by
    rw [wrapped, Int.bmod_def]
    omega
  have low : ((port : Int) % 2 ^ 16).toNat = port := by omega
  simp only [htons, networkOrder, toInt_ofNat_wrapped, unwrapped, low]

theorem setValue_port_cases (value : Bytes) (query : Query) :
    (IsPort value → query.setValue .port value = .ok { query with port := networkOrder (parseDecimal value) }) ∧
      (Misread value → ∃ port, query.setValue .port value = .ok { query with port := port }) ∧
      (value ≠ [] → ¬ IsPort value → ¬ Misread value → query.setValue .port value = .error .param400) := by
  by_cases all : Digits value
  · have stored := @setValue_port value query _ (scanFixedInt_digits all)
    rw [toInt_ofNat_wrapped] at stored
    refine ⟨fun port => ?_, fun misread => ?_, fun some port misread => ?_⟩
    · have small : wrapped (parseDecimal value) ≤ 65535 := by
        have bound := port.2.2
        rw [wrapped, Int.bmod_def]
        omega
      rw [stored, if_pos small, htons_port port.2.2]
    · rcases misread with ⟨digits, rfl, -⟩ | ⟨-, -, small⟩
      · exact absurd all sign_not_digits
      · exact ⟨_, by rw [stored, if_pos small]⟩
    · have large : 65535 < parseDecimal value := Nat.lt_of_not_le fun small => port ⟨some, all, small⟩
      rw [stored, if_neg fun small => misread (.inr ⟨all, large, small⟩)]
  · refine ⟨fun port => absurd port.2.1 all, ?_, ?_⟩
    · rintro (⟨digits, rfl, signed, small⟩ | ⟨digits, -⟩)
      · have stored := @setValue_port _ query _ (scanFixedInt_sign signed)
        rw [toInt_neg_wrapped, if_pos small] at stored
        exact ⟨_, stored⟩
      · exact absurd digits all
    · intro some port misread
      by_cases sign : ∃ digits, value = 45 :: digits ∧ Digits digits
      · obtain ⟨digits, rfl, signed⟩ := sign
        rw [setValue_port (scanFixedInt_sign signed), toInt_neg_wrapped,
          if_neg fun small => misread (.inl ⟨digits, rfl, signed, small⟩)]
      · have left := scanFixedInt_other all fun digits same signed => sign ⟨digits, same, signed⟩
        simp [Query.setValue, left]

theorem Misread.not_port (misread : Misread value) : ¬ IsPort value := by
  rintro ⟨-, all, small⟩
  rcases misread with ⟨digits, rfl, -⟩ | ⟨-, large, -⟩
  · exact sign_not_digits all
  · omega

theorem Misread.nonempty (misread : Misread value) : value ≠ [] := by
  rintro rfl
  rcases misread with ⟨digits, none, -⟩ | ⟨-, large, -⟩
  · cases none
  · exact absurd large (by decide)

end Numbers

section Progress
variable {flag : ScanFlag} {decoded read result rest : Bytes}

theorem scanStop_text (stopped : scanStop flag decoded c s = .text result rest) :
    result = decoded ∧ (rest = c :: s ∧ (decoded ≠ [] ∨ c = 38) ∨ rest = s ∧ ¬ Terminates c) := by
  unfold scanStop at stopped
  split_ifs at stopped with hard empty question path equals param ampersand path param
  · cases stopped
    exact ⟨rfl, .inl ⟨rfl, .inl empty⟩⟩
  · cases stopped
    exact ⟨rfl, .inr ⟨rfl, hard⟩⟩
  · cases stopped
    exact ⟨rfl, .inr ⟨rfl, hard⟩⟩
  · cases stopped
    exact ⟨rfl, .inl ⟨rfl, .inr ampersand⟩⟩
  · cases stopped
    exact ⟨rfl, .inr ⟨rfl, hard⟩⟩

/-- What a scan leaves: it takes no line end, and a character at least for each one it
decodes. -/
structure Leaves (decoded read result rest : Bytes) : Prop where
  line : 10 ∈ rest
  grows : decoded.length ≤ result.length
  shrinks : result.length + rest.length ≤ decoded.length + read.length
  still : result = [] → rest.length < read.length ∨ rest = read ∧ read.head? = some 38

theorem Leaves.before (leaves : Leaves (decoded ++ [c]) s result rest)
    (longer : s.length < read.length) : Leaves decoded read result rest := by
  obtain ⟨line, grows, shrinks, -⟩ := leaves
  rw [List.length_append, List.length_singleton] at grows shrinks
  refine ⟨line, by omega, by omega, fun empty => ?_⟩
  rw [empty, List.length_nil] at grows
  omega

theorem scanFrom_text (scanned : scanFrom flag decoded read = .text result rest) (line : 10 ∈ read) :
    Leaves decoded read result rest := by
  fun_induction scanFrom flag decoded read with
  | case1 => cases line
  | case2 => cases scanned
  | case3 => cases scanned
  | case4 decoded high low s digit digit' _ ih =>
    have behind : 10 ∈ s := by
      simp only [List.mem_cons] at line
      rcases line with none | rfl | rfl | member
      · exact absurd none (by decide)
      · exact absurd (show fromhex 10 = 255 by decide) digit
      · exact absurd (show fromhex 10 = 255 by decide) digit'
      · exact member
    exact (ih scanned behind).before (by simp only [List.length_cons]; omega)
  | case5 => cases scanned
  | case6 decoded c s accepted _ ih =>
    have behind : 10 ∈ s := by
      rcases List.mem_cons.mp line with rfl | member
      · exact absurd accepted (by cases flag <;> decide)
      · exact member
    exact (ih scanned behind).before (Nat.lt_succ_self _)
  | case7 decoded c s stops =>
    obtain ⟨rfl, ⟨rfl, some⟩ | ⟨rfl, soft⟩⟩ := scanStop_text scanned
    · refine ⟨line, le_refl _, le_refl _, fun empty => .inr ⟨rfl, ?_⟩⟩
      rw [List.head?_cons, some.resolve_left (not_not.mpr empty)]
    · have behind : 10 ∈ rest := by
        rcases List.mem_cons.mp line with rfl | member
        · exact absurd (.inr (.inr (.inl rfl))) soft
        · exact member
      refine ⟨behind, le_refl _, ?_, fun _ => .inl (Nat.lt_succ_self _)⟩
      rw [List.length_cons]
      omega

theorem skipvalue_leaves (line : 10 ∈ read) :
    10 ∈ scanUrlencodedSkipvalue read ∧ (scanUrlencodedSkipvalue read).length ≤ read.length ∧
      (read.head? = some 38 → (scanUrlencodedSkipvalue read).length < read.length) := by
  induction read with
  | nil => cases line
  | cons c s ih =>
    rw [scanUrlencodedSkipvalue]
    split
    next accepted =>
      have behind : 10 ∈ s := by
        rcases List.mem_cons.mp line with rfl | member
        · exact absurd accepted (by decide)
        · exact member
      obtain ⟨kept, shorter, -⟩ := ih behind
      exact ⟨kept, shorter.trans (Nat.le_succ _), fun _ => Nat.lt_succ_of_le shorter⟩
    next =>
      split
      next hard =>
        refine ⟨line, le_refl _, fun ampersand => ?_⟩
        rw [List.head?_cons, Option.some.injEq] at ampersand
        subst ampersand
        exact absurd hard (by decide)
      next soft =>
        refine ⟨?_, Nat.le_succ _, fun _ => Nat.lt_succ_self _⟩
        rcases List.mem_cons.mp line with rfl | member
        · exact absurd (by decide) soft
        · exact member

theorem scanQuery_text (scanned : scanUrlencodedQuery flag read = .text result rest) (line : 10 ∈ read) :
    Leaves [] read result rest := scanFrom_text scanned line

theorem findKeywords_leaves {κ : Type} {keywords : List (String × κ)} {found : Keyword κ}
    (searched : scanFindKeywords literals keywords flag read = (found, rest)) (line : 10 ∈ read) :
    10 ∈ rest ∧ rest.length ≤ read.length ∧ (∀ key, found = .found key → rest.length < read.length) ∧
      (found = .unknown → rest.length < read.length ∨ rest = read ∧ read.head? = some 38) := by
  unfold scanFindKeywords at searched
  cases scanned : scanUrlencodedQuery flag read with
  | error =>
    rw [scanned] at searched
    cases searched
    exact ⟨line, le_refl _, by simp, by simp⟩
  | terminator =>
    rw [scanned] at searched
    cases searched
    exact ⟨line, le_refl _, by simp, by simp⟩
  | text decoded after =>
    obtain ⟨kept, -, shrinks, still⟩ := scanQuery_text scanned line
    rw [List.length_nil, Nat.zero_add] at shrinks
    rw [scanned] at searched
    simp only at searched
    split at searched
    next empty =>
      cases searched
      exact ⟨kept, by omega, by simp, fun _ => still empty⟩
    next some =>
      have positive := List.length_pos_iff.mpr some
      have same : rest = after := by
        split at searched <;> exact (Prod.mk.inj searched).2.symm
      subst same
      exact ⟨kept, by omega, fun _ _ => by omega, fun _ => .inl (by omega)⟩

theorem announceParam_value (other : key ≠ .event)
    (taken : announceParam literals query key read = .ok (after, rest)) : ∃ value, scanValue read = .ok (value, rest) := by
  cases scanned : scanValue read with
  | error error => cases key <;> simp [announceParam, scanned, bind, Except.bind] at taken other
  | ok pair =>
    cases set : query.setValue key pair.1 with
    | error error => cases key <;> simp [announceParam, scanned, set, bind, Except.bind] at taken other
    | ok next =>
      refine ⟨pair.1, ?_⟩
      have same : pair.2 = rest := by
        cases key <;> simp [announceParam, scanned, set, bind, Except.bind] at taken other <;> exact taken.2
      rw [← same]

theorem scanValue_text (scanned : scanValue read = .ok (value, rest)) :
    scanUrlencodedQuery .value read = .text value rest := by
  unfold scanValue at scanned
  cases text : scanUrlencodedQuery .value read with
  | error => simp [text] at scanned
  | terminator => simp [text] at scanned
  | text bytes next =>
    by_cases empty : bytes = []
    · simp [text, empty] at scanned
    · simp only [text, if_neg empty, Except.ok.injEq, Prod.mk.injEq] at scanned
      rw [scanned.1, scanned.2]

theorem announceParam_leaves
    (taken : announceParam literals query key read = .ok (after, rest)) (line : 10 ∈ read) :
    10 ∈ rest ∧ rest.length ≤ read.length := by
  by_cases event : key = .event
  · subst event
    simp only [announceParam] at taken
    cases searched : scanFindKeywords literals keywordsAnnounceEvent .value read with
    | mk found behind =>
      obtain ⟨kept, shorter, -⟩ := findKeywords_leaves searched line
      rw [searched] at taken
      cases found with
      | error => cases taken
      | terminator | unknown | found =>
        cases taken
        exact ⟨kept, shorter⟩
  · obtain ⟨value, scanned⟩ := announceParam_value event taken
    obtain ⟨kept, -, shrinks, -⟩ := scanQuery_text (scanValue_text scanned) line
    rw [List.length_nil, Nat.zero_add] at shrinks
    exact ⟨kept, by omega⟩

end Progress

section Runs
variable {query after : Query} {read rest next value : Bytes}

inductive Turns (literals : Literals) : Query → Bytes → Query → Bytes → Prop where
  | done (query : Query) (read : Bytes) : Turns literals query read query read
  | unknown {query after : Query} {read rest last : Bytes}
      (searched : scanFindKeywords literals keywordsAnnounce .param read = (.unknown, rest))
      (more : Turns literals query (scanUrlencodedSkipvalue rest) after last) : Turns literals query read after last
  | known {query middle after : Query} {key : AnnounceKey} {read rest next last : Bytes}
      (searched : scanFindKeywords literals keywordsAnnounce .param read = (.found key, rest))
      (taken : announceParam literals query key rest = .ok (middle, next)) (more : Turns literals middle next after last) :
      Turns literals query read after last

theorem Turns.trans {middle : Query} (first : Turns literals query read middle next) (second : Turns literals middle next after rest) :
    Turns literals query read after rest := by
  induction first with
  | done => exact second
  | unknown searched _ ih => exact .unknown searched (ih second)
  | known searched taken _ ih => exact .known searched taken (ih second)

theorem Turns.announceScan (turns : Turns literals query read after rest) (line : 10 ∈ read) {fuel : Nat} (enough : read.length < fuel) :
    10 ∈ rest ∧ ∃ left, rest.length < left ∧
      BtServer.announceScan literals fuel query read = BtServer.announceScan literals left after rest := by
  induction turns generalizing fuel with
  | done => exact ⟨line, fuel, enough, rfl⟩
  | @unknown query after read rest last searched more ih =>
    obtain ⟨fuel, rfl⟩ := Nat.exists_eq_add_of_lt enough
    obtain ⟨kept, shorter, -, stuck⟩ := findKeywords_leaves searched line
    obtain ⟨still, skipped, ampersand⟩ := skipvalue_leaves kept
    have less : (scanUrlencodedSkipvalue rest).length < read.length := by
      rcases stuck rfl with less | ⟨same, head⟩
      · omega
      · exact same ▸ ampersand (same ▸ head)
    obtain ⟨last, left, bound, same⟩ := @ih still (read.length + fuel) (by omega)
    exact ⟨last, left, bound, by rw [← same, BtServer.announceScan, searched]⟩
  | @known query middle after key read rest next last searched taken more ih =>
    obtain ⟨fuel, rfl⟩ := Nat.exists_eq_add_of_lt enough
    obtain ⟨kept, -, shorter, -⟩ := findKeywords_leaves searched line
    obtain ⟨still, shrinks⟩ := announceParam_leaves taken kept
    have less := shorter key rfl
    obtain ⟨last, left, bound, same⟩ := @ih still (read.length + fuel) (by omega)
    exact ⟨last, left, bound, by simp only [← same, BtServer.announceScan, searched, taken, bind, Except.bind]⟩

def PortAt (literals : Literals) (read value next : Bytes) : Prop :=
  ∃ rest, scanFindKeywords literals keywordsAnnounce .param read = (.found .port, rest) ∧
    scanUrlencodedQuery .value rest = .text value next

theorem PortAt.stored (port : PortAt literals read value next) (some : value ≠ []) (set : query.setValue .port value = .ok after) :
    Turns literals query read after next := by
  obtain ⟨rest, searched, scanned⟩ := port
  refine .known searched ?_ (.done after next)
  simp [announceParam, scanValue, scanned, some, set, bind, Except.bind]

theorem PortAt.refused (port : PortAt literals read value next)
    (refused : value = [] ∨ query.setValue .port value = .error .param400) (fuel : Nat) :
    announceScan literals (fuel + 1) query read = .error .param400 := by
  obtain ⟨rest, searched, scanned⟩ := port
  have taken : announceParam literals query .port rest = .error .param400 := by
    rcases refused with rfl | refused
    · simp [announceParam, scanValue, scanned, bind, Except.bind]
    · by_cases empty : value = []
      · simp [announceParam, scanValue, scanned, empty, bind, Except.bind]
      · simp [announceParam, scanValue, scanned, empty, refused, bind, Except.bind]
  rw [announceScan, searched]
  simp only [taken, bind, Except.bind]

end Runs

section Requests
variable {request start value : Bytes}

inductive Announces (request start : Bytes) : Prop where
  | mk {path decoded read : Bytes} (get : request.take 5 = ascii "GET /")
      (begins : (request.drop 4).dropWhile (fun c => c = 47) = path)
      (scanned : scanUrlencodedQuery .path path = .text decoded read)
      (announce : decoded.head? = some 97 ∨ decoded.head? = some 63)
      (sought : seekQuery (path.take (path.length - read.length)).getLast? read = .ok start)

theorem mem_dropWhile {p : UInt8 → Bool} {text : Bytes} (member : c ∈ text) (other : p c = false) :
    c ∈ text.dropWhile p := by
  induction text with
  | nil => cases member
  | cons first text ih =>
    rw [List.dropWhile_cons]
    split
    next holds =>
      rcases List.mem_cons.mp member with rfl | rest
      · rw [other] at holds
        cases holds
      · exact ih rest
    next => exact member

theorem seekQuery_line {previous : Option UInt8} {read : Bytes} (sought : seekQuery previous read = .ok start)
    (line : 10 ∈ read) : 10 ∈ start ∧ start.length ≤ read.length := by
  unfold seekQuery at sought
  split at sought
  next =>
    cases sought
    exact ⟨line, le_refl _⟩
  next =>
    have kept : 10 ∈ read.dropWhile fun c => c ≠ 63 ∧ c ≠ 10 := mem_dropWhile line (by decide)
    have shorter := (List.dropWhile_suffix (l := read) fun c => decide (c ≠ 63 ∧ c ≠ 10)).length_le
    split at sought
    next rest found =>
      cases sought
      rw [found] at kept shorter
      rcases List.mem_cons.mp kept with none | member
      · exact absurd none (by decide)
      · exact ⟨member, (Nat.le_succ _).trans shorter⟩
    next => cases sought

theorem Announces.handled (announces : Announces request start) (line : 10 ∈ request) :
    10 ∈ start ∧ ∃ fuel, start.length < fuel ∧ ∀ literals redirecturl statsPath random ip age,
      httpHandleRequest literals redirecturl statsPath random ip age request =
        match announceScan literals fuel .initial start with
        | .error error => .error error
        | .ok query =>
          match query.hash with
          | none => .missingHash
          | some hash =>
            .call (announceCall .tcp random hash ⟨otSetip ip, query.port, query.flag, age⟩ query.numwant.toNat) := by
  obtain @⟨path, decoded, read, get, begins, scanned, announce, sought⟩ := announces
  have behind : 10 ∈ request.drop 4 := by
    rw [← List.take_append_drop 5 request, List.mem_append] at line
    rcases line with early | late
    · rw [get] at early
      exact absurd early (by decide)
    · rw [← List.drop_drop (i := 1) (j := 4)] at late
      exact List.mem_of_mem_drop late
  have inPath : 10 ∈ path := begins ▸ mem_dropWhile behind (by decide)
  obtain ⟨inRead, -⟩ := scanQuery_text scanned inPath
  obtain ⟨inStart, shorter⟩ := seekQuery_line sought inRead
  refine ⟨inStart, read.length + 1, by omega, fun literals redirecturl statsPath random ip age => ?_⟩
  have some : decoded ≠ [] := by
    rintro rfl
    simp at announce
  have announced : httpHandleRequest literals redirecturl statsPath random ip age request =
      httpHandleAnnounce literals random ip age (path.take (path.length - read.length)).getLast? read := by
    simp only [httpHandleRequest, get, ne_eq, not_true_eq_false, if_false, begins, scanned, if_neg some, if_pos announce]
  rw [announced]
  cases scan : announceScan literals (read.length + 1) .initial start with
  | error error => simp only [httpHandleAnnounce, sought, bind, Except.bind, scan]
  | ok query =>
    cases hash : query.hash with
    | none => simp only [httpHandleAnnounce, sought, bind, Except.bind, scan, hash]
    | some hash' => simp only [httpHandleAnnounce, sought, bind, Except.bind, scan, hash]

/-- Wherever an announce has this value for its port: a numeral of a port is stored, and
every other value is answered with a 400 error and changes nothing. -/
def PortExact (value : Bytes) : Prop :=
  ∀ literals request start query read next, headerComplete request ≠ 0 → Announces request start →
    Turns literals .initial start query read → PortAt literals read value next →
    (IsPort value → Turns literals .initial start { query with port := networkOrder (parseDecimal value) } next) ∧
      (¬ IsPort value → ∀ redirecturl statsPath random ip age,
        httpHandleRequest literals redirecturl statsPath random ip age request = .error .param400 ∧
          ∀ gNowSeconds heap tracker,
            (httpHandleRequest literals redirecturl statsPath random ip age request).apply gNowSeconds heap tracker = tracker)

theorem line_of_complete (complete : headerComplete request ≠ 0) : 10 ∈ request := by
  obtain ⟨zero, -⟩ | ⟨-, -, ends, -⟩ := headerComplete_spec request
  · exact absurd zero complete
  · rcases ends with ends | ends
    · exact List.mem_of_mem_take (ends.subset (by simp))
    · exact List.mem_of_mem_take (ends.subset (by simp))

theorem complete_of_ends (ends : EndsHeader request) : headerComplete request ≠ 0 := by
  intro zero
  rcases headerComplete_spec request with ⟨-, none⟩ | ⟨positive, -⟩
  · exact none request.length (le_refl _) (by rwa [List.take_length])
  · omega

def percentDigit (n : Nat) : UInt8 := (if n < 10 then 48 + n else 55 + n).toUInt8

def encode (value : Bytes) : Bytes := value.flatMap fun c => [37, percentDigit (c.toNat / 16), percentDigit (c.toNat % 16)]

theorem encode_encodes (value : Bytes) : Encodes .value (encode value) value := by
  have digits : ∀ c : UInt8, fromhex (percentDigit (c.toNat / 16)) ≠ 0xff ∧ fromhex (percentDigit (c.toNat % 16)) ≠ 0xff ∧
      fromhex (percentDigit (c.toNat % 16)) ||| fromhex (percentDigit (c.toNat / 16)) <<< 4 = c := forall_byte (by decide +kernel)
  induction value with
  | nil => exact .nil
  | cons c value ih =>
    obtain ⟨high, low, joined⟩ := digits c
    have escaped := Encodes.escaped high low ih
    rw [joined] at escaped
    exact escaped

def portRequest (value : Bytes) : Bytes :=
  [71, 69, 84, 32, 47, 97, 63, 112, 111, 114, 116, 61] ++ (encode value ++ [10, 10])

theorem portRequest_announces (value : Bytes) :
    Announces (portRequest value) ([112, 111, 114, 116, 61] ++ (encode value ++ [10, 10])) := by
  unfold portRequest
  rw [show ∀ tail : Bytes, [71, 69, 84, 32, 47, 97, 63, 112, 111, 114, 116, 61] ++ tail =
    [71, 69, 84, 32, 47, 97, 63] ++ ([112, 111, 114, 116, 61] ++ tail) from fun _ => rfl]
  generalize [112, 111, 114, 116, 61] ++ (encode value ++ [10, 10]) = tail
  have get : ascii "GET /" = [71, 69, 84, 32, 47] := by decide
  have scanned := scanFrom_encodes (.plain (by decide) (by decide) .nil : Encodes .path [97] [97]) []
    (by decide : ScanFlag.path.accepts 63 = false) tail
  have text : scanUrlencodedQuery .path (97 :: 63 :: tail) = .text [97] tail := by
    simpa [scanUrlencodedQuery, scanStop] using scanned
  have question : ((97 :: 63 :: tail).take ((97 :: 63 :: tail).length - tail.length)).getLast? = some 63 := by
    rw [List.length_cons, List.length_cons, show tail.length + 1 + 1 - tail.length = 2 by omega]
    rfl
  exact @Announces.mk _ _ (97 :: 63 :: tail) [97] tail (by rw [get]; rfl) rfl text (.inl rfl) (by rw [question]; rfl)

theorem portRequest_at (some : value ≠ []) :
    PortAt literals ([112, 111, 114, 116, 61] ++ (encode value ++ [10, 10])) value [10, 10] := by
  have named : Encodes .param [112, 111, 114, 116] [112, 111, 114, 116] :=
    .plain (by decide) (by decide) (.plain (by decide) (by decide) (.plain (by decide) (by decide)
      (.plain (by decide) (by decide) .nil)))
  have scanned := scan_name named (encode value ++ [10, 10])
  have found : keywordsAnnounce.find? (fun keyword => (cString keyword.1).takenFor literals [112, 111, 114, 116]) =
      Option.some ("port", .port) := rfl
  refine ⟨encode value ++ [10, 10], ?_, ?_⟩
  · rw [scanFindKeywords, show [112, 111, 114, 116, 61] ++ (encode value ++ [10, 10]) =
      [112, 111, 114, 116] ++ 61 :: (encode value ++ [10, 10]) from rfl, scanned]
    simp only [found, reduceCtorEq, if_false]
  · rcases scan_value (encode_encodes value) (.done (.inr (.inr (.inl rfl))) [10]) with text | ⟨empty, -⟩
    · exact text
    · exact absurd empty some

/-- A port is taken exactly, unless its value is digits behind a sign or too large, and
comes to a number of at most 65535 in an `int`. -/
theorem port_exact_iff (value : Bytes) : PortExact value ↔ ¬ Misread value := by
  constructor
  · intro exactly misread
    have some := misread.nonempty
    have announces := portRequest_announces value
    have complete : headerComplete (portRequest value) ≠ 0 :=
      complete_of_ends (.inl ⟨[71, 69, 84, 32, 47, 97, 63, 112, 111, 114, 116, 61] ++ encode value, by simp [portRequest]⟩)
    obtain ⟨refused, -⟩ := (exactly (fun _ _ => 0) _ _ .initial _ _ complete announces (.done _ _) (portRequest_at some)).2
      misread.not_port false [] [] (Vector.replicate 16 0) 0
    obtain ⟨line, fuel, enough, handled⟩ := announces.handled (line_of_complete complete)
    obtain ⟨port, set⟩ := (setValue_port_cases value .initial).2.1 misread
    obtain ⟨-, left, bound, scan⟩ := ((portRequest_at some).stored some set).announceScan line enough
    -- The loop ends at the line end, without a hash.
    obtain ⟨left, rfl⟩ := Nat.exists_eq_add_of_lt bound
    have ends : ∀ fuel query, announceScan (fun _ _ => 0) (fuel + 1) query [10, 10] = .ok query := fun _ _ => rfl
    rw [handled, scan, ends] at refused
    cases refused
  · intro read literals request start query text next complete announces turns port
    refine ⟨fun numeral => turns.trans (port.stored numeral.1 ((setValue_port_cases value query).1 numeral)), ?_⟩
    intro other redirecturl statsPath random ip age
    obtain ⟨line, fuel, enough, handled⟩ := announces.handled (line_of_complete complete)
    obtain ⟨-, left, bound, scan⟩ := turns.announceScan line enough
    obtain ⟨left, rfl⟩ := Nat.exists_eq_add_of_lt bound
    have refused : value = [] ∨ query.setValue .port value = .error .param400 := by
      by_cases empty : value = []
      · exact .inl empty
      · exact .inr ((setValue_port_cases value query).2.2 empty other read)
    have outcome : httpHandleRequest literals redirecturl statsPath random ip age request = .error .param400 := by
      rw [handled, scan, port.refused refused]
    exact ⟨outcome, fun gNowSeconds heap tracker => by rw [outcome]; rfl⟩

def signedRequest : Bytes :=
  [71, 69, 84, 32, 47, 97, 63, 112, 111, 114, 116, 61, 45, 49, 38, 105, 110, 102, 111, 95, 104, 97, 115, 104, 61] ++
    List.replicate 20 65 ++ [10, 10]

/-- The port -1 is stored as 65535. -/
theorem negative_port_stored : httpHandleRequest (fun _ _ => 0) false [] [] (Vector.replicate 16 0) 0 signedRequest =
        .call (.announce .tcp (Vector.replicate 20 65) ⟨Vector.replicate 4 0, #v[255, 255], 0, 0⟩ 50 []) ∧
      ¬ IsPort [45, 49] ∧ ¬ PortExact [45, 49] := by
  have outcome : httpHandleRequest (fun _ _ => 0) false [] [] (Vector.replicate 16 0) 0 signedRequest =
      .call (.announce .tcp (Vector.replicate 20 65) ⟨Vector.replicate 4 0, #v[255, 255], 0, 0⟩ 50 []) := by
    rfl
  refine ⟨outcome, by decide, fun exactly => ?_⟩
  have announces : Announces signedRequest (signedRequest.drop 7) := .mk rfl rfl rfl (.inl rfl) rfl
  have port : PortAt (fun _ _ => 0) (signedRequest.drop 7) [45, 49] (signedRequest.drop 15) := ⟨signedRequest.drop 12, rfl, rfl⟩
  have complete : headerComplete signedRequest ≠ 0 := by decide
  obtain ⟨refused, -⟩ := (exactly _ _ _ .initial _ _ complete announces (.done _ _) port).2 (by decide) false [] []
    (Vector.replicate 16 0) 0
  rw [outcome] at refused
  cases refused

end Requests

end BtServer.Proofs.PortValues

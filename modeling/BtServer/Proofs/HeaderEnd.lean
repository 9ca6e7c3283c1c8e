import BtServer.HttpServer

/-! The end of a header. `header_complete` looks at every second byte and keeps the last
four line ends of a run in two bits each; it finds the first end there is. -/

namespace BtServer.Proofs.HeaderEnd
open Lib

def LineEnd (c : UInt8) : Prop := c = 13 ∨ c = 10

/-- The text ends with an empty line. -/
def EndsHeader (text : Bytes) : Prop := [10, 10] <:+ text ∨ [13, 10, 13, 10] <:+ text

/-- The smallest number of bytes that end with an empty line, or zero if there is none. -/
def IsHeaderEnd (request : Bytes) (size : Nat) : Prop :=
  (size = 0 ∧ ∀ p ≤ request.length, ¬ EndsHeader (request.take p)) ∨
    (0 < size ∧ size ≤ request.length ∧ EndsHeader (request.take size) ∧ ∀ p < size, ¬ EndsHeader (request.take p))

theorem endsHeader_reverse (text : Bytes) :
    EndsHeader text ↔ [10, 10] <+: text.reverse ∨ [10, 13, 10, 13] <+: text.reverse := by
  rw [EndsHeader, ← List.reverse_prefix, ← List.reverse_prefix]
  rfl

section History

def turn (state : Nat) (c : UInt8) : Nat := state / 4 ||| ((c.toNat * 64) &&& 0xc0)

def history (run : Bytes) : Nat := run.foldl turn 0

def code (c : UInt8) : Nat := if c = 10 then 2 else 1

def packed : Bytes → Nat
  | [] => 0
  | c :: rest => packed rest / 4 + 64 * code c

theorem code_le (c : UInt8) : code c ≤ 2 := by
  unfold code
  split <;> omega

theorem packed_lt (run : Bytes) : packed run < 256 := by
  induction run with
  | nil => decide
  | cons c rest ih =>
    have bits := code_le c
    simp only [packed]
    omega

theorem turn_eq {state : Nat} {c : UInt8} (small : state < 256) (ends : LineEnd c) : turn state c = state / 4 + 64 * code c := by
  have below : state / 4 < 2 ^ 6 := by omega
  rcases ends with rfl | rfl
  · have bits := Nat.two_pow_add_eq_or_of_lt below 1
    rw [turn, Nat.or_comm]
    simpa [code, Nat.add_comm] using bits.symm
  · have bits := Nat.two_pow_add_eq_or_of_lt below 2
    rw [turn, Nat.or_comm]
    simpa [code, Nat.add_comm] using bits.symm

variable {run : Bytes} (ends : ∀ c ∈ run, LineEnd c)
include ends

theorem history_eq : history run = packed run.reverse := by
  induction run using List.reverseRecOn with
  | nil => rfl
  | append_singleton run c ih =>
    have before := ih fun other member => ends other (by simp [member])
    rw [history, List.foldl_append, List.foldl_cons, List.foldl_nil, List.reverse_append]
    rw [history] at before
    rw [before, turn_eq (packed_lt _) (ends c (by simp))]
    rfl

theorem packed_complete :
    packed run ≥ 0xa0 ∨ packed run = 0x99 ↔ [10, 10] <+: run ∨ [10, 13, 10, 13] <+: run := by
  match run with
  | [] => simp [packed]
  | [a] =>
    rcases ends a (by simp) with rfl | rfl <;> simp [packed, code]
  | [a, b] =>
    rcases ends a (by simp) with rfl | rfl <;> rcases ends b (by simp) with rfl | rfl <;> simp [packed, code]
  | [a, b, c] =>
    rcases ends a (by simp) with rfl | rfl <;> rcases ends b (by simp) with rfl | rfl <;>
      rcases ends c (by simp) with rfl | rfl <;> simp [packed, code]
  | a :: b :: c :: d :: rest =>
    have small := packed_lt rest
    have old : packed rest / 4 / 4 / 4 / 4 = 0 := by omega
    rcases ends a (by simp) with rfl | rfl <;> rcases ends b (by simp) with rfl | rfl <;>
      rcases ends c (by simp) with rfl | rfl <;> rcases ends d (by simp) with rfl | rfl <;>
      simp [packed, code] <;> omega

theorem history_complete :
    history run ≥ 0xa0 ∨ history run = 0x99 ↔ EndsHeader run := by
  rw [history_eq ends, endsHeader_reverse, packed_complete]
  intro c member
  exact ends c (List.mem_reverse.mp member)

end History

section Boundaries
variable {before run text : Bytes}

theorem endsHeader_append (boundary : ∀ c ∈ before.getLast?, ¬ LineEnd c) (ends : ∀ c ∈ run, LineEnd c) :
    EndsHeader (before ++ run) ↔ EndsHeader run := by
  have apart : before.reverse = [] ∨ ∃ d rest, before.reverse = d :: rest ∧ d ≠ 10 ∧ d ≠ 13 := by
    cases reversed : before.reverse with
    | nil => exact .inl rfl
    | cons d rest =>
      have last : before.getLast? = some d := by rw [← List.head?_reverse, reversed, List.head?_cons]
      have plain := boundary d (by rw [last]; rfl)
      exact .inr ⟨d, rest, rfl, fun same => plain (.inr same), fun same => plain (.inl same)⟩
  rw [endsHeader_reverse, endsHeader_reverse, List.reverse_append]
  have turned : ∀ c ∈ run.reverse, LineEnd c := fun c member => ends c (List.mem_reverse.mp member)
  generalize run.reverse = run at turned ⊢
  match run with
  | [] =>
    rcases apart with none | ⟨d, rest, some, ten, thirteen⟩
    · rw [none]
      rfl
    · simp [some, ten.symm]
  | [a] =>
    rcases apart with none | ⟨d, rest, some, ten, thirteen⟩
    · simp [none]
    · simp [some, ten.symm, thirteen.symm]
  | [a, b] =>
    rcases apart with none | ⟨d, rest, some, ten, thirteen⟩
    · simp [none]
    · simp [some, ten.symm]
  | [a, b, c] =>
    rcases apart with none | ⟨d, rest, some, ten, thirteen⟩
    · simp [none]
    · simp [some, thirteen.symm]
  | a :: b :: c :: e :: rest => simp

theorem not_endsHeader_last {c : UInt8} (plain : ¬ LineEnd c) : ¬ EndsHeader (text ++ [c]) := by
  have empty : ¬ EndsHeader [] := by simp [EndsHeader]
  have boundary : ∀ d ∈ (text ++ [c]).getLast?, ¬ LineEnd d := by simpa using plain
  have same := @endsHeader_append (text ++ [c]) [] boundary (by simp)
  rw [List.append_nil] at same
  exact fun ends => empty (same.mp ends)

theorem not_endsHeader_single (boundary : ∀ c ∈ before.getLast?, ¬ LineEnd c) (c : UInt8) : ¬ EndsHeader (before ++ [c]) := by
  by_cases ends : LineEnd c
  · rw [endsHeader_append boundary (by simpa using ends)]
    simp [EndsHeader, List.suffix_cons_iff]
  · exact not_endsHeader_last ends

end Boundaries

section Runs
variable {run : Bytes}

theorem headerRun_cases (rest : Bytes) (i : Nat) (ends : ∀ c ∈ run, LineEnd c) :
    ∃ k ≤ rest.length, (∀ c ∈ rest.take k, LineEnd c) ∧
      ((headerRun (history run) i rest = (true, i + k) ∧ 0 < k ∧ EndsHeader (run ++ rest.take k) ∧
          ∀ j, 0 < j → j < k → ¬ EndsHeader (run ++ rest.take j)) ∨
        (headerRun (history run) i rest = (false, i + k) ∧ (∀ c, rest[k]? = some c → ¬ LineEnd c) ∧
          ∀ j, 0 < j → j ≤ k → ¬ EndsHeader (run ++ rest.take j))) := by
  induction rest generalizing run i with
  | nil => exact ⟨0, le_refl _, by simp, .inr ⟨rfl, by simp, fun j positive none => absurd positive (by omega)⟩⟩
  | cons c rest ih =>
    by_cases line : LineEnd c
    · have longer : ∀ other ∈ run ++ [c], LineEnd other := by
        intro other member
        rcases List.mem_append.mp member with old | new
        · exact ends other old
        · rwa [List.mem_singleton.mp new]
      have state : history run / 4 ||| ((c.toNat * 64) &&& 0xc0) = history (run ++ [c]) := by
        rw [history, history, List.foldl_append]
        rfl
      have test := history_complete longer
      by_cases complete : EndsHeader (run ++ [c])
      · refine ⟨1, by simp, by simpa using line, .inl ⟨?_, by decide, by simpa using complete, fun j _ _ => by omega⟩⟩
        rw [headerRun, if_pos (show c = 13 ∨ c = 10 from line)]
        simp only [state, if_pos (test.mpr complete)]
      · obtain ⟨k, inside, lines, outcome⟩ := ih (i + 1) longer
        have cut : ∀ j, run ++ (c :: rest).take (j + 1) = run ++ [c] ++ rest.take j := by simp
        have first : ∀ j, 0 < j → (∀ l, 0 < l → j = l + 1 → ¬ EndsHeader (run ++ [c] ++ rest.take l)) →
            ¬ EndsHeader (run ++ (c :: rest).take j) := by
          intro j positive later
          obtain ⟨l, rfl⟩ := Nat.exists_eq_add_of_lt positive
          rw [Nat.zero_add, cut]
          by_cases single : l = 0
          · subst single
            simpa using complete
          · exact later l (by omega) (by omega)
        have step : headerRun (history run) i (c :: rest) = headerRun (history (run ++ [c])) (i + 1) rest := by
          rw [headerRun, if_pos (show c = 13 ∨ c = 10 from line)]
          simp only [state, if_neg (test.not.mpr complete)]
        refine ⟨k + 1, by simpa using inside, by simpa using ⟨line, lines⟩, ?_⟩
        rcases outcome with ⟨result, positive, found, none⟩ | ⟨result, stop, none⟩
        · refine .inl ⟨by rw [step, result]; congr 1; omega, by omega, by rw [cut]; exact found, fun j positive less => ?_⟩
          exact first j positive fun l some same => none l some (by omega)
        · refine .inr ⟨by rw [step, result]; congr 1; omega, by simpa using stop, fun j positive less => ?_⟩
          exact first j positive fun l some same => none l some (by omega)
    · refine ⟨0, by simp, by simp, .inr ⟨?_, by simpa using line, fun j positive none => absurd positive (by omega)⟩⟩
      rw [headerRun, if_neg (show ¬ (c = 13 ∨ c = 10) from line)]
      rfl

end Runs

section Scan
variable {request : Bytes} {i : Nat}

/-- Before the outer loop looks at `i`: no header ends within the first `i - 1` bytes, and
the last of them ends no line. -/
structure Searched (request : Bytes) (i : Nat) : Prop where
  positive : 0 < i
  none : ∀ p < i, ¬ EndsHeader (request.take p)
  boundary : ∀ j c, j + 2 = i → request[j]? = some c → ¬ LineEnd c

theorem take_succ {j : Nat} {c : UInt8} (found : request[j]? = some c) : request.take (j + 1) = request.take j ++ [c] := by
  rw [List.take_add_one, found, Option.toList_some]

theorem Searched.last (searched : Searched request i) (inside : i - 1 ≤ request.length) :
    ∀ c ∈ (request.take (i - 1)).getLast?, ¬ LineEnd c := by
  intro c member
  rcases Nat.eq_or_lt_of_le searched.positive with one | more
  · simp [← one] at member
  · obtain ⟨j, rfl⟩ := Nat.exists_eq_add_of_le' more
    refine searched.boundary j c rfl ?_
    have here : j < request.length := by omega
    have found := List.getElem?_eq_getElem here
    rw [show j + 2 - 1 = j + 1 from rfl, take_succ found, List.getLast?_concat] at member
    rw [found]
    exact member

theorem Searched.next (searched : Searched request i) : ¬ EndsHeader (request.take i) := by
  obtain ⟨j, rfl⟩ := Nat.exists_eq_add_of_lt searched.positive
  rw [Nat.zero_add] at *
  cases found : request[j]? with
  | none =>
    have past := List.getElem?_eq_none_iff.mp found
    rw [List.take_of_length_le (by omega), ← List.take_of_length_le past]
    exact searched.none j (by omega)
  | some c =>
    have here := (List.getElem?_eq_some_iff.mp found).1
    rw [take_succ found]
    exact not_endsHeader_single (searched.last (by omega)) c

theorem Searched.exhausted (searched : Searched request i) (past : request.length ≤ i) : IsHeaderEnd request 0 := by
  refine .inl ⟨rfl, fun p inside => ?_⟩
  rcases Nat.lt_or_eq_of_le (inside.trans past) with less | rfl
  · exact searched.none p less
  · exact searched.next

theorem Searched.skip {stop : Nat} (none : ∀ p ≤ stop, ¬ EndsHeader (request.take p))
    (plain : ∀ c, request[stop]? = some c → ¬ LineEnd c) : Searched request (stop + 2) := by
  refine ⟨by omega, fun p inside => ?_, fun j c same found => plain c ?_⟩
  · rcases Nat.lt_or_eq_of_le (Nat.le_of_lt_succ inside) with less | rfl
    · exact none p (by omega)
    · cases found : request[stop]? with
      | none =>
        have past := List.getElem?_eq_none_iff.mp found
        rw [List.take_of_length_le (by omega), ← List.take_of_length_le past]
        exact none stop (le_refl _)
      | some c =>
        rw [take_succ found]
        exact not_endsHeader_last (plain c found)
  · obtain rfl : j = stop := by omega
    exact found

theorem headerFrom_spec (fuel : Nat) (searched : Searched request i) (enough : request.length ≤ fuel + i) :
    IsHeaderEnd request (headerFrom request fuel i) := by
  induction fuel generalizing i with
  | zero => exact searched.exhausted (by omega)
  | succ fuel ih =>
    rw [headerFrom]
    cases found : request[i]? with
    | none => exact searched.exhausted (List.getElem?_eq_none_iff.mp found)
    | some c =>
      have here := (List.getElem?_eq_some_iff.mp found).1
      simp only
      split
      next suspect =>
        obtain ⟨k, inside, lines, outcome⟩ := @headerRun_cases [] (request.drop (i - 1)) (i - 1) (by simp)
        rw [List.length_drop] at inside
        have positive := searched.positive
        have ends : ∀ j, j ≤ k → (EndsHeader (request.take (i - 1 + j)) ↔ EndsHeader ((request.drop (i - 1)).take j)) := by
          intro j less
          rw [List.take_add]
          refine endsHeader_append (searched.last (by omega)) fun c member => lines c ?_
          exact List.take_subset_take_left _ less member
        have known : ∀ p ≤ i - 1 + k, (∀ j, 0 < j → p = i - 1 + j → ¬ EndsHeader ((request.drop (i - 1)).take j)) →
            ¬ EndsHeader (request.take p) := by
          intro p bound later
          by_cases early : p < i
          · exact searched.none p early
          · obtain ⟨j, rfl⟩ := Nat.exists_eq_add_of_le (show i - 1 ≤ p by omega)
            rw [ends j (by omega)]
            exact later j (by omega) rfl
        simp only [List.nil_append] at outcome
        rcases outcome with ⟨result, some, complete, none⟩ | ⟨result, plain, none⟩
        · rw [show headerRun 0 (i - 1) (request.drop (i - 1)) = (true, i - 1 + k) from result]
          simp only
          refine .inr ⟨by omega, by omega, (ends k (le_refl _)).mpr complete, fun p less => ?_⟩
          exact known p less.le fun j some same => none j some (by omega)
        · rw [show headerRun 0 (i - 1) (request.drop (i - 1)) = (false, i - 1 + k) from result]
          simp only
          refine ih (.skip (fun p less => ?_) fun d stopped => ?_) (by omega)
          · exact known p less fun j some same => none j some (by omega)
          · exact plain d (by rw [List.getElem?_drop]; exact stopped)
      next plain =>
        refine ih (.skip (fun p less => ?_) fun d same => ?_) (by omega)
        · rcases Nat.lt_or_eq_of_le less with early | rfl
          · exact searched.none p early
          · exact searched.next
        · rw [found] at same
          cases same
          rintro (rfl | rfl)
          · exact plain (.inl (by decide))
          · exact plain (.inl (by decide))

theorem headerComplete_spec (request : Bytes) : IsHeaderEnd request (headerComplete request) := by
  apply headerFrom_spec request.length _ (by omega)
  refine ⟨by decide, fun p less => ?_, fun j c same => absurd same (by omega)⟩
  obtain rfl : p = 0 := by omega
  simp [EndsHeader]

end Scan

section Pieces
variable {request : Bytes} {size other : Nat}

theorem IsHeaderEnd.unique (first : IsHeaderEnd request size) (second : IsHeaderEnd request other) : size = other := by
  rcases first with ⟨rfl, none⟩ | ⟨positive, inside, ends, before⟩
  · rcases second with ⟨rfl, -⟩ | ⟨-, inside, ends, -⟩
    · rfl
    · exact absurd ends (none other inside)
  · rcases second with ⟨rfl, none⟩ | ⟨-, -, found, earlier⟩
    · exact absurd ends (none size inside)
    · rcases Nat.lt_trichotomy size other with less | same | more
      · exact absurd ends (earlier size less)
      · exact same
      · exact absurd found (before other more)

theorem IsHeaderEnd.append (found : IsHeaderEnd request size) (complete : size ≠ 0) (more : Bytes) :
    IsHeaderEnd (request ++ more) size := by
  obtain ⟨rfl, -⟩ | ⟨positive, inside, ends, before⟩ := found
  · exact absurd rfl complete
  · have same : ∀ p ≤ size, (request ++ more).take p = request.take p :=
      fun p less => List.take_append_of_le_length (less.trans inside)
    refine .inr ⟨positive, by rw [List.length_append]; omega, by rwa [same size (le_refl _)], fun p less => ?_⟩
    rw [same p less.le]
    exact before p less

theorem headerComplete_append (complete : headerComplete request ≠ 0) (more : Bytes) :
    headerComplete (request ++ more) = headerComplete request :=
  (headerComplete_spec _).unique ((headerComplete_spec request).append complete more)

/-- The header `handle_read` finds in the pieces of a request, each read on its own: the
reads are left where the first request is going to be handled. -/
def headerFound (setup : HttpSetup) (memory : Bytes) : HttpState → HttpData → List Bytes → Nat
  | _, _, [] => 0
  | state, cookie, piece :: pieces =>
    match state.handleRead setup memory cookie piece [] with
    | .unfinished ready => ready.work.headerSize
    | .freed _ => 0
    | .returned state =>
      match state.cookie with
      | none => 0
      | some cookie => headerFound setup memory state cookie pieces

variable {setup : HttpSetup} {memory : Bytes} {state : HttpState} {cookie : HttpData} {piece : Bytes}

theorem handleRead_waits (fits : (cookie.request.getD [] ++ piece).length ≤ maxRequestBytes)
    (incomplete : headerComplete (cookie.request.getD [] ++ piece) = 0) :
    ∃ after, state.handleRead setup memory cookie piece [] = .returned after ∧
      after.cookie = some { cookie with request := some (cookie.request.getD [] ++ piece) } := by
  cases collected : cookie.request with
  | none =>
    rw [collected, Option.getD_none, List.nil_append] at incomplete
    simp only [HttpState.handleRead, collected, incomplete, if_pos]
    exact ⟨_, rfl, rfl⟩
  | some bytes =>
    rw [collected, Option.getD_some] at incomplete fits
    simp only [HttpState.handleRead, collected, if_neg (Nat.not_lt.mpr fits), HttpState.readLoop, HttpState.pending,
      Option.getD_some, incomplete, if_pos]
    exact ⟨_, rfl, rfl⟩

theorem handleRead_finds (fits : (cookie.request.getD [] ++ piece).length ≤ maxRequestBytes)
    (complete : headerComplete (cookie.request.getD [] ++ piece) ≠ 0) :
    ∃ ready, state.handleRead setup memory cookie piece [] = .unfinished ready ∧
      ready.work.headerSize = headerComplete (cookie.request.getD [] ++ piece) := by
  cases collected : cookie.request with
  | none =>
    rw [collected, Option.getD_none, List.nil_append] at complete
    simp only [HttpState.handleRead, collected, if_neg complete]
    exact ⟨_, rfl, rfl⟩
  | some bytes =>
    rw [collected, Option.getD_some] at complete fits
    simp only [HttpState.handleRead, collected, if_neg (Nat.not_lt.mpr fits), HttpState.readLoop, HttpState.pending,
      Option.getD_some, if_neg complete]
    exact ⟨_, rfl, rfl⟩

theorem headerFound_eq (pieces : List Bytes) (waiting : headerComplete (cookie.request.getD []) = 0)
    (fits : (cookie.request.getD [] ++ pieces.flatten).length ≤ maxRequestBytes) :
    headerFound setup memory state cookie pieces = headerComplete (cookie.request.getD [] ++ pieces.flatten) := by
  induction pieces generalizing state cookie with
  | nil => rw [headerFound, List.flatten_nil, List.append_nil, waiting]
  | cons piece pieces ih =>
    rw [List.flatten_cons, ← List.append_assoc] at fits ⊢
    have now : (cookie.request.getD [] ++ piece).length ≤ maxRequestBytes := by
      rw [List.length_append] at fits
      omega
    rw [headerFound]
    by_cases complete : headerComplete (cookie.request.getD [] ++ piece) = 0
    · obtain ⟨after, returned, kept⟩ := @handleRead_waits setup memory state cookie piece now complete
      simp only [returned, kept]
      exact ih complete fits
    · obtain ⟨ready, found, size⟩ := @handleRead_finds setup memory state cookie piece now complete
      simp only [found, size]
      exact (headerComplete_append complete _).symm

/-- `header_complete` finds the first end of a header, whatever comes behind it and in
whatever pieces the request comes. -/
theorem headerComplete_first (request : Bytes) : IsHeaderEnd request (headerComplete request) ∧
      (∀ more, headerComplete request ≠ 0 → headerComplete (request ++ more) = headerComplete request) ∧
      ∀ setup memory state cookie pieces, cookie.request = none → pieces.flatten = request → request.length ≤ maxRequestBytes →
        headerFound setup memory state cookie pieces = headerComplete request := by
  refine ⟨headerComplete_spec request, fun more complete => headerComplete_append complete more, ?_⟩
  rintro setup memory state cookie pieces fresh rfl fits
  have whole : cookie.request.getD [] ++ pieces.flatten = pieces.flatten := by rw [fresh]; rfl
  rw [headerFound_eq pieces (by rw [fresh]; decide) (by rwa [whole]), whole]

/-- `GET`, and its empty line in two pieces with a byte of the next request. -/
theorem headerComplete_first_get : headerComplete [71, 69, 84, 13, 10, 13, 10, 71] = 7 ∧
      ∀ setup memory state, headerFound setup memory state ⟨Vector.replicate 16 0, none, [], true⟩
        [[71, 69, 84, 13], [10, 13], [10, 71]] = 7 := by
  have size : headerComplete [71, 69, 84, 13, 10, 13, 10, 71] = 7 := by decide
  refine ⟨size, fun setup memory state => ?_⟩
  rw [← size]
  exact (headerComplete_first _).2.2 setup memory state _ _ rfl rfl (by decide)

end Pieces

end BtServer.Proofs.HeaderEnd

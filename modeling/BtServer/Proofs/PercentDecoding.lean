import BtServer.Proofs.QueryScan
import BtServer.RequestMemory

/-! `scan_urlencoded_query` on its memory decodes what an encoder may have written, in
place or to a destination of its own, and accepts nothing else. -/

namespace BtServer.Proofs.PercentDecoding
open Lib RequestMemory QueryScan

variable {ε : Type}

def hexValue (c : UInt8) : Option Nat :=
  if 48 ≤ c ∧ c ≤ 57 then some (c.toNat - 48)
  else if 65 ≤ c ∧ c ≤ 70 then some (c.toNat - 55)
  else if 97 ≤ c ∧ c ≤ 102 then some (c.toNat - 87)
  else none

/-- A text that encodes some bytes: each is written literally, where the matrix admits
that, or as two hex digits. -/
inductive Encoding (flag : ScanFlag) : Bytes → Bytes → Prop where
  | nil : Encoding flag [] []
  | literal {c : UInt8} {text bytes : Bytes} (admitted : flag.accepts c = true) (raw : c ≠ 37)
      (rest : Encoding flag text bytes) : Encoding flag (c :: text) (c :: bytes)
  | escaped {high low byte : UInt8} {text bytes : Bytes} {first second : Nat} (upper : hexValue high = some first)
      (lower : hexValue low = some second) (value : byte.toNat = 16 * first + second) (rest : Encoding flag text bytes) :
      Encoding flag (37 :: high :: low :: text) (byte :: bytes)

def EndsToken (flag : ScanFlag) (c : UInt8) : Prop := c = 38 ∨ Terminates c ∨ flag = .param ∧ c = 61

instance (c : UInt8) : Decidable (Terminates c) := inferInstanceAs (Decidable (_ ∨ _ ∨ _ ∨ _))

instance (flag : ScanFlag) (c : UInt8) : Decidable (EndsToken flag c) := inferInstanceAs (Decidable (_ ∨ _ ∨ _))

def cursor (flag : ScanFlag) (position : Nat) (c : UInt8) : Nat :=
  if flag = .param ∧ c = 61 ∨ flag = .value ∧ c = 38 then position + 1 else position

/-- The destination is not behind the source, or it is behind the end of the token. -/
def Apart (flag : ScanFlag) (memory : Bytes) (string deststring : Nat) : Prop :=
  deststring ≤ string ∨
    ∃ stop c, string ≤ stop ∧ stop < deststring ∧ memory[stop]? = some c ∧ flag.accepts c = false

section Digits

theorem hexValue_iff : ∀ c : UInt8, fromhex c ≠ 0xff ↔ hexValue c = some (fromhex c).toNat ∧ (fromhex c).toNat < 16 :=
  forall_byte (by decide +kernel)

theorem hexValue_none : ∀ c : UInt8, fromhex c = 0xff → hexValue c = none := forall_byte (by decide +kernel)

theorem accepts_digit (flag : ScanFlag) : ∀ c : UInt8, fromhex c ≠ 0xff → flag.accepts c = true := by
  cases flag <;> exact forall_byte (by decide +kernel)

theorem joined_toNat {high low : UInt8} (upper : high.toNat < 16) (lower : low.toNat < 16) :
    (low ||| high <<< 4).toNat = 16 * high.toNat + low.toNat := by
  have all : ∀ a b : Fin 16, (UInt8.ofNat b.val ||| UInt8.ofNat a.val <<< 4).toNat = 16 * a.val + b.val := by
    decide +kernel
  simpa using all ⟨high.toNat, upper⟩ ⟨low.toNat, lower⟩

variable {flag : ScanFlag} {text bytes : Bytes}

theorem encoding_iff : Encoding flag text bytes ↔ Encodes flag text bytes := by
  constructor
  · intro encoding
    induction encoding with
    | nil => exact .nil
    | literal admitted raw _ ih => exact .plain admitted raw ih
    | @escaped high low byte text bytes first second upper lower value _ ih =>
      have digit : fromhex high ≠ 0xff := fun none => by rw [hexValue_none high none] at upper; cases upper
      have digit' : fromhex low ≠ 0xff := fun none => by rw [hexValue_none low none] at lower; cases lower
      obtain ⟨same, small⟩ := (hexValue_iff high).mp digit
      obtain ⟨same', small'⟩ := (hexValue_iff low).mp digit'
      rw [same] at upper
      rw [same'] at lower
      cases upper
      cases lower
      have joined : byte = fromhex low ||| fromhex high <<< 4 :=
        UInt8.toNat_inj.mp (value.trans (joined_toNat small small').symm)
      rw [joined]
      exact .escaped digit digit' ih
  · intro encodes
    induction encodes with
    | nil => exact .nil
    | plain accepted raw _ ih => exact .literal accepted raw ih
    | escaped first second _ ih =>
      obtain ⟨same, small⟩ := (hexValue_iff _).mp first
      obtain ⟨same', small'⟩ := (hexValue_iff _).mp second
      exact .escaped same same' (joined_toNat small small') ih

theorem encodes_accepted (encodes : Encodes flag text bytes) : ∀ c ∈ text, flag.accepts c = true := by
  induction encodes with
  | nil => simp
  | plain accepted _ _ ih => simpa using ⟨accepted, ih⟩
  | escaped first second _ ih =>
    have percent : flag.accepts 37 = true := by cases flag <;> decide
    simpa using ⟨percent, accepts_digit flag _ first, accepts_digit flag _ second, ih⟩

theorem encodes_length (encodes : Encodes flag text bytes) : bytes.length ≤ text.length := by
  induction encodes with
  | nil => exact le_refl _
  | plain _ _ _ ih => simpa using ih
  | escaped _ _ _ ih =>
    simp only [List.length_cons]
    omega

end Digits

section Loop
variable {flag : ScanFlag} {memory text bytes : Bytes} {string deststring s d : Nat} {c : UInt8}

def Stands (memory : Bytes) (s : Nat) (text : Bytes) : Prop := ∀ i < text.length, memory[s + i]? = text[i]?

theorem Stands.head {first : UInt8} (stands : Stands memory s (first :: text)) : memory[s]? = some first := by
  simpa using stands 0 (by simp)

theorem Stands.tail {first : UInt8} (stands : Stands memory s (first :: text)) : Stands memory (s + 1) text := by
  intro i inside
  have here := stands (i + 1) (by simpa using inside)
  rwa [List.getElem?_cons_succ, ← Nat.add_assoc, Nat.add_right_comm] at here

theorem Stands.cons {first : UInt8} (found : memory[s]? = some first) (stands : Stands memory (s + 1) text) :
    Stands memory s (first :: text) := by
  intro i inside
  cases i with
  | zero => simpa using found
  | succ i =>
    rw [List.getElem?_cons_succ, ← stands i (by simpa using inside)]
    congr 1
    omega

theorem stands_set (clear : d < s ∨ s + text.length ≤ d) (value : UInt8) :
    Stands (memory.set d value) s text ↔ Stands memory s text := by
  have same : ∀ i < text.length, (memory.set d value)[s + i]? = memory[s + i]? :=
    fun i inside => List.getElem?_set_ne (by omega)
  exact ⟨fun stands i inside => same i inside ▸ stands i inside, fun stands i inside => (same i inside).trans (stands i inside)⟩

theorem stands_drop {rest : Bytes} (here : memory.drop s = text ++ c :: rest) : Stands memory s (text ++ [c]) := by
  intro i inside
  rw [← List.getElem?_drop, here, show text ++ c :: rest = text ++ [c] ++ rest by simp, List.getElem?_append_left inside]

theorem Stands.drop (stands : Stands memory s (text ++ [c])) : ∃ rest, memory.drop s = text ++ c :: rest := by
  have taken : (memory.drop s).take (text ++ [c]).length = text ++ [c] := by
    apply List.ext_getElem?
    intro i
    rw [List.getElem?_take]
    split
    next inside => rw [List.getElem?_drop, stands i inside]
    next beyond => exact (List.getElem?_eq_none (by omega)).symm
  refine ⟨(memory.drop s).drop (text ++ [c]).length, ?_⟩
  conv => lhs; rw [← List.take_append_drop (text ++ [c]).length (memory.drop s), taken]
  simp

theorem overwrite_set (inside : d < memory.length) (value : UInt8) (bytes : Bytes) :
    overwrite (memory.set d value) (d + 1) bytes = overwrite memory d (value :: bytes) := by
  have size : (memory.take d ++ [value]).length = d + 1 := by simp [inside.le]
  have parts : memory.set d value = memory.take d ++ [value] ++ memory.drop (d + 1) := by
    rw [List.set_eq_take_append_cons_drop, if_pos inside, List.append_assoc]
    rfl
  rw [overwrite, overwrite, parts, List.take_left' size, ← List.drop_drop, List.drop_left' size, List.drop_drop,
    List.length_cons, show d + 1 + bytes.length = d + (bytes.length + 1) by omega]
  simp

@[simp] theorem overwrite_nil (buffer : Bytes) (position : Nat) : overwrite buffer position [] = buffer := by
  simp [overwrite]

section Steps
variable {first high low : UInt8} {fuel : Nat}

theorem scanLoop_literal (found : memory[s]? = some first) (accepted : flag.accepts first = true) (raw : first ≠ 37)
    (inside : d < memory.length) :
    (scanLoop flag string deststring (fuel + 1) memory s d : Access ε Scan) =
      scanLoop flag string deststring fuel (memory.set d first) (s + 1) (d + 1) := by
  simp only [scanLoop, fetch_eq found, bind, Except.bind, if_pos accepted, if_neg raw, store_inside inside]

theorem scanLoop_escaped (percent : memory[s]? = some 37) (upper : memory[s + 1]? = some high)
    (lower : memory[s + 2]? = some low) (digit : fromhex high ≠ 0xff) (digit' : fromhex low ≠ 0xff) (inside : d < memory.length) :
    (scanLoop flag string deststring (fuel + 1) memory s d : Access ε Scan) =
      scanLoop flag string deststring fuel (memory.set d (fromhex low ||| fromhex high <<< 4)) (s + 3) (d + 1) := by
  have accepted : flag.accepts 37 = true := by cases flag <;> decide
  simp only [scanLoop, fetch_eq percent, fetch_eq upper, fetch_eq lower, bind, Except.bind, if_pos accepted, if_true,
    if_neg digit, if_neg digit', store_inside inside]

theorem scanLoop_stop (found : memory[s]? = some c) (stops : flag.accepts c = false) :
    (scanLoop flag string deststring (fuel + 1) memory s d : Access ε Scan) =
      .ok (RequestMemory.scanStop flag string deststring memory (s + 1) d c) := by
  simp only [scanLoop, fetch_eq found, bind, Except.bind, stops, Bool.false_eq_true, if_false]

theorem scanLoop_cases {scan : Scan} (ran : (scanLoop flag string deststring (fuel + 1) memory s d : Access ε Scan) = .ok scan)
    (known : 0 ≤ scan.returned) :
    (∃ c, memory[s]? = some c ∧ flag.accepts c = false ∧
        scan = RequestMemory.scanStop flag string deststring memory (s + 1) d c) ∨
      (∃ c, memory[s]? = some c ∧ flag.accepts c = true ∧ c ≠ 37 ∧ d < memory.length ∧
        (scanLoop flag string deststring fuel (memory.set d c) (s + 1) (d + 1) : Access ε Scan) = .ok scan) ∨
      ∃ high low, memory[s]? = some 37 ∧ memory[s + 1]? = some high ∧ memory[s + 2]? = some low ∧ fromhex high ≠ 0xff ∧
        fromhex low ≠ 0xff ∧ d < memory.length ∧
        (scanLoop flag string deststring fuel (memory.set d (fromhex low ||| fromhex high <<< 4)) (s + 3) (d + 1) :
          Access ε Scan) = .ok scan := by
  have failed : ¬ (.ok ⟨-1, string, memory⟩ : Access ε Scan) = .ok scan := by
    rintro ⟨⟩
    exact absurd known (show ¬ (0 : Int) ≤ -1 by decide)
  rw [scanLoop] at ran
  obtain ⟨c, found, ran⟩ := Access.bind_ok.mp ran
  rw [fetch_ok] at found
  split at ran
  next accepted =>
    split at ran
    next escape =>
      subst escape
      obtain ⟨high, upper, ran⟩ := Access.bind_ok.mp ran
      split at ran
      next => exact absurd ran failed
      next digit =>
        obtain ⟨low, lower, ran⟩ := Access.bind_ok.mp ran
        split at ran
        next => exact absurd ran failed
        next digit' =>
          obtain ⟨after, stored, ran⟩ := Access.bind_ok.mp ran
          obtain ⟨inside, rfl⟩ := store_ok.mp stored
          exact .inr (.inr ⟨high, low, found, fetch_ok.mp upper, fetch_ok.mp lower, digit, digit', inside, ran⟩)
    next raw =>
      obtain ⟨after, stored, ran⟩ := Access.bind_ok.mp ran
      obtain ⟨inside, rfl⟩ := store_ok.mp stored
      exact .inr (.inl ⟨c, found, accepted, raw, inside, ran⟩)
  next stops =>
    cases ran
    exact .inl ⟨c, found, by simpa using stops, rfl⟩

end Steps

theorem scanLoop_encodes (encodes : Encodes flag text bytes) (stops : flag.accepts c = false) (fuel : Nat)
    (stands : Stands memory s (text ++ [c])) (clear : d ≤ s ∨ s + text.length < d) (room : d + bytes.length ≤ memory.length)
    (enough : text.length < fuel) :
    (scanLoop flag string deststring fuel memory s d : Access ε Scan) =
      .ok (RequestMemory.scanStop flag string deststring (overwrite memory d bytes) (s + text.length + 1)
        (d + bytes.length) c) := by
  induction encodes generalizing memory s d fuel with
  | nil =>
    obtain ⟨fuel, rfl⟩ := Nat.exists_eq_add_of_lt enough
    rw [scanLoop_stop stands.head stops, overwrite_nil]
    rfl
  | @plain first text bytes accepted raw _ ih =>
    obtain ⟨fuel, rfl⟩ := Nat.exists_eq_add_of_lt enough
    simp only [List.length_cons] at clear room enough ⊢
    have after : Stands (memory.set d first) (s + 1) (text ++ [c]) := (stands_set (by simp; omega) first).mpr stands.tail
    rw [scanLoop_literal stands.head accepted raw (by omega), ih _ after (by omega) (by rw [List.length_set]; omega) (by omega),
      overwrite_set (by omega)]
    congr 2 <;> omega
  | @escaped high low text bytes digit digit' _ ih =>
    obtain ⟨fuel, rfl⟩ := Nat.exists_eq_add_of_lt enough
    simp only [List.length_cons] at clear room enough ⊢
    have after : Stands (memory.set d (fromhex low ||| fromhex high <<< 4)) (s + 3) (text ++ [c]) :=
      (stands_set (by simp; omega) _).mpr stands.tail.tail.tail
    rw [scanLoop_escaped stands.head stands.tail.head stands.tail.tail.head digit digit' (by omega),
      ih _ after (by omega) (by rw [List.length_set]; omega) (by omega), overwrite_set (by omega)]
    congr 2 <;> omega

theorem Apart.clear (apart : Apart flag memory s d) (stands : Stands memory s (text ++ [c]))
    (accepted : ∀ c ∈ text, flag.accepts c = true) : d ≤ s ∨ s + text.length < d := by
  rcases apart with before | ⟨stop, other, later, behind, found, stops⟩
  · exact .inl before
  · refine .inr (Nat.lt_of_le_of_lt ?_ behind)
    by_contra early
    have inside : stop - s < text.length := by omega
    have there := stands (stop - s) (by simp; omega)
    rw [Nat.add_sub_cancel' later, found, List.getElem?_append_left inside] at there
    have member := accepted other (List.mem_of_getElem? there.symm)
    rw [stops] at member
    cases member

section Advance
variable {count : Nat} {value : UInt8}

def Goes (flag : ScanFlag) (memory : Bytes) (s count : Nat) : Prop :=
  ∀ i < count, ∃ c, memory[s + i]? = some c ∧ flag.accepts c = true

variable (apart : Apart flag memory s d) (goes : Goes flag memory s count) (positive : 0 < count)
include apart goes positive

theorem Apart.advance (value : UInt8) :
    d < s + count ∨ ∃ stop c, s + count ≤ stop ∧ stop < d ∧ (memory.set d value)[stop]? = some c ∧ flag.accepts c = false := by
  rcases apart with before | ⟨stop, c, later, behind, found, stops⟩
  · exact .inl (by omega)
  · refine .inr ⟨stop, c, ?_, behind, by rw [List.getElem?_set_ne (by omega)]; exact found, stops⟩
    by_contra early
    obtain ⟨c', found', accepted⟩ := goes (stop - s) (by omega)
    rw [Nat.add_sub_cancel' later, found] at found'
    cases found'
    rw [stops] at accepted
    cases accepted

theorem Apart.next (value : UInt8) :
    Apart flag (memory.set d value) (s + count) (d + 1) := by
  rcases apart.advance goes positive value with before | ⟨stop, c, later, behind, found, stops⟩
  · exact .inl (by omega)
  · exact .inr ⟨stop, c, later, by omega, found, stops⟩

theorem Apart.stood (stands : Stands (memory.set d value) (s + count) (text ++ [c])) (accepted : ∀ c ∈ text, flag.accepts c = true) :
    Stands memory (s + count) (text ++ [c]) := by
  refine (stands_set ?_ value).mp stands
  rw [List.length_append, List.length_singleton]
  rcases apart.advance goes positive value with before | ⟨stop, other, later, behind, found, stops⟩
  · exact .inl before
  · have clear := Apart.clear (.inr ⟨stop, other, later, behind, found, stops⟩) stands accepted
    omega

end Advance

theorem scanLoop_decodes {scan : Scan} (fuel : Nat)
    (ran : (scanLoop flag string deststring fuel memory s d : Access ε Scan) = .ok scan) (known : 0 ≤ scan.returned)
    (apart : Apart flag memory s d) :
    ∃ text bytes c, Stands memory s (text ++ [c]) ∧ Encodes flag text bytes ∧ flag.accepts c = false ∧
      scan = RequestMemory.scanStop flag string deststring (overwrite memory d bytes) (s + text.length + 1)
        (d + bytes.length) c := by
  induction fuel generalizing memory s d with
  | zero => cases ran
  | succ fuel ih =>
    rcases scanLoop_cases ran known with ⟨c, found, stops, rfl⟩ | ⟨first, found, accepted, raw, inside, ran⟩ |
      ⟨high, low, percent, upper, lower, digit, digit', inside, ran⟩
    · exact ⟨[], [], c, .cons found (by intro i inside; cases inside), .nil, stops, by simp⟩
    · have goes : Goes flag memory s 1 := fun i _ => ⟨first, by rw [show s + i = s by omega]; exact found, accepted⟩
      obtain ⟨text, bytes, c, stands, encodes, stops, rfl⟩ := ih ran (apart.next goes Nat.one_pos first)
      have stood := apart.stood goes Nat.one_pos stands (encodes_accepted encodes)
      refine ⟨first :: text, first :: bytes, c, .cons found stood, .plain accepted raw encodes, stops, ?_⟩
      rw [overwrite_set inside]
      simp only [List.length_cons]
      congr 1 <;> omega
    · have accepted : flag.accepts 37 = true := by cases flag <;> decide
      have goes : Goes flag memory s 3 := by
        intro i less
        obtain rfl | rfl | rfl : i = 0 ∨ i = 1 ∨ i = 2 := by omega
        · exact ⟨37, percent, accepted⟩
        · exact ⟨high, upper, accepts_digit flag high digit⟩
        · exact ⟨low, lower, accepts_digit flag low digit'⟩
      obtain ⟨text, bytes, c, stands, encodes, stops, rfl⟩ := ih ran (apart.next goes (by decide) _)
      have stood := apart.stood goes (by decide) stands (encodes_accepted encodes)
      refine ⟨37 :: high :: low :: text, _ :: bytes, c, .cons percent (.cons upper (.cons lower stood)),
        .escaped digit digit' encodes, stops, ?_⟩
      rw [overwrite_set inside]
      simp only [List.length_cons]
      congr 1 <;> omega

end Loop

section Tokens
variable {flag : ScanFlag} {memory text bytes : Bytes} {string deststring position count : Nat} {c : UInt8}

theorem endsToken_stops (mode : flag ≠ .path) (ends : EndsToken flag c) : flag.accepts c = false := by
  rcases ends with rfl | (rfl | rfl | rfl | rfl) | ⟨rfl, rfl⟩
  · cases flag <;> decide
  · cases flag <;> decide
  · cases flag <;> decide
  · cases flag <;> decide
  · cases flag <;> decide
  · decide

theorem scanStop_ends (mode : flag ≠ .path) (ends : EndsToken flag c) (some : count ≠ 0 ∨ ¬ Terminates c) :
    RequestMemory.scanStop flag string deststring memory (position + 1) (deststring + count) c =
      ⟨count, cursor flag position c, memory⟩ := by
  have length : ((deststring + count : Nat) : Int) - deststring = count := by omega
  unfold RequestMemory.scanStop
  simp only [length, Nat.add_sub_cancel]
  by_cases hard : Terminates c
  · have more : ¬ deststring + count = deststring := by
      rcases some with some | soft
      · omega
      · exact absurd hard soft
    rw [if_pos (show c = 0 ∨ c = 13 ∨ c = 10 ∨ c = 32 from hard), if_neg more]
    rcases hard with rfl | rfl | rfl | rfl <;> simp [cursor]
  · rw [if_neg (show ¬ (c = 0 ∨ c = 13 ∨ c = 10 ∨ c = 32) from hard)]
    rcases ends with rfl | terminates | ⟨rfl, rfl⟩
    · cases flag with
      | path => exact absurd rfl mode
      | param => simp [cursor]
      | value => simp [cursor]
    · exact absurd terminates hard
    · simp [cursor]

theorem scanStop_known (mode : flag ≠ .path)
    (known : 0 ≤ (RequestMemory.scanStop flag string deststring memory (position + 1) (deststring + count) c).returned) :
    EndsToken flag c ∧ (count ≠ 0 ∨ ¬ Terminates c) := by
  by_cases hard : Terminates c
  · refine ⟨.inr (.inl hard), .inl fun none => ?_⟩
    rw [none, RequestMemory.scanStop, if_pos (show c = 0 ∨ c = 13 ∨ c = 10 ∨ c = 32 from hard),
      if_pos (Nat.add_zero _)] at known
    exact absurd known (show ¬ (0 : Int) ≤ -2 by decide)
  · refine ⟨?_, .inr hard⟩
    by_contra goes
    have failed : RequestMemory.scanStop flag string deststring memory (position + 1) (deststring + count) c =
        ⟨-1, string, memory⟩ := by
      rw [RequestMemory.scanStop, if_neg (show ¬ (c = 0 ∨ c = 13 ∨ c = 10 ∨ c = 32) from hard)]
      by_cases question : c = 63
      · rw [if_pos question, if_pos mode]
      · rw [if_neg question]
        by_cases equals : c = 61
        · rw [if_pos equals, if_pos fun param => goes (.inr (.inr ⟨param, equals⟩))]
        · rw [if_neg equals, if_neg fun ampersand => goes (.inl ampersand)]
    rw [failed] at known
    exact absurd known (show ¬ (0 : Int) ≤ -1 by decide)

/-- Decoding undoes encoding, and nothing but an encoding is decoded. -/
theorem decodes_encodings (flag : ScanFlag) (mode : flag ≠ .path) (memory : Bytes) (string deststring : Nat)
    (apart : Apart flag memory string deststring) :
    (∀ text bytes c rest, memory.drop string = text ++ c :: rest → Encoding flag text bytes → bytes ≠ [] →
        EndsToken flag c → deststring + bytes.length ≤ memory.length →
        (RequestMemory.scanUrlencodedQuery memory string deststring flag : Access ε Scan) =
          .ok ⟨bytes.length, cursor flag (string + text.length) c, overwrite memory deststring bytes⟩) ∧
      ∀ scan, (RequestMemory.scanUrlencodedQuery memory string deststring flag : Access ε Scan) = .ok scan →
        0 ≤ scan.returned → ∃ text bytes c rest, memory.drop string = text ++ c :: rest ∧ Encoding flag text bytes ∧
          EndsToken flag c ∧
          scan = ⟨bytes.length, cursor flag (string + text.length) c, overwrite memory deststring bytes⟩ := by
  constructor
  · intro text bytes c rest here encoding some ends room
    have encodes := encoding_iff.mp encoding
    have stands := stands_drop here
    have clear := apart.clear stands (encodes_accepted encodes)
    have length : text.length < memory.length + 1 := by
      have := congrArg List.length here
      simp only [List.length_drop, List.length_append] at this
      omega
    rw [RequestMemory.scanUrlencodedQuery,
      scanLoop_encodes encodes (endsToken_stops mode ends) _ stands clear room length,
      scanStop_ends mode ends (.inl (by simpa using some))]
  · intro scan ran known
    obtain ⟨text, bytes, c, stands, encodes, stops, rfl⟩ := scanLoop_decodes _ ran known apart
    obtain ⟨ends, some⟩ := scanStop_known mode known
    obtain ⟨rest, here⟩ := stands.drop
    exact ⟨text, bytes, c, rest, here, encoding_iff.mpr encodes, ends, scanStop_ends mode ends some⟩

/-- The value `a%4F` behind a name, decoded in place. -/
theorem decodes_encodings_value :
    ((RequestMemory.scanUrlencodedQuery [120, 61, 97, 37, 52, 70, 38, 10] 2 2 .value : Access HttpError Scan) =
        .ok ⟨2, 7, [120, 61, 97, 79, 52, 70, 38, 10]⟩) ∧
      ∀ scan, (RequestMemory.scanUrlencodedQuery [120, 61, 97, 37, 52, 70, 38, 10] 2 2 .value : Access HttpError Scan) =
        .ok scan → 0 ≤ scan.returned → scan.string = 7 := by
  have decoded := @decodes_encodings HttpError .value (by decide) [120, 61, 97, 37, 52, 70, 38, 10] 2 2 (.inl (le_refl 2))
  have ran := decoded.1 [97, 37, 52, 70] [97, 79] 38 [10] rfl
    (.literal (by decide) (by decide) (.escaped rfl rfl (by decide) .nil)) (by decide) (.inl rfl) (by decide)
  refine ⟨ran, fun scan same known => ?_⟩
  rw [ran] at same
  cases same
  rfl

end Tokens

end BtServer.Proofs.PercentDecoding

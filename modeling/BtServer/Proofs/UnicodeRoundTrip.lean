import BtServer.Unicode

/-! Encoding and decoding of one code point. What the decoder stores in a byte is a sum of parts of
single bytes, and what the encoder writes is a digit with a mark in front; each class of lengths is then
a matter of comparing digits. -/

namespace BtServer.Proofs.UnicodeRoundTrip
open Lib

def decoded (bytes : Bytes) : Nat × Nat :=
  ((encUtf8ToUnicodeOne bytes).1, littleEndian (encUtf8ToUnicodeOne bytes).2)

def RoundTrips (code : Nat) : Prop := decoded (encUnicodeToUtf8One code) = ((encUnicodeToUtf8One code).length, code)

section Parts

private theorem storeByte_add (left right : Int32) :
    (storeByte (left + right)).toNat = ((storeByte left).toNat + (storeByte right).toNat) % 256 := by
  simp [storeByte]

private theorem shifted (byte : UInt8) : (storeByte (toChar byte <<< 6)).toNat = byte.toNat % 4 * 64 ∧
    (storeByte (toChar byte <<< 4)).toNat = byte.toNat % 16 * 16 ∧
    (storeByte (toChar byte <<< 2)).toNat = byte.toNat % 64 * 4 ∧
    (storeByte ((toChar byte <<< 2) &&& (0x1C : Int32))).toNat = byte.toNat % 8 * 4 ∧
    (storeByte ((toChar byte <<< 6) &&& (0x40 : Int32))).toNat = byte.toNat % 2 * 64 := by
  revert byte
  exact forall_byte (by decide +kernel)

private theorem masked (byte : UInt8) : (storeByte (toChar byte &&& 0x3F)).toNat = byte.toNat % 64 ∧
    (storeByte ((toChar byte >>> 2) &&& (0x07 : Int32))).toNat = byte.toNat / 4 % 8 ∧
    (storeByte ((toChar byte >>> 2) &&& (0x0F : Int32))).toNat = byte.toNat / 4 % 16 ∧
    (storeByte ((toChar byte >>> 4) &&& (0x03 : Int32))).toNat = byte.toNat / 16 % 4 := by
  revert byte
  exact forall_byte (by decide +kernel)

private theorem sums (b c : UInt8) :
    (storeByte ((toChar b <<< 6) + (toChar c &&& 0x3F))).toNat = b.toNat % 4 * 64 + c.toNat % 64 ∧
    (storeByte ((toChar b <<< 4) + ((toChar c >>> 2) &&& 0x0F))).toNat = b.toNat % 16 * 16 + c.toNat / 4 % 16 ∧
    (storeByte ((toChar b <<< 2) + ((toChar c >>> 4) &&& 0x03))).toNat = b.toNat % 64 * 4 + c.toNat / 16 % 4 ∧
    (storeByte (((toChar b <<< 2) &&& (0x1C : Int32)) + ((toChar c >>> 4) &&& 0x03))).toNat =
      b.toNat % 8 * 4 + c.toNat / 16 % 4 ∧
    (storeByte (((toChar b <<< 6) &&& (0x40 : Int32)) + (toChar c &&& 0x3F))).toNat = b.toNat % 2 * 64 + c.toNat % 64 := by
  have fits : ∀ x y, x < 256 → y < 256 - x → (x + y) % 256 = x + y := fun x y _ less => Nat.mod_eq_of_lt (by omega)
  obtain ⟨six, four, two, twoMasked, sixMasked⟩ := shifted b
  obtain ⟨low, _, middle, high⟩ := masked c
  refine ⟨?_, ?_, ?_, ?_, ?_⟩
  · rw [storeByte_add, six, low, fits] <;> omega
  · rw [storeByte_add, four, middle, fits] <;> omega
  · rw [storeByte_add, two, high, fits] <;> omega
  · rw [storeByte_add, twoMasked, high, fits] <;> omega
  · rw [storeByte_add, sixMasked, low, fits] <;> omega

private theorem refused (byte : UInt8) : notFollowing (toChar byte) = decide (byte.toNat / 64 ≠ 2) ∧
    ((toChar byte &&& (0xE0 : Int32)) != 0x80) = decide (byte.toNat / 32 ≠ 4) := by
  revert byte
  exact forall_byte (by decide +kernel)

private theorem encGetUtf8Size_eq (byte : UInt8) : encGetUtf8Size byte =
      if byte.toNat < 0x80 then 0 else if byte.toNat < 0xC0 then -1 else if byte.toNat < 0xE0 then 2
      else if byte.toNat < 0xF0 then 3 else if byte.toNat < 0xF8 then 4 else if byte.toNat < 0xFC then 5 else 6 := by
  revert byte
  exact forall_byte (by decide +kernel)

private theorem marked (code bits mark : Nat) (checked : ∀ digit : Fin (2 ^ bits),
      (digit.val ||| mark).toUInt8.toNat = digit.val + mark) :
    (code &&& (2 ^ bits - 1) ||| mark).toUInt8.toNat = code % 2 ^ bits + mark := by
  rw [Nat.and_two_pow_sub_one_eq_mod]
  exact checked ⟨code % 2 ^ bits, Nat.mod_lt _ (by positivity)⟩

private theorem sextet (code : Nat) : (code &&& 0x3F ||| 0x80).toUInt8.toNat = code % 64 + 128 :=
  marked code 6 0x80 (by decide +kernel)

private theorem lead (code : Nat) : (code &&& 0x7F).toUInt8.toNat = code % 128 ∧
    (code &&& 0x1F ||| 0xC0).toUInt8.toNat = code % 32 + 0xC0 ∧
    (code &&& 0x0F ||| 0xE0).toUInt8.toNat = code % 16 + 0xE0 ∧
    (code &&& 0x07 ||| 0xF0).toUInt8.toNat = code % 8 + 0xF0 ∧
    (code &&& 0x03 ||| 0xF8).toUInt8.toNat = code % 4 + 0xF8 ∧
    (code &&& 0x01 ||| 0xFC).toUInt8.toNat = code % 2 + 0xFC := by
  refine ⟨?_, marked code 5 0xC0 (by decide +kernel), marked code 4 0xE0 (by decide +kernel),
    marked code 3 0xF0 (by decide +kernel), marked code 2 0xF8 (by decide +kernel), marked code 1 0xFC (by decide +kernel)⟩
  simpa using marked code 7 0 (by decide +kernel)

private theorem sextet_follows (code : Nat) : (code &&& 0x3F ||| 0x80).toUInt8.toNat / 64 = 2 := by
  rw [sextet]
  omega

end Parts

section Decoding
variable {b1 b2 b3 b4 b5 b6 : UInt8}

private theorem littleEndian_cons (byte : UInt8) (bytes : Bytes) :
    littleEndian (byte :: bytes) = byte.toNat + 256 * littleEndian bytes := rfl

private theorem follows (following : b1.toNat / 64 = 2) : notFollowing (toChar b1) = false := by
  simp [(refused b1).1, following]

private theorem decoded_one (size : b1.toNat < 0x80) : decoded [b1] = (1, b1.toNat) := by
  have leads : encGetUtf8Size b1 = 0 := by rw [encGetUtf8Size_eq, if_pos size]
  simp [decoded, encUtf8ToUnicodeOne, leads, littleEndian]

private theorem decoded_two (least : 0xC0 ≤ b1.toNat) (most : b1.toNat < 0xE0) : decoded [b1, b2] =
      if b2.toNat / 32 = 4 then (2, b1.toNat % 4 * 64 + b2.toNat % 64 + 256 * (b1.toNat / 4 % 8)) else (0, 0) := by
  have leads : encGetUtf8Size b1 = 2 := by
    rw [encGetUtf8Size_eq]
    split_ifs <;> omega
  have low := (sums b1 b2).1
  have high := (masked b1).2.1
  by_cases accepted : b2.toNat / 32 = 4
  · have check : ((toChar b2 &&& (0xE0 : Int32)) != 0x80) = false := by simp [(refused b2).2, accepted]
    have stored : encUtf8ToUnicodeOne [b1, b2] = (2, [storeByte ((toChar b1 <<< 6) + (toChar b2 &&& 0x3F)),
        storeByte ((toChar b1 >>> 2) &&& (0x07 : Int32))]) := by
      simp only [encUtf8ToUnicodeOne, List.getD_cons_zero, List.getD_cons_succ, leads, check]
      rfl
    rw [decoded, stored, if_pos accepted]
    simp only [littleEndian_cons, low, high]
    rfl
  · have check : ((toChar b2 &&& (0xE0 : Int32)) != 0x80) = true := by simp [(refused b2).2, accepted]
    have stored : encUtf8ToUnicodeOne [b1, b2] = (0, []) := by
      simp only [encUtf8ToUnicodeOne, List.getD_cons_zero, List.getD_cons_succ, leads, check]
      rfl
    rw [decoded, stored, if_neg accepted]
    rfl

variable (second : b2.toNat / 64 = 2) (third : b3.toNat / 64 = 2)
include second third

private theorem decoded_three (least : 0xE0 ≤ b1.toNat) (most : b1.toNat < 0xF0) :
    decoded [b1, b2, b3] = (3, b2.toNat % 4 * 64 + b3.toNat % 64 + 256 * (b1.toNat % 16 * 16 + b2.toNat / 4 % 16)) := by
  have leads : encGetUtf8Size b1 = 3 := by
    rw [encGetUtf8Size_eq]
    split_ifs <;> omega
  simp only [decoded, encUtf8ToUnicodeOne, List.getD_cons_zero, List.getD_cons_succ, leads, follows second, follows third,
    Int.reduceEq, if_true, if_false, Bool.or_self, Bool.false_eq_true, littleEndian_cons, sums]
  rfl

variable (fourth : b4.toNat / 64 = 2)
include fourth

private theorem decoded_four (least : 0xF0 ≤ b1.toNat) (most : b1.toNat < 0xF8) :
    decoded [b1, b2, b3, b4] = (4, b3.toNat % 4 * 64 + b4.toNat % 64 + 256 * (b2.toNat % 16 * 16 + b3.toNat / 4 % 16 +
      256 * (b1.toNat % 8 * 4 + b2.toNat / 16 % 4))) := by
  have leads : encGetUtf8Size b1 = 4 := by
    rw [encGetUtf8Size_eq]
    split_ifs <;> omega
  simp only [decoded, encUtf8ToUnicodeOne, List.getD_cons_zero, List.getD_cons_succ, leads, follows second, follows third,
    follows fourth, Int.reduceEq, if_true, if_false, Bool.or_self, Bool.false_eq_true, littleEndian_cons, sums]
  rfl

private theorem decoded_five (fifth : b5.toNat / 64 = 2) (least : 0xF8 ≤ b1.toNat) (most : b1.toNat < 0xFC) :
    decoded [b1, b2, b3, b4, b5] = (5, b4.toNat % 4 * 64 + b5.toNat % 64 + 256 * (b3.toNat % 16 * 16 + b4.toNat / 4 % 16 +
      256 * (b2.toNat % 64 * 4 + b3.toNat / 16 % 4 + 256 * (b1.toNat % 4 * 64)))) := by
  have leads : encGetUtf8Size b1 = 5 := by
    rw [encGetUtf8Size_eq]
    split_ifs <;> omega
  simp only [decoded, encUtf8ToUnicodeOne, List.getD_cons_zero, List.getD_cons_succ, leads, follows second, follows third,
    follows fourth, follows fifth, Int.reduceEq, if_true, if_false, Bool.or_self, Bool.false_eq_true, littleEndian_cons,
    sums, shifted]
  rfl

private theorem decoded_six (fifth : b5.toNat / 64 = 2) (sixth : b6.toNat / 64 = 2) (least : 0xFC ≤ b1.toNat) :
    decoded [b1, b2, b3, b4, b5, b6] = (6, b5.toNat % 4 * 64 + b6.toNat % 64 + 256 * (b5.toNat % 16 * 16 + b6.toNat / 4 % 16 +
      256 * (b3.toNat % 64 * 4 + b4.toNat / 16 % 4 + 256 * (b1.toNat % 2 * 64 + b2.toNat % 64)))) := by
  have leads : encGetUtf8Size b1 = 6 := by
    rw [encGetUtf8Size_eq]
    split_ifs <;> omega
  simp only [decoded, encUtf8ToUnicodeOne, List.getD_cons_zero, List.getD_cons_succ, leads, follows second, follows third,
    follows fourth, follows fifth, follows sixth, Int.reduceEq, if_true, if_false, Bool.or_self, Bool.false_eq_true,
    littleEndian_cons, sums]
  rfl

end Decoding

section Digits
variable (code : Nat)

private theorem code_bytes :
    code = code % 256 + 256 * (code / 256 % 256 + 256 * (code / 65536 % 256 + 256 * (code / 16777216))) := by
  omega

private theorem unmarked :
    (code % 64 + 128) % 4 = code % 4 ∧ (code % 64 + 128) % 16 = code % 16 ∧ (code % 64 + 128) % 64 = code % 64 ∧
    (code % 64 + 128) / 4 % 16 = code / 4 % 16 ∧ (code % 64 + 128) / 16 % 4 = code / 16 % 4 := by
  omega

private theorem byte_low : code / 2 ^ 6 % 4 * 64 + code % 64 = code % 256 := by
  omega

private theorem byte_next : code / 2 ^ 12 % 16 * 16 + code / 2 ^ 6 / 4 % 16 = code / 256 % 256 := by
  omega

private theorem byte_middle : code / 2 ^ 18 % 64 * 4 + code / 2 ^ 12 / 16 % 4 = code / 65536 % 256 := by
  omega

end Digits

section Classes
variable {code : Nat}

private theorem roundTrips_one (most : code ≤ 0x7F) : RoundTrips code := by
  have first := (lead code).1
  rw [RoundTrips, encUnicodeToUtf8One, if_pos most, decoded_one (by omega), first, Nat.mod_eq_of_lt (by omega)]
  rfl

private theorem roundTrips_two (least : 0x80 ≤ code) (most : code ≤ 0x7FF) : RoundTrips code ↔ code / 32 % 2 = 0 := by
  have bit : (code % 64 + 128) / 32 = 4 ↔ code / 32 % 2 = 0 := by omega
  have top : (code / 2 ^ 6 % 32 + 0xC0) % 4 * 64 + code % 64 + 256 * ((code / 2 ^ 6 % 32 + 0xC0) / 4 % 8) = code := by omega
  have first := (lead (code >>> 6)).2.1
  rw [RoundTrips, encUnicodeToUtf8One, if_neg (by omega), if_pos most, decoded_two (by omega) (by omega), first]
  simp only [sextet, Nat.shiftRight_eq_div_pow, bit, unmarked, top]
  by_cases accepted : code / 32 % 2 = 0
  · rw [if_pos accepted]
    exact iff_of_true rfl accepted
  · simp [accepted]

private theorem roundTrips_three (least : 0x800 ≤ code) (most : code ≤ 0xFFFF) : RoundTrips code := by
  have top : (code / 2 ^ 12 % 16 + 0xE0) % 16 * 16 + code / 2 ^ 6 / 4 % 16 = code / 256 := by omega
  have first := (lead (code >>> 12)).2.2.1
  rw [RoundTrips, encUnicodeToUtf8One, if_neg (by omega), if_neg (by omega), if_pos most,
    decoded_three (sextet_follows _) (sextet_follows _) (by omega) (by omega), first]
  simp only [sextet, Nat.shiftRight_eq_div_pow, unmarked, byte_low, top, Nat.mod_add_div]
  rfl

private theorem roundTrips_four (least : 0x10000 ≤ code) (most : code ≤ 0x1FFFFF) : RoundTrips code := by
  have top : (code / 2 ^ 18 % 8 + 0xF0) % 8 * 4 + code / 2 ^ 12 / 16 % 4 = code / 65536 := by omega
  have parts : code % 256 + 256 * (code / 256 % 256 + 256 * (code / 65536)) = code := by omega
  have first := (lead (code >>> 18)).2.2.2.1
  rw [RoundTrips, encUnicodeToUtf8One, if_neg (by omega), if_neg (by omega), if_neg (by omega), if_pos most,
    decoded_four (sextet_follows _) (sextet_follows _) (sextet_follows _) (by omega) (by omega), first]
  simp only [sextet, Nat.shiftRight_eq_div_pow, unmarked, byte_low, byte_next, top, parts]
  rfl

private theorem roundTrips_five (least : 0x200000 ≤ code) (most : code ≤ 0x3FFFFFF) : RoundTrips code ↔ code < 0x1000000 := by
  have wrong : (code / 2 ^ 24 % 4 + 0xF8) % 4 * 64 = code / 16777216 * 64 := by omega
  have limit : code < 0x1000000 ↔ code / 16777216 = 0 := by omega
  have parts := code_bytes code
  have first := (lead (code >>> 24)).2.2.2.2.1
  rw [RoundTrips, encUnicodeToUtf8One, if_neg (by omega), if_neg (by omega), if_neg (by omega), if_neg (by omega),
    if_pos most,
    decoded_five (sextet_follows _) (sextet_follows _) (sextet_follows _) (sextet_follows _) (by omega) (by omega), first,
    Prod.mk.injEq, iff_true_intro (show 5 = List.length _ from rfl), true_and, limit]
  simp only [sextet, Nat.shiftRight_eq_div_pow, unmarked, byte_low, byte_next, byte_middle, wrong]
  clear first wrong limit least most
  generalize code % 256 = d0 at parts ⊢
  generalize code / 256 % 256 = d1 at parts ⊢
  generalize code / 65536 % 256 = d2 at parts ⊢
  generalize code / 16777216 = d3 at parts ⊢
  omega

private theorem roundTrips_six (least : 0x4000000 ≤ code) (most : code ≤ 0x7FFFFFFF) :
    RoundTrips code ↔ code / 64 % 16 = code / 4096 % 16 ∧ code / 4 % 16 = code / 256 % 16 := by
  have top : (code / 2 ^ 30 % 2 + 0xFC) % 2 * 64 + code / 2 ^ 24 % 64 = code / 16777216 := by omega
  have right : code / 256 % 256 = code / 4096 % 16 * 16 + code / 256 % 16 := by omega
  have bounds : code / 4 % 16 < 16 ∧ code / 256 % 16 < 16 := by omega
  have parts := code_bytes code
  rw [right] at parts
  have first := (lead (code >>> 30)).2.2.2.2.2
  rw [RoundTrips, encUnicodeToUtf8One, if_neg (by omega), if_neg (by omega), if_neg (by omega), if_neg (by omega),
    if_neg (by omega), if_pos most,
    decoded_six (sextet_follows _) (sextet_follows _) (sextet_follows _) (sextet_follows _) (sextet_follows _) (by omega),
    first, Prod.mk.injEq, iff_true_intro (show 6 = List.length _ from rfl), true_and]
  simp only [sextet, Nat.shiftRight_eq_div_pow, unmarked, byte_low, byte_middle, top]
  norm_num only
  clear first top right least most
  generalize code % 256 = d0 at parts ⊢
  generalize code / 65536 % 256 = d2 at parts ⊢
  generalize code / 16777216 = d3 at parts ⊢
  generalize code / 4 % 16 = x0 at bounds ⊢
  generalize code / 64 % 16 = x1
  generalize code / 256 % 16 = y0 at parts bounds ⊢
  generalize code / 4096 % 16 = y1 at parts ⊢
  omega

end Classes

section Strings

private theorem unicodeToUtf8_step {code : Nat} (nonzero : code ≠ 0) (rest : List Nat) (pOutput : Bytes) :
    unicodeToUtf8 (code :: rest) pOutput = unicodeToUtf8 rest (pOutput ++ encUnicodeToUtf8One code) := by
  rw [unicodeToUtf8, encUnicodeToUtf8One]
  case x_2 => exact nonzero
  split_ifs <;> first | rfl | omega | simp only [List.append_assoc, List.cons_append, List.nil_append, List.append_nil]

private theorem unicodeToUtf8_eq (codes : List Nat) (nonzero : ∀ code ∈ codes, code ≠ 0) (behind : List Nat) (pOutput : Bytes) :
    unicodeToUtf8 (codes ++ 0 :: behind) pOutput = some (pOutput ++ codes.flatMap encUnicodeToUtf8One ++ [0]) := by
  induction codes generalizing pOutput with
  | nil => simp [unicodeToUtf8]
  | cons code codes ih =>
    rw [List.forall_mem_cons] at nonzero
    rw [List.cons_append, unicodeToUtf8_step nonzero.1, ih nonzero.2, List.flatMap_cons, List.append_assoc pOutput]

end Strings

/-- The code points that survive: all of one, three or four bytes, those of two bytes without the bit
0x20, those of five bytes below 0x1000000, and those of six bytes whose second byte repeats itself. -/
def Survives (code : Nat) : Prop :=
  code ≤ 0x7F ∨ (0x80 ≤ code ∧ code ≤ 0x7FF ∧ code / 32 % 2 = 0) ∨ (0x800 ≤ code ∧ code < 0x1000000) ∨
  (0x4000000 ≤ code ∧ code / 64 % 16 = code / 4096 % 16 ∧ code / 4 % 16 = code / 256 % 16)

/-- The decoder inverts the encoder exactly on these code points. A string is encoded code point by
code point, without exception. -/
theorem utf8_round_trip (code : Nat) (range : code ≤ 0x7FFFFFFF) (codes : List Nat) (nonzero : ∀ code ∈ codes, code ≠ 0)
    (behind : List Nat) :
    (RoundTrips code ↔ Survives code) ∧
    unicodeToUtf8 (codes ++ 0 :: behind) [] = some (codes.flatMap encUnicodeToUtf8One ++ [0]) := by
  refine ⟨?_, unicodeToUtf8_eq codes nonzero behind []⟩
  unfold Survives
  rcases Nat.lt_or_ge 0x7F code with more | one
  swap
  · exact iff_of_true (roundTrips_one one) (.inl one)
  rcases Nat.lt_or_ge 0x7FF code with more | two
  swap
  · rw [roundTrips_two more two]
    omega
  rcases Nat.lt_or_ge 0xFFFF code with more | three
  swap
  · exact iff_of_true (roundTrips_three more three) (by omega)
  rcases Nat.lt_or_ge 0x1FFFFF code with more | four
  swap
  · exact iff_of_true (roundTrips_four more four) (by omega)
  rcases Nat.lt_or_ge 0x3FFFFFF code with more | five
  swap
  · rw [roundTrips_five more five]
    omega
  · rw [roundTrips_six more range]
    omega

theorem utf8_round_trip_euro :
    (RoundTrips 0x20AC ↔ Survives 0x20AC) ∧ unicodeToUtf8 [0x20AC, 0x41, 0] [] = some [0xE2, 0x82, 0xAC, 0x41, 0] :=
  utf8_round_trip 0x20AC (by omega) [0x20AC, 0x41] (by simp) []

/-- The letter ä is not decoded, and two longer code points are decoded to something else. -/
theorem utf8_lost : encUnicodeToUtf8One 0xE4 = [0xC3, 0xA4] ∧ decoded (encUnicodeToUtf8One 0xE4) = (0, 0) ∧
    decoded (encUnicodeToUtf8One 0x1000000) = (5, 0x40000000) ∧
    decoded (encUnicodeToUtf8One 0x4000004) = (6, 0x4000104) := by
  decide +kernel

end BtServer.Proofs.UnicodeRoundTrip

import BtServer.Lib.Bytes

/-! Text written with `sprintf`, as bytes. -/

namespace BtServer.Lib

def ascii (text : String) : Bytes := text.toList.map fun c => c.toNat.toUInt8

/-- The digits of a number, most significant first. -/
def decimal (n : Nat) : Bytes := (Nat.toDigits 10 n).map fun c => c.toNat.toUInt8

theorem decimal_eq (n : Nat) : decimal n = (if n < 10 then [] else decimal (n / 10)) ++ [(48 + n % 10).toUInt8] := by
  have digit : ∀ d : Fin 10, (Nat.digitChar d).toNat.toUInt8 = (48 + d.val).toUInt8 := by decide
  have last := digit ⟨n % 10, Nat.mod_lt _ (by decide)⟩
  rw [decimal, Nat.toDigits_eq_if (by decide)]
  split
  next small => simpa [Nat.mod_eq_of_lt small] using last
  next => simpa [decimal] using last

theorem decimal_ne_nil (n : Nat) : decimal n ≠ [] := by
  rw [decimal_eq]
  simp

theorem decimal_digits (n : Nat) : ∀ c ∈ decimal n, 48 ≤ c ∧ c ≤ 57 := by
  have digit : ∀ d : Fin 10, 48 ≤ (48 + d.val).toUInt8 ∧ (48 + d.val).toUInt8 ≤ 57 := by decide
  induction n using Nat.strong_induction_on with
  | _ n ih =>
    intro c held
    rw [decimal_eq, List.mem_append, List.mem_singleton] at held
    rcases held with held | rfl
    · split at held
      next => cases held
      next large => exact ih (n / 10) (by omega) c held
    · exact digit ⟨n % 10, Nat.mod_lt _ (by decide)⟩

def isDigit (c : UInt8) : Bool := 48 ≤ c && c ≤ 57

/-- The number that digits denote. -/
def parseDecimal (digits : Bytes) : Nat := digits.foldl (fun value c => 10 * value + (c.toNat - 48)) 0

theorem parseDecimal_decimal (n : Nat) : parseDecimal (decimal n) = n := by
  have digit : ∀ d : Fin 10, (48 + d.val).toUInt8.toNat - 48 = d.val := by decide
  induction n using Nat.strong_induction_on with
  | _ n ih =>
    have last := digit ⟨n % 10, Nat.mod_lt _ (by decide)⟩
    simp only at last
    rw [decimal_eq, parseDecimal, List.foldl_append, List.foldl_cons, List.foldl_nil, last]
    split
    next small =>
      rw [List.foldl_nil]
      omega
    next large =>
      have rest := ih (n / 10) (by omega)
      rw [parseDecimal] at rest
      rw [rest]
      omega

theorem takeWhile_decimal (n : Nat) {c : UInt8} (other : isDigit c = false) (rest : Bytes) :
    (decimal n ++ c :: rest).takeWhile isDigit = decimal n := by
  rw [List.takeWhile_append_of_pos, List.takeWhile_cons_of_neg (by simp [other]), List.append_nil]
  intro d inside
  simpa [isDigit] using decimal_digits n d inside

/-- A signed number, as `%d` and `%i` print it. -/
def signedDecimal (n : Int) : Bytes :=
  if n < 0 then ascii "-" ++ decimal n.natAbs else decimal n.natAbs

theorem signedDecimal_ne_nil (n : Int) : signedDecimal n ≠ [] := by
  unfold signedDecimal
  split <;> simp [decimal_ne_nil]

theorem length_decimal_le {n count : Nat} (some : 0 < count) (bound : n < 10 ^ count) : (decimal n).length ≤ count := by
  simpa [decimal] using (Nat.length_toDigits_le_iff (by decide) some).mpr bound

theorem length_signedDecimal_le {value : Int} (bound : value.natAbs < 10 ^ 20) : (signedDecimal value).length ≤ 21 := by
  have digits : (decimal value.natAbs).length ≤ 20 := length_decimal_le (by decide) bound
  unfold signedDecimal
  split
  · have sign : (ascii "-").length = 1 := rfl
    simp only [List.length_append]
    omega
  · omega

/-- A `size_t` printed with `%zd` is read as a signed 64-bit number. -/
def sizeDecimal (n : Nat) : Bytes := signedDecimal ((n : Int).bmod (2 ^ 64))

theorem length_sizeDecimal_le (n : Nat) : (sizeDecimal n).length ≤ 21 := by
  apply length_signedDecimal_le
  have low := Int.le_bmod (x := n) (m := 2 ^ 64) (by decide)
  have high := Int.bmod_lt (x := n) (m := 2 ^ 64) (by decide)
  omega

theorem sizeDecimal_small {n : Nat} (small : n < 2 ^ 63) : sizeDecimal n = decimal n := by
  have value : (n : Int).bmod (2 ^ 64) = n := Int.bmod_eq_of_le (by omega) (by omega)
  rw [sizeDecimal, value, signedDecimal, if_neg (by omega), Int.natAbs_natCast]

/-- The four bytes of a 32-bit word in network byte order. -/
def htonl (n : Nat) : Bytes :=
  [(n / 2 ^ 24 % 256).toUInt8, (n / 2 ^ 16 % 256).toUInt8, (n / 2 ^ 8 % 256).toUInt8, (n % 256).toUInt8]

end BtServer.Lib

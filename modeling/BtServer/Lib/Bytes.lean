import Mathlib.Tactic

/-! Byte strings as C sees them: lexicographic comparison of equally long blocks,
which is the order of the numbers they denote in network byte order, and the
conversion of wide integers to a 32-bit `int`. -/

namespace BtServer.Lib

abbrev Bytes := List UInt8

variable {left right : Bytes}

theorem forall_byte {property : UInt8 → Prop} (checked : ∀ n : Fin 256, property (UInt8.ofNat n)) (byte : UInt8) :
    property byte := by
  simpa using checked ⟨byte.toNat, byte.toNat_lt⟩

/-- `memcmp` on two blocks of the same length. -/
def memcmp : Bytes → Bytes → Int
  | a :: as, b :: bs => if a = b then memcmp as bs else (a.toNat : Int) - b.toNat
  | _, _ => 0

def bigEndian (bytes : Bytes) : Nat :=
  bytes.foldl (fun value byte => 256 * value + byte.toNat) 0

/-- Conversion of a `size_t` to `int`: the low 32 bits, read as a signed number. -/
def toInt32 (n : Nat) : Int := (Int32.ofNat n).toInt

theorem toInt32_eq_bmod (n : Nat) : toInt32 n = (n : Int).bmod (2 ^ 32) := by
  simp [toInt32]

theorem toInt32_ne_zero {n : Nat} (positive : 0 < n) (small : n < 2 ^ 32) : toInt32 n ≠ 0 := by
  rw [toInt32_eq_bmod, Int.bmod_def]
  split <;> omega

@[simp] theorem toInt32_zero : toInt32 0 = 0 := by decide

private theorem bigEndian_from (bytes : Bytes) (start : Nat) :
    bytes.foldl (fun value byte => 256 * value + byte.toNat) start = start * 256 ^ bytes.length + bigEndian bytes := by
  induction bytes generalizing start with
  | nil => simp [bigEndian]
  | cons byte rest ih =>
    simp only [bigEndian, List.foldl_cons, List.length_cons]
    rw [ih, ih (256 * 0 + byte.toNat)]
    ring

theorem bigEndian_cons (byte : UInt8) (rest : Bytes) :
    bigEndian (byte :: rest) = byte.toNat * 256 ^ rest.length + bigEndian rest := by
  simpa [bigEndian] using bigEndian_from rest byte.toNat

theorem bigEndian_append (first second : Bytes) :
    bigEndian (first ++ second) = bigEndian first * 256 ^ second.length + bigEndian second := by
  rw [bigEndian, List.foldl_append, bigEndian_from]
  rfl

theorem bigEndian_lt (bytes : Bytes) : bigEndian bytes < 256 ^ bytes.length := by
  induction bytes with
  | nil => simp [bigEndian]
  | cons byte rest ih =>
    rw [bigEndian_cons, List.length_cons, pow_succ]
    have bound := byte.toNat_lt
    have top : (byte.toNat + 1) * 256 ^ rest.length ≤ 256 * 256 ^ rest.length :=
      Nat.mul_le_mul_right _ (by omega)
    linarith

theorem bigEndian_take (bytes : Bytes) (count : Nat) :
    bigEndian bytes / 256 ^ (bytes.length - count) = bigEndian (bytes.take count) := by
  have parts := bigEndian_append (bytes.take count) (bytes.drop count)
  have rest := bigEndian_lt (bytes.drop count)
  rw [List.take_append_drop, List.length_drop] at parts
  rw [List.length_drop] at rest
  rw [parts, Nat.mul_comm, Nat.mul_add_div (by positivity), Nat.div_eq_of_lt rest, Nat.add_zero]

theorem bigEndian_eq_zero (bytes : Bytes) : bigEndian bytes = 0 ↔ ∀ byte ∈ bytes, byte = 0 := by
  induction bytes with
  | nil => simp [bigEndian]
  | cons byte rest ih =>
    have zero : byte.toNat = 0 ↔ byte = 0 := UInt8.toNat_inj (b := 0)
    simp [bigEndian_cons, ih, zero]

variable (same : left.length = right.length)
include same

theorem memcmp_sign :
    (memcmp left right < 0 ↔ bigEndian left < bigEndian right) ∧
    (memcmp left right = 0 ↔ bigEndian left = bigEndian right) := by
  induction left generalizing right with
  | nil =>
    have empty : right = [] := List.eq_nil_of_length_eq_zero same.symm
    subst empty
    simp [memcmp]
  | cons a as ih =>
    cases right with
    | nil => simp at same
    | cons b bs =>
      have length : as.length = bs.length := by simpa using same
      have tailA := bigEndian_lt as
      have tailB := bigEndian_lt bs
      rw [length] at tailA
      rw [bigEndian_cons, bigEndian_cons, length]
      by_cases head : a = b
      · subst head
        simp only [memcmp, if_true]
        have rest := ih length
        exact ⟨rest.1.trans (by omega), rest.2.trans (by omega)⟩
      · have different : a.toNat ≠ b.toNat := fun equal => head (UInt8.toNat_inj.mp equal)
        simp only [memcmp, if_neg head]
        rcases Nat.lt_or_gt_of_ne different with less | greater
        · have gap : (a.toNat + 1) * 256 ^ bs.length ≤ b.toNat * 256 ^ bs.length :=
            Nat.mul_le_mul_right _ less
          constructor <;> constructor <;> intro _ <;> first | omega | nlinarith
        · have gap : (b.toNat + 1) * 256 ^ bs.length ≤ a.toNat * 256 ^ bs.length :=
            Nat.mul_le_mul_right _ greater
          constructor <;> constructor <;> intro _ <;> first | omega | nlinarith

theorem memcmp_neg :
    memcmp left right < 0 ↔ bigEndian left < bigEndian right := (memcmp_sign same).1

theorem memcmp_zero :
    memcmp left right = 0 ↔ bigEndian left = bigEndian right := (memcmp_sign same).2

theorem memcmp_eq_zero :
    memcmp left right = 0 ↔ left = right := by
  induction left generalizing right with
  | nil => simp [memcmp, (List.eq_nil_of_length_eq_zero same.symm)]
  | cons a as ih =>
    cases right with
    | nil => simp at same
    | cons b bs =>
      by_cases head : a = b
      · subst head
        simpa [memcmp] using ih (by simpa using same)
      · have different : a.toNat ≠ b.toNat := fun equal => head (UInt8.toNat_inj.mp equal)
        rw [memcmp, if_neg head]
        simp only [List.cons.injEq, head, false_and, iff_false]
        omega

theorem bigEndian_inj :
    bigEndian left = bigEndian right ↔ left = right :=
  (memcmp_zero same).symm.trans (memcmp_eq_zero same)

end BtServer.Lib

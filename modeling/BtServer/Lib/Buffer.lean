import BtServer.Lib.Bytes

/-! Buffers that are filled piece by piece, and numbers in the byte order of the
machine (the least significant byte first). -/

namespace BtServer.Lib

variable {α : Type}

def overwrite (buffer : List α) (pos : Nat) (data : List α) : List α :=
  buffer.take pos ++ data ++ buffer.drop (pos + data.length)

theorem length_overwrite {buffer data : List α} {pos : Nat} (fits : pos + data.length ≤ buffer.length) :
    (overwrite buffer pos data).length = buffer.length := by
  simp only [overwrite, List.length_append, List.length_take, List.length_drop]
  omega

theorem take_overwrite {buffer data : List α} {pos : Nat} (fits : pos ≤ buffer.length) :
    (overwrite buffer pos data).take (pos + data.length) = buffer.take pos ++ data := by
  have filled : (buffer.take pos ++ data).length = pos + data.length := by simp [fits]
  rw [overwrite, ← filled, List.take_left]

/-- A `memcpy` of `n` bytes out of a buffer. -/
def readBytes (n : Nat) (buffer : Bytes) (pos : Nat) : Vector UInt8 n := Vector.ofFn fun i => buffer.getD (pos + i) 0

theorem readBytes_between {n : Nat} (before after : Bytes) (bytes : Vector UInt8 n) :
    readBytes n (before ++ bytes.toList ++ after) before.length = bytes := by
  ext i bound
  simp [readBytes, List.getD_eq_getElem?_getD, List.getElem?_append]

theorem readBytes_blocks {n : Nat} {buffer : Bytes} {blocks : List (Vector UInt8 n)}
    (flat : buffer.take (n * blocks.length) = blocks.flatMap Vector.toList) :
    ((List.range blocks.length).map fun k => readBytes n buffer (n * k)) = blocks := by
  apply List.ext_getElem
  · simp
  · intro k _ inside
    have cut : blocks.flatMap Vector.toList = (blocks.take k ++ blocks[k] :: blocks.drop (k + 1)).flatMap Vector.toList := by
      rw [← List.drop_eq_getElem_cons inside, List.take_append_drop]
    have front : ((blocks.take k).flatMap Vector.toList).length = n * k := by
      rw [List.length_flatMap]
      simp [Nat.min_eq_left inside.le, Nat.mul_comm]
    have whole : buffer = (blocks.take k).flatMap Vector.toList ++ blocks[k].toList ++
        ((blocks.drop (k + 1)).flatMap Vector.toList ++ buffer.drop (n * blocks.length)) := by
      calc buffer = buffer.take (n * blocks.length) ++ buffer.drop (n * blocks.length) := (List.take_append_drop _ _).symm
        _ = blocks.flatMap Vector.toList ++ buffer.drop (n * blocks.length) := by rw [flat]
        _ = _ := by rw [cut]; simp only [List.flatMap_append, List.flatMap_cons, List.append_assoc]
    have read := readBytes_between ((blocks.take k).flatMap Vector.toList)
      ((blocks.drop (k + 1)).flatMap Vector.toList ++ buffer.drop (n * blocks.length)) blocks[k]
    rw [← whole, front] at read
    simp only [List.getElem_map, List.getElem_range]
    exact read

theorem toList_readBytes {n : Nat} {bytes : Bytes} (length : bytes.length = n) : (readBytes n bytes 0).toList = bytes := by
  subst length
  apply List.ext_getElem
  · simp
  · intro i _ _
    simp [readBytes]

def littleEndian (bytes : Bytes) : Nat := bytes.foldr (fun byte value => byte.toNat + 256 * value) 0

theorem littleEndian_eq_zero (bytes : Bytes) : littleEndian bytes = 0 ↔ ∀ byte ∈ bytes, byte = 0 := by
  induction bytes with
  | nil => simp [littleEndian]
  | cons byte rest ih =>
    have zero : byte.toNat = 0 ↔ byte = 0 := UInt8.toNat_inj (b := 0)
    simp only [littleEndian, List.foldr_cons, List.forall_mem_cons] at ih ⊢
    rw [← ih, ← zero]
    omega

theorem bigEndian_reverse (bytes : Bytes) : bigEndian bytes.reverse = littleEndian bytes := by
  simp [bigEndian, littleEndian, List.foldl_reverse, Nat.add_comm]

/-- The low bytes of a number. -/
def toLittleEndian : Nat → Nat → Bytes
  | 0, _ => []
  | width + 1, value => (value % 256).toUInt8 :: toLittleEndian width (value / 256)

@[simp] theorem length_toLittleEndian (width value : Nat) : (toLittleEndian width value).length = width := by
  induction width generalizing value with
  | zero => rfl
  | succ width ih => simp [toLittleEndian, ih]

theorem littleEndian_toLittleEndian (width value : Nat) : littleEndian (toLittleEndian width value) = value % 256 ^ width := by
  induction width generalizing value with
  | zero => simp [toLittleEndian, littleEndian, Nat.mod_one]
  | succ width ih =>
    have byte : ((value % 256).toUInt8).toNat = value % 256 := by simp
    have rest := ih (value / 256)
    simp only [littleEndian] at rest
    simp only [toLittleEndian, littleEndian, List.foldr_cons, rest, byte, pow_succ, Nat.mul_comm (256 ^ width) 256]
    exact (Nat.mod_mul (x := value) (a := 256) (b := 256 ^ width)).symm

end BtServer.Lib

import BtServer.Lib.AlignedBlocks
import BtServer.Networks
import BtServer.Proofs.VectorSearch

/-! What the table of networks finds. The test of a partial byte compares with a signed `char`, so it is exact only below 128;
a lookup steps back by an `ot_net`, so it reaches the member before only if that is all of it. -/

namespace BtServer.Proofs.NetworkTable
open Lib VectorSearch

variable {net first second : OtNet} {bits memberSize : Nat} {address : Ip6} {vector : OtVector NetMember}

def number (address : Ip6) : Nat := bigEndian address.toList

theorem number_lt (address : Ip6) : number address < 2 ^ 128 := by
  have bound := bigEndian_lt address.toList
  rw [Vector.length_toList] at bound
  exact lt_of_lt_of_eq bound (by norm_num)

theorem number_inj {first second : Ip6} (same : number first = number second) : first = second := by
  have bytes := (bigEndian_inj (by simp)).mp same
  exact Vector.toList_inj.mp bytes

structure Canonical (net : OtNet) : Prop where
  short : net.bits ≤ 128
  aligned : Aligned 128 net.bits (number net.address)

/-- The first `bits` bits of the address and of the net agree. -/
def Contains (net : OtNet) (address : Ip6) : Prop := Agree 128 net.bits (number address) (number net.address)

def Overlaps (first second : OtNet) : Prop := ∃ address, Contains first address ∧ Contains second address

/-- The byte that holds the last bits of the net, if there is a partial one, is not negative as a `char`. -/
def Plain (net : OtNet) : Prop := net.bits % 8 = 0 ∨ (net.address.toList.getD (net.bits / 8) 0).toNat < 128

section Bits

private def leading (address : Ip6) (count : Nat) : Nat := bigEndian (address.toList.take count)

private def byteAt (address : Ip6) (i : Nat) : Nat := (address.toList.getD i 0).toNat

private theorem number_div_bytes (address : Ip6) {whole : Nat} (inside : whole < 16) :
    number address / 256 ^ (15 - whole) = leading address whole * 256 + byteAt address whole := by
  have taken := bigEndian_take address.toList (whole + 1)
  have bound : whole < address.toList.length := by simpa using inside
  rw [Vector.length_toList, List.take_add_one, List.getElem?_eq_getElem bound, bigEndian_append] at taken
  rw [number, show 15 - whole = 16 - (whole + 1) by omega, taken, byteAt, List.getD_eq_getElem?_getD,
    List.getElem?_eq_getElem bound]
  simp [leading, bigEndian]

private theorem byteAt_lt (address : Ip6) (i : Nat) : byteAt address i < 256 := UInt8.toNat_lt _

private theorem pow_split (inside : bits / 8 < 16) :
    2 ^ (128 - bits) = 256 ^ (15 - bits / 8) * 2 ^ (8 - bits % 8) := by
  rw [show 256 = 2 ^ 8 by norm_num, ← pow_mul, ← pow_add]
  congr 1
  omega

private theorem number_div_bits (address : Ip6) (short : bits ≤ 128) : number address / 2 ^ (128 - bits) =
      leading address (bits / 8) * 2 ^ (bits % 8) + byteAt address (bits / 8) / 2 ^ (8 - bits % 8) := by
  by_cases inside : bits / 8 < 16
  · have parts : 256 = 2 ^ (8 - bits % 8) * 2 ^ (bits % 8) := by
      rw [← pow_add, show 8 - bits % 8 + bits % 8 = 8 by omega]
      norm_num
    rw [pow_split inside, ← Nat.div_div_eq_div_mul, number_div_bytes address inside]
    generalize leading address (bits / 8) = whole
    rw [parts, show whole * (2 ^ (8 - bits % 8) * 2 ^ (bits % 8)) = 2 ^ (8 - bits % 8) * (whole * 2 ^ (bits % 8)) by ring,
      Nat.mul_add_div (by positivity)]
  · have all : bits = 128 := by omega
    subst all
    have whole : address.toList.take 16 = address.toList := List.take_of_length_le (by simp)
    simp [leading, byteAt, number, whole]

private theorem leading_bits_eq (first second : Ip6) (short : bits ≤ 128) :
    number first / 2 ^ (128 - bits) = number second / 2 ^ (128 - bits) ↔ leading first (bits / 8) = leading second (bits / 8) ∧
      byteAt first (bits / 8) / 2 ^ (8 - bits % 8) = byteAt second (bits / 8) / 2 ^ (8 - bits % 8) := by
  have upper : ∀ address : Ip6, byteAt address (bits / 8) / 2 ^ (8 - bits % 8) < 2 ^ (bits % 8) := by
    intro address
    rw [Nat.div_lt_iff_lt_mul (by positivity), ← pow_add, show bits % 8 + (8 - bits % 8) = 8 by omega]
    exact byteAt_lt address _
  rw [number_div_bits first short, number_div_bits second short]
  constructor
  · intro same
    have bytes := congrArg (· / 2 ^ (bits % 8)) same
    simp only [Nat.mul_comm _ (2 ^ (bits % 8)), Nat.mul_add_div (Nat.two_pow_pos (bits % 8)),
      Nat.div_eq_of_lt (upper _), Nat.add_zero] at bytes
    rw [bytes] at same
    exact ⟨bytes, Nat.add_left_cancel same⟩
  · rintro ⟨bytes, rest⟩
    rw [bytes, rest]

theorem contains_iff (short : net.bits ≤ 128) (address : Ip6) :
    Contains net address ↔ number address / 2 ^ (128 - net.bits) = number net.address / 2 ^ (128 - net.bits) :=
  agree_iff short (number_lt _) (number_lt _)

theorem contains_self (net : OtNet) : Contains net net.address := fun _ _ => rfl

theorem contains_block (canonical : Canonical net) (address : Ip6) : Contains net address ↔
      number net.address ≤ number address ∧ number address < number net.address + 2 ^ (128 - net.bits) := by
  rw [contains_iff canonical.short, div_eq_iff_block (by positivity) ((aligned_iff canonical.short).mp canonical.aligned)]

private theorem byteAt_aligned (canonical : Canonical net) (rest : net.bits % 8 ≠ 0) :
    byteAt net.address (net.bits / 8) % 2 ^ (8 - net.bits % 8) = 0 := by
  have inside : net.bits / 8 < 16 := by have := canonical.short; omega
  have zero := Nat.dvd_of_mod_eq_zero ((aligned_iff canonical.short).mp canonical.aligned)
  rw [pow_split inside] at zero
  have upper := Nat.dvd_div_of_mul_dvd zero
  rw [number_div_bytes net.address inside] at upper
  have whole : 2 ^ (8 - net.bits % 8) ∣ leading net.address (net.bits / 8) * 256 :=
    Dvd.dvd.mul_left (pow_dvd_pow 2 (show 8 - net.bits % 8 ≤ 8 by omega)) _
  exact Nat.mod_eq_zero_of_dvd ((Nat.dvd_add_right whole).mp upper)

end Bits

section PartialByte

private theorem maskChar_small (shift : Fin 8) (c : UInt8) :
    0 < shift.val → c.toNat < 128 → maskChar shift c = (c.toNat / 2 ^ (8 - shift.val) * 2 ^ (8 - shift.val) : Nat) := by
  revert shift
  apply forall_byte _ c
  decide +kernel

private theorem maskChar_large (shift : Fin 8) (c : UInt8) : 0 < shift.val → 128 ≤ c.toNat → 128 ≤ maskChar shift c := by
  revert shift
  apply forall_byte _ c
  decide +kernel

/-- The test of the partial byte: exact for a byte below 128, never true for another. -/
private theorem maskChar_eq {shift : Nat} (positive : shift ≠ 0) (less : shift < 8) (byte mask : UInt8)
    (aligned : mask.toNat % 2 ^ (8 - shift) = 0) :
    maskChar shift byte - charInt mask = 0 ↔
      mask.toNat < 128 ∧ byte.toNat / 2 ^ (8 - shift) = mask.toNat / 2 ^ (8 - shift) := by
  have small := maskChar_small ⟨shift, less⟩ byte (by simpa using Nat.pos_of_ne_zero positive)
  have large := maskChar_large ⟨shift, less⟩ byte (by simpa using Nat.pos_of_ne_zero positive)
  have top := byte.toNat_lt
  have top' := mask.toNat_lt
  simp only at small large
  generalize maskChar shift byte = masked at small large ⊢
  rw [charInt]
  rcases Nat.lt_or_ge byte.toNat 128 with low | high
  · have value := small low
    interval_cases shift <;> split <;> simp only [Nat.reduceSub, Nat.reducePow] at * <;> omega
  · have bound := large high
    interval_cases shift <;> split <;> simp only [Nat.reduceSub, Nat.reducePow] at * <;> omega

end PartialByte

theorem addressInNet_iff (canonical : Canonical net) (address : Ip6) :
    addressInNet address net = true ↔ Plain net ∧ Contains net address := by
  have lengths : (address.toList.take (net.bits / 8)).length = (net.address.toList.take (net.bits / 8)).length := by simp
  have whole : memcmp (address.toList.take (net.bits / 8)) (net.address.toList.take (net.bits / 8)) = 0 ↔
      leading address (net.bits / 8) = leading net.address (net.bits / 8) := memcmp_zero lengths
  rw [contains_iff canonical.short, leading_bits_eq _ _ canonical.short, addressInNet, Plain]
  simp only [decide_eq_true_eq]
  by_cases rest : net.bits % 8 = 0
  · have first : byteAt address (net.bits / 8) / 256 = 0 := Nat.div_eq_of_lt (byteAt_lt _ _)
    have second : byteAt net.address (net.bits / 8) / 256 = 0 := Nat.div_eq_of_lt (byteAt_lt _ _)
    simp [rest, whole, first, second]
  · have test := maskChar_eq rest (Nat.mod_lt _ (by decide)) (address.toList.getD (net.bits / 8) 0)
      (net.address.toList.getD (net.bits / 8) 0) (byteAt_aligned canonical rest)
    simp only [rest, ne_eq, not_false_eq_true, and_true, false_or, byteAt]
    split
    next same =>
      rw [test]
      simp [whole.mp same]
    next other =>
      have different := mt whole.mpr other
      simp [other, different]

theorem addressInNet_exact (canonical : Canonical net) :
    (∀ address, addressInNet address net = true ↔ Contains net address) ↔ Plain net := by
  constructor
  · intro right
    exact ((addressInNet_iff canonical _).mp ((right net.address).mpr (contains_self net))).1
  · intro plain address
    rw [addressInNet_iff canonical]
    simp [plain]

theorem overlaps_iff (short : first.bits ≤ 128) (short' : second.bits ≤ 128) :
    Overlaps first second ↔ Contains first second.address ∨ Contains second first.address := by
  constructor
  · rintro ⟨address, inFirst, inSecond⟩
    rw [contains_iff short] at inFirst ⊢
    rw [contains_iff short'] at inSecond ⊢
    exact blocks_meet inFirst inSecond
  · rintro (inside | inside)
    · exact ⟨_, inside, contains_self second⟩
    · exact ⟨_, contains_self first, inside⟩

theorem Overlaps.symm (overlap : Overlaps first second) : Overlaps second first := by
  obtain ⟨address, inFirst, inSecond⟩ := overlap
  exact ⟨address, inSecond, inFirst⟩

structure Table (memberSize : Nat) (vector : OtVector NetMember) : Prop where
  canonical : ∀ member ∈ vector.data, Canonical member.net
  plain : ∀ member ∈ vector.data, Plain member.net
  sorted : StrictSorted (fun member => number member.net.address) vector.data
  disjoint : vector.data.Pairwise fun first second => ¬ Overlaps first.net second.net
  sized : ∀ member ∈ vector.data, member.bytes.length = memberSize
  block : vector.space = 0 ↔ vector.data = []

theorem table_empty (memberSize : Nat) : Table memberSize .empty := by
  constructor <;> simp [OtVector.empty, StrictSorted]

@[simp] theorem length_bytes (net : OtNet) : net.bytes.length = sizeofOtNet := by
  simp [OtNet.bytes, sizeofOtNet]

private theorem bytes_rank (net : OtNet) : ∃ rest < 256 ^ 4, bigEndian net.bytes = number net.address * 256 ^ 4 + rest := by
  have bound := bigEndian_lt (toLittleEndian 4 net.bits)
  rw [length_toLittleEndian] at bound
  refine ⟨_, bound, ?_⟩
  rw [OtNet.bytes, bigEndian_append, length_toLittleEndian]
  rfl

private theorem bytes_rank_lt (different : number first.address ≠ number second.address) :
    bigEndian first.bytes < bigEndian second.bytes ↔ number first.address < number second.address := by
  obtain ⟨_, bound, eq⟩ := bytes_rank first
  obtain ⟨_, bound', eq'⟩ := bytes_rank second
  rw [eq, eq']
  omega

inductive Stored (net : OtNet) (vector : OtVector NetMember) (memberSize : Nat) : OtVector NetMember × Option Nat → Prop where
  | refused : Stored net vector memberSize (vector, none)
  | accepted {before after : List NetMember} {space : Nat} {value : Bytes} (split : vector.data = before ++ after)
      (apart : ∀ member ∈ vector.data, ¬ Overlaps net member.net)
      (cut : Between (fun member : NetMember => number member.net.address) before after (number net.address))
      (sized : (NetMember.mk net value).bytes.length = memberSize) (block : space ≠ 0) :
      Stored net vector memberSize (⟨before ++ ⟨net, value⟩ :: after, space⟩, some before.length)

private theorem vectorFindOrInsert_missed {heap : Heap} {vector : OtVector NetMember} {before after : List NetMember}
    {record : NetMember} (split : vector.data = before ++ after) (full : vector.space = 0 → vector.data = [])
    (missed : binarySearch record.net.bytes (fun member => member.net.bytes) vector.data = (before.length, 0)) :
    (∃ rest, vectorFindOrInsert heap vector record (fun member => member.net.bytes) = (rest, none)) ∨
    (∃ rest space, space ≠ 0 ∧ vectorFindOrInsert heap vector record (fun member => member.net.bytes) =
      (rest, some (⟨before ++ record :: after, space⟩, before.length, 0))) := by
  have opened : vector.data.take before.length ++ record :: vector.data.drop before.length = before ++ record :: after := by
    rw [split, List.take_left, List.drop_left]
  simp only [vectorFindOrInsert, missed, ne_eq, not_true_eq_false, if_false, opened]
  split
  next grows =>
    split
    next rest _ => exact .inl ⟨rest, rfl⟩
    next rest _ =>
      refine .inr ⟨rest, _, ?_, rfl⟩
      split
      · simp [otVectorGrowRatio]
        assumption
      · simp [otVectorMinMembers]
  next fits =>
    refine .inr ⟨heap, vector.space, ?_, rfl⟩
    intro none
    simp [OtVector.size, full none, none] at fits

theorem setValueForNet_cases (heap : Heap) (value : Bytes)
    (canonical : Canonical net) (plain : Plain net) (table : Table memberSize vector) :
    Stored net vector memberSize (setValueForNet heap net vector value memberSize) := by
  rw [setValueForNet]
  split
  next => exact .refused
  next large =>
  split
  next => exact .refused
  next clear =>
  simp only [List.any_eq_true, Bool.or_eq_true, not_exists, not_and, not_or] at clear
  have apart : ∀ member ∈ vector.data, ¬ Overlaps net member.net := by
    intro member inside overlap
    obtain ⟨outside, outside'⟩ := clear member inside
    rcases (overlaps_iff canonical.short (table.canonical member inside).short).mp overlap with contained | contained
    · exact outside ((addressInNet_iff canonical _).mpr ⟨plain, contained⟩)
    · exact outside' ((addressInNet_iff (table.canonical member inside) _).mpr ⟨table.plain member inside, contained⟩)
  have different : ∀ member ∈ vector.data, number member.net.address ≠ number net.address := by
    intro member inside same
    refine apart member inside ⟨net.address, contains_self net, ?_⟩
    rw [← number_inj same]
    exact contains_self member.net
  have sorted : StrictSorted (rank fun member : NetMember => member.net.bytes) vector.data := by
    refine table.sorted.imp ?_
    intro first second less
    exact (bytes_rank_lt (ne_of_lt less)).mpr less
  rcases binarySearch_cases net.bytes (fun member : NetMember => member.net.bytes) vector.data (by simp) with
    ⟨before, found, after, interval, split, same, _⟩ | ⟨before, after, split, missed, cut⟩
  · obtain ⟨_, bound, eq⟩ := bytes_rank found.net
    obtain ⟨_, bound', eq'⟩ := bytes_rank net
    rw [same] at eq
    exact absurd (by omega) (different found (by simp [split]))
  · have between := cut sorted
    have sized : (NetMember.mk net (readBytes (memberSize - sizeofOtNet) value 0).toList).bytes.length = memberSize := by
      simp only [NetMember.bytes, List.length_append, length_bytes, Vector.length_toList]
      omega
    have full : vector.space = 0 → vector.data = [] := table.block.mp
    rcases @vectorFindOrInsert_missed heap vector before after ⟨net, []⟩ split full missed with
      ⟨rest, failed⟩ | ⟨rest, space, block, inserted⟩
    · simp only [failed]
      exact .refused
    · simp only [inserted, List.set_append_right _ _ (le_refl _), Nat.sub_self, List.set_cons_zero]
      refine .accepted split apart ⟨?_, ?_⟩ sized block
      · intro member inside
        exact (bytes_rank_lt (different member (by simp [split, inside]))).mp (between.below member inside)
      · intro member inside
        exact (bytes_rank_lt (different member (by simp [split, inside])).symm).mp (between.above member inside)

theorem table_stored {result : OtVector NetMember × Option Nat}
    (canonical : Canonical net) (plain : Plain net) (table : Table memberSize vector)
    (stored : Stored net vector memberSize result) : Table memberSize result.1 := by
  cases stored with
  | refused => exact table
  | @accepted before after space value split apart cut sized block =>
    obtain ⟨canonicals, plains, sorted, disjoint, sizes, _⟩ := table
    rw [split] at canonicals plains sorted disjoint sizes apart
    have either : ∀ {property : NetMember → Prop}, property ⟨net, value⟩ → (∀ member ∈ before ++ after, property member) →
        ∀ member ∈ before ++ ⟨net, value⟩ :: after, property member := by
      intro property new old member inside
      simp only [List.mem_append, List.mem_cons] at inside old
      rcases inside with inside | rfl | inside
      · exact old member (.inl inside)
      · exact new
      · exact old member (.inr inside)
    refine ⟨either canonical canonicals, either plain plains, sorted.insert cut, ?_, either sized sizes, by simp [block]⟩
    rw [List.pairwise_append] at disjoint ⊢
    obtain ⟨first, second, across⟩ := disjoint
    refine ⟨first, List.pairwise_cons.mpr ⟨fun member inside => apart member (by simp [inside]), second⟩, ?_⟩
    intro member inside other later
    rcases List.mem_cons.mp later with rfl | later
    · exact fun overlap => apart member (by simp [inside]) overlap.symm
    · exact across member inside other later

section Lookups
variable {vector : OtVector NetMember} {memberSize : Nat}

private theorem length_block {members : List NetMember} (sized : ∀ member ∈ members, member.bytes.length = memberSize) :
    (members.flatMap NetMember.bytes).length = members.length * memberSize := by
  induction members with
  | nil => simp
  | cons member rest ih =>
    rw [List.forall_mem_cons] at sized
    rw [List.flatMap_cons, List.length_append, sized.1, ih sized.2, List.length_cons]
    ring

theorem netAt_member {before after : List NetMember} {member : NetMember}
    (sized : ∀ member ∈ before, member.bytes.length = memberSize) (short : member.net.bits ≤ 128) :
    netAt ((before ++ member :: after).flatMap NetMember.bytes) (before.length * memberSize) = member.net := by
  have position := length_block sized
  obtain ⟨little, bytes⟩ : ∃ little : Vector UInt8 4, little.toList = toLittleEndian 4 member.net.bits :=
    ⟨⟨(toLittleEndian 4 member.net.bits).toArray, by simp⟩, by simp [Vector.toList]⟩
  have address := readBytes_between (before.flatMap NetMember.bytes)
    (toLittleEndian 4 member.net.bits ++ member.value ++ after.flatMap NetMember.bytes) member.net.address
  have bits := readBytes_between (before.flatMap NetMember.bytes ++ member.net.address.toList)
    (member.value ++ after.flatMap NetMember.bytes) little
  rw [bytes] at bits
  simp only [List.length_append, Vector.length_toList, position, List.append_assoc] at address bits
  simp only [netAt, List.flatMap_append, List.flatMap_cons, NetMember.bytes, OtNet.bytes, List.append_assoc]
  rw [address, bits, bytes, littleEndian_toLittleEndian, Nat.mod_eq_of_lt (by omega)]

variable (table : Table memberSize vector)
include table

theorem contains_unique {i j : Nat} {first second : NetMember}
    (here : vector.data[i]? = some first) (there : vector.data[j]? = some second) (inFirst : Contains first.net address)
    (inSecond : Contains second.net address) : i = j := by
  obtain ⟨inside, rfl⟩ := List.getElem?_eq_some_iff.mp here
  obtain ⟨inside', rfl⟩ := List.getElem?_eq_some_iff.mp there
  rcases Nat.lt_trichotomy i j with less | same | more
  · exact absurd ⟨address, inFirst, inSecond⟩ (List.pairwise_iff_getElem.mp table.disjoint i j inside inside' less)
  · exact same
  · exact absurd ⟨address, inSecond, inFirst⟩ (List.pairwise_iff_getElem.mp table.disjoint j i inside' inside more)

/-- Where a lookup looks: at the member that begins with the address, nowhere when all members
lie above it, and otherwise the size of an `ot_net` before the first member above it. -/
inductive Looked (memberSize : Nat) (vector : OtVector NetMember) (address : Ip6) : Option Nat → Prop where
  | exact {before after : List NetMember} {member : NetMember} (split : vector.data = before ++ member :: after)
      (same : member.net.address = address) : Looked memberSize vector address (some (before.length * memberSize))
  | below (above : ∀ member ∈ vector.data, number address < number member.net.address) : Looked memberSize vector address none
  | behind {before after : List NetMember} {member : NetMember} (split : vector.data = before ++ member :: after)
      (less : number member.net.address < number address)
      (above : ∀ member ∈ after, number address < number member.net.address) :
      Looked memberSize vector address
        (if addressInNet address (netAt (vector.data.flatMap NetMember.bytes) ((before.length + 1) * memberSize - sizeofOtNet)) then
          some ((before.length + 1) * memberSize - sizeofOtNet)
        else none)

theorem getValueForNet_cases (large : sizeofOtNet ≤ memberSize) (few : vector.size < 2 ^ 32)
    (address : Ip6) : Looked memberSize vector address (getValueForNet address vector memberSize) := by
  rw [getValueForNet]
  split
  next none => exact .below (by simp [table.block.mp none])
  next block =>
  have held : vector.data ≠ [] := mt table.block.mpr block
  have sorted : StrictSorted (rank fun member : NetMember => member.net.address.toList) vector.data := table.sorted
  rcases binarySearch_cases address.toList (fun member : NetMember => member.net.address.toList) vector.data (by simp) with
    ⟨before, found, after, interval, split, same, positive, most, searched⟩ | ⟨before, after, split, searched, cut⟩
  · have exactmatch : toInt32 interval ≠ 0 := toInt32_ne_zero positive (lt_of_le_of_lt most few)
    have here : found.net.address = address := Vector.toList_inj.mp same
    have inside : found ∈ vector.data := by simp [split]
    have read : netAt (vector.data.flatMap NetMember.bytes) (before.length * memberSize) = found.net := by
      rw [split]
      apply netAt_member _ (table.canonical found inside).short
      intro member earlier
      exact table.sized member (by simp [split, earlier])
    have contained : addressInNet address found.net = true := by
      rw [addressInNet_iff (table.canonical found inside), ← here]
      exact ⟨table.plain found inside, contains_self found.net⟩
    simp only [searched, exactmatch, false_and, if_false, read, contained, if_true]
    exact .exact split here
  · have between := cut sorted
    simp only [searched, true_and, gt_iff_lt]
    rcases List.eq_nil_or_concat before with rfl | ⟨rest, last, rfl⟩
    · obtain ⟨first, later, rfl⟩ := List.exists_cons_of_ne_nil (by simpa [split] using held)
      have read : netAt (vector.data.flatMap NetMember.bytes) 0 = first.net := by
        rw [split]
        simpa using @netAt_member memberSize [] later first (by simp) (table.canonical first (by simp [split])).short
      have above := between.above first (by simp)
      have outside : addressInNet address first.net ≠ true := by
        intro contained
        have canonical := table.canonical first (by simp [split])
        have range := (contains_block canonical address).mp ((addressInNet_iff canonical address).mp contained).2
        exact absurd above (not_lt.mpr range.1)
      simp only [List.length_nil, Nat.zero_mul, lt_irrefl, if_false, read, outside]
      apply Looked.below
      rw [split]
      exact between.above
    · rw [List.concat_eq_append] at split searched between ⊢
      have offset : 0 < (rest ++ [last]).length * memberSize := by
        apply Nat.mul_pos (by simp)
        exact lt_of_lt_of_le (by decide) large
      have split' : vector.data = rest ++ last :: after := by simpa using split
      rw [if_pos offset, List.length_append, List.length_singleton]
      exact .behind split' (between.below last (by simp)) between.above

private theorem contains_last {before after : List NetMember} {last member : NetMember}
    (split : vector.data = before ++ last :: after) (less : number last.net.address < number address)
    (above : ∀ member ∈ after, number address < number member.net.address) (inside : member ∈ vector.data)
    (contained : Contains member.net address) : member = last := by
  have range := (contains_block (table.canonical member inside) address).mp contained
  have sorted := table.sorted
  have disjoint := table.disjoint
  rw [split] at inside sorted disjoint
  simp only [List.mem_append, List.mem_cons] at inside
  rcases inside with earlier | same | later
  · have order := sorted.between.below member earlier
    have apart := (List.pairwise_append.mp disjoint).2.2 member earlier last (by simp)
    have canonical := table.canonical member (by simp [split, earlier])
    refine absurd ⟨last.net.address, (contains_block canonical _).mpr ⟨?_, ?_⟩, contains_self last.net⟩ apart
    · exact le_of_lt order
    · exact lt_trans less range.2
  · exact same
  · exact absurd (above member later) (not_lt.mpr range.1)

def Reached (memberSize : Nat) (vector : OtVector NetMember) (address : Ip6) : Prop :=
  memberSize = sizeofOtNet ∨ (∃ member ∈ vector.data, member.net.address = address) ∨
    ∀ member ∈ vector.data, number address < number member.net.address

def PointsTo (memberSize : Nat) (vector : OtVector NetMember) (address : Ip6) (pointer : Nat) : Prop :=
  ∃ i member, vector.data[i]? = some member ∧ pointer = i * memberSize ∧ Contains member.net address

theorem lookup_reached (large : sizeofOtNet ≤ memberSize) (few : vector.size < 2 ^ 32)
    (reached : Reached memberSize vector address) (pointer : Nat) :
    getValueForNet address vector memberSize = some pointer ↔ PointsTo memberSize vector address pointer := by
  have looked := getValueForNet_cases table large few address
  generalize getValueForNet address vector memberSize = result at looked ⊢
  cases looked with
  | @exact before after member split same =>
    have here : vector.data[before.length]? = some member := by simp [split]
    have contained : Contains member.net address := same ▸ contains_self member.net
    constructor
    · rintro ⟨⟩
      exact ⟨before.length, member, here, rfl, contained⟩
    · rintro ⟨i, other, there, rfl, contained'⟩
      rw [contains_unique table here there contained contained']
  | below above =>
    constructor
    · rintro ⟨⟩
    · rintro ⟨i, other, there, rfl, contained⟩
      have inside := List.mem_of_getElem? there
      have range := (contains_block (table.canonical other inside) address).mp contained
      exact absurd (above other inside) (not_lt.mpr range.1)
  | @behind before after member split less above =>
    have inside : member ∈ vector.data := by simp [split]
    have exactSize : memberSize = sizeofOtNet := by
      rcases reached with size | ⟨other, stored, rfl⟩ | none
      · exact size
      · have same := contains_last table split less above stored (contains_self other.net)
        rw [same] at less
        exact absurd less (lt_irrefl _)
      · exact absurd (none member inside) (not_lt.mpr (le_of_lt less))
    have offset : (before.length + 1) * memberSize - sizeofOtNet = before.length * memberSize := by
      rw [Nat.succ_mul, exactSize, Nat.add_sub_cancel]
    have read : netAt (vector.data.flatMap NetMember.bytes) (before.length * memberSize) = member.net := by
      rw [split]
      apply netAt_member _ (table.canonical member inside).short
      intro other earlier
      exact table.sized other (by simp [split, earlier])
    have here : vector.data[before.length]? = some member := by simp [split]
    have test := addressInNet_iff (table.canonical member inside) address
    simp only [table.plain member inside, true_and] at test
    rw [offset, read]
    constructor
    · intro found
      split at found
      next contained =>
        cases found
        exact ⟨before.length, member, here, rfl, test.mp contained⟩
      next => cases found
    · rintro ⟨i, other, there, rfl, contained⟩
      have same := contains_last table split less above (List.mem_of_getElem? there) contained
      subst same
      rw [if_pos (test.mpr contained), contains_unique table here there contained contained]

theorem lookup_missed (larger : sizeofOtNet < memberSize) (few : vector.size < 2 ^ 32)
    {pointer : Nat} (pointed : PointsTo memberSize vector address pointer)
    (inner : ∀ member ∈ vector.data, member.net.address ≠ address) : getValueForNet address vector memberSize ≠ some pointer := by
  have looked := getValueForNet_cases table (le_of_lt larger) few address
  generalize getValueForNet address vector memberSize = result at looked ⊢
  obtain ⟨i, member, there, rfl, contained⟩ := pointed
  cases looked with
  | exact split same => exact absurd same (inner _ (by simp [split]))
  | below above => simp
  | @behind before after last split less above =>
    split
    next =>
      intro found
      have equal := Option.some.inj found
      rcases Nat.lt_or_ge before.length i with more | fewer
      · have most := Nat.mul_le_mul_right memberSize more
        have size : 0 < sizeofOtNet := by decide
        have start := Nat.le_mul_of_pos_left memberSize (Nat.succ_pos before.length)
        simp only [Nat.succ_eq_add_one] at most start
        omega
      · have most := Nat.mul_le_mul_right memberSize fewer
        rw [Nat.succ_mul] at equal
        omega
    next => simp

end Lookups

def Permitted (_ : OtVector NetMember) (call : NetCall) : Prop := Canonical call.net ∧ Plain call.net

theorem table_run {calls : List NetCall}
    (run : Run (NetStep memberSize) Permitted .empty calls vector) : Table memberSize vector := by
  refine run.invariant (Table memberSize) ?_ (table_empty memberSize)
  rintro before call after table ⟨canonical, plain⟩ rfl
  exact table_stored canonical plain table (setValueForNet_cases call.heap call.value canonical plain table)

/-- After every sequence of permitted calls: the test of an address is exact for the plain nets and no
others, a plain net is stored only apart from the stored ones, and a lookup that reaches a member
returns the one that contains the address, which a step back past larger members never does. -/
theorem network_table_exact {memberSize : Nat} {calls : List NetCall} {vector : OtVector NetMember}
    (large : sizeofOtNet ≤ memberSize) (run : Run (NetStep memberSize) Permitted .empty calls vector) :
    (∀ net, Canonical net → ((∀ address, addressInNet address net = true ↔ Contains net address) ↔ Plain net)) ∧
    (∀ call, Permitted vector call → (setValueForNet call.heap call.net vector call.value memberSize).2 ≠ none →
      ∀ member ∈ vector.data, ¬ Overlaps call.net member.net) ∧
    (vector.size < 2 ^ 32 → ∀ address, (Reached memberSize vector address →
        ∀ pointer, getValueForNet address vector memberSize = some pointer ↔ PointsTo memberSize vector address pointer) ∧
      (¬ Reached memberSize vector address →
        ∀ pointer, PointsTo memberSize vector address pointer → getValueForNet address vector memberSize ≠ some pointer)) := by
  have table := table_run run
  refine ⟨fun net canonical => addressInNet_exact canonical, ?_, ?_⟩
  · rintro call ⟨canonical, plain⟩ accepted
    have stored := setValueForNet_cases call.heap call.value canonical plain table
    generalize setValueForNet call.heap call.net vector call.value memberSize = result at stored accepted
    cases stored with
    | refused => exact absurd rfl accepted
    | accepted split apart => exact apart
  · intro few address
    refine ⟨lookup_reached table large few, ?_⟩
    intro missed pointer pointed
    simp only [Reached, not_or, not_exists, not_and] at missed
    exact lookup_missed table (lt_of_le_of_ne large (Ne.symm missed.1)) few pointed missed.2.1

def sparse (first last : UInt8) : Ip6 := Vector.ofFn fun i => if i.val = 0 then first else if i.val = 15 then last else 0

private theorem canonical_sparse {first : UInt8} (short : bits ≤ 128)
    (aligned : number (sparse first 0) % 2 ^ (128 - bits) = 0) : Canonical ⟨sparse first 0, bits⟩ :=
  ⟨short, (aligned_iff short).mpr aligned⟩

private theorem contains_sparse {first first' last' : UInt8} (short : bits ≤ 128)
    (same : number (sparse first' last') / 2 ^ (128 - bits) = number (sparse first 0) / 2 ^ (128 - bits)) :
    Contains ⟨sparse first 0, bits⟩ (sparse first' last') :=
  (contains_iff short _).mpr same

/-- The table with `1000::/4` as its only net. -/
theorem network_table_exact_one : getValueForNet (sparse 0x15 1) ⟨[⟨⟨sparse 0x10 0, 4⟩, []⟩], 2⟩ 20 = some 0 ∧
    getValueForNet (sparse 0x25 1) ⟨[⟨⟨sparse 0x10 0, 4⟩, []⟩], 2⟩ 20 = none := by
  have canonical : Canonical ⟨sparse 0x10 0, 4⟩ := canonical_sparse (by decide) (by decide +kernel)
  have run : Run (NetStep 20) Permitted .empty [⟨⟨sparse 0x10 0, 4⟩, [], []⟩] ⟨[⟨⟨sparse 0x10 0, 4⟩, []⟩], 2⟩ :=
    .next ⟨canonical, .inr (by decide +kernel)⟩ (by decide +kernel : NetStep 20 _ _ _) (.done _)
  have exact := (network_table_exact (by decide) run).2.2 (by decide)
  constructor
  · refine ((exact (sparse 0x15 1)).1 (.inl rfl) 0).mpr ⟨0, _, rfl, rfl, ?_⟩
    exact contains_sparse (by decide) (by decide +kernel)
  · apply Option.eq_none_iff_forall_ne_some.mpr
    intro pointer found
    obtain ⟨i, member, here, _, contained⟩ := ((exact (sparse 0x25 1)).1 (.inl rfl) pointer).mp found
    obtain rfl := List.mem_singleton.mp (List.mem_of_getElem? here)
    rw [contains_iff (by decide)] at contained
    revert contained
    decide +kernel

/-- `8000::` is not found to be in `8000::/1`, so `8000::/2` is stored besides it; and with a value of four
bytes the lookup of `100::1` in a table that only has `100::/8` returns a pointer into that member. -/
theorem network_table_inexact : (Canonical ⟨sparse 0x80 0, 1⟩ ∧ Contains ⟨sparse 0x80 0, 1⟩ (sparse 0x80 0) ∧
      addressInNet (sparse 0x80 0) ⟨sparse 0x80 0, 1⟩ = false) ∧
    (Canonical ⟨sparse 0x80 0, 2⟩ ∧ Overlaps ⟨sparse 0x80 0, 2⟩ ⟨sparse 0x80 0, 1⟩ ∧
      NetStep 20 .empty ⟨⟨sparse 0x80 0, 1⟩, [], []⟩ ⟨[⟨⟨sparse 0x80 0, 1⟩, []⟩], 2⟩ ∧
      (setValueForNet [] ⟨sparse 0x80 0, 2⟩ ⟨[⟨⟨sparse 0x80 0, 1⟩, []⟩], 2⟩ [] 20).2 = some 1) ∧
    (Canonical ⟨sparse 1 0, 8⟩ ∧ Contains ⟨sparse 1 0, 8⟩ (sparse 1 1) ∧
      NetStep 24 .empty ⟨⟨sparse 1 0, 8⟩, [0, 0, 0, 0], []⟩ ⟨[⟨⟨sparse 1 0, 8⟩, [0, 0, 0, 0]⟩], 2⟩ ∧
      getValueForNet (sparse 1 1) ⟨[⟨⟨sparse 1 0, 8⟩, [0, 0, 0, 0]⟩], 2⟩ 24 = some 4) := by
  refine ⟨⟨canonical_sparse (by decide) (by decide +kernel), contains_self ⟨sparse 0x80 0, 1⟩, by decide +kernel⟩,
    ⟨canonical_sparse (by decide) (by decide +kernel), ?_, by decide +kernel, by decide +kernel⟩,
    canonical_sparse (by decide) (by decide +kernel), contains_sparse (by decide) (by decide +kernel),
    by decide +kernel, by decide +kernel⟩
  exact ⟨sparse 0x80 0, contains_self ⟨sparse 0x80 0, 2⟩, contains_self ⟨sparse 0x80 0, 1⟩⟩

end BtServer.Proofs.NetworkTable

import BtServer.Proofs.AccessLines

/-! The access list after a file was read, and the answers of `accesslist_hashisvalid`. -/

namespace BtServer.Proofs.AccessMembers
open Lib AccessLines

section Search
variable {α : Type} {compare : α → Int} {entries : List α}

def Ordered (compare : α → Int) (entries : List α) : Prop :=
  entries.Pairwise fun before after => (compare after ≥ 0 → compare before ≥ 0) ∧ (compare after > 0 → compare before > 0)

theorem ordered_before (ordered : Ordered compare entries) {i j : Nat} {before after : α} (first : entries[i]? = some before)
    (second : entries[j]? = some after) (less : i < j) :
    (compare after ≥ 0 → compare before ≥ 0) ∧ (compare after > 0 → compare before > 0) := by
  obtain ⟨low, rfl⟩ := List.getElem?_eq_some_iff.mp first
  obtain ⟨high, rfl⟩ := List.getElem?_eq_some_iff.mp second
  exact List.pairwise_iff_getElem.mp ordered i j low high less

variable {l u : Nat} (below : ∀ i entry, i < l → entries[i]? = some entry → compare entry > 0)
  (above : ∀ i entry, u ≤ i → entries[i]? = some entry → compare entry < 0)
include below above

theorem absent_outside (closed : u ≤ l) : ¬ ∃ entry ∈ entries, compare entry = 0 := by
  rintro ⟨entry, member, equal⟩
  obtain ⟨i, here⟩ := List.mem_iff_getElem?.mp member
  rcases Nat.lt_or_ge i l with less | more
  · have greater := below i entry less here
    omega
  · have smaller := above i entry (by omega) here
    omega

theorem bsearch_some (ordered : Ordered compare entries) {fuel : Nat} (most : u ≤ entries.length) (enough : u < l + fuel) :
    (bsearch compare entries fuel l u).isSome ↔ ∃ entry ∈ entries, compare entry = 0 := by
  induction fuel generalizing l u with
  | zero => exact iff_of_false (by simp [bsearch]) (absent_outside below above (by omega))
  | succ fuel ih =>
    rw [bsearch]
    by_cases left : l < u
    · have inside : (l + u) / 2 < entries.length := by omega
      have middle := List.getElem?_eq_getElem inside
      rw [if_pos left]
      simp only [middle]
      generalize entries[(l + u) / 2] = entry at middle
      rcases lt_trichotomy (compare entry) 0 with smaller | equal | greater
      · rw [if_pos smaller]
        refine ih below ?_ (by omega) (by omega)
        intro i other beyond here
        rcases Nat.eq_or_lt_of_le beyond with rfl | less
        · rw [here, Option.some.injEq] at middle
          rwa [middle]
        · have order := (ordered_before ordered middle here less).1
          omega
      · rw [if_neg (by omega), if_neg (by omega)]
        exact ⟨fun _ => ⟨entry, List.mem_of_getElem? middle, equal⟩, fun _ => rfl⟩
      · rw [if_neg (by omega), if_pos greater]
        refine ih ?_ above most (by omega)
        intro i other beyond here
        rcases Nat.eq_or_lt_of_le (Nat.le_of_lt_succ beyond) with rfl | less
        · rw [here, Option.some.injEq] at middle
          rwa [middle]
        · exact (ordered_before ordered here middle less).2 greater
    · rw [if_neg left]
      exact iff_of_false (by simp) (absent_outside below above (by omega))

end Search

section Members
variable {hashes : List Hash}

theorem vectorCompareHash_sign (hash1 hash2 : Hash) :
    (vectorCompareHash hash1 hash2 < 0 ↔ bigEndian hash1.toList < bigEndian hash2.toList) ∧
      (vectorCompareHash hash1 hash2 = 0 ↔ bigEndian hash1.toList = bigEndian hash2.toList) :=
  memcmp_sign (by simp)

theorem vectorCompareHash_zero (hash1 hash2 : Hash) : vectorCompareHash hash1 hash2 = 0 ↔ hash1 = hash2 := by
  rw [vectorCompareHash, memcmp_eq_zero (by simp), Vector.toList_inj]

def SortedHashes (hashes : List Hash) : Prop := hashes.Pairwise fun hash1 hash2 => vectorCompareHash hash1 hash2 ≤ 0

theorem qsortHashes_sorted (hashes : List Hash) : SortedHashes (qsortHashes hashes) := by
  have order : ∀ hash1 hash2, vectorCompareHash hash1 hash2 ≤ 0 ↔ bigEndian hash1.toList ≤ bigEndian hash2.toList := by
    intro hash1 hash2
    obtain ⟨less, equal⟩ := vectorCompareHash_sign hash1 hash2
    omega
  have total : Std.Total fun hash1 hash2 : Hash => vectorCompareHash hash1 hash2 ≤ 0 := by
    constructor
    intro hash1 hash2
    rw [order, order]
    exact le_total _ _
  have trans : IsTrans Hash fun hash1 hash2 => vectorCompareHash hash1 hash2 ≤ 0 := by
    constructor
    intro hash1 hash2 hash3
    rw [order, order, order]
    exact le_trans
  exact List.pairwise_insertionSort _ hashes

theorem qsortHashes_perm (hashes : List Hash) : (qsortHashes hashes).Perm hashes := List.perm_insertionSort _ hashes

theorem ordered_hashes (sorted : SortedHashes hashes) (hash : Hash) : Ordered (vectorCompareHash hash) hashes := by
  apply sorted.imp
  intro before after order
  obtain ⟨less, equal⟩ := vectorCompareHash_sign before after
  obtain ⟨lessBefore, equalBefore⟩ := vectorCompareHash_sign hash before
  obtain ⟨lessAfter, equalAfter⟩ := vectorCompareHash_sign hash after
  omega

theorem hashisvalid_sorted (sorted : SortedHashes hashes) (wantBlack : Bool) (hash : Hash) :
    accesslistHashisvalid wantBlack hashes hash = (decide (hash ∈ hashes) != wantBlack) := by
  have found := @bsearch_some Hash (vectorCompareHash hash) hashes 0 hashes.length
    (fun i entry less => absurd less (Nat.not_lt_zero i))
    (fun i entry beyond here => absurd (List.getElem?_eq_some_iff.mp here).1 (by omega))
    (ordered_hashes sorted hash) (hashes.length + 1) (le_refl _) (by omega)
  have member : (∃ entry ∈ hashes, vectorCompareHash hash entry = 0) ↔ hash ∈ hashes := by
    simp only [vectorCompareHash_zero, exists_eq_right']
  rw [member] at found
  rw [accesslistHashisvalid]
  by_cases inside : hash ∈ hashes
  · have here := found.mpr inside
    cases wantBlack <;> simp [here, inside, Option.isNone_eq_false_iff]
  · have none := mt found.mp inside
    rw [Bool.not_eq_true, Option.isSome_eq_false_iff] at none
    cases wantBlack <;> simp_all

end Members

section Installed
variable {file : Bytes}

/-- The file does not end with a line of 40 hex digits, no line with more of them starts 80 bytes before its end, the last
40 bytes do not need a slot that is not there, and an empty file does not follow a longer list. -/
structure Regular (file : Bytes) (accesslist : List Hash) : Prop where
  ended : ∀ last ∈ lineStarts true file, ¬ (last.length = 40 ∧ HexStart 40 last)
  longer : ∀ line ∈ lineStarts true file, ¬ (line.length = 80 ∧ HexStart 41 line)
  room : ¬ NoRoom (file.length / 41) file
  mapped : file ≠ [] ∨ accesslist = []

theorem faulty_start : Faulty file 0 file ↔
    (∃ last ∈ lineStarts true file, last.length = 40 ∧ HexStart 40 last) ∨ NoRoom (file.length / 41) file := by
  simp [Faulty]

theorem readfile_mapped (some : file ≠ []) (contents : Nat → UInt8) (accesslist : List Hash) :
    (Faulty file 0 file → accesslistReadfile (.some file) (.some contents) accesslist = .error .outside) ∧
    (¬ Faulty file 0 file → accesslistReadfile (.some file) (.some contents) accesslist = .ok (qsortHashes (keptHashes file))) := by
  have size : ((List.range (file.length / 41 * 20)).map contents).length = file.length / 41 * 20 := by simp
  have mapped : mmapRead (.some file) = .some file := by simp [mmapRead, Option.filter, some]
  simp only [accesslistReadfile, mapped]
  constructor
  · intro faulty
    have run := @readLines_faulty file _ file 0 0 (file.length + 1) size (.inl rfl) faulty (by omega)
    simp only [run, bind, Except.bind]
  · intro sound
    obtain ⟨after, run, flat⟩ :=
      @readLines_sound file _ file 0 0 (file.length + 1) size (.inl rfl) (by omega) sound (by omega) (by omega)
    rw [Nat.zero_add, Nat.mul_zero, List.take_zero, List.nil_append] at flat
    simp only [run, bind, Except.bind, pure, Except.pure, Nat.zero_add,
      show slotHashes after (keptHashes file).length = keptHashes file from readBytes_blocks flat]

theorem kept_of_hashLine {rest : Bytes} (line : HashLine rest) : Kept rest := ⟨line.1, .inr line.2⟩

/-- The kept hashes are the listed ones exactly if no longer line is taken for one. -/
theorem keptHashes_perm :
    (keptHashes file).Perm (listedHashes file) ↔ ∀ line ∈ lineStarts true file, ¬ (line.length = 80 ∧ HexStart 41 line) := by
  have sublist : ((lineStarts true file).filter fun rest => HashLine rest).Sublist
      ((lineStarts true file).filter fun rest => Kept rest) := by
    apply List.monotone_filter_right
    intro rest line
    exact decide_eq_true (kept_of_hashLine (of_decide_eq_true line))
  constructor
  · rintro same line member ⟨length, digits⟩
    have lengths := same.length_eq
    rw [keptHashes, listedHashes, List.length_map, List.length_map] at lengths
    have equal := sublist.eq_of_length lengths.symm
    have kept : line ∈ (lineStarts true file).filter fun rest => Kept rest :=
      List.mem_filter.mpr ⟨member, decide_eq_true ⟨digits.fewer (by omega), .inl length⟩⟩
    rw [← equal, List.mem_filter, decide_eq_true_eq] at kept
    exact kept.2.2 digits
  · intro short
    have same : (lineStarts true file).filter (fun rest => Kept rest) = (lineStarts true file).filter fun rest => HashLine rest := by
      apply List.filter_congr
      intro line member
      apply decide_eq_decide.mpr
      refine ⟨fun kept => ⟨kept.1, fun digits => ?_⟩, kept_of_hashLine⟩
      rcases kept.2 with length | other
      · exact short line member ⟨length, digits⟩
      · exact other digits
    rw [keptHashes, listedHashes, same]

/-- A file is read without an access outside of it or of the buffer, its hashes are installed in order, and the answers
are membership in them: exactly for regular files. -/
theorem accesslistReadfile_lists (file : Bytes) (contents : Nat → UInt8) (accesslist : List Hash) (wantBlack : Bool) :
    (∃ installed, accesslistReadfile (some file) (some contents) accesslist = .ok installed ∧
      SortedHashes installed ∧ installed.Perm (listedHashes file) ∧
      ∀ hash, accesslistHashisvalid wantBlack installed hash = (decide (hash ∈ listedHashes file) != wantBlack)) ↔
    Regular file accesslist := by
  by_cases empty : file = []
  · subst empty
    have same : accesslistReadfile (some []) (some contents) accesslist = .ok accesslist := rfl
    have none : listedHashes [] = [] := rfl
    rw [same, none]
    constructor
    · rintro ⟨installed, run, _, perm, _⟩
      obtain rfl := Except.ok.inj run
      exact ⟨by simp [lineStarts], by simp [lineStarts], by simp [NoRoom], .inr perm.eq_nil⟩
    · intro regular
      obtain rfl : accesslist = [] := regular.mapped.resolve_left (not_not.mpr rfl)
      exact ⟨[], rfl, .nil, .refl _, hashisvalid_sorted .nil wantBlack⟩
  · obtain ⟨outside, inside⟩ := readfile_mapped empty contents accesslist
    by_cases faulty : Faulty file 0 file
    · rw [outside faulty]
      constructor
      · rintro ⟨_, run, _⟩
        cases run
      · intro regular
        rcases faulty_start.mp faulty with ⟨last, member, line⟩ | full
        · exact absurd line (regular.ended last member)
        · exact absurd full regular.room
    · rw [inside faulty]
      have perm := qsortHashes_perm (keptHashes file)
      have sorted := qsortHashes_sorted (keptHashes file)
      rw [faulty_start, not_or] at faulty
      constructor
      · rintro ⟨installed, run, _, same, _⟩
        obtain rfl := Except.ok.inj run
        refine ⟨fun last member line => faulty.1 ⟨last, member, line⟩, ?_, faulty.2, .inl empty⟩
        exact keptHashes_perm.mp (perm.symm.trans same)
      · intro regular
        have same := perm.trans (keptHashes_perm.mpr regular.longer)
        refine ⟨_, rfl, sorted, same, ?_⟩
        intro hash
        rw [hashisvalid_sorted sorted]
        simp only [same.mem_iff]

/-- A hash without a newline behind it is written outside of a buffer that has no room for it. -/
theorem unended_hash_overruns : accesslistReadfile (some (List.replicate 40 97)) (some fun _ => 0) [] = .error .outside ∧
      listedHashes (List.replicate 40 97) = [Vector.replicate 20 0xaa] := by
  decide +kernel

end Installed

end BtServer.Proofs.AccessMembers

import Mathlib.Data.List.GetD
import BtServer.AccessList
import BtServer.Proofs.StateLines

/-! Which lines of a file are in the access list. The loop stops 40 bytes before the end of the file, but a
hash in the buffer is paid for with 41 bytes, and the end that a hash is compared with is not that of the file. -/

namespace BtServer.Proofs.AccessLines
open Lib StateLines

section Lines

def lineStarts : (start : Bool) → Bytes → List Bytes
  | _, [] => []
  | true, c :: rest => (c :: rest) :: lineStarts (c = 10) rest
  | false, c :: rest => lineStarts (c = 10) rest

def following (rest : Bytes) : Bytes := (rest.dropWhile (· ≠ 10)).drop 1

/-- That many hex digits come first; the zero that stands for a missing byte is none. -/
def HexStart (n : Nat) (rest : Bytes) : Prop := ∀ j < n, isXdigit (rest.getD j 0) = true

instance (n : Nat) (rest : Bytes) : Decidable (HexStart n rest) := inferInstanceAs (Decidable (∀ j < n, _))

/-- A line of 40 hex digits and then something else or nothing. -/
def HashLine (rest : Bytes) : Prop := HexStart 40 rest ∧ ¬ HexStart 41 rest

instance (rest : Bytes) : Decidable (HashLine rest) := inferInstanceAs (Decidable (_ ∧ _))

def listedHashes (file : Bytes) : List Hash := ((lineStarts true file).filter fun rest => HashLine rest).map hexBytes

theorem following_cons (c : UInt8) (rest : Bytes) : following (c :: rest) = if c = 10 then rest else following rest := by
  by_cases newline : c = 10
  · simp [following, newline]
  · simp [following, newline]

theorem lineStarts_false (rest : Bytes) : lineStarts false rest = lineStarts true (following rest) := by
  induction rest with
  | nil => rfl
  | cons c rest ih =>
    rw [lineStarts, following_cons]
    by_cases newline : c = 10
    · rw [if_pos newline, decide_eq_true newline]
    · rw [if_neg newline, decide_eq_false newline, ih]

theorem lineStarts_true {rest : Bytes} (some : rest ≠ []) : lineStarts true rest = rest :: lineStarts true (following rest) := by
  cases rest with
  | nil => exact absurd rfl some
  | cons c rest =>
    rw [← lineStarts_false, lineStarts, lineStarts]

theorem length_following (rest : Bytes) : (following rest).length ≤ rest.length - 1 := by
  rw [following, List.length_drop]
  have shorter := (List.dropWhile_sublist (fun c : UInt8 => decide (c ≠ 10)) (l := rest)).length_le
  omega

theorem length_lineStart {start : Bool} {file rest : Bytes} (member : rest ∈ lineStarts start file) :
    rest.length ≤ file.length := by
  induction file generalizing start with
  | nil => simp [lineStarts] at member
  | cons c file ih =>
    cases start with
    | true =>
      rcases List.mem_cons.mp member with rfl | later
      · exact le_refl _
      · exact (ih later).trans (by simp)
    | false => exact (ih member).trans (by simp)

end Lines

section Digits
variable {rest : Bytes} {n : Nat}

private theorem isXdigit_zero : isXdigit 0 = false := by decide

private theorem xdigit_ne_newline {c : UInt8} (digit : isXdigit c = true) : c ≠ 10 := by
  rintro rfl
  exact absurd digit (by decide)

theorem HexStart.length (digits : HexStart n rest) : n ≤ rest.length := by
  by_contra short
  have missing := digits rest.length (by omega)
  rw [List.getD_eq_default _ _ (le_refl _), isXdigit_zero] at missing
  cases missing

theorem HexStart.fewer {m : Nat} (digits : HexStart n rest) (less : m ≤ n) : HexStart m rest := by
  intro j inside
  exact digits j (by omega)

theorem following_digits (digits : HexStart n rest) : following rest = following (rest.drop n) := by
  induction n generalizing rest with
  | zero => rfl
  | succ n ih =>
    cases rest with
    | nil => rfl
    | cons c rest =>
      have other : c ≠ 10 := xdigit_ne_newline (digits 0 (Nat.succ_pos n))
      rw [following_cons, if_neg other, List.drop_succ_cons]
      apply ih
      intro j inside
      exact digits (j + 1) (by omega)

theorem length_following_digits (digits : HexStart n rest) (more : n < rest.length) : (following rest).length + n + 1 ≤ rest.length := by
  have behind := length_following (rest.drop n)
  rw [← following_digits digits, List.length_drop] at behind
  omega

theorem following_next (digits : HexStart n rest) (first : (following rest).length + n + 1 = rest.length) (some : following rest ≠ []) :
    rest.getD n 0 = 10 ∧ following rest = rest.drop (n + 1) := by
  have inside : n < rest.length := by omega
  have cut := List.drop_eq_getElem_cons inside
  have next := following_digits digits
  rw [cut, following_cons] at next
  rw [List.getD_eq_getElem _ _ inside]
  by_cases newline : rest[n] = 10
  · rw [if_pos newline] at next
    exact ⟨newline, next⟩
  · rw [if_neg newline] at next
    have shorter := length_following (rest.drop (n + 1))
    rw [← next, List.length_drop] at shorter
    have positive := List.length_pos_of_ne_nil some
    omega

theorem following_newline (digits : HexStart n rest) (newline : rest.getD n 0 = 10) : following rest = rest.drop (n + 1) := by
  have inside : n < rest.length := by
    by_contra outside
    rw [List.getD_eq_default _ _ (by omega)] at newline
    exact absurd newline (by decide)
  rw [List.getD_eq_getElem _ _ inside] at newline
  rw [following_digits digits, List.drop_eq_getElem_cons inside, following_cons, if_pos newline]

theorem hexStart_pairs : HexStart 40 rest ↔
    ∀ k < 20, 0 ≤ scanFromhex (rest.getD (2 * k) 0) ∧ 0 ≤ scanFromhex (rest.getD (1 + 2 * k) 0) := by
  constructor
  · intro digits k inside
    have first := digits (2 * k) (by omega)
    have second := digits (1 + 2 * k) (by omega)
    simp only [isXdigit, decide_eq_true_eq] at first second
    exact ⟨first, second⟩
  · intro pairs j inside
    obtain ⟨first, second⟩ := pairs (j / 2) (by omega)
    simp only [isXdigit, decide_eq_true_eq]
    rcases Nat.mod_two_eq_zero_or_one j with even | odd
    · rwa [show 2 * (j / 2) = j by omega] at first
    · rwa [show 1 + 2 * (j / 2) = j by omega] at second

end Digits

section Reading
variable {map slots : Bytes} {readOffs infoHash : Nat}

private theorem fetch_rest {j : Nat} (inside : readOffs + j < map.length) :
    (fetch map (readOffs + j) : Access Empty UInt8) = .ok ((map.drop readOffs).getD j 0) := by
  rw [fetch_inside inside, List.getD_eq_getElem _ _ (by rw [List.length_drop]; omega), List.getElem_drop]

private theorem take_set {α : Type} {entries : List α} {k : Nat} (inside : k < entries.length) (value : α) :
    (entries.set k value).take k = entries.take k ∧ (entries.set k value).take (k + 1) = entries.take k ++ [value] := by
  constructor
  · rw [List.take_set_of_le (le_refl k)]
  · rw [List.take_succ_eq_append_getElem (by rwa [List.length_set]), List.getElem_set_self, List.take_set_of_le (le_refl k)]

theorem readHash_room (inside : readOffs + 40 ≤ map.length) (room : 20 * infoHash + 20 ≤ slots.length) {left i : Nat}
    (all : i + left = 20) :
    ∃ n after, readHash map readOffs infoHash left i slots = .ok (n, after) ∧ after.length = slots.length ∧
      after.take (20 * infoHash + i) = slots.take (20 * infoHash + i) ∧
      (n = 20 → after.take (20 * infoHash + 20) =
        slots.take (20 * infoHash + i) ++ (hexBytes (map.drop readOffs)).toList.drop i) ∧
      (n = 20 ↔ ∀ k < 20, i ≤ k → 0 ≤ scanFromhex ((map.drop readOffs).getD (2 * k) 0) ∧
        0 ≤ scanFromhex ((map.drop readOffs).getD (1 + 2 * k) 0)) := by
  induction left generalizing i slots with
  | zero =>
    obtain rfl : i = 20 := by omega
    exact ⟨20, slots, rfl, rfl, rfl, fun _ => by simp, fun _ k inside least => by omega, fun _ => rfl⟩
  | succ left ih =>
    have first := @fetch_rest map readOffs (2 * i) (by omega)
    have second := @fetch_rest map readOffs (1 + 2 * i) (by omega)
    rw [readHash, first, second]
    simp only [bind, Except.bind]
    split
    next stops =>
      refine ⟨i, slots, rfl, rfl, rfl, by omega, ?_⟩
      refine ⟨by omega, fun pairs => ?_⟩
      obtain ⟨high, low⟩ := pairs i (by omega) (le_refl i)
      omega
    next digits =>
      rw [store_inside (by omega)]
      obtain ⟨kept, grown⟩ := take_set (show 20 * infoHash + i < slots.length by omega)
        (scanFromhex ((map.drop readOffs).getD (2 * i) 0) * 16 + scanFromhex ((map.drop readOffs).getD (1 + 2 * i) 0)).toNat.toUInt8
      generalize stored : slots.set _ _ = after at kept grown
      have same : after.length = slots.length := by rw [← stored, List.length_set]
      have more : 20 * infoHash + 20 ≤ after.length := by omega
      obtain ⟨n, last, run, length, unchanged, filled, pairs⟩ := ih more (show i + 1 + left = 20 by omega)
      refine ⟨n, last, run, length.trans same, ?_, ?_, ?_⟩
      · have earlier := congrArg (List.take (20 * infoHash + i)) unchanged
        rw [List.take_take, List.take_take, Nat.min_eq_left (by omega)] at earlier
        rw [earlier, kept]
      · intro whole
        rw [filled whole, ← Nat.add_assoc, grown, List.append_assoc]
        have byte : i < (hexBytes (map.drop readOffs)).toList.length := by
          rw [Vector.length_toList]
          omega
        rw [List.drop_eq_getElem_cons byte]
        simp [hexBytes, mul_comm, Nat.add_comm 1]
      · rw [pairs]
        constructor
        · intro later k inside least
          rcases Nat.eq_or_lt_of_le least with rfl | less
          · omega
          · exact later k inside less
        · intro all k inside least
          exact all k inside (by omega)

theorem readHash_outside (inside : readOffs + 40 ≤ map.length) (full : slots.length ≤ 20 * infoHash) :
    readHash map readOffs infoHash 20 0 slots = if HexStart 2 (map.drop readOffs) then .error .outside else .ok (0, slots) := by
  have first := @fetch_rest map readOffs (2 * 0) (by omega)
  have second := @fetch_rest map readOffs (1 + 2 * 0) (by omega)
  have digits : HexStart 2 (map.drop readOffs) ↔ 0 ≤ scanFromhex ((map.drop readOffs).getD (2 * 0) 0) ∧
      0 ≤ scanFromhex ((map.drop readOffs).getD (1 + 2 * 0) 0) := by
    simp only [HexStart, Nat.forall_lt_succ_right, isXdigit, decide_eq_true_eq]
    simp
  have none : (store slots (20 * infoHash + 0)
      (scanFromhex ((map.drop readOffs).getD (2 * 0) 0) * 16 + scanFromhex ((map.drop readOffs).getD (1 + 2 * 0) 0)).toNat.toUInt8 :
      Access Empty Bytes) = .error .outside := by
    rw [store, if_neg (by omega)]
  rw [readHash, first, second]
  simp only [bind, Except.bind, none]
  by_cases two : HexStart 2 (map.drop readOffs)
  · rw [if_pos two, if_neg (by have := digits.mp two; omega)]
  · rw [if_neg two, if_pos (by have := mt digits.mpr two; omega)]
    rfl

theorem nextLine_following {fuel : Nat} (within : readOffs ≤ map.length) (enough : map.length < readOffs + fuel) :
    ∃ next, nextLine map fuel readOffs = .ok next ∧ readOffs ≤ next ∧ (readOffs + 40 ≤ map.length → readOffs < next) ∧
      (map.drop next = following (map.drop readOffs) ∨
        map.length < next + 40 ∧ (following (map.drop readOffs)).length < 40) := by
  induction fuel generalizing readOffs with
  | zero => omega
  | succ fuel ih =>
    rw [nextLine]
    by_cases inside : readOffs + 40 ≤ map.length
    · have here : readOffs < map.length := by omega
      rw [if_pos inside, fetch_inside here, List.drop_eq_getElem_cons here, following_cons]
      simp only [bind, Except.bind]
      by_cases newline : map[readOffs] = 10
      · rw [if_pos newline, if_pos newline]
        exact ⟨readOffs + 1, rfl, by omega, by omega, .inl rfl⟩
      · rw [if_neg newline, if_neg newline]
        obtain ⟨next, found, later, _, stands⟩ := @ih (readOffs + 1) (by omega) (by omega)
        exact ⟨next, found, by omega, by omega, stands⟩
    · rw [if_neg inside]
      have shorter := length_following (map.drop readOffs)
      rw [List.length_drop] at shorter
      exact ⟨readOffs, rfl, le_refl _, fun more => absurd more inside, .inr ⟨by omega, by omega⟩⟩

/-- The hash of a line is kept. The end that is compared with `read_offs` is 40 bytes early. -/
def Kept (rest : Bytes) : Prop := HexStart 40 rest ∧ (rest.length = 80 ∨ ¬ HexStart 41 rest)

instance (rest : Bytes) : Decidable (Kept rest) := inferInstanceAs (Decidable (_ ∧ _))

theorem hexStart_succ {rest : Bytes} {n : Nat} (digits : HexStart n rest) :
    HexStart (n + 1) rest ↔ isXdigit (rest.getD n 0) = true := by
  refine ⟨fun more => more n (Nat.lt_succ_self n), fun digit j inside => ?_⟩
  rcases Nat.eq_or_lt_of_le (Nat.le_of_lt_succ inside) with rfl | less
  · exact digit
  · exact digits j less

theorem appendHash_digits (digits : HexStart 40 (map.drop readOffs)) : appendHash map 20 readOffs infoHash =
      if (map.drop readOffs).length = 40 then .error .outside
      else .ok (readOffs + 40, if Kept (map.drop readOffs) then infoHash + 1 else infoHash) := by
  have long := digits.length
  rw [List.length_drop] at long ⊢
  rw [appendHash, if_pos rfl, keepHash]
  by_cases early : readOffs + 40 + 40 = map.length
  · have kept : Kept (map.drop readOffs) := ⟨digits, .inl (by rw [List.length_drop]; omega)⟩
    rw [if_pos early, if_neg (by omega), if_pos kept]
    rfl
  · rw [if_neg early]
    by_cases last : map.length - readOffs = 40
    · rw [if_pos last, fetch, List.getElem?_eq_none (by omega)]
      rfl
    · have kept : Kept (map.drop readOffs) ↔ scanFromhex ((map.drop readOffs).getD 40 0) < 0 := by
        rw [Kept, hexStart_succ digits, List.length_drop]
        simp only [isXdigit, decide_eq_true_eq]
        constructor
        · rintro ⟨_, whole | other⟩
          · omega
          · exact not_le.mp other
        · exact fun other => ⟨digits, .inr (not_le.mpr other)⟩
      rw [if_neg last, fetch_rest (by omega)]
      simp only [bind, Except.bind, pure, Except.pure, kept]

end Reading

section Turns
variable {map slots : Bytes} {readOffs infoHash fuel : Nat}

def Safe (map : Bytes) (infoHash : Nat) (rest : Bytes) : Prop :=
  (infoHash < map.length / 41 ∨ ¬ HexStart 2 rest) ∧ ¬ (HexStart 40 rest ∧ rest.length = 40)

/-- Where the loop is: at a line, or behind the last place where a line of 40 bytes can start. -/
def Stands (map : Bytes) (readOffs : Nat) (rest : Bytes) : Prop :=
  map.drop readOffs = rest ∨ map.length < readOffs + 40 ∧ rest.length < 40

variable (size : slots.length = map.length / 41 * 20) (inside : readOffs + 40 ≤ map.length)
include size inside

theorem readHash_safe (safe : Safe map infoHash (map.drop readOffs)) :
    ∃ n after, readHash map readOffs infoHash 20 0 slots = .ok (n, after) ∧ after.length = slots.length ∧
      after.take (20 * infoHash) = slots.take (20 * infoHash) ∧ (n = 20 ↔ HexStart 40 (map.drop readOffs)) ∧
      (n = 20 → after.take (20 * infoHash + 20) = slots.take (20 * infoHash) ++ (hexBytes (map.drop readOffs)).toList) := by
  obtain ⟨room, _⟩ := safe
  by_cases free : infoHash < map.length / 41
  · obtain ⟨n, after, run, length, kept, filled, pairs⟩ := @readHash_room map slots readOffs infoHash inside (by omega) 20 0 rfl
    refine ⟨n, after, run, length, kept, ?_, filled⟩
    rw [pairs, hexStart_pairs]
    exact ⟨fun all k within => all k within (Nat.zero_le k), fun all k within _ => all k within⟩
  · have few : ¬ HexStart 2 (map.drop readOffs) := room.resolve_left free
    refine ⟨0, slots, ?_, rfl, rfl, ?_, by omega⟩
    · rw [readHash_outside inside (by omega), if_neg few]
    · exact ⟨by omega, fun digits => absurd (digits.fewer (by omega)) few⟩

theorem turn_safe (safe : Safe map infoHash (map.drop readOffs)) :
    ∃ next after, readLines map (fuel + 1) readOffs infoHash slots =
        readLines map fuel next (if Kept (map.drop readOffs) then infoHash + 1 else infoHash) after ∧
      readOffs < next ∧ Stands map next (following (map.drop readOffs)) ∧ after.length = slots.length ∧
      after.take (20 * infoHash) = slots.take (20 * infoHash) ∧
      (Kept (map.drop readOffs) →
        after.take (20 * (infoHash + 1)) = slots.take (20 * infoHash) ++ (hexBytes (map.drop readOffs)).toList) := by
  obtain ⟨n, after, run, length, unchanged, digits, filled⟩ := readHash_safe size inside safe
  rw [readLines, if_pos inside, run]
  by_cases whole : n = 20
  · subst whole
    have hash := digits.mp rfl
    have more : (map.drop readOffs).length ≠ 40 := fun last => safe.2 ⟨hash, last⟩
    have appended := @appendHash_digits map readOffs infoHash hash
    rw [if_neg more] at appended
    have long := hash.length
    rw [List.length_drop] at long more
    obtain ⟨next, found, later, _, stands⟩ := @nextLine_following map (readOffs + 40) (map.length + 1) (by omega) (by omega)
    rw [← List.drop_drop, ← following_digits hash] at stands
    refine ⟨next, after, ?_, by omega, stands, length, unchanged, fun _ => filled rfl⟩
    simp only [bind, Except.bind, appended, found]
  · have other : ¬ HexStart 40 (map.drop readOffs) := fun hash => whole (digits.mpr hash)
    have passed : ¬ Kept (map.drop readOffs) := fun kept => other kept.1
    obtain ⟨next, found, _, later, stands⟩ := @nextLine_following map readOffs (map.length + 1) (by omega) (by omega)
    refine ⟨next, after, ?_, later inside, stands, length, unchanged, fun kept => absurd kept passed⟩
    simp only [bind, Except.bind, appendHash, if_neg whole, if_neg passed, pure, Except.pure, found]

theorem turn_outside (danger : ¬ Safe map infoHash (map.drop readOffs)) :
    readLines map (fuel + 1) readOffs infoHash slots = .error .outside := by
  rw [readLines, if_pos inside]
  by_cases room : infoHash < map.length / 41 ∨ ¬ HexStart 2 (map.drop readOffs)
  · have whole : HexStart 40 (map.drop readOffs) ∧ (map.drop readOffs).length = 40 := by
      by_contra other
      exact danger ⟨room, other⟩
    obtain ⟨digits, last⟩ := whole
    have free : infoHash < map.length / 41 := room.resolve_right (not_not.mpr (digits.fewer (by omega)))
    obtain ⟨n, after, run, _, _, _, pairs⟩ := @readHash_room map slots readOffs infoHash inside (by omega) 20 0 rfl
    obtain rfl : n = 20 := pairs.mpr fun k within _ => hexStart_pairs.mp digits k within
    have appended := @appendHash_digits map readOffs infoHash digits
    rw [if_pos last] at appended
    simp only [bind, Except.bind, run, appended]
  · have two : HexStart 2 (map.drop readOffs) := by
      by_contra few
      exact room (.inr few)
    have full : slots.length ≤ 20 * infoHash := by
      have none : ¬ infoHash < map.length / 41 := fun free => room (.inl free)
      omega
    simp only [bind, Except.bind, readHash_outside inside full, if_pos two]

end Turns

section Runs
variable {map slots rest : Bytes} {readOffs infoHash fuel : Nat}

/-- The buffer is filled by that many lines of 41 bytes, and 40 bytes are left that begin with two digits. -/
def NoRoom : Nat → Bytes → Prop
  | 0, rest => rest.length = 40 ∧ HexStart 2 rest
  | lines + 1, rest => HexStart 40 rest ∧ rest.getD 40 0 = 10 ∧ NoRoom lines (rest.drop 41)

theorem length_noRoom {lines : Nat} (full : NoRoom lines rest) : 40 ≤ rest.length := by
  cases lines with
  | zero => exact full.1.ge
  | succ lines => exact full.1.length

/-- There will be an access outside of the file or of the buffer. -/
def Faulty (map : Bytes) (infoHash : Nat) (rest : Bytes) : Prop :=
  (∃ last ∈ lineStarts true rest, last.length = 40 ∧ HexStart 40 last) ∨
    41 * infoHash + rest.length = map.length ∧ NoRoom (map.length / 41 - infoHash) rest

def keptHashes (rest : Bytes) : List Hash := ((lineStarts true rest).filter fun rest => Kept rest).map hexBytes

theorem keptHashes_short (short : rest.length < 40) : keptHashes rest = [] := by
  rw [keptHashes, List.map_eq_nil_iff, List.filter_eq_nil_iff]
  intro line member kept
  have long := (of_decide_eq_true kept : Kept line).1.length
  have within := length_lineStart member
  omega

theorem keptHashes_next (some : rest ≠ []) :
    keptHashes rest = if Kept rest then hexBytes rest :: keptHashes (following rest) else keptHashes (following rest) := by
  rw [keptHashes, lineStarts_true some, List.filter_cons]
  by_cases kept : Kept rest
  · rw [if_pos (decide_eq_true kept), if_pos kept, List.map_cons, keptHashes]
  · rw [if_neg (by simpa using kept), if_neg kept, keptHashes]

theorem faulty_long (faulty : Faulty map infoHash rest) : 40 ≤ rest.length := by
  rcases faulty with ⟨last, member, length, _⟩ | ⟨_, full⟩
  · rw [← length]
    exact length_lineStart member
  · exact length_noRoom full

theorem safe_of_sound (paid : 41 * infoHash + rest.length ≤ map.length) (long : 40 ≤ rest.length)
    (sound : ¬ Faulty map infoHash rest) : Safe map infoHash rest := by
  have some : rest ≠ [] := List.ne_nil_of_length_pos (by omega)
  constructor
  · by_contra full
    have none : map.length / 41 ≤ infoHash := by
      by_contra free
      exact full (.inl (by omega))
    have two : HexStart 2 rest := by
      by_contra few
      exact full (.inr few)
    apply sound
    right
    rw [show map.length / 41 - infoHash = 0 by omega]
    exact ⟨by omega, by omega, two⟩
  · rintro ⟨digits, last⟩
    apply sound
    left
    exact ⟨rest, by rw [lineStarts_true some]; exact List.mem_cons_self, last, digits⟩

theorem paid_next (paid : 41 * infoHash + rest.length ≤ map.length) (safe : Safe map infoHash rest) (long : 40 ≤ rest.length) :
    41 * (if Kept rest then infoHash + 1 else infoHash) + (following rest).length ≤ map.length := by
  by_cases kept : Kept rest
  · have more : rest.length ≠ 40 := fun last => safe.2 ⟨kept.1, last⟩
    have behind := length_following_digits kept.1 (by omega)
    rw [if_pos kept]
    omega
  · have behind := length_following rest
    rw [if_neg kept]
    omega

theorem sound_next (paid : 41 * infoHash + rest.length ≤ map.length) (safe : Safe map infoHash rest) (long : 40 ≤ rest.length)
    (sound : ¬ Faulty map infoHash rest) :
    ¬ Faulty map (if Kept rest then infoHash + 1 else infoHash) (following rest) := by
  have some : rest ≠ [] := List.ne_nil_of_length_pos (by omega)
  rintro (⟨last, member, faulty⟩ | ⟨spent, full⟩)
  · apply sound
    left
    exact ⟨last, by rw [lineStarts_true some]; exact List.mem_cons_of_mem _ member, faulty⟩
  · by_cases kept : Kept rest
    · rw [if_pos kept] at spent full
      have more : rest.length ≠ 40 := fun last => safe.2 ⟨kept.1, last⟩
      have behind := length_following_digits kept.1 (by omega)
      have next : following rest ≠ [] := List.ne_nil_of_length_pos (by have := length_noRoom full; omega)
      obtain ⟨newline, same⟩ := following_next kept.1 (by omega) next
      have free : infoHash < map.length / 41 := safe.1.resolve_right (not_not.mpr (kept.1.fewer (by omega)))
      apply sound
      right
      rw [show map.length / 41 - infoHash = map.length / 41 - (infoHash + 1) + 1 by omega]
      rw [same] at full
      exact ⟨by omega, kept.1, newline, full⟩
    · rw [if_neg kept] at spent
      have behind := length_following rest
      omega

theorem faulty_next (faulty : Faulty map infoHash rest) (safe : Safe map infoHash rest) :
    Faulty map (if Kept rest then infoHash + 1 else infoHash) (following rest) := by
  have some : rest ≠ [] := List.ne_nil_of_length_pos (by have := faulty_long faulty; omega)
  rcases faulty with ⟨last, member, length, digits⟩ | ⟨spent, full⟩
  · rw [lineStarts_true some] at member
    rcases List.mem_cons.mp member with rfl | later
    · exact absurd ⟨digits, length⟩ safe.2
    · exact .inl ⟨last, later, length, digits⟩
  · cases slots : map.length / 41 - infoHash with
    | zero =>
      rw [slots] at full
      exact absurd (safe.1.resolve_left (by omega)) (not_not.mpr full.2)
    | succ lines =>
      rw [slots] at full
      obtain ⟨digits, newline, behind⟩ := full
      have other : ¬ HexStart 41 rest := by
        rw [hexStart_succ digits, newline]
        decide
      have long := length_noRoom behind
      rw [List.length_drop] at long
      rw [if_pos ⟨digits, .inr other⟩, following_newline digits newline]
      refine .inr ⟨by rw [List.length_drop]; omega, ?_⟩
      rwa [show map.length / 41 - (infoHash + 1) = lines by omega]

variable (size : slots.length = map.length / 41 * 20) (stands : Stands map readOffs rest)
include size stands

theorem readLines_sound (paid : 41 * infoHash + rest.length ≤ map.length) (sound : ¬ Faulty map infoHash rest)
    (enough : map.length < readOffs + fuel) (some : 0 < fuel) :
    ∃ after, readLines map fuel readOffs infoHash slots = .ok (infoHash + (keptHashes rest).length, after) ∧
      after.take (20 * (infoHash + (keptHashes rest).length)) =
        slots.take (20 * infoHash) ++ (keptHashes rest).flatMap Vector.toList := by
  induction fuel generalizing readOffs infoHash slots rest with
  | zero => omega
  | succ fuel ih =>
    by_cases inside : readOffs + 40 ≤ map.length
    · obtain rfl : map.drop readOffs = rest := stands.resolve_right (by omega)
      have long : 40 ≤ (map.drop readOffs).length := by
        rw [List.length_drop]
        omega
      have safe := safe_of_sound paid long sound
      obtain ⟨next, after, run, later, behind, length, unchanged, filled⟩ := @turn_safe map slots readOffs infoHash fuel size inside safe
      rw [run, keptHashes_next (List.ne_nil_of_length_pos (by omega))]
      obtain ⟨last, rest_run, contents⟩ :=
        ih (length.trans size) behind (paid_next paid safe long) (sound_next paid safe long sound) (by omega) (by omega)
      refine ⟨last, ?_⟩
      by_cases kept : Kept (map.drop readOffs)
      · rw [if_pos kept] at rest_run contents ⊢
        rw [if_pos kept, List.length_cons, List.flatMap_cons, ← List.append_assoc, ← filled kept,
          show infoHash + ((keptHashes (following (map.drop readOffs))).length + 1) =
            infoHash + 1 + (keptHashes (following (map.drop readOffs))).length by omega]
        exact ⟨rest_run, contents⟩
      · rw [if_neg kept] at rest_run contents ⊢
        rw [if_neg kept, ← unchanged]
        exact ⟨rest_run, contents⟩
    · have short : rest.length < 40 := by
        rcases stands with rfl | ⟨_, short⟩
        · rw [List.length_drop]
          omega
        · exact short
      rw [readLines, if_neg inside, keptHashes_short short]
      exact ⟨slots, rfl, by simp⟩

theorem readLines_faulty (faulty : Faulty map infoHash rest) (enough : map.length < readOffs + fuel) :
    readLines map fuel readOffs infoHash slots = .error .outside := by
  induction fuel generalizing readOffs infoHash slots rest with
  | zero =>
    have long := faulty_long faulty
    rcases stands with rfl | ⟨_, short⟩
    · rw [List.length_drop] at long
      omega
    · omega
  | succ fuel ih =>
    have long := faulty_long faulty
    obtain rfl : map.drop readOffs = rest := stands.resolve_right (by omega)
    have inside : readOffs + 40 ≤ map.length := by
      rw [List.length_drop] at long
      omega
    by_cases safe : Safe map infoHash (map.drop readOffs)
    · obtain ⟨next, after, run, later, behind, length, _⟩ := @turn_safe map slots readOffs infoHash fuel size inside safe
      rw [run]
      exact ih (length.trans size) behind (faulty_next faulty safe) (by omega)
    · exact turn_outside size inside safe

end Runs

end BtServer.Proofs.AccessLines

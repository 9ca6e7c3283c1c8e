import Mathlib.Data.List.TakeWhile
import BtServer.Proofs.StateRoundTrip

/-! Which lines of a state file `load_state` reads. The loop over the hash never rejects a line: its `continue` belongs to that
loop. What decides is the text behind the 40 digits, in a buffer that still holds what earlier lines have left. -/

namespace BtServer.Proofs.StateLines
open Lib StateRoundTrip

variable {inbuf file text line : Bytes} {infohash : Hash} {fuel : Nat}

structure SavedCall where
  hash : Hash
  base : Int
  downCount : Nat
deriving DecidableEq

def scanNumbers (inbuf : Bytes) : Option (Nat × Nat) :=
  if inbuf.getD 40 0 ≠ 58 then none
  else if (scanUlonglong (inbuf.drop 41)).1 = 0 then none
  else if inbuf.getD (41 + (scanUlonglong (inbuf.drop 41)).1) 0 ≠ 58 then none
  else if (scanUlonglong (inbuf.drop (41 + (scanUlonglong (inbuf.drop 41)).1 + 1))).1 = 0 then none
  else some ((scanUlonglong (inbuf.drop 41)).2, (scanUlonglong (inbuf.drop (41 + (scanUlonglong (inbuf.drop 41)).1 + 1))).2)

def savedCall (inbuf : Bytes) (infohash : Hash) : Option SavedCall :=
  (scanNumbers inbuf).map fun numbers => ⟨infohash, toTime numbers.1, numbers.2⟩

def perform (tracker : Tracker) (heap : Heap) (call : SavedCall) : Tracker :=
  addTorrentFromSavedState tracker heap call.hash call.base call.downCount

theorem loadLine_eq (heap : Heap) (inbuf : Bytes) (infohash : Hash) (tracker : Tracker) :
    loadLine heap inbuf infohash tracker = (savedCall inbuf infohash).elim tracker (perform tracker heap) := by
  simp only [loadLine, savedCall, scanNumbers, Nat.reduceMul, Nat.reduceAdd]
  by_cases colon : inbuf.getD 40 0 ≠ 58
  · simp only [if_pos colon, Option.map_none, Option.elim_none]
  by_cases base : (scanUlonglong (inbuf.drop 41)).1 = 0
  · simp only [if_neg colon, if_pos base, Option.map_none, Option.elim_none]
  by_cases second : inbuf.getD (41 + (scanUlonglong (inbuf.drop 41)).1) 0 ≠ 58
  · simp only [if_neg colon, if_neg base, if_pos second, Option.map_none, Option.elim_none]
  by_cases downcount : (scanUlonglong (inbuf.drop (41 + (scanUlonglong (inbuf.drop 41)).1 + 1))).1 = 0
  · simp only [if_neg colon, if_neg base, if_neg second, if_pos downcount, Option.map_none, Option.elim_none]
  · simp only [if_neg colon, if_neg base, if_neg second, if_neg downcount, Option.map_some, Option.elim_some, perform]

/-- A line as `load_state` meets it: what `fgets` delivered, the buffer with the line in it, and the
hash after the loop over its bytes. -/
structure LoadedLine where
  line : Bytes
  inbuf : Bytes
  infohash : Hash

def loaded (line inbuf : Bytes) (infohash : Hash) : LoadedLine :=
  ⟨line, overwrite inbuf 0 (line ++ [0]), scanHash (overwrite inbuf 0 (line ++ [0])) infohash⟩

def loadedLines : (fuel : Nat) → (file inbuf : Bytes) → Hash → List LoadedLine
  | 0, _, _, _ => []
  | fuel + 1, file, inbuf, infohash =>
    if (fgets 511 file).1 = [] then []
    else
      let now := loaded (fgets 511 file).1 inbuf infohash
      now :: loadedLines fuel (fgets 511 file).2 now.inbuf now.infohash

def fileLines (file inbuf : Bytes) (infohash : Hash) : List LoadedLine := loadedLines (file.length + 1) file inbuf infohash

def performAll : List Heap → Tracker → List (Option SavedCall) → Tracker
  | _, tracker, [] => tracker
  | heaps, tracker, call :: calls => performAll heaps.tail (call.elim tracker (perform tracker (heaps.headD []))) calls

def savedCalls (file inbuf : Bytes) (infohash : Hash) : List (Option SavedCall) :=
  (fileLines file inbuf infohash).map fun now => savedCall now.inbuf now.infohash

private theorem loadLines_calls (fuel : Nat) (file : Bytes) (heaps : List Heap) (inbuf : Bytes) (infohash : Hash)
    (tracker : Tracker) :
    loadLines fuel file heaps inbuf infohash tracker =
      performAll heaps tracker ((loadedLines fuel file inbuf infohash).map fun now => savedCall now.inbuf now.infohash) := by
  induction fuel generalizing file heaps inbuf infohash tracker with
  | zero => rfl
  | succ fuel ih =>
    rw [loadLines, loadedLines]
    cases delivered : fgets 511 file with
    | mk line rest =>
      cases line with
      | nil => rfl
      | cons c line =>
        simp only [List.cons_ne_nil, if_false, List.map_cons, performAll, ih, loadLine_eq]
        rfl

theorem loadState_calls (file : Bytes) (heaps : List Heap) (inbuf : Bytes) (infohash : Hash) (tracker : Tracker) :
    loadState file heaps inbuf infohash tracker = performAll heaps tracker (savedCalls file inbuf infohash) :=
  loadLines_calls _ file heaps inbuf infohash tracker

section Form

def isXdigit (c : UInt8) : Bool := 0 ≤ scanFromhex c

/-- The bytes that 40 hex digits denote. -/
def hexBytes (digits : Bytes) : Hash :=
  Vector.ofFn fun i =>
    (16 * scanFromhex (digits.getD (2 * i) 0) + scanFromhex (digits.getD (2 * i + 1) 0)).toNat.toUInt8

/-- The line is of the form that the comment gives, and these are its hash and numbers. -/
structure Describes (line : Bytes) (call : SavedCall) : Prop where
  parts : ∃ digits base downCount rest,
    line = digits ++ 58 :: (base ++ 58 :: (downCount ++ rest)) ∧
    digits.length = 40 ∧ (∀ c ∈ digits, isXdigit c = true) ∧
    base ≠ [] ∧ (∀ c ∈ base, isDigit c = true) ∧
    downCount ≠ [] ∧ (∀ c ∈ downCount, isDigit c = true) ∧ (∀ c ∈ rest.head?, isDigit c = false) ∧
    call = ⟨hexBytes digits, parseDecimal base, parseDecimal downCount⟩

/-- Behind 40 bytes there is a colon, a number that fits an `unsigned long long`, a colon and a digit. -/
def Numbered (text : Bytes) : Prop :=
  ∃ base digit rest, text.drop 40 = 58 :: (base ++ 58 :: digit :: rest) ∧ base ≠ [] ∧ (∀ c ∈ base, isDigit c = true) ∧
    parseDecimal base < 2 ^ 64 ∧ isDigit digit = true

/-- What a buffer holds after some lines: each is put at its beginning, with a NUL behind it. -/
def leftBy (inbuf : Bytes) (earlier : List Bytes) : Bytes :=
  earlier.foldl (fun inbuf line => line ++ 0 :: inbuf.drop (line.length + 1)) inbuf

/-- A line with numbers at their place has 40 hex digits in front of them, and behind a line too short for a hash the earlier
ones have left no numbers there. The numbers of a line in the right form fit a `time_t` and an `unsigned long long`. -/
structure Readable (left line : Bytes) : Prop where
  hash : Numbered line → ∀ c ∈ line.take 40, isXdigit c = true
  short : line.length < 40 → ¬ Numbered left
  fits : ∀ call, Describes line call → call.base < 2 ^ 63 ∧ call.downCount < 2 ^ 64

end Form

section Scanning

private theorem scanUlonglongFrom_cases (text : Bytes) (value : Nat) :
    (scanUlonglongFrom value text = ((text.takeWhile isDigit).length,
        (text.takeWhile isDigit).foldl (fun value c => 10 * value + (c.toNat - 48)) value)) ∨
    ((scanUlonglongFrom value text).1 < (text.takeWhile isDigit).length) := by
  induction text generalizing value with
  | nil => exact .inl rfl
  | cons c text ih =>
    cases digit : isDigit c with
    | false => exact .inl (by simp [scanUlonglongFrom, digit])
    | true =>
      rw [List.takeWhile_cons_of_pos digit, scanUlonglongFrom]
      by_cases fits : 10 * value + (c.toNat - 48) < 2 ^ 64
      · rw [if_pos ⟨digit, fits⟩]
        rcases ih (10 * value + (c.toNat - 48)) with whole | early
        · exact .inl (by rw [whole]; rfl)
        · exact .inr (by simpa using early)
      · rw [if_neg (fun both => fits both.2)]
        exact .inr (by simp)

private theorem scanUlonglongFrom_lt {value : Nat} (small : value < 2 ^ 64) (text : Bytes) :
    (scanUlonglongFrom value text).2 < 2 ^ 64 := by
  induction text generalizing value with
  | nil => exact small
  | cons c text ih =>
    rw [scanUlonglongFrom]
    split
    next more => exact ih more.2
    next => exact small

theorem scanUlonglong_lt (text : Bytes) : (scanUlonglong text).2 < 2 ^ 64 :=
  scanUlonglongFrom_lt (by norm_num) text

theorem scanUlonglong_none : (scanUlonglong text).1 = 0 ↔ text.takeWhile isDigit = [] := by
  cases text with
  | nil => simp [scanUlonglong, scanUlonglongFrom]
  | cons c text =>
    rw [scanUlonglong, scanUlonglongFrom]
    cases digit : isDigit c with
    | false => simp [digit]
    | true =>
      have small := c.toNat_lt
      rw [if_pos ⟨rfl, by omega⟩, List.takeWhile_cons_of_pos digit]
      simp

private theorem getElem?_prefix {short long : Bytes} (isPrefix : short <+: long) {i : Nat} (inside : i < short.length) :
    long[i]? = short[i]? := by
  obtain ⟨rest, rfl⟩ := isPrefix
  exact List.getElem?_append_left inside

theorem scanUlonglong_whole {text : Bytes} (stopped : isDigit (text.getD (scanUlonglong text).1 0) = false) :
    scanUlonglong text = ((text.takeWhile isDigit).length, parseDecimal (text.takeWhile isDigit)) := by
  rcases scanUlonglongFrom_cases text 0 with whole | early
  · exact whole
  · change (scanUlonglong text).1 < _ at early
    have member : (text.takeWhile isDigit)[(scanUlonglong text).1] ∈ text.takeWhile isDigit := List.getElem_mem early
    have digit := List.mem_takeWhile_imp member
    have same : text.getD (scanUlonglong text).1 0 = (text.takeWhile isDigit)[(scanUlonglong text).1] := by
      have inside : text[(scanUlonglong text).1]? = (text.takeWhile isDigit)[(scanUlonglong text).1]? :=
        getElem?_prefix (List.takeWhile_prefix isDigit) early
      rw [List.getD_eq_getElem?_getD, inside, List.getElem?_eq_getElem early, Option.getD_some]
    rw [← same, stopped] at digit
    exact absurd digit (by decide)

end Scanning

section Reading
variable {front digits base downCount rest tail stale left : Bytes}

private theorem takeWhile_digits (all : ∀ c ∈ base, isDigit c = true) (other : ∀ c ∈ tail.head?, isDigit c = false) :
    (base ++ tail).takeWhile isDigit = base := by
  rw [List.takeWhile_append_of_pos all]
  cases tail with
  | nil => simp
  | cons c tail => rw [List.takeWhile_cons_of_neg (by simp [other c rfl]), List.append_nil]

theorem scanNumbers_text (length : front.length = 40) (some : base ≠ []) (all : ∀ c ∈ base, isDigit c = true)
    (fits : parseDecimal base < 2 ^ 64) (more : (scanUlonglong tail).1 ≠ 0) :
    scanNumbers (front ++ 58 :: (base ++ 58 :: tail)) = Option.some (parseDecimal base, (scanUlonglong tail).2) := by
  obtain ⟨first, behind⟩ := colon_behind front (base ++ 58 :: tail) length
  obtain ⟨second, behindBase⟩ := colon_behind (front ++ 58 :: base) tail
    (show (front ++ 58 :: base).length = 41 + base.length by simp [length]; omega)
  simp only [List.append_assoc, List.cons_append] at second behindBase
  have digits : (base ++ 58 :: tail).takeWhile isDigit = base := takeWhile_digits all (by simp [isDigit])
  have scanned : scanUlonglong (base ++ 58 :: tail) = (base.length, parseDecimal base) := by
    rw [scanUlonglong_fits (by rw [digits]; exact fits), digits]
  simp only [scanNumbers, first, behind, scanned, second, behindBase, more, ne_eq, not_true_eq_false, if_false,
    List.length_eq_zero_iff, some]

private theorem colon_at {n : Nat} (here : text.getD n 0 = 58) : text.drop n = 58 :: text.drop (n + 1) := by
  rw [List.getD_eq_getElem?_getD] at here
  cases found : text[n]? with
  | none =>
    rw [found] at here
    exact absurd here (by decide)
  | some c =>
    obtain ⟨inside, rfl⟩ := List.getElem?_eq_some_iff.mp found
    rw [List.drop_eq_getElem_cons inside, ← here, found, Option.getD_some]

/-- The tests behind the hash look for the numbers at their place. -/
theorem scanNumbers_iff : scanNumbers inbuf ≠ none ↔ Numbered inbuf := by
  constructor
  · intro passes
    unfold scanNumbers at passes
    split_ifs at passes with colon base second downCount
    iterate 4 exact absurd rfl passes
    have first := colon_at (not_not.mp colon)
    have later := colon_at (not_not.mp second)
    -- The first number ends at the second colon, so all of its digits were scanned.
    have stop : (inbuf.drop 41).getD (scanUlonglong (inbuf.drop 41)).1 0 = 58 := by
      rw [List.getD_eq_getElem?_getD, List.getElem?_drop, ← List.getD_eq_getElem?_getD]
      exact not_not.mp second
    have whole := @scanUlonglong_whole (inbuf.drop 41) (by rw [stop]; decide)
    have taken := List.prefix_iff_eq_take.mp (List.takeWhile_prefix (l := inbuf.drop 41) isDigit)
    have number := scanUlonglong_lt (inbuf.drop 41)
    rw [whole] at later number downCount
    cases digits : inbuf.drop (41 + ((inbuf.drop 41).takeWhile isDigit).length + 1) with
    | nil =>
      rw [digits] at downCount
      exact absurd rfl downCount
    | cons digit rest =>
      refine ⟨(inbuf.drop 41).takeWhile isDigit, digit, rest, ?_, scanUlonglong_none.not.mp base,
        fun c member => List.mem_takeWhile_imp member, number, ?_⟩
      · have parts := List.take_append_drop ((inbuf.drop 41).takeWhile isDigit).length (inbuf.drop 41)
        rw [← taken, List.drop_drop, later, digits] at parts
        rw [first, parts]
      · rw [digits] at downCount
        by_contra other
        exact downCount (scanUlonglong_none.mpr (List.takeWhile_cons_of_neg other))
  · rintro ⟨base, digit, rest, split, some, all, fits, last⟩
    have long : 40 ≤ inbuf.length := by
      by_contra short
      rw [List.drop_eq_nil_of_le (by omega)] at split
      cases split
    have more : (scanUlonglong (digit :: rest)).1 ≠ 0 := by
      rw [ne_eq, scanUlonglong_none, List.takeWhile_cons_of_pos last]
      exact List.cons_ne_nil _ _
    rw [← List.take_append_drop 40 inbuf, split, scanNumbers_text (by simp [long]) some all fits more]
    exact Option.some_ne_none _

private theorem before_nul (same : text ++ 0 :: stale = front ++ rest) (plain : 0 ∉ front) : ∃ more, text = front ++ more := by
  rcases List.append_eq_append_iff.mp same with ⟨more, rfl, here⟩ | ⟨more, rfl, -⟩
  · cases more with
    | nil => exact ⟨[], by simp⟩
    | cons c more =>
      cases here
      exact absurd (by simp) plain
  · exact ⟨more, rfl⟩

theorem numbered_buffer : Numbered (line ++ 0 :: left.drop (line.length + 1)) ↔ Numbered line ∨ line.length < 40 ∧ Numbered left := by
  by_cases short : line.length < 40
  · have same : (line ++ 0 :: left.drop (line.length + 1)).drop 40 = left.drop 40 := by
      rw [List.append_cons, List.drop_append, List.drop_eq_nil_of_le (by simp; omega), List.nil_append, List.drop_drop]
      congr 1
      simp
      omega
    have none : line.drop 40 = [] := List.drop_eq_nil_of_le short.le
    simp [Numbered, same, none, short]
  · have cut : (line ++ 0 :: left.drop (line.length + 1)).drop 40 = line.drop 40 ++ 0 :: left.drop (line.length + 1) :=
      List.drop_append_of_le_length (not_lt.mp short)
    simp only [short, false_and, or_false, Numbered, cut]
    constructor
    · rintro ⟨base, digit, rest, split, some, all, fits, last⟩
      have plain : 0 ∉ 58 :: (base ++ [58, digit]) := by
        have zero : isDigit 0 = false := by decide
        simp only [List.mem_cons, List.mem_append, List.not_mem_nil, or_false, not_or]
        exact ⟨by decide, fun member => by simp [all 0 member] at zero, by decide, by rintro rfl; simp [last] at zero⟩
      have same : line.drop 40 ++ 0 :: left.drop (line.length + 1) = 58 :: (base ++ [58, digit]) ++ rest := by simp [split]
      obtain ⟨more, here⟩ := before_nul same plain
      exact ⟨base, digit, more, by rw [here]; simp, some, all, fits, last⟩
    · rintro ⟨base, digit, rest, split, facts⟩
      exact ⟨base, digit, rest ++ 0 :: left.drop (line.length + 1), by rw [split]; simp, facts⟩

private theorem scanHash_digits (length : digits.length = 40) (all : ∀ c ∈ digits, isXdigit c = true) (tail : Bytes)
    (infohash : Hash) : scanHash (digits ++ tail) infohash = hexBytes digits := by
  have small : ∀ c, scanFromhex c < 16 := forall_byte (by decide +kernel)
  ext i bound
  have here : ∀ j, j < 40 → (digits ++ tail).getD j 0 = digits.getD j 0 ∧ 0 ≤ scanFromhex (digits.getD j 0) := by
    intro j inside
    have within : j < digits.length := by omega
    simp only [List.getD_eq_getElem?_getD, List.getElem?_append_left within, List.getElem?_eq_getElem within,
      Option.getD_some, true_and]
    simpa [isXdigit] using all _ (List.getElem_mem within)
  obtain ⟨first, high⟩ := here (2 * i) (by omega)
  obtain ⟨second, low⟩ := here (2 * i + 1) (by omega)
  have highSmall := small (digits.getD (2 * i) 0)
  have lowSmall := small (digits.getD (2 * i + 1) 0)
  simp only [scanHash, hexBytes, Vector.getElem_ofFn, Nat.add_comm 1, first, second]
  rw [if_neg (by omega), Int.emod_eq_of_lt (by omega) (by omega)]

theorem loaded_inbuf (line inbuf : Bytes) (infohash : Hash) :
    (loaded line inbuf infohash).inbuf = line ++ 0 :: inbuf.drop (line.length + 1) := by
  simp [loaded, overwrite]

theorem savedCall_of_describes {call : SavedCall} (describes : Describes line call)
    (baseFits : call.base < 2 ^ 63) (downFits : call.downCount < 2 ^ 64) (inbuf : Bytes) (infohash : Hash) :
    savedCall (loaded line inbuf infohash).inbuf (loaded line inbuf infohash).infohash = some call := by
  obtain ⟨digits, base, downCount, rest, split, length, xdigits, baseSome, baseDigits, downSome, downDigits, ends, rfl⟩ :=
    describes.parts
  subst split
  dsimp only at baseFits downFits
  obtain ⟨stale, buffer⟩ : ∃ stale, (loaded (digits ++ 58 :: (base ++ 58 :: (downCount ++ rest))) inbuf infohash).inbuf =
      digits ++ 58 :: (base ++ 58 :: (downCount ++ (rest ++ 0 :: stale))) :=
    ⟨_, by rw [loaded_inbuf]; simp only [List.append_assoc, List.cons_append]; rfl⟩
  have hash : (loaded (digits ++ 58 :: (base ++ 58 :: (downCount ++ rest))) inbuf infohash).infohash = hexBytes digits := by
    change scanHash (loaded _ inbuf infohash).inbuf infohash = _
    rw [buffer]
    exact scanHash_digits length xdigits _ infohash
  have downScan : (downCount ++ (rest ++ 0 :: stale)).takeWhile isDigit = downCount := by
    apply takeWhile_digits downDigits
    cases rest with
    | nil => simp [isDigit]
    | cons c rest => simpa using ends
  have scannedDown : scanUlonglong (downCount ++ (rest ++ 0 :: stale)) = (downCount.length, parseDecimal downCount) := by
    rw [scanUlonglong_fits (by rw [downScan]; exact downFits), downScan]
  have more : (scanUlonglong (downCount ++ (rest ++ 0 :: stale))).1 ≠ 0 := by simpa [scannedDown] using downSome
  have time : toTime (parseDecimal base) = parseDecimal base := Int.bmod_eq_of_le (by omega) (by omega)
  rw [hash, savedCall, buffer, scanNumbers_text length baseSome baseDigits (by omega) more, scannedDown, Option.map_some, time]

theorem describes_of_numbered (numbered : Numbered line) (hash : ∀ c ∈ line.take 40, isXdigit c = true) :
    ∃ call, Describes line call := by
  obtain ⟨base, digit, rest, split, some, all, -, last⟩ := numbered
  have long : 40 ≤ line.length := by
    by_contra short
    rw [List.drop_eq_nil_of_le (by omega)] at split
    cases split
  refine ⟨⟨hexBytes (line.take 40), parseDecimal base, parseDecimal ((digit :: rest).takeWhile isDigit)⟩,
    ⟨line.take 40, base, (digit :: rest).takeWhile isDigit, (digit :: rest).dropWhile isDigit, ?_, by simp [long], hash, some, all,
      by simp [last], fun c member => List.mem_takeWhile_imp member, ?_, rfl⟩⟩
  · rw [List.takeWhile_append_dropWhile, ← split, List.take_append_drop]
  · intro c first
    have other := List.head?_dropWhile_not isDigit (digit :: rest)
    rw [Option.mem_def.mp first] at other
    exact other

end Reading

section Files

theorem fgets_append (room : Nat) (file : Bytes) : (fgets room file).1 ++ (fgets room file).2 = file := by
  induction room generalizing file with
  | zero => rfl
  | succ room ih =>
    cases file with
    | nil => rfl
    | cons c file =>
      rw [fgets]
      split
      · rfl
      · exact congrArg (List.cons c) (ih file)

theorem fgets_none {room : Nat} (nothing : (fgets (room + 1) file).1 = []) : file = [] := by
  cases file with
  | nil => rfl
  | cons c file =>
    rw [fgets] at nothing
    split at nothing <;> exact absurd nothing (by simp)

private theorem loadedLines_whole (enough : file.length < fuel) (inbuf : Bytes)
    (infohash : Hash) : (loadedLines fuel file inbuf infohash).flatMap LoadedLine.line = file := by
  induction fuel generalizing file inbuf infohash with
  | zero => omega
  | succ fuel ih =>
    have parts := fgets_append 511 file
    rw [loadedLines]
    split
    next nothing => rw [fgets_none nothing, List.flatMap_nil]
    next something =>
      have positive : 0 < (fgets 511 file).1.length := List.length_pos_iff.mpr something
      have lengths := congrArg List.length parts
      rw [List.length_append] at lengths
      rw [List.flatMap_cons, ih (by omega)]
      exact parts

private theorem loadedLines_left {earlier later : List LoadedLine} {now : LoadedLine}
    (lines : loadedLines fuel file inbuf infohash = earlier ++ now :: later) :
    ∃ hash, now = loaded now.line (leftBy inbuf (earlier.map LoadedLine.line)) hash := by
  induction earlier generalizing fuel file inbuf infohash with
  | nil =>
    cases fuel with
    | zero => cases lines
    | succ fuel =>
      rw [loadedLines] at lines
      split at lines <;> cases lines
      exact ⟨infohash, rfl⟩
  | cons first earlier ih =>
    cases fuel with
    | zero => cases lines
    | succ fuel =>
      rw [loadedLines] at lines
      split at lines
      · cases lines
      · obtain ⟨head, behind⟩ := List.cons.inj lines
        obtain ⟨hash, here⟩ := ih behind
        rw [loaded_inbuf] at here
        exact ⟨hash, by rw [here, ← head]; rfl⟩

private theorem time_lt (value : Nat) : toTime value < 2 ^ 63 := by
  have below : toTime value < ((2 ^ 64 : Nat) + 1 : Int) / 2 := Int.bmod_lt (by norm_num)
  norm_num at below ⊢
  exact below

/-- A line is treated as it should be exactly when it is `Readable`. -/
private theorem line_iff (line left : Bytes) (infohash : Hash) :
    (∀ call, savedCall (loaded line left infohash).inbuf (loaded line left infohash).infohash = some call ↔
      Describes line call) ↔ Readable left line := by
  have passes : savedCall (loaded line left infohash).inbuf (loaded line left infohash).infohash ≠ none ↔
      Numbered line ∨ line.length < 40 ∧ Numbered left := by
    rw [← numbered_buffer, ← loaded_inbuf line left infohash, ← scanNumbers_iff, savedCall, ne_eq, Option.map_eq_none_iff]
  constructor
  · intro right
    have described : Numbered line ∨ line.length < 40 ∧ Numbered left → ∃ call, Describes line call := fun numbered => by
      obtain ⟨call, made⟩ := Option.ne_none_iff_exists'.mp (passes.mpr numbered)
      exact ⟨call, (right call).mp made⟩
    refine ⟨fun numbered => ?_, fun short numbered => ?_, fun call describes => ?_⟩
    · obtain ⟨call, ⟨digits, _, _, _, split, length, xdigits, _⟩⟩ := described (.inl numbered)
      rwa [split, ← length, List.take_left]
    · obtain ⟨call, ⟨digits, _, _, _, split, length, _⟩⟩ := described (.inr ⟨short, numbered⟩)
      rw [split, List.length_append] at short
      omega
    · have made := (right call).mpr describes
      rw [savedCall, Option.map_eq_some_iff] at made
      obtain ⟨numbers, scanned, rfl⟩ := made
      have time := time_lt numbers.1
      dsimp only
      refine ⟨time, ?_⟩
      unfold scanNumbers at scanned
      split_ifs at scanned
      obtain rfl := Option.some.inj scanned
      exact scanUlonglong_lt _
  · intro ⟨hash, short, fits⟩ call
    constructor
    · intro made
      have numbered := (passes.mp (by simp [made])).resolve_right fun ⟨few, numbered⟩ => short few numbered
      obtain ⟨described, describes⟩ := describes_of_numbered numbered (hash numbered)
      obtain ⟨baseFits, downFits⟩ := fits described describes
      rw [savedCall_of_describes describes baseFits downFits] at made
      obtain rfl := Option.some.inj made
      exact describes
    · intro describes
      obtain ⟨baseFits, downFits⟩ := fits call describes
      exact savedCall_of_describes describes baseFits downFits left infohash

/-- `load_state` makes the calls of the lines of its file and no others. They are the right ones, for
lines of the documented form and for no others, exactly when every line is `Readable` after the ones before it. -/
theorem loadState_reads (file inbuf : Bytes) (infohash : Hash) :
    (fileLines file inbuf infohash).flatMap LoadedLine.line = file ∧
    (∀ heaps tracker, loadState file heaps inbuf infohash tracker = performAll heaps tracker (savedCalls file inbuf infohash)) ∧
    ((∀ now ∈ fileLines file inbuf infohash, ∀ call, savedCall now.inbuf now.infohash = some call ↔ Describes now.line call) ↔
      ∀ earlier line later, (fileLines file inbuf infohash).map LoadedLine.line = earlier ++ line :: later →
        Readable (leftBy inbuf earlier) line) := by
  refine ⟨loadedLines_whole (by omega) inbuf infohash, fun heaps tracker => loadState_calls file heaps inbuf infohash tracker, ?_⟩
  have read : ∀ {earlier now later}, fileLines file inbuf infohash = earlier ++ now :: later →
      ((∀ call, savedCall now.inbuf now.infohash = some call ↔ Describes now.line call) ↔
        Readable (leftBy inbuf (earlier.map LoadedLine.line)) now.line) := by
    intro earlier now later lines
    obtain ⟨hash, here⟩ := loadedLines_left lines
    have known := line_iff now.line (leftBy inbuf (earlier.map LoadedLine.line)) hash
    rwa [← here] at known
  constructor
  · intro right earlier line later lines
    obtain ⟨before, rest, split, rfl, behind⟩ := List.map_eq_append_iff.mp lines
    obtain ⟨now, after, rfl, rfl, -⟩ := List.map_eq_cons_iff.mp behind
    exact (read split).mp (right now (by rw [split]; simp))
  · intro readable now member
    obtain ⟨before, after, split⟩ := List.append_of_mem member
    exact (read split).mpr (readable _ _ _ (by rw [split, List.map_append, List.map_cons]))

def brokenLine : Bytes := ascii "zz" ++ List.replicate 38 48 ++ ascii ":1:2\n"

/-- The broken line is read, with the byte that an earlier line has left in `infohash`. -/
theorem broken_line_read : savedCalls brokenLine (List.replicate 512 0) (Vector.replicate 20 7) =
      [some ⟨Vector.ofFn fun i => if i.val = 0 then 7 else 0, 1, 2⟩] ∧
    ¬ ∃ call, Describes brokenLine call := by
  refine ⟨by decide +kernel, ?_⟩
  intro ⟨call, describes⟩
  obtain ⟨digits, _, _, _, split, length, xdigits, _⟩ := describes.parts
  cases digits with
  | nil => simp at length
  | cons c digits =>
    have first : c = 122 := by
      have heads := congrArg List.head? split
      rw [List.cons_append, List.head?_cons, show brokenLine.head? = some 122 by decide +kernel] at heads
      exact (Option.some.inj heads).symm
    have digit := xdigits c (by simp)
    rw [first] at digit
    exact absurd digit (by decide)

end Files

end BtServer.Proofs.StateLines

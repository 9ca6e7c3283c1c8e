import BtServer.Lib.Text
import Mathlib.Data.List.TakeWhile

/-! The scanner for query strings, `scan_urlencoded_query.c`. It decodes in place, but
never writes beyond what it has read, so a scan is a function of the text that is
left. The text always has a terminator; beyond its end a zero byte is read. -/

namespace BtServer
open Lib

inductive ScanFlag where
  | path
  | param
  | value
deriving DecidableEq, Repr

def ScanFlag.bit : ScanFlag → Nat
  | .path => 1
  | .param => 2
  | .value => 4

def scanTerminator : Nat := 8

def unreservedTable : List Nat :=
  [8,0,0,0,0,0,0,0,0,0,8,0,0,8,0,0,0,0,0,0,0,0,0,0,0,0,0,0,0,0,0,0,
   8,7,8,8,8,7,0,7,7,7,7,7,7,7,7,7,7,7,7,7,7,7,7,7,7,7,7,7,7,4,7,6,
   4,7,7,7,7,7,7,7,7,7,7,7,7,7,7,7,7,7,7,7,7,7,7,7,7,7,7,8,8,8,8,7,
   8,7,7,7,7,7,7,7,7,7,7,7,7,7,7,7,7,7,7,7,7,7,7,7,7,7,7,8,8,8,7,0]

def isUnreserved (c : UInt8) : Nat := unreservedTable.getD c.toNat 0

def ScanFlag.accepts (flag : ScanFlag) (c : UInt8) : Bool := isUnreserved c &&& flag.bit != 0

/-- `fromhex`, on unsigned characters; 0xff is no digit. -/
def fromhex (x : UInt8) : UInt8 :=
  let x := x - 48
  if x ≤ 9 then x
  else
    let x := (x &&& 0xdf) - 17
    if x < 6 then x + 10 else 0xff

def scanUrlencodedSkipvalue : Bytes → Bytes
  | [] => []
  | c :: s =>
    if ScanFlag.value.accepts c then scanUrlencodedSkipvalue s
    else if isUnreserved c &&& scanTerminator != 0 then c :: s else s

/-- What a scan returns: -1, -2, or the decoded characters and the next position. -/
inductive Scanned where
  | error
  | terminator
  | text (decoded rest : Bytes)
deriving DecidableEq, Repr

def scanStop (flag : ScanFlag) (decoded : Bytes) (c : UInt8) (s : Bytes) : Scanned :=
  if c = 0 ∨ c = 13 ∨ c = 10 ∨ c = 32 then
    if decoded = [] then .terminator else .text decoded (c :: s)
  else if c = 63 then
    if flag ≠ .path then .error else .text decoded s
  else if c = 61 then
    if flag ≠ .param then .error else .text decoded s
  else if c = 38 then
    if flag = .path then .error
    else if flag = .param then .text decoded (c :: s)
    else .text decoded s
  else .error

def scanFrom (flag : ScanFlag) (decoded : Bytes) : Bytes → Scanned
  | [] => scanStop flag decoded 0 []
  | c :: s =>
    if flag.accepts c then
      if c = 37 then
        match s with
        | high :: low :: s =>
          if fromhex high = 0xff then .error
          else if fromhex low = 0xff then .error
          else scanFrom flag (decoded ++ [fromhex low ||| fromhex high <<< 4]) s
        | _ => .error
      else scanFrom flag (decoded ++ [c]) s
    else scanStop flag decoded c s

def scanUrlencodedQuery (flag : ScanFlag) (string : Bytes) : Scanned := scanFrom flag [] string

/-- What `scan_find_keywords` returns: -1, -2, -3, or the value of a keyword. -/
inductive Keyword (κ : Type) where
  | error
  | terminator
  | unknown
  | found (key : κ)
deriving DecidableEq, Repr

structure CString where
  chars : Bytes
  plain : 0 ∉ chars

theorem notMem_takeWhile (chars : Bytes) : 0 ∉ chars.takeWhile (· != 0) := by
  intro member
  simpa using List.mem_takeWhile_imp member

/-- What C makes of a string literal. -/
def cString (literal : String) : CString := ⟨(ascii literal).takeWhile (· != 0), notMem_takeWhile _⟩

/-- Whether `strncmp` finds a string, given with its NUL, equal to the bytes of a text. -/
def strncmpEqual : Bytes → Bytes → Bool
  | _, [] => true
  | [], _ :: _ => false
  | k :: key, c :: text => if k ≠ c then false else if k = 0 then true else strncmpEqual key text

/-- What stands in memory behind the NUL of a string literal. -/
abbrev Literals := CString → Nat → UInt8

/-- The condition of `scan_find_keywords` for a keyword: a token with a NUL in it may make it look
behind the keyword. -/
def CString.takenFor (literals : Literals) (key : CString) (token : Bytes) : Bool :=
  strncmpEqual (key.chars ++ [0]) token && (key.chars ++ [0])[token.length]?.getD (literals key token.length) == 0

/-- `scan_find_keywords`, and the next position. -/
def scanFindKeywords {κ : Type} (literals : Literals) (keywords : List (String × κ)) (flag : ScanFlag) (string : Bytes) :
    Keyword κ × Bytes :=
  match scanUrlencodedQuery flag string with
  | .error => (.error, string)
  | .terminator => (.terminator, string)
  | .text decoded rest =>
    if decoded = [] then (.unknown, rest)
    else match keywords.find? fun keyword => (cString keyword.1).takenFor literals decoded with
      | none => (.unknown, rest)
      | some keyword => (.found keyword.2, rest)

/-- The digits of `scan_fixed_int`: the number, an `int`, and what is left. -/
def scanDigits : Int32 → Bytes → Int32 × Bytes
  | tmp, [] => (tmp, [])
  | tmp, c :: data =>
    if 48 ≤ c ∧ c ≤ 57 then scanDigits (10 * tmp + (Int32.ofNat c.toNat - 48)) data else (tmp, c :: data)

/-- `scan_fixed_int`: the number and how many characters are not part of it. -/
def scanFixedInt (data : Bytes) : Int32 × Nat :=
  match data with
  | 45 :: data =>
    let (tmp, rest) := scanDigits 0 data
    (-tmp, rest.length)
  | data =>
    let (tmp, rest) := scanDigits 0 data
    (tmp, rest.length)

end BtServer

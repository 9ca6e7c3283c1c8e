import BtServer.Announce

/-! The table of networks of `ot_accesslist.c`: a vector of members that begin with an
`ot_net`, found by an address inside it. `char` is signed, as it is on the x64 target
of the Makefile. A pointer into the vector is an offset in bytes into its block. -/

namespace BtServer
open Lib

structure OtNet where
  address : Ip6
  bits : Nat
deriving DecidableEq, Repr

def sizeofOtNet : Nat := 16 + 4

def OtNet.bytes (net : OtNet) : Bytes := net.address.toList ++ toLittleEndian 4 net.bits

def charInt (c : UInt8) : Int := if c.toNat < 128 then c.toNat else (c.toNat : Int) - 256

/-- `( ( 0x7f00 >> shift ) & c )` for a `char` that is promoted to `int`. -/
def maskChar (shift : Nat) (c : UInt8) : Int := ((charInt c % 2 ^ 32).toNat &&& (0x7f00 >>> shift) : Nat)

def addressInNet (address : Ip6) (net : OtNet) : Bool :=
  let whole := net.bits / 8
  let result := memcmp (address.toList.take whole) (net.address.toList.take whole)
  let result :=
    if result = 0 ∧ net.bits % 8 ≠ 0 then
      maskChar (net.bits % 8) (address.toList.getD whole 0) - charInt (net.address.toList.getD whole 0)
    else result
  result = 0

/-- `struct { ot_net net, uint8_t[x] value }`. -/
structure NetMember where
  net : OtNet
  value : Bytes
deriving DecidableEq, Repr

def NetMember.bytes (member : NetMember) : Bytes := member.net.bytes ++ member.value

/-- `set_value_for_net`: the vector it leaves and the position of the new member. -/
def setValueForNet (heap : Heap) (net : OtNet) (vector : OtVector NetMember) (value : Bytes) (memberSize : Nat) :
    OtVector NetMember × Option Nat :=
  if memberSize < sizeofOtNet then (vector, none)
  else if vector.data.any fun member => addressInNet member.net.address net || addressInNet net.address member.net then
    (vector, none)
  else match vectorFindOrInsert heap vector ⟨net, []⟩ fun member => member.net.bytes with
    | (_, none) => (vector, none)
    | (_, some (vector, position, _)) =>
      (⟨vector.data.set position ⟨net, (readBytes (memberSize - sizeofOtNet) value 0).toList⟩, vector.space⟩, some position)

def netAt (block : Bytes) (offset : Nat) : OtNet :=
  ⟨readBytes 16 block offset, littleEndian (readBytes 4 block (offset + 16)).toList⟩

/-- `get_value_for_net`: the offset it returns a pointer to. `--net` moves back by the
size of an `ot_net`, whatever the size of a member. -/
def getValueForNet (address : Ip6) (vector : OtVector NetMember) (memberSize : Nat) : Option Nat :=
  if vector.space = 0 then none
  else
    let (position, exactmatch) := binarySearch address.toList (fun member => member.net.address.toList) vector.data
    let net := position * memberSize
    let net := if exactmatch = 0 ∧ net > 0 then net - sizeofOtNet else net
    if addressInNet address (netAt (vector.data.flatMap NetMember.bytes) net) then some net else none

structure NetCall where
  net : OtNet
  value : Bytes
  heap : Heap

def NetStep (memberSize : Nat) (before : OtVector NetMember) (call : NetCall) (after : OtVector NetMember) : Prop :=
  (setValueForNet call.heap call.net before call.value memberSize).1 = after

instance (memberSize : Nat) (before : OtVector NetMember) (call : NetCall) (after : OtVector NetMember) :
    Decidable (NetStep memberSize before call after) :=
  inferInstanceAs (Decidable (_ = after))

end BtServer

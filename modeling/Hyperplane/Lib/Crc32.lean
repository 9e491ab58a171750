import Mathlib.Data.List.Basic

/-! The cyclic redundancy check of 32 bits, a bit at a time and lowest bit first. -/
namespace Crc32

def shift (crc : UInt32) : UInt32 :=
  if crc &&& 1 = 1 then (crc >>> 1) ^^^ 0xEDB88320 else crc >>> 1

def shifts : Nat → UInt32 → UInt32
  | 0, crc => crc
  | n + 1, crc => shifts n (shift crc)

def update (crc : UInt32) (b : UInt8) : UInt32 := shifts 8 (crc ^^^ b.toUInt32)

def hash (bs : List UInt8) : UInt32 := bs.foldl update 0xFFFFFFFF ^^^ 0xFFFFFFFF

/-- The check value: the digits from one to nine. -/
example : hash [49, 50, 51, 52, 53, 54, 55, 56, 57] = 0xCBF43926 := by decide +kernel

end Crc32

import PrivateAirdrop.Library.Format

/-! # Values the programs handle

Fixed-size arrays are vectors and `u128` is `BitVec 128`, whose addition wraps.
SHA-256 is an arbitrary function from byte strings to 32 bytes, passed to every
definition that hashes; nothing here depends on what it computes.
-/

namespace PrivateAirdrop

open Library

abbrev Bytes32 := Vector UInt8 32
abbrev ProgramId := Vector UInt32 8
abbrev AccountId := Bytes32
abbrev U128 := BitVec 128

abbrev Sha256 := List UInt8 → Bytes32

/-- A stand-in for SHA-256 that tells byte strings below 256 bytes apart by length. -/
def lengthHash : Sha256 := fun bytes => Vector.replicate 32 (UInt8.ofNat bytes.length)

/-- A stand-in for SHA-256 that keeps the first 32 bytes. -/
def headHash : Sha256 := fun bytes => Vector.ofFn fun i => bytes.getD i.val 0

/-- The streaming interface of SHA-256: what has been fed to it so far. -/
structure Hasher where
  fed : List UInt8

namespace Hasher

def new : Hasher := ⟨[]⟩

def update (h : Hasher) (data : List UInt8) : Hasher := ⟨h.fed ++ data⟩

def finalize (h : Hasher) (H : Sha256) : Bytes32 := H h.fed

end Hasher

def byteRadix : Radix UInt8 where
  base := 256
  digit := UInt8.ofNat
  value := UInt8.toNat
  value_lt := UInt8.toNat_lt
  value_digit := fun n => by simp
  digit_value := fun _ => UInt8.ofNat_toNat

def wordRadix : Radix UInt32 where
  base := 2 ^ 32
  digit := UInt32.ofNat
  value := UInt32.toNat
  value_lt := UInt32.toNat_lt
  value_digit := fun n => by simp
  digit_value := fun _ => UInt32.ofNat_toNat

def U128.toLeBytes (v : U128) : List UInt8 := byteRadix.write 16 v.toNat

def U32.toLeBytes (v : UInt32) : List UInt8 := byteRadix.write 4 v.toNat

@[simp] theorem U128.toLeBytes_length (v : U128) : (U128.toLeBytes v).length = 16 :=
  byteRadix.write_length ..

@[simp] theorem U32.toLeBytes_length (v : UInt32) : (U32.toLeBytes v).length = 4 :=
  byteRadix.write_length ..

theorem Bytes32.toList_injective {a b : Bytes32} (h : a.toList = b.toList) : a = b :=
  Vector.toList_inj.mp h

end PrivateAirdrop

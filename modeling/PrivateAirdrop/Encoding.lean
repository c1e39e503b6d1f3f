import PrivateAirdrop.Primitives

/-! # The two wire formats

Borsh writes account data and journals as bytes; risc0 serde writes instructions
as 32-bit words. Both write integers with the least significant part first and
sequences as a length and the items. They differ in the unit: a byte of a
journal takes a whole word inside an instruction.
-/

namespace PrivateAirdrop

open Library

namespace Borsh

def u32 : Format UInt8 UInt32 :=
  (byteRadix.little 4).via UInt32.toNat (fun n => some (UInt32.ofNat n))
    (fun _ => congrArg some UInt32.ofNat_toNat)
    (by
      intro n b ts writes back
      obtain ⟨small, -⟩ := byteRadix.little_encode_iff.mp writes
      cases back
      exact Nat.mod_eq_of_lt small)

def u128 : Format UInt8 U128 :=
  (byteRadix.little 16).via BitVec.toNat (fun n => some (BitVec.ofNat 128 n))
    (fun v => by simp)
    (by
      intro n b ts writes back
      obtain ⟨small, -⟩ := byteRadix.little_encode_iff.mp writes
      cases back
      exact Nat.mod_eq_of_lt small)

def bytes32 : Format UInt8 Bytes32 := Format.token.array 32

def programId : Format UInt8 ProgramId := u32.array 8

/-- `Vec<T>`: a `u32` count, then the items. -/
def vec {α : Type} (F : Format UInt8 α) : Format UInt8 (List α) := (byteRadix.little 4).prefixed F

@[simp] theorem u32_encode (v : UInt32) : u32.encode v = some (U32.toLeBytes v) :=
  byteRadix.little_encode (UInt32.toNat_lt v)

@[simp] theorem u128_encode (v : U128) : u128.encode v = some (U128.toLeBytes v) :=
  byteRadix.little_encode v.isLt

@[simp] theorem bytes32_encode (v : Bytes32) : bytes32.encode v = some v.toList :=
  Format.encodeItems_token _

@[simp] theorem programId_encode (p : ProgramId) :
    programId.encode p = some (p.toList.flatMap U32.toLeBytes) :=
  u32.encodeItems_of_total u32_encode _

theorem u128_fixed : u128.Fixed 16 := by
  refine (byteRadix.little_fixed 16).presented (fun _ => rfl) ?_
  intro ts n rest found
  simp [u128, Format.via, found]

theorem bytes32_fixed : bytes32.Fixed 32 := Format.Fixed.token.array 32

end Borsh

namespace Words

/-- A byte as a word; words above 255 are not bytes. -/
def u8 : Format UInt32 UInt8 :=
  Format.token.via UInt8.toUInt32 (fun w => if w.toNat < 256 then some w.toUInt8 else none)
    (fun b => by simpa using UInt8.toNat_lt b)
    (by
      intro w b ts _ back
      split at back
      · rename_i small
        cases back
        apply UInt32.toNat_inj.mp
        simpa using small
      · cases back)

def u32 : Format UInt32 UInt32 := Format.token

def u128 : Format UInt32 U128 :=
  (wordRadix.little 4).via BitVec.toNat (fun n => some (BitVec.ofNat 128 n))
    (fun v => by simp)
    (by
      intro n b ts writes back
      obtain ⟨small, -⟩ := wordRadix.little_encode_iff.mp writes
      cases back
      exact Nat.mod_eq_of_lt small)

def bytes32 : Format UInt32 Bytes32 := u8.array 32

def programId : Format UInt32 ProgramId := u32.array 8

/-- `Vec<T>`: a length word, then the items. -/
def vec {α : Type} (F : Format UInt32 α) : Format UInt32 (List α) :=
  (wordRadix.little 1).prefixed F

@[simp] theorem u8_encode (b : UInt8) : u8.encode b = some [b.toUInt32] := rfl

@[simp] theorem u32_encode (w : UInt32) : u32.encode w = some [w] := rfl

@[simp] theorem u128_encode (v : U128) : u128.encode v = some (wordRadix.write 4 v.toNat) :=
  wordRadix.little_encode v.isLt

theorem encodeItems_u8 (bs : List UInt8) : u8.encodeItems bs = some (bs.map UInt8.toUInt32) := by
  rw [u8.encodeItems_of_total u8_encode, List.map_eq_flatMap]

@[simp] theorem bytes32_encode (b : Bytes32) :
    bytes32.encode b = some (b.toList.map UInt8.toUInt32) := encodeItems_u8 _

@[simp] theorem programId_encode (p : ProgramId) : programId.encode p = some p.toList :=
  Format.encodeItems_token _

theorem length_encode {n : Nat} (small : n < 2 ^ 32) :
    (wordRadix.little 1).encode n = some [UInt32.ofNat n] :=
  wordRadix.little_encode (by simpa [wordRadix] using small)

end Words

end PrivateAirdrop

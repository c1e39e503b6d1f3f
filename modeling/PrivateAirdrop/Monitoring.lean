import PrivateAirdrop.Library.Text
import PrivateAirdrop.Distribution

/-! # What the scripts read of a distribution

`chain state` prints the data of an account in hexadecimal, and `nullifier_count`
takes the number of spent nullifiers from fixed offsets of what it printed. The
offsets are right for every state, since all that varies comes after them.
-/

namespace PrivateAirdrop

open Library
open Library.Alphabet (characters)

/-- What `chain state` prints of an account. -/
def chainState (data : List UInt8) (programOwner : ProgramId) : List Char :=
  let ownerHex := characters.hexEncode (programOwner.toList.flatMap U32.toLeBytes)
  "program_owner: ".toList ++ ownerHex ++ ['\n'] ++
    ("data (".toList ++ Nat.toDigits 10 data.length ++ " bytes): ".toList ++
      characters.hexEncode data ++ ['\n'])

namespace Python

/-- The whitespace that `bytes.fromhex` skips between bytes. -/
def isSpace (c : Char) : Bool := c.toNat = 32 ∨ (9 ≤ c.toNat ∧ c.toNat ≤ 13)

def fromhex : List Char → Option (List UInt8)
  | [] => some []
  | [h] => if isSpace h then some [] else none
  | h :: l :: rest =>
    if isSpace h then fromhex (l :: rest)
    else (Hex.value h.toNat).bind fun high => (Hex.value l.toNat).bind fun low =>
      (fromhex rest).map fun bytes => UInt8.ofNat (16 * high + low) :: bytes

/-- `int.from_bytes(b, "little")`. -/
def fromBytesLittle (b : List UInt8) : Nat := byteRadix.total b

theorem fromhex_eq {text : List Char} (plain : ∀ c ∈ text, isSpace c = false) :
    fromhex text = characters.hexDecode text := by
  fun_induction Alphabet.hexDecode characters text with
  | case1 => rfl
  | case2 c =>
      have solid := plain c List.mem_cons_self
      simp [fromhex, solid]
  | case3 h l rest ih =>
      have solid := plain h List.mem_cons_self
      rw [fromhex, solid, ih fun c later => plain c (.tail _ (.tail _ later))]
      rfl

theorem fromhex_hexEncode (data : List UInt8) :
    fromhex (characters.hexEncode data) = some data := by
  rw [fromhex_eq, characters.hexDecode_hexEncode]
  intro c member
  have code : characters.code c = c.toNat := rfl
  have digits := characters.code_of_mem_hexEncode member
  simp only [isSpace, decide_eq_false_iff_not]
  omega

end Python

/-- The script behind `chain state`: a line, a field of it, four bytes. Whatever
    goes wrong on the way prints -1. -/
def nullifierCount (stdout : List Char) : Int :=
  let count : Option Nat := do
    let lines := stdout.splitOn '\n'
    let line ← lines[1]?
    let data ← (splitAtText [':', ' '] 0 line)[1]?
    let b ← Python.fromhex data
    return Python.fromBytesLittle ((b.drop 96).take 4)
  match count with
  | some n => n
  | none => -1

namespace DistributionState

theorem toVec_layout {s : DistributionState} {bytes : List UInt8} (h : s.toVec = some bytes) :
    ∃ before after, bytes = before ++ (U128.toLeBytes s.claimed ++
        (byteRadix.write 4 s.spentNullifiers.length ++ after)) ∧ before.length = 80 := by
  rw [toVec, encode_eq] at h
  split at h
  · cases h
    refine ⟨s.merkleRoot.toList ++ (s.claimCircuitProgramId.toList.flatMap U32.toLeBytes ++
      U128.toLeBytes s.totalSupply), s.spentNullifiers.flatMap Vector.toList, ?_, ?_⟩
    · simp only [header, List.append_assoc]
    · have words : (s.claimCircuitProgramId.toList.flatMap U32.toLeBytes).length = 32 := by
        simp [List.length_flatMap]
      simp [words]
  · cases h

theorem claimed_at {s : DistributionState} {bytes : List UInt8} (h : s.toVec = some bytes) :
    (bytes.drop 80).take 16 = U128.toLeBytes s.claimed := by
  obtain ⟨before, after, rfl, size⟩ := toVec_layout h
  rw [← size, List.drop_left, List.take_left' (U128.toLeBytes_length _)]

theorem count_at {s : DistributionState} {bytes : List UInt8} (h : s.toVec = some bytes) :
    (bytes.drop 96).take 4 = byteRadix.write 4 s.spentNullifiers.length := by
  obtain ⟨before, after, rfl, size⟩ := toVec_layout h
  have offset : (before ++ U128.toLeBytes s.claimed).length = 96 := by
    rw [List.length_append, U128.toLeBytes_length, size]
  rw [← List.append_assoc, ← offset, List.drop_left, List.take_left' (byteRadix.write_length ..)]

end DistributionState

section Script

theorem not_mem_toDigits {c : Char} (n : Nat) (other : c.isDigit = false) :
    c ∉ Nat.toDigits 10 n := by
  intro member
  have digit := Nat.isDigit_of_mem_toDigits (by decide) (by decide) member
  rw [other] at digit
  cases digit

theorem chainState_lines (data : List UInt8) (owner : ProgramId) :
    ∃ first label, chainState data owner =
        first ++ '\n' :: (label ++ ([':', ' '] ++ characters.hexEncode data) ++ '\n' :: []) ∧
      '\n' ∉ first ∧ '\n' ∉ label ∧ ':' ∉ label := by
  refine ⟨"program_owner: ".toList ++ characters.hexEncode (owner.toList.flatMap U32.toLeBytes),
    "data (".toList ++ Nat.toDigits 10 data.length ++ " bytes)".toList, ?_, ?_, ?_, ?_⟩
  · have field : " bytes): ".toList = " bytes)".toList ++ [':', ' '] := by simp
    unfold chainState
    simp only [field, List.append_assoc, List.cons_append, List.nil_append]
  · have hex : '\n' ∉ characters.hexEncode (owner.toList.flatMap U32.toLeBytes) :=
      characters.not_mem_hexEncode (by decide)
    simp [hex]
  · simp [not_mem_toDigits]
  · simp [not_mem_toDigits]

/-- The script finds the data that `chain state` printed, whatever account it is. -/
theorem nullifierCount_chainState (data : List UInt8) (owner : ProgramId) :
    nullifierCount (chainState data owner) =
      Python.fromBytesLittle ((data.drop 96).take 4) := by
  obtain ⟨first, label, printed, firstLine, noNewline, noColon⟩ := chainState_lines data owner
  have newline : '\n' ∉ characters.hexEncode data := characters.not_mem_hexEncode (by decide)
  have colon : ':' ∉ characters.hexEncode data := characters.not_mem_hexEncode (by decide)
  have secondLine : '\n' ∉ label ++ ([':', ' '] ++ characters.hexEncode data) := by
    simp [noNewline, newline]
  have lines : (chainState data owner).splitOn '\n' =
      [first, label ++ ([':', ' '] ++ characters.hexEncode data), []] := by
    rw [printed, List.splitOn_append_cons_self_of_not_mem firstLine,
      List.splitOn_append_cons_self_of_not_mem secondLine, List.splitOn_nil]
  have fields : splitAtText [':', ' '] 0 (label ++ ([':', ' '] ++ characters.hexEncode data)) =
      [label, characters.hexEncode data] := by
    rw [splitAtText_first noColon, splitAtText_absent colon]
  simp only [nullifierCount, lines, fields, List.getElem?_cons_succ, List.getElem?_cons_zero,
    Option.bind_eq_bind, Option.bind_some, Python.fromhex_hexEncode, pure]

end Script

/-- The codec of the state is a bijection between states whose count fits and the
    strings it accepts, and every reader of fixed offsets reads what it means to. -/
theorem state_codec_layout :
    (∀ s : DistributionState, s.spentNullifiers.length < 2 ^ 32 →
      ∃ bytes, s.toVec = some bytes ∧ DistributionState.tryFromSlice bytes = some s) ∧
    (∀ bytes s, DistributionState.tryFromSlice bytes = some s ↔ s.toVec = some bytes) ∧
    ∀ (s : DistributionState) (bytes : List UInt8), s.toVec = some bytes →
      bytes.length = 100 + 32 * s.spentNullifiers.length ∧
      (bytes.drop 80).take 16 = U128.toLeBytes s.claimed ∧
      (bytes.drop 96).take 4 = U32.toLeBytes (UInt32.ofNat s.spentNullifiers.length) ∧
      ∀ owner, nullifierCount (chainState bytes owner) = s.spentNullifiers.length := by
  refine ⟨?_, ?_, ?_⟩
  · intro s fits
    obtain ⟨bytes, written⟩ := DistributionState.toVec_of_lt fits
    exact ⟨bytes, written, DistributionState.tryFromSlice_iff.mpr written⟩
  · intro bytes s
    exact DistributionState.tryFromSlice_iff
  · intro s bytes written
    have fits := DistributionState.toVec_lt written
    have count := DistributionState.count_at written
    have word : (UInt32.ofNat s.spentNullifiers.length).toNat = s.spentNullifiers.length :=
      UInt32.toNat_ofNat_of_lt' fits
    refine ⟨DistributionState.toVec_length written, DistributionState.claimed_at written, ?_, ?_⟩
    · rw [count, U32.toLeBytes, word]
    · intro owner
      rw [nullifierCount_chainState, count, Python.fromBytesLittle,
        byteRadix.total_write 4 _ (by simpa [byteRadix] using fits)]

end PrivateAirdrop

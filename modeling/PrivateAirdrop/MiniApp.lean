import PrivateAirdrop.Library.JavaScript
import PrivateAirdrop.ClaimCircuit

/-! # The leaf of the mini-app

The page computes a leaf from two texts, in a language without fixed-width integers.
Its checks look at the length of one text and at whether the other is a number, so
the digits and the range of the allocation are left to whoever types them. Where
these are right, the page, the SDK and the circuit hash the same 49 bytes.
-/

namespace PrivateAirdrop

open Library
open Library.Alphabet (utf16)
open Library.JavaScript

namespace Sdk

def leafHash (H : Sha256) (accountId : Bytes32) (allocation : U128) : Bytes32 :=
  let h := Hasher.new
  let h := h.update [0x00]
  let h := h.update accountId.toList
  let h := h.update (U128.toLeBytes allocation)
  h.finalize H

end Sdk

/-- What the page can end with instead of a text: `BigInt` and `set` throw. -/
inductive Thrown where
  | syntaxError
  | rangeError
  deriving Repr, DecidableEq

namespace MiniApp

/-- A byte of a typed array for every two units; what is no number becomes 0. -/
def hexToBytes (hex : JsString) : List UInt8 :=
  (List.range (hex.length / 2)).map fun i => toUint8 (parseInt16 ((hex.drop (i * 2)).take 2))

/-- `x.toString(16).padStart(2,'0')` of every byte. -/
def bytesToHex (bytes : List UInt8) : JsString :=
  bytes.flatMap fun x =>
    let digits := (Nat.toDigits 16 x.toNat).map unit
    List.replicate (2 - digits.length) (unit '0') ++ digits

/-- The loop of `u128toLE`, with the rounds left and the number it shifts. -/
def leBytes : Nat → Int → List UInt8
  | 0, _ => []
  | rounds + 1, v => toUint8 (some (Int.land v 0xff)) :: leBytes rounds (v >>> 8)

def u128toLE (n : Int) : List UInt8 := leBytes 16 n

/-- The text that ends up on the page. -/
def computeLeaf (H : Sha256) (accountId allocation : JsString) : Except Thrown JsString :=
  let acctHex := trim accountId
  let alloc := trim allocation
  if acctHex.length ≠ 64 then
    .ok (ofString "Error: Account ID must be 64 hex characters.")
  else if alloc = [] ∨ isNaN alloc then
    .ok (ofString "Error: Allocation must be an integer.")
  else
    let acctBytes := hexToBytes acctHex
    match toBigInt alloc with
    | none => .error .syntaxError
    | some n =>
      let allocBytes := u128toLE n
      let combined := (List.replicate (1 + 32 + 16) (0 : UInt8)).set 0 0x00
      match (setAt combined acctBytes 1).bind fun combined => setAt combined allocBytes 33 with
      | none => .error .rangeError
      | some combined => .ok (ofString "leaf: " ++ bytesToHex (H combined).toList)

end MiniApp

open MiniApp

/-- Whatever digest the page displays is that of the account id and the allocation
    in its texts, as the circuit and the SDK hash them. -/
def LeafAgrees (H : Sha256) (accountIdText allocationText : JsString) : Prop :=
  ∀ shown, computeLeaf H accountIdText allocationText = .ok (ofString "leaf: " ++ shown) →
    ∃ (accountId : Bytes32) (allocation : U128),
      (trim accountIdText).length = 64 ∧
      utf16.hexDecode (trim accountIdText) = some accountId.toList ∧
      toBigInt (trim allocationText) = some (allocation.toNat : Int) ∧
      shown = utf16.hexEncode (leafHash H accountId allocation).toList ∧
      shown = utf16.hexEncode (Sdk.leafHash H accountId allocation).toList

/-- No unit of the account id is other than a hexadecimal digit and the allocation
    does not leave the range of `u128`, if the texts get past the page's own checks. -/
def WellTyped (accountIdText allocationText : JsString) : Prop :=
  (trim accountIdText).length = 64 → trim allocationText ≠ [] →
    ∀ n ∈ toBigInt (trim allocationText),
      (∀ u ∈ trim accountIdText, (digitIn 16 u).isSome = true) ∧ 0 ≤ n ∧ n < 2 ^ 128

theorem hexToBytes_cons (h l : UInt16) (rest : JsString) :
    hexToBytes (h :: l :: rest) = toUint8 (parseInt16 [h, l]) :: hexToBytes rest := by
  have half : (h :: l :: rest).length / 2 = rest.length / 2 + 1 := by
    simp only [List.length_cons]
    omega
  have shift : ∀ i, (h :: l :: rest).drop ((i + 1) * 2) = rest.drop (i * 2) := by
    intro i
    rw [Nat.succ_mul]
    rfl
  rw [hexToBytes, half, List.range_succ_eq_map, List.map_cons, List.map_map]
  simp only [Function.comp_def, Nat.succ_eq_add_one, shift]
  rfl

theorem hexToBytes_of_hexDecode {hex : JsString} {bytes : List UInt8}
    (decodes : utf16.hexDecode hex = some bytes) : hexToBytes hex = bytes := by
  fun_induction Alphabet.hexDecode utf16 hex generalizing bytes with
  | case1 => exact Option.some.inj decodes
  | case2 t => cases decodes
  | case3 h l rest ih =>
      obtain ⟨high, low, later, hh, hl, found, same⟩ := utf16.hexDecode_pair_iff.mp decodes
      rw [hexToBytes_cons, parseInt16_digits hh hl, toUint8_natCast, ih found, same]

theorem bytesToHex_eq (bytes : List UInt8) : bytesToHex bytes = utf16.hexEncode bytes := by
  have digit : ∀ d < 16, unit d.digitChar = utf16.hexDigit d := by decide
  refine List.flatMap_congr fun x _ => ?_
  have byte := x.toNat_lt
  by_cases small : x.toNat < 16
  · have quotient : x.toNat / 16 = 0 := by omega
    have remainder : x.toNat % 16 = x.toNat := by omega
    rw [Nat.toDigits_of_lt_base small, quotient, remainder, ← digit _ small]
    rfl
  · have large : 16 ≤ x.toNat := by omega
    have quotient : x.toNat / 16 < 16 := by omega
    have remainder : x.toNat % 16 < 16 := by omega
    rw [Nat.toDigits_of_base_le (by decide) large, Nat.toDigits_of_lt_base quotient,
      ← digit _ quotient, ← digit _ remainder]
    rfl

theorem leBytes_natCast (rounds n : Nat) :
    leBytes rounds (n : Int) = byteRadix.write rounds n := by
  induction rounds generalizing n with
  | zero => rfl
  | succ rounds ih =>
      have byte : UInt8.ofNat (n % 256) = UInt8.ofNat n := UInt8.ofNat_mod_size
      rw [leBytes, land_ff, toUint8_natCast, shiftRight_byte, ih, byte]
      rfl

@[simp] theorem hexToBytes_length (hex : JsString) : (hexToBytes hex).length = hex.length / 2 := by
  rw [hexToBytes, List.length_map, List.length_range]

@[simp] theorem leBytes_length (rounds : Nat) (v : Int) : (leBytes rounds v).length = rounds := by
  induction rounds generalizing v with
  | zero => rfl
  | succ rounds ih => rw [leBytes, List.length_cons, ih]

theorem combined_eq {acctBytes allocBytes : List UInt8} (acct : acctBytes.length = 32)
    (alloc : allocBytes.length = 16) :
    ((setAt ((List.replicate (1 + 32 + 16) (0 : UInt8)).set 0 0x00) acctBytes 1).bind
      fun combined => setAt combined allocBytes 33) = some (0x00 :: acctBytes ++ allocBytes) := by
  simp [setAt, acct, alloc, List.drop_append]

theorem error_ne_leaf {text : String} {shown : JsString} (error : text.toList.head? = some 'E') :
    ofString text ≠ ofString "leaf: " ++ shown := by
  intro same
  have first := congrArg List.head? same
  rw [ofString, List.head?_map, error] at first
  simp [ofString, unit] at first

theorem computeLeaf_leaf_iff {H : Sha256} {accountIdText allocationText shown : JsString} :
    computeLeaf H accountIdText allocationText = .ok (ofString "leaf: " ++ shown) ↔
      (trim accountIdText).length = 64 ∧ trim allocationText ≠ [] ∧
        ∃ n, toBigInt (trim allocationText) = some n ∧ shown =
          utf16.hexEncode (H (0x00 :: hexToBytes (trim accountIdText) ++ u128toLE n)).toList := by
  rw [computeLeaf]
  by_cases length : (trim accountIdText).length = 64
  swap
  · simp only [length, ne_eq, not_false_eq_true, if_true, Except.ok.injEq, false_and, iff_false]
    exact error_ne_leaf (by simp)
  have acct : (hexToBytes (trim accountIdText)).length = 32 := by rw [hexToBytes_length, length]
  rw [if_neg (not_not.mpr length)]
  cases read : toBigInt (trim allocationText) with
  | none =>
      simp only [reduceCtorEq, false_and, exists_false, and_false, iff_false]
      split
      · exact fun same => error_ne_leaf (by simp) (Except.ok.inj same)
      · exact fun same => by cases same
  | some n =>
      have number := isNaN_of_toBigInt read
      have alloc : (u128toLE n).length = 16 := leBytes_length 16 n
      simp only [number, combined_eq acct alloc, bytesToHex_eq, Bool.false_eq_true, or_false]
      split
      · rename_i blank
        simp only [blank, Except.ok.injEq, ne_eq, not_true_eq_false, false_and, and_false, iff_false]
        exact error_ne_leaf (by simp)
      · rename_i some_
        simp [length, some_, eq_comm]

theorem LeafAgrees.wellTyped {H : Sha256} {accountIdText allocationText : JsString}
    (agrees : LeafAgrees H accountIdText allocationText) :
    WellTyped accountIdText allocationText := by
  intro length some_ n read
  obtain ⟨accountId, allocation, -, decodes, same, -⟩ := agrees _
    (computeLeaf_leaf_iff.mpr ⟨length, some_, n, read, rfl⟩)
  have value : n = (allocation.toNat : Int) := Option.some.inj (read.symm.trans same)
  have small := allocation.isLt
  refine ⟨fun u member => ?_, by omega, by omega⟩
  rw [digitIn_hex]
  exact utf16.value_of_hexDecode decodes u member

theorem WellTyped.agrees {accountIdText allocationText : JsString}
    (typed : WellTyped accountIdText allocationText) (H : Sha256) :
    LeafAgrees H accountIdText allocationText := by
  intro shown displayed
  obtain ⟨length, some_, n, read, same⟩ := computeLeaf_leaf_iff.mp displayed
  obtain ⟨digits, nonneg, small⟩ := typed length some_ n read
  have values : ∀ u ∈ trim accountIdText, (Hex.value (utf16.code u)).isSome = true :=
    fun u member => digitIn_hex u ▸ digits u member
  obtain ⟨bytes, decodes⟩ := utf16.exists_hexDecode (by omega) values
  have count := utf16.length_of_hexDecode decodes
  obtain ⟨v, rfl⟩ := Int.eq_ofNat_of_zero_le nonneg
  let accountId : Bytes32 := ⟨bytes.toArray, by simp only [List.size_toArray]; omega⟩
  let allocation : U128 := BitVec.ofNat 128 v
  have decoded : accountId.toList = bytes := Vector.toList_mk ..
  have denoted : allocation.toNat = v := Nat.mod_eq_of_lt (by omega)
  have digest : leafHash H accountId allocation =
      H (0x00 :: hexToBytes (trim accountIdText) ++ u128toLE v) := by
    rw [hexToBytes_of_hexDecode decodes, u128toLE, leBytes_natCast, ← decoded, ← denoted]
    rfl
  refine ⟨accountId, allocation, length, by rw [decoded, decodes], by rw [denoted, read], ?_, ?_⟩
  · rw [digest, same]
  · rw [same, ← digest]
    rfl

/-- A digest on the page is that of what was typed, for the circuit and the SDK
    alike, exactly when the digits and the range that the page leaves unchecked
    are as its labels ask for. -/
theorem miniApp_leaf_agrees_iff (H : Sha256) (accountIdText allocationText : JsString) :
    LeafAgrees H accountIdText allocationText ↔ WellTyped accountIdText allocationText :=
  ⟨LeafAgrees.wellTyped, fun typed => typed.agrees H⟩

/-- For the letter `g` 64 times, the page displays the leaf of 32 zero bytes. -/
theorem miniApp_leaf_of_no_digits :
    let accountIdText := List.replicate 64 (unit 'g')
    let allocationText := [unit '1']
    computeLeaf lengthHash accountIdText allocationText = .ok (ofString "leaf: " ++
        utf16.hexEncode (leafHash lengthHash (Vector.replicate 32 0) 1).toList) ∧
      ¬ LeafAgrees lengthHash accountIdText allocationText := by
  intro accountIdText allocationText
  have trimmed : trim accountIdText = accountIdText := by decide +kernel
  have read : toBigInt (trim allocationText) = some 1 := by decide +kernel
  have some_ : trim allocationText ≠ [] := by decide +kernel
  constructor
  · refine computeLeaf_leaf_iff.mpr ⟨by rw [trimmed]; rfl, some_, 1, read, ?_⟩
    have zeros : 0x00 :: hexToBytes (trim accountIdText) ++ u128toLE 1 =
        0x00 :: (Vector.replicate 32 (0 : UInt8)).toList ++ U128.toLeBytes 1 := by decide +kernel
    rw [zeros]
    rfl
  · intro agrees
    have digits := (agrees.wellTyped (by rw [trimmed]; rfl) some_ 1 read).1
    have member : unit 'g' ∈ trim accountIdText := by
      rw [trimmed]
      exact List.mem_replicate.mpr ⟨by omega, rfl⟩
    cases digits _ member

end PrivateAirdrop

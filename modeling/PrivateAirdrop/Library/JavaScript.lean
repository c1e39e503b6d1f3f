import Mathlib.Data.Int.Bitwise
import Mathlib.Data.List.TakeWhile
import PrivateAirdrop.Library.Text

/-! # Text and numbers of JavaScript

Strings are lists of UTF-16 units. The readers of numbers differ in what they let
pass: `parseInt` stops at the first unit that is no digit, `Number` and `BigInt`
read a whole trimmed string or nothing, and a typed array takes any number modulo
its width. A leading sign, `0x` and blanks mean something to each of them.
-/

namespace Library

/-- A string of JavaScript: its UTF-16 units. -/
abbrev JsString := List UInt16

namespace Alphabet

def utf16 : Alphabet UInt16 where
  code := UInt16.toNat
  ofCode := UInt16.ofNat
  code_ofCode := by
    intro n small
    rw [UInt16.toNat_ofNat']
    omega
  ofCode_code := fun _ => UInt16.ofNat_toNat

end Alphabet

namespace JavaScript

/-- The unit of a character of the basic plane. -/
def unit (c : Char) : UInt16 := UInt16.ofNat c.toNat

def ofString (s : String) : JsString := s.toList.map unit

/-- `WhiteSpace` and `LineTerminator` of the grammar. -/
def isWhiteSpace (u : UInt16) : Bool :=
  (0x09 ≤ u.toNat ∧ u.toNat ≤ 0x0d) ∨ u.toNat = 0x20 ∨ u.toNat = 0xa0 ∨ u.toNat = 0x1680 ∨
    (0x2000 ≤ u.toNat ∧ u.toNat ≤ 0x200a) ∨ u.toNat = 0x2028 ∨ u.toNat = 0x2029 ∨
    u.toNat = 0x202f ∨ u.toNat = 0x205f ∨ u.toNat = 0x3000 ∨ u.toNat = 0xfeff

/-- `s.trim()`. -/
def trim (s : JsString) : JsString := Library.trim isWhiteSpace s

def digitIn (radix : Nat) (u : UInt16) : Option Nat :=
  (Hex.value u.toNat).bind fun d => if d < radix then some d else none

theorem digitIn_hex (u : UInt16) : digitIn 16 u = Hex.value u.toNat := by
  cases found : Hex.value u.toNat with
  | none => rw [digitIn, found, Option.bind_none]
  | some d => rw [digitIn, found, Option.bind_some, if_pos (Hex.value_eq_some_iff.mp found).1]

/-- The value of at least one digit, most significant first. -/
def digitsValue (radix : Nat) : JsString → Option Nat
  | [] => none
  | u :: us => (u :: us).foldlM (fun n u => (digitIn radix u).map fun d => radix * n + d) 0

/-- A sign, if there is one, and what follows it. -/
def splitSign : JsString → Int × JsString
  | [] => (1, [])
  | u :: us => if u = unit '-' then (-1, us) else if u = unit '+' then (1, us) else (1, u :: us)

/-- What follows a `0` and one of two letters at the front. -/
def afterPrefix (lower upper : Char) : JsString → Option JsString
  | z :: x :: us => if z = unit '0' ∧ (x = unit lower ∨ x = unit upper) then some us else none
  | _ => none

theorem digits_of_foldlM {radix : Nat} {us : JsString} {n m : Nat}
    (folds : us.foldlM (fun n u => (digitIn radix u).map fun d => radix * n + d) n = some m) :
    ∀ u ∈ us, (digitIn radix u).isSome = true := by
  induction us generalizing n with
  | nil => simp
  | cons u us ih =>
      rw [List.foldlM_cons, Option.bind_eq_bind] at folds
      obtain ⟨k, first, later⟩ := Option.bind_eq_some_iff.mp folds
      obtain ⟨d, found, -⟩ := Option.map_eq_some_iff.mp first
      exact List.forall_mem_cons.mpr ⟨by rw [found]; rfl, ih later⟩

theorem digits_of_digitsValue {radix : Nat} {s : JsString} {n : Nat}
    (value : digitsValue radix s = some n) :
    s ≠ [] ∧ ∀ u ∈ s, (digitIn radix u).isSome = true := by
  cases s with
  | nil => simp [digitsValue] at value
  | cons u us => exact ⟨List.cons_ne_nil u us, digits_of_foldlM value⟩

/-- The digits after blanks, a sign and `0x`, as far as they go; `none` is `NaN`. -/
def parseInt16 (s : JsString) : Option Int :=
  let (sign, s) := splitSign (s.dropWhile isWhiteSpace)
  let s := (afterPrefix 'x' 'X' s).getD s
  (digitsValue 16 (s.takeWhile fun u => (digitIn 16 u).isSome)).map fun n : Nat => sign * n

theorem parseInt16_digits {h l : UInt16} {high low : Nat}
    (first : Hex.value h.toNat = some high) (second : Hex.value l.toNat = some low) :
    parseInt16 [h, l] = some ((16 * high + low : Nat) : Int) := by
  have other : ∀ u c d, Hex.value u.toNat = some d → Hex.value (unit c).toNat = none → u ≠ unit c := by
    intro u c d found absent same
    rw [same, absent] at found
    cases found
  have solid : isWhiteSpace h = false := by
    have code := Hex.value_eq_some_iff.mp first
    unfold Hex.lower Hex.digit at code
    simp only [isWhiteSpace, decide_eq_false_iff_not]
    split_ifs at code <;> omega
  have unsigned : splitSign [h, l] = (1, [h, l]) := by
    rw [splitSign, if_neg (other h '-' _ first rfl), if_neg (other h '+' _ first rfl)]
  have plain : afterPrefix 'x' 'X' [h, l] = none := by
    refine if_neg fun both => ?_
    cases both.2 with
    | inl small => exact other l 'x' _ second rfl small
    | inr capital => exact other l 'X' _ second rfl capital
  simp [parseInt16, solid, unsigned, plain, digitIn_hex, first, second, digitsValue]

/-- `NonDecimalIntegerLiteral`. -/
def nonDecimal (s : JsString) : Option Nat :=
  match afterPrefix 'x' 'X' s, afterPrefix 'o' 'O' s, afterPrefix 'b' 'B' s with
  | some ds, _, _ => digitsValue 16 ds
  | _, some ds, _ => digitsValue 8 ds
  | _, _, some ds => digitsValue 2 ds
  | none, none, none => none

/-- `DecimalDigits` with an optional sign. -/
def signedDecimal (s : JsString) : Option Int :=
  let (sign, ds) := splitSign s
  (digitsValue 10 ds).map fun n : Nat => sign * n

/-- `BigInt(s)`; `none` is a `SyntaxError`. -/
def toBigInt (s : JsString) : Option Int :=
  let s := trim s
  if s = [] then some 0
  else
    match nonDecimal s with
    | some n => some n
    | none => signedDecimal s

def isDecimalDigit (u : UInt16) : Bool := (digitIn 10 u).isSome

/-- `ExponentPart`, or nothing. -/
def isExponent : JsString → Bool
  | [] => true
  | e :: us => (e = unit 'e' ∨ e = unit 'E') ∧ (signedDecimal us).isSome

/-- `StrUnsignedDecimalLiteral`. -/
def isUnsignedDecimal (s : JsString) : Bool :=
  let whole := s.takeWhile isDecimalDigit
  match s.dropWhile isDecimalDigit with
  | [] => whole ≠ []
  | u :: us =>
    if u = unit '.' then
      (whole ≠ [] ∨ us.takeWhile isDecimalDigit ≠ []) ∧ isExponent (us.dropWhile isDecimalDigit)
    else s = ofString "Infinity" ∨ (whole ≠ [] ∧ isExponent (u :: us))

/-- `isNaN(s)`: no literal of a number stands between the blanks of the string. -/
def isNaN (s : JsString) : Bool :=
  let s := trim s
  !(s = [] ∨ (nonDecimal s).isSome ∨ isUnsignedDecimal (splitSign s).2)

theorem isNaN_of_toBigInt {s : JsString} {v : Int} (reads : toBigInt s = some v) :
    isNaN s = false := by
  simp only [isNaN, Bool.not_eq_false', decide_eq_true_eq]
  unfold toBigInt at reads
  simp only at reads
  split_ifs at reads with blank
  · exact .inl blank
  · cases prefixed : nonDecimal (trim s) with
    | some n => exact .inr (.inl rfl)
    | none =>
        simp only [prefixed, signedDecimal] at reads
        obtain ⟨n, value, -⟩ := Option.map_eq_some_iff.mp reads
        obtain ⟨some_, digits⟩ := digits_of_digitsValue value
        have whole : (splitSign (trim s)).2.takeWhile isDecimalDigit = (splitSign (trim s)).2 :=
          List.takeWhile_eq_self_iff.mpr digits
        have rest : (splitSign (trim s)).2.dropWhile isDecimalDigit = [] :=
          List.dropWhile_eq_nil_iff.mpr digits
        refine .inr (.inr ?_)
        simp [isUnsignedDecimal, whole, rest, some_]

/-- What a number becomes as an element of a `Uint8Array`; `NaN` becomes 0. -/
def toUint8 : Option Int → UInt8
  | none => 0
  | some n => UInt8.ofNat (n % 256).toNat

theorem toUint8_natCast (n : Nat) : toUint8 (some (n : Int)) = UInt8.ofNat n := by
  have same : ((n : Int) % 256).toNat = n % 256 := by omega
  rw [toUint8, same]
  exact UInt8.ofNat_mod_size

theorem land_ff (n : Nat) : Int.land (n : Int) 0xff = ((n % 256 : Nat) : Int) :=
  congrArg Int.ofNat (Nat.and_two_pow_sub_one_eq_mod n 8)

theorem shiftRight_byte (n : Nat) : (n : Int) >>> 8 = ((n / 256 : Nat) : Int) :=
  congrArg Int.ofNat (Nat.shiftRight_eq_div_pow n 8)

/-- `target.set(source, offset)`; `none` is a `RangeError`. -/
def setAt (target source : List UInt8) (offset : Nat) : Option (List UInt8) :=
  if offset + source.length ≤ target.length then
    some (target.take offset ++ source ++ target.drop (offset + source.length))
  else none

end JavaScript

end Library

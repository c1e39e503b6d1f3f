import Mathlib.Data.List.Basic
import Mathlib.Data.List.Forall2

/-! # Text in any alphabet

Characters, bytes and UTF-16 units all carry the ASCII codes. Hexadecimal text is
defined over the codes, so one set of facts serves them all: a text decodes to
bytes exactly when its lower-case form is what these bytes are written as. Beside
it stand the other steps of a small parser, trimming and splitting.
-/

namespace Library

/-- Symbols that include the ASCII codes. -/
structure Alphabet (τ : Type) where
  code : τ → Nat
  ofCode : Nat → τ
  code_ofCode : ∀ {n}, n < 128 → code (ofCode n) = n
  ofCode_code : ∀ {t}, code t < 128 → ofCode (code t) = t

namespace Hex

/-- The value of the code of a hexadecimal digit, in either case. -/
def value (c : Nat) : Option Nat :=
  if 48 ≤ c ∧ c ≤ 57 then some (c - 48)
  else if 97 ≤ c ∧ c ≤ 102 then some (c - 87)
  else if 65 ≤ c ∧ c ≤ 70 then some (c - 55)
  else none

/-- The code of the lower-case digit of a value. -/
def digit (d : Nat) : Nat := if d < 10 then 48 + d else 87 + d

def lower (c : Nat) : Nat := if 65 ≤ c ∧ c ≤ 90 then c + 32 else c

/-- The codes of a digit are those that lower case takes to its lower-case code. -/
theorem value_eq_some_iff {c d : Nat} : value c = some d ↔ d < 16 ∧ lower c = digit d := by
  unfold value lower digit
  split_ifs <;> simp only [Option.some.injEq, false_iff] <;> omega

theorem digit_lt {d : Nat} (h : d < 16) : digit d < 128 := by
  unfold digit
  split <;> omega

end Hex

namespace Alphabet

variable {τ σ : Type} (A : Alphabet τ) (B : Alphabet σ)

/-- Lower case of the ASCII letters; every other symbol stays. -/
def lower (t : τ) : τ := if 65 ≤ A.code t ∧ A.code t ≤ 90 then A.ofCode (A.code t + 32) else t

def hexDigit (d : Nat) : τ := A.ofCode (Hex.digit d)

/-- Bytes as two lower-case digits each. -/
def hexEncode (bytes : List UInt8) : List τ :=
  bytes.flatMap fun b => [A.hexDigit (b.toNat / 16), A.hexDigit (b.toNat % 16)]

/-- Two digits of either case for each byte, and nothing else. -/
def hexDecode : List τ → Option (List UInt8)
  | [] => some []
  | [_] => none
  | h :: l :: rest =>
    (Hex.value (A.code h)).bind fun high => (Hex.value (A.code l)).bind fun low =>
      (hexDecode rest).map fun bytes => UInt8.ofNat (16 * high + low) :: bytes

theorem code_lower (t : τ) : A.code (A.lower t) = Hex.lower (A.code t) := by
  unfold lower Hex.lower
  split
  · exact A.code_ofCode (by omega)
  · rfl

theorem code_hexDigit {d : Nat} (small : d < 16) : A.code (A.hexDigit d) = Hex.digit d :=
  A.code_ofCode (Hex.digit_lt small)

theorem value_eq_some_iff {t : τ} {d : Nat} :
    Hex.value (A.code t) = some d ↔ d < 16 ∧ A.lower t = A.hexDigit d := by
  rw [Hex.value_eq_some_iff]
  constructor
  · intro h
    obtain ⟨small, same⟩ := h
    have ascii := Hex.digit_lt small
    refine ⟨small, ?_⟩
    rw [← A.code_lower] at same
    rw [hexDigit, ← same, A.ofCode_code (by omega)]
  · intro h
    obtain ⟨small, same⟩ := h
    exact ⟨small, by rw [← A.code_lower, same, A.code_hexDigit small]⟩

theorem hexEncode_cons (b : UInt8) (bytes : List UInt8) : A.hexEncode (b :: bytes) =
    A.hexDigit (b.toNat / 16) :: A.hexDigit (b.toNat % 16) :: A.hexEncode bytes := rfl

theorem hexEncode_append (bytes bytes' : List UInt8) :
    A.hexEncode (bytes ++ bytes') = A.hexEncode bytes ++ A.hexEncode bytes' := List.flatMap_append

@[simp] theorem hexEncode_length (bytes : List UInt8) :
    (A.hexEncode bytes).length = 2 * bytes.length := by
  simp only [hexEncode, List.length_flatMap, List.length_cons, List.length_nil]
  induction bytes with
  | nil => rfl
  | cons b bytes ih => simp only [List.map_cons, List.sum_cons, List.length_cons, ih]; omega

theorem hexDecode_pair_iff {h l : τ} {rest : List τ} {bytes : List UInt8} :
    A.hexDecode (h :: l :: rest) = some bytes ↔
      ∃ high low later, Hex.value (A.code h) = some high ∧ Hex.value (A.code l) = some low ∧
        A.hexDecode rest = some later ∧ UInt8.ofNat (16 * high + low) :: later = bytes := by
  simp only [hexDecode, Option.bind_eq_some_iff, Option.map_eq_some_iff]
  constructor
  · rintro ⟨high, hh, low, hl, later, found, same⟩
    exact ⟨high, low, later, hh, hl, found, same⟩
  · rintro ⟨high, low, later, hh, hl, found, same⟩
    exact ⟨high, hh, low, hl, later, found, same⟩

theorem hexDecode_eq_some_iff {text : List τ} {bytes : List UInt8} :
    A.hexDecode text = some bytes ↔ text.map A.lower = A.hexEncode bytes := by
  fun_induction hexDecode A text generalizing bytes with
  | case1 => cases bytes <;> simp [hexEncode]
  | case2 t => cases bytes <;> simp [hexEncode]
  | case3 h l rest ih =>
      cases bytes with
      | nil => simp [hexEncode, Option.bind_eq_some_iff]
      | cons b bytes =>
          have byte := b.toNat_lt
          rw [hexEncode_cons, List.map_cons, List.map_cons, List.cons.injEq, List.cons.injEq, ← ih]
          constructor
          · intro found
            obtain ⟨high, low, later, hh, hl, decoded, same⟩ := A.hexDecode_pair_iff.mp found
            obtain ⟨smallHigh, upper⟩ := A.value_eq_some_iff.mp hh
            obtain ⟨smallLow, under⟩ := A.value_eq_some_iff.mp hl
            obtain ⟨rfl, rfl⟩ := List.cons.inj same
            have whole : (UInt8.ofNat (16 * high + low)).toNat = 16 * high + low := by
              rw [UInt8.toNat_ofNat']
              omega
            have first : (16 * high + low) / 16 = high := by omega
            have second : (16 * high + low) % 16 = low := by omega
            rw [whole, first, second]
            exact ⟨upper, under, decoded⟩
          · intro written
            obtain ⟨upper, under, decoded⟩ := written
            have hh := A.value_eq_some_iff.mpr ⟨by omega, upper⟩
            have hl := A.value_eq_some_iff.mpr ⟨by omega, under⟩
            have whole : UInt8.ofNat (16 * (b.toNat / 16) + b.toNat % 16) = b := by
              rw [Nat.div_add_mod]
              exact UInt8.ofNat_toNat
            exact A.hexDecode_pair_iff.mpr ⟨_, _, _, hh, hl, decoded, by rw [whole]⟩

theorem length_of_hexDecode {text : List τ} {bytes : List UInt8}
    (decodes : A.hexDecode text = some bytes) : text.length = 2 * bytes.length := by
  have written := congrArg List.length (A.hexDecode_eq_some_iff.mp decodes)
  rwa [List.length_map, hexEncode_length] at written

theorem code_of_mem_hexEncode {bytes : List UInt8} {t : τ} (member : t ∈ A.hexEncode bytes) :
    (48 ≤ A.code t ∧ A.code t ≤ 57) ∨ (97 ≤ A.code t ∧ A.code t ≤ 102) := by
  have digit : ∀ d < 16, (48 ≤ A.code (A.hexDigit d) ∧ A.code (A.hexDigit d) ≤ 57) ∨
      (97 ≤ A.code (A.hexDigit d) ∧ A.code (A.hexDigit d) ≤ 102) := by
    intro d small
    rw [A.code_hexDigit small, Hex.digit]
    split <;> omega
  obtain ⟨b, -, written⟩ := List.mem_flatMap.mp member
  have byte := b.toNat_lt
  simp only [List.mem_cons, List.not_mem_nil, or_false] at written
  cases written with
  | inl high => exact high ▸ digit _ (by omega)
  | inr low => exact low ▸ digit _ (by omega)

theorem not_mem_hexEncode {bytes : List UInt8} {t : τ}
    (other : ¬ (48 ≤ A.code t ∧ A.code t ≤ 57) ∧ ¬ (97 ≤ A.code t ∧ A.code t ≤ 102)) :
    t ∉ A.hexEncode bytes := by
  intro member
  cases A.code_of_mem_hexEncode member with
  | inl digit => exact other.1 digit
  | inr letter => exact other.2 letter

theorem lower_hexEncode (bytes : List UInt8) :
    (A.hexEncode bytes).map A.lower = A.hexEncode bytes := by
  apply (List.map_congr_left _).trans (List.map_id _)
  intro t member
  refine if_neg ?_
  cases A.code_of_mem_hexEncode member with
  | inl digit => omega
  | inr letter => omega

theorem hexDecode_hexEncode (bytes : List UInt8) : A.hexDecode (A.hexEncode bytes) = some bytes :=
  A.hexDecode_eq_some_iff.mpr (A.lower_hexEncode bytes)

theorem exists_hexDecode {text : List τ} (even : text.length % 2 = 0)
    (digits : ∀ t ∈ text, (Hex.value (A.code t)).isSome = true) :
    ∃ bytes, A.hexDecode text = some bytes := by
  fun_induction hexDecode A text with
  | case1 => exact ⟨[], rfl⟩
  | case2 t => cases even
  | case3 h l rest ih =>
      have rest_even : rest.length % 2 = 0 := by
        simp only [List.length_cons] at even
        omega
      obtain ⟨high, hh⟩ := Option.isSome_iff_exists.mp (digits h (.head _))
      obtain ⟨low, hl⟩ := Option.isSome_iff_exists.mp (digits l (.tail _ (.head _)))
      obtain ⟨bytes, later⟩ := ih rest_even fun t member => digits t (.tail _ (.tail _ member))
      exact ⟨_, A.hexDecode_pair_iff.mpr ⟨high, low, bytes, hh, hl, later, rfl⟩⟩

theorem value_of_hexDecode {text : List τ} {bytes : List UInt8}
    (decodes : A.hexDecode text = some bytes) :
    ∀ t ∈ text, (Hex.value (A.code t)).isSome = true := by
  fun_induction hexDecode A text generalizing bytes with
  | case1 => simp
  | case2 t => cases decodes
  | case3 h l rest ih =>
      obtain ⟨high, low, later, hh, hl, found, -⟩ := A.hexDecode_pair_iff.mp decodes
      intro t member
      cases member with
      | head => rw [hh]; rfl
      | tail _ member =>
          cases member with
          | head => rw [hl]; rfl
          | tail _ member => exact ih found t member

theorem code_of_lower {text : List τ} {bytes : List UInt8}
    (written : text.map A.lower = A.hexEncode bytes) : ∀ t ∈ text,
      (48 ≤ A.code t ∧ A.code t ≤ 57) ∨ (97 ≤ A.code t ∧ A.code t ≤ 102) ∨
        (65 ≤ A.code t ∧ A.code t ≤ 70) := by
  intro t member
  have lowered : A.lower t ∈ A.hexEncode bytes := by
    rw [← written]
    exact List.mem_map_of_mem member
  have code := A.code_lower t
  rw [Hex.lower] at code
  cases A.code_of_mem_hexEncode lowered with
  | inl digit => split at code <;> omega
  | inr letter => split at code <;> omega

theorem ascii_of_hexDecode {text : List τ} {bytes : List UInt8}
    (decodes : A.hexDecode text = some bytes) : ∀ t ∈ text, A.code t < 128 := by
  intro t member
  have code := A.code_of_lower (A.hexDecode_eq_some_iff.mp decodes) t member
  omega

theorem hexDecode_map {f : τ → σ} {text : List τ} (same : ∀ t ∈ text, B.code (f t) = A.code t) :
    B.hexDecode (text.map f) = A.hexDecode text := by
  fun_induction hexDecode A text with
  | case1 => rfl
  | case2 t => rfl
  | case3 h l rest ih =>
      have later := ih fun t member => same t (.tail _ (.tail _ member))
      simp only [List.map_cons, hexDecode, later, same h (.head _), same l (.tail _ (.head _))]

def characters : Alphabet Char where
  code := Char.toNat
  ofCode := Char.ofNat
  code_ofCode := by
    intro n small
    rw [Char.ofNat, dif_pos (Or.inl (by omega))]
    rfl
  ofCode_code := fun _ => Char.ofNat_toNat _

def bytes : Alphabet UInt8 where
  code := UInt8.toNat
  ofCode := UInt8.ofNat
  code_ofCode := by
    intro n small
    rw [UInt8.toNat_ofNat']
    omega
  ofCode_code := fun _ => UInt8.ofNat_toNat

end Alphabet

def utf8 (text : List Char) : List UInt8 := text.flatMap String.utf8EncodeChar

theorem utf8_ascii {text : List Char} (ascii : ∀ c ∈ text, c.toNat < 128) :
    utf8 text = text.map fun c => UInt8.ofNat c.toNat := by
  have single : ∀ c ∈ text, String.utf8EncodeChar c = [UInt8.ofNat c.toNat] := by
    intro c member
    exact if_pos (Nat.le_of_lt_succ (ascii c member))
  rw [utf8, List.flatMap_congr single, ← List.map_eq_flatMap]

theorem ascii_of_utf8 {text : List Char} (ascii : ∀ b ∈ utf8 text, b.toNat < 128) :
    ∀ c ∈ text, c.toNat < 128 := by
  intro c member
  have encoded : ∀ b ∈ String.utf8EncodeChar c, b.toNat < 128 :=
    fun b inside => ascii b (List.mem_flatMap.mpr ⟨c, member, inside⟩)
  have value : c.val.toNat = c.toNat := rfl
  simp only [String.utf8EncodeChar] at encoded
  split_ifs at encoded with small
  · omega
  all_goals
    have first := encoded _ (List.mem_cons_self ..)
    rw [UInt8.toNat_ofNat'] at first
    omega

theorem hexDecode_utf8 (text : List Char) :
    Alphabet.bytes.hexDecode (utf8 text) = Alphabet.characters.hexDecode text := by
  by_cases ascii : ∀ c ∈ text, c.toNat < 128
  · rw [utf8_ascii ascii]
    apply Alphabet.hexDecode_map
    intro c member
    have small := ascii c member
    show (UInt8.ofNat c.toNat).toNat = c.toNat
    rw [UInt8.toNat_ofNat']
    omega
  · have here : Alphabet.characters.hexDecode text = none :=
      Option.eq_none_iff_forall_ne_some.mpr fun _ decodes =>
        ascii (Alphabet.characters.ascii_of_hexDecode decodes)
    have there : Alphabet.bytes.hexDecode (utf8 text) = none :=
      Option.eq_none_iff_forall_ne_some.mpr fun _ decodes =>
        ascii (ascii_of_utf8 (Alphabet.bytes.ascii_of_hexDecode decodes))
    rw [here, there]

/-- Drop what satisfies `p` at both ends. -/
def trim {τ : Type} (p : τ → Bool) (text : List τ) : List τ :=
  ((text.dropWhile p).reverse.dropWhile p).reverse

theorem dropWhile_padded {τ : Type} {p : τ → Bool} {before text : List τ} (rest : List τ)
    (blank : ∀ t ∈ before, p t = true) (solid : ∀ t ∈ text, p t = false) (some_ : text ≠ []) :
    (before ++ (text ++ rest)).dropWhile p = text ++ rest := by
  rw [List.dropWhile_append_of_pos blank]
  cases text with
  | nil => exact absurd rfl some_
  | cons t text =>
      have keeps : p t = false := solid t List.mem_cons_self
      rw [List.cons_append, List.dropWhile_cons, keeps, if_neg Bool.false_ne_true]

theorem trim_padded {τ : Type} {p : τ → Bool} {before text after : List τ}
    (blank : ∀ t ∈ before, p t = true) (blank' : ∀ t ∈ after, p t = true)
    (solid : ∀ t ∈ text, p t = false) : trim p (before ++ (text ++ after)) = text := by
  cases text with
  | nil =>
      have all : (before ++ after).dropWhile p = [] := by
        rw [← List.append_nil after, List.dropWhile_append_of_pos blank,
          List.dropWhile_append_of_pos blank', List.dropWhile_nil]
      rw [trim, List.nil_append, all]
      rfl
  | cons t text =>
      have back : ∀ u ∈ after.reverse, p u = true :=
        fun u member => blank' u (List.mem_reverse.mp member)
      have solid' : ∀ u ∈ (t :: text).reverse, p u = false :=
        fun u member => solid u (List.mem_reverse.mp member)
      have cut := dropWhile_padded [] back solid' (by simp)
      rw [List.append_nil] at cut
      rw [trim, dropWhile_padded after blank solid (List.cons_ne_nil _ _), List.reverse_append, cut,
        List.reverse_reverse]

theorem length_splitOn_le {τ : Type} [BEq τ] (sep : τ) (text : List τ) :
    (text.splitOn sep).length ≤ text.length + 1 := by
  induction text with
  | nil => simp
  | cons t text ih =>
      rw [List.splitOn_eq_splitOnP] at ih ⊢
      rw [List.splitOnP_cons_eq_if_modifyHead, List.length_cons]
      split
      · rw [List.length_cons]
        omega
      · rw [List.length_modifyHead]
        omega

theorem not_mem_intercalate {τ : Type} {t : τ} {sep : List τ} {items : List (List τ)}
    (between : t ∉ sep) (inside : ∀ item ∈ items, t ∉ item) : t ∉ sep.intercalate items := by
  induction items with
  | nil => exact List.not_mem_nil
  | cons item items ih =>
      obtain ⟨first, later⟩ := List.forall_mem_cons.mp inside
      cases items with
      | nil =>
          rw [List.intercalate_singleton]
          exact first
      | cons next items =>
          rw [List.intercalate_cons_cons]
          simp [first, between, ih later]

theorem length_intercalate_le {τ : Type} {k : Nat} {sep : List τ} {items : List (List τ)}
    (short : ∀ item ∈ items, item.length ≤ k) :
    (sep.intercalate items).length ≤ (k + sep.length) * items.length := by
  induction items with
  | nil => exact Nat.zero_le _
  | cons item items ih =>
      obtain ⟨first, later⟩ := List.forall_mem_cons.mp short
      cases items with
      | nil =>
          rw [List.intercalate_singleton, List.length_singleton]
          omega
      | cons next items =>
          have rest := ih later
          rw [List.intercalate_cons_cons, List.length_append, List.length_append,
            List.length_cons (a := item), Nat.mul_succ]
          omega

/-- Split at every occurrence of a separator, from the left and without overlaps;
    the first argument counts what is left of an occurrence being passed. -/
def splitAtText {τ : Type} [DecidableEq τ] (sep : List τ) : Nat → List τ → List (List τ)
  | _, [] => [[]]
  | k + 1, _ :: rest => splitAtText sep k rest
  | 0, t :: rest =>
    if sep.isPrefixOf (t :: rest) then [] :: splitAtText sep (sep.length - 1) rest
    else (splitAtText sep 0 rest).modifyHead (t :: ·)

section SplitAtText

variable {τ : Type} [DecidableEq τ] {s : τ} {sep : List τ}

theorem splitAtText_skip (passed rest : List τ) :
    splitAtText sep passed.length (passed ++ rest) = splitAtText sep 0 rest := by
  induction passed with
  | nil => rfl
  | cons t passed ih => exact ih

theorem splitAtText_absent {text : List τ} (absent : s ∉ text) :
    splitAtText (s :: sep) 0 text = [text] := by
  induction text with
  | nil => rfl
  | cons t text ih =>
      have other : (s == t) = false := beq_eq_false_iff_ne.mpr fun same => absent (same ▸ .head _)
      rw [splitAtText, ih fun later => absent (.tail _ later)]
      simp [List.isPrefixOf, other]

theorem splitAtText_first {before : List τ} (absent : s ∉ before) (rest : List τ) :
    splitAtText (s :: sep) 0 (before ++ (s :: sep ++ rest)) =
      before :: splitAtText (s :: sep) 0 rest := by
  induction before with
  | nil =>
      have there : (s :: sep).isPrefixOf (s :: (sep ++ rest)) = true :=
        List.isPrefixOf_iff_prefix.mpr (List.prefix_append (s :: sep) rest)
      have skipped : splitAtText (s :: sep) sep.length (sep ++ rest) =
          splitAtText (s :: sep) 0 rest := splitAtText_skip sep rest
      simp only [List.nil_append, List.cons_append, splitAtText, there, if_true, List.length_cons,
        Nat.add_sub_cancel, skipped]
  | cons t before ih =>
      have other : (s == t) = false := beq_eq_false_iff_ne.mpr fun same => absent (same ▸ .head _)
      rw [List.cons_append, splitAtText, ih fun later => absent (.tail _ later)]
      simp [List.isPrefixOf, other]

end SplitAtText

end Library

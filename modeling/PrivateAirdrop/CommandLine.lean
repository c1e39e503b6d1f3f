import PrivateAirdrop.Library.Text
import PrivateAirdrop.HostEncoding
import PrivateAirdrop.OfflineCircuit

/-! # The command line of the host

`prove` and `chain claim` take their arguments as text. Both read a Merkle path as
comma-separated hexadecimal nodes. Splitting never yields an empty list of items,
so one path has no text at all: the empty one, of a tree with a single leaf.
-/

namespace PrivateAirdrop

open Library
open Library.Alphabet (characters bytes)

/-- `char::is_whitespace`: the characters with the property `White_Space`. -/
def isWhitespace (c : Char) : Bool :=
  (0x09 ≤ c.toNat ∧ c.toNat ≤ 0x0d) ∨ c.toNat = 0x20 ∨ c.toNat = 0x85 ∨ c.toNat = 0xa0 ∨
    c.toNat = 0x1680 ∨ (0x2000 ≤ c.toNat ∧ c.toNat ≤ 0x200a) ∨ c.toNat = 0x2028 ∨
    c.toNat = 0x2029 ∨ c.toNat = 0x202f ∨ c.toNat = 0x205f ∨ c.toNat = 0x3000

/-- The errors of the `hex` crate. -/
inductive FromHexError where
  | invalidHexCharacter (c : UInt8) (index : Nat)
  | oddLength
  deriving Repr, DecidableEq

/-- What a command ends with when its arguments do not parse. -/
inductive CliError where
  | context (message : String) (cause : FromHexError)
  | message (text : String)
  deriving Repr, DecidableEq

namespace FromHex

def val (c : UInt8) (index : Nat) : Except FromHexError Nat :=
  match Hex.value c.toNat with
  | some d => .ok d
  | none => .error (.invalidHexCharacter c index)

/-- The pairs of an even number of bytes, from the index of the first on. -/
def pairs : Nat → List UInt8 → Except FromHexError (List UInt8)
  | index, h :: l :: rest => do
    let high ← val h index
    let low ← val l (index + 1)
    let later ← pairs (index + 2) rest
    return UInt8.ofNat (16 * high + low) :: later
  | _, _ => return []

end FromHex

/-- `Vec::from_hex`, which works on the UTF-8 bytes of its argument. -/
def fromHex (text : List Char) : Except FromHexError (List UInt8) :=
  let hex := utf8 text
  if hex.length % 2 ≠ 0 then .error .oddLength else FromHex.pairs 0 hex

def withContext (message : String) (r : Except FromHexError (List UInt8)) :
    Except CliError (List UInt8) :=
  match r with
  | .ok decoded => .ok decoded
  | .error cause => .error (.context message cause)

def parseHex32 (text : List Char) : Except CliError Bytes32 := do
  let decoded ← withContext "invalid hex" (fromHex text)
  if h : decoded.length = 32 then return ⟨decoded.toArray, by simpa using h⟩
  else throw (.message s!"expected 32 bytes, got {decoded.length}")

def parseProgramId (text : List Char) : Except CliError ProgramId := do
  let decoded ← withContext "invalid program_id hex" (fromHex text)
  if decoded.length = 32 then
    return Vector.ofFn fun i : Fin 8 =>
      UInt32.ofNat (byteRadix.total ((decoded.drop (4 * i.val)).take 4))
  else throw (.message "program_id must be 64 hex chars (32 bytes)")

/-- `merkle_path.split(',').map(|s| parse_hex32(s.trim())).collect()`. -/
def parseMerklePath (text : List Char) : Except CliError (List Bytes32) :=
  (text.splitOn ',').mapM fun s => parseHex32 (trim isWhitespace s)

structure ProveArgs where
  accountId : List Char
  allocation : U128
  distributorId : List Char
  merkleRoot : List Char
  leafIndex : Nat
  merklePath : List Char
  recipientNote : List Char

/-- `prove`, up to the input it hands to the prover. -/
def proveCommand (args : ProveArgs) : Except CliError ProverInput := do
  let acct ← parseHex32 args.accountId
  let dist ← parseHex32 args.distributorId
  let root ← parseHex32 args.merkleRoot
  let noteBytes ← withContext "invalid recipient_note hex" (fromHex args.recipientNote)
  let path ← parseMerklePath args.merklePath
  return {
    accountIdBytes := acct
    allocation := args.allocation
    merklePath := path
    leafIndex := args.leafIndex
    merkleRoot := root
    distributorId := dist
    recipientNotePreimage := noteBytes }

structure ChainClaimArgs where
  programId : List Char
  distributorId : List Char
  accountId : List Char
  allocation : U128
  leafIndex : UInt32
  merklePath : List Char
  recipientNote : List Char

/-- `chain claim`, up to the distributor and the instruction it sends to it. -/
def chainClaimCommand (args : ChainClaimArgs) : Except CliError (Bytes32 × List UInt32) := do
  let pid ← parseProgramId args.programId
  let did ← parseHex32 args.distributorId
  let acct ← parseHex32 args.accountId
  let noteBytes ← withContext "invalid recipient_note hex" (fromHex args.recipientNote)
  let path ← parseMerklePath args.merklePath
  return (did, instrCcSubmitClaim pid acct args.allocation args.leafIndex path noteBytes)

theorem FromHex.val_ok_iff {c : UInt8} {index d : Nat} :
    val c index = .ok d ↔ Hex.value c.toNat = some d := by
  unfold val
  split
  · rename_i e found
    rw [found, Except.ok.injEq, Option.some.injEq]
  · rename_i none_
    simp [none_]

theorem FromHex.pairs_ok_iff {index : Nat} {hex decoded : List UInt8} (even : hex.length % 2 = 0) :
    pairs index hex = .ok decoded ↔ bytes.hexDecode hex = some decoded := by
  fun_induction pairs index hex generalizing decoded with
  | case1 index h l rest ih =>
      have rest_even : rest.length % 2 = 0 := by
        simp only [List.length_cons] at even
        omega
      simp only [bind_eq_ok, val_ok_iff, ih rest_even, Alphabet.hexDecode, Option.bind_eq_some_iff,
        Option.map_eq_some_iff, pure, Except.pure, Except.ok.injEq]
      rfl
  | case2 hex index short =>
      cases hex with
      | nil => simp [Alphabet.hexDecode, pure, Except.pure]
      | cons h rest =>
          cases rest with
          | nil => cases even
          | cons l rest => exact absurd rfl (short h l rest)

theorem fromHex_ok_iff {text : List Char} {decoded : List UInt8} :
    fromHex text = .ok decoded ↔ text.map characters.lower = characters.hexEncode decoded := by
  rw [← characters.hexDecode_eq_some_iff, ← hexDecode_utf8, fromHex]
  split
  · rename_i odd
    constructor
    · intro h
      cases h
    · intro decodes
      have count := bytes.length_of_hexDecode decodes
      omega
  · rename_i even
    exact FromHex.pairs_ok_iff (by omega)

theorem withContext_ok_iff {message : String} {r : Except FromHexError (List UInt8)}
    {decoded : List UInt8} : withContext message r = .ok decoded ↔ r = .ok decoded := by
  cases r with
  | ok found => simp [withContext]
  | error cause => simp [withContext]

theorem parseHex32_ok_iff {text : List Char} {node : Bytes32} :
    parseHex32 text = .ok node ↔
      text.map characters.lower = characters.hexEncode node.toList := by
  rw [← fromHex_ok_iff, parseHex32, bind_eq_ok]
  constructor
  · intro h
    obtain ⟨decoded, found, kept⟩ := h
    split at kept
    · cases kept
      rw [withContext_ok_iff.mp found]
      simp
    · cases kept
  · intro found
    refine ⟨node.toList, withContext_ok_iff.mpr found, ?_⟩
    rw [dif_pos (by simp)]
    exact congrArg Except.ok (Bytes32.toList_injective (Vector.toList_mk ..))

theorem parseMerklePath_ok_iff {text : List Char} {path : List Bytes32} :
    parseMerklePath text = .ok path ↔
      List.Forall₂ (fun item node => (trim isWhitespace item).map characters.lower =
        characters.hexEncode node.toList) (text.splitOn ',') path := by
  rw [parseMerklePath, mapM_eq_ok_iff]
  simp only [parseHex32_ok_iff]

/-- The texts of a node: its digits in any case, with any whitespace around them. -/
def RendersNode (node : Bytes32) (item : List Char) : Prop :=
  ∃ before digits after, item = before ++ (digits ++ after) ∧
    (∀ c ∈ before, isWhitespace c = true) ∧ (∀ c ∈ after, isWhitespace c = true) ∧
    digits.map characters.lower = characters.hexEncode node.toList

/-- The texts of a path: those of its nodes, joined with commas. -/
def Renders (path : List Bytes32) (text : List Char) : Prop :=
  ∃ items, List.Forall₂ RendersNode path items ∧ text = [','].intercalate items

/-- The whitespace around the items taken off, and the letters in lower case. -/
def normalized (text : List Char) : List Char :=
  [','].intercalate ((text.splitOn ',').map fun item =>
    (trim isWhitespace item).map characters.lower)

/-- Both commands read the text as the path, whatever their other arguments are. -/
structure Expresses (text : List Char) (path : List Bytes32) : Prop where
  prove : ∀ args acct dist root note, args.merklePath = text →
    parseHex32 args.accountId = .ok acct → parseHex32 args.distributorId = .ok dist →
    parseHex32 args.merkleRoot = .ok root → fromHex args.recipientNote = .ok note →
    proveCommand args = .ok ⟨acct, args.allocation, path, args.leafIndex, root, dist, note⟩
  chainClaim : ∀ args pid did acct note, args.merklePath = text →
    parseProgramId args.programId = .ok pid → parseHex32 args.distributorId = .ok did →
    parseHex32 args.accountId = .ok acct → fromHex args.recipientNote = .ok note →
    chainClaimCommand args =
      .ok (did, instrCcSubmitClaim pid acct args.allocation args.leafIndex path note)

theorem expresses_iff {text : List Char} {path : List Bytes32} :
    Expresses text path ↔ parseMerklePath text = .ok path := by
  constructor
  · intro h
    let zeros : Bytes32 := Vector.replicate 32 0
    let hex := characters.hexEncode zeros.toList
    have parsed : parseHex32 hex = .ok zeros :=
      parseHex32_ok_iff.mpr (characters.lower_hexEncode _)
    have done := h.prove ⟨hex, 0, hex, hex, 0, text, []⟩ zeros zeros zeros [] rfl parsed parsed
      parsed rfl
    simp only [proveCommand, bind_eq_ok] at done
    obtain ⟨_, -, _, -, _, -, _, -, found, path_, same⟩ := done
    rw [path_]
    exact congrArg Except.ok (congrArg ProverInput.merklePath (Except.ok.inj same))
  · intro h
    constructor
    · intro args acct dist root note same hacct hdist hroot hnote
      rw [← same] at h
      simp only [proveCommand, hacct, hdist, hroot, hnote, h, withContext]
      rfl
    · intro args pid did acct note same hpid hdid hacct hnote
      rw [← same] at h
      simp only [chainClaimCommand, hpid, hdid, hacct, hnote, h, withContext]
      rfl

theorem solid_of_digits {node : Bytes32} {digits : List Char}
    (written : digits.map characters.lower = characters.hexEncode node.toList) :
    ∀ c ∈ digits, isWhitespace c = false ∧ c ≠ ',' := by
  intro c member
  have code : characters.code c = c.toNat := rfl
  have digit := characters.code_of_lower written c member
  rw [code] at digit
  constructor
  · simp only [isWhitespace, decide_eq_false_iff_not]
    omega
  · intro comma
    subst comma
    revert digit
    decide

theorem RendersNode.trimmed {node : Bytes32} {item : List Char} (h : RendersNode node item) :
    (trim isWhitespace item).map characters.lower = characters.hexEncode node.toList := by
  obtain ⟨before, digits, after, rfl, blank, blank', written⟩ := h
  rw [trim_padded blank blank' fun c member => (solid_of_digits written c member).1, written]

theorem RendersNode.no_comma {node : Bytes32} {item : List Char} (h : RendersNode node item) :
    ',' ∉ item := by
  obtain ⟨before, digits, after, rfl, blank, blank', written⟩ := h
  have comma : isWhitespace ',' ≠ true := by decide
  intro member
  cases List.mem_append.mp member with
  | inl inBefore => exact comma (blank _ inBefore)
  | inr later =>
      cases List.mem_append.mp later with
      | inl inDigits => exact (solid_of_digits written _ inDigits).2 rfl
      | inr inAfter => exact comma (blank' _ inAfter)

theorem Renders.parsed {path : List Bytes32} {text : List Char} (h : Renders path text)
    (some_ : path ≠ []) : parseMerklePath text = .ok path := by
  obtain ⟨items, rendered, rfl⟩ := h
  have apart : ∀ item ∈ items, ',' ∉ item := by
    intro item member
    obtain ⟨node, -, renders⟩ := exists_of_forall₂ rendered member
    exact renders.no_comma
  have nonempty : items ≠ [] := by
    intro none_
    rw [none_, List.forall₂_nil_right_iff] at rendered
    exact some_ rendered
  rw [parseMerklePath_ok_iff, List.splitOn_intercalate ',' apart nonempty]
  exact rendered.flip.imp fun _ _ renders => RendersNode.trimmed renders

theorem parseMerklePath_nil : parseMerklePath [] = .error (.message "expected 32 bytes, got 0") := by
  rfl

theorem parseMerklePath_normalized {text : List Char} {path : List Bytes32}
    (h : parseMerklePath text = .ok path) :
    [','].intercalate (path.map fun node => characters.hexEncode node.toList) =
      normalized text := by
  have items := parseMerklePath_ok_iff.mp h
  rw [normalized]
  congr 1
  clear h
  generalize text.splitOn ',' = pieces at items
  induction items with
  | nil => rfl
  | cons first _ ih => rw [List.map_cons, List.map_cons, first, ih]

/-- A path is read from each of its texts by both commands exactly when it has a
    node; and whatever text is read is a text of the path it is read as. -/
theorem merklePath_expressible_iff (path : List Bytes32) :
    ((∀ text, Renders path text → Expresses text path) ↔ path ≠ []) ∧
      ∀ text, parseMerklePath text = .ok path →
        [','].intercalate (path.map fun node => characters.hexEncode node.toList) =
          normalized text := by
  refine ⟨?_, fun text => parseMerklePath_normalized⟩
  constructor
  · intro all none_
    subst none_
    have parsed := expresses_iff.mp (all [] ⟨[], .nil, rfl⟩)
    rw [parseMerklePath_nil] at parsed
    cases parsed
  · intro some_ text renders
    exact expresses_iff.mpr (renders.parsed some_)

/-- The empty path has a text, and neither command reads it. -/
theorem empty_path_not_expressible :
    ¬ ∀ (path : List Bytes32) (text : List Char), Renders path text → Expresses text path := by
  intro all
  have parsed := expresses_iff.mp (all [] [] ⟨[], .nil, rfl⟩)
  rw [parseMerklePath_nil] at parsed
  cases parsed

end PrivateAirdrop

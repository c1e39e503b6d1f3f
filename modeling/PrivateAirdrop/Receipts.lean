import PrivateAirdrop.Soundness
import PrivateAirdrop.CommandLine

/-! # Receipts of the offline circuit

`prove` writes its input as words for the guest, has the run proved and stores the
receipt as bytes; `verify` reads them back, has the receipt checked and compares
its journal with its own arguments. The prover, the verifier and the words of a
receipt are not in this repository; what is relied on of them is `Zkvm`.
-/

namespace PrivateAirdrop

open Library
open Library.Alphabet (characters)

/-- `bytemuck::cast_slice` from words to bytes, on a little-endian machine. -/
def castSlice (words : List UInt32) : List UInt8 := words.flatMap U32.toLeBytes

/-- `chunks_exact(4)`, each chunk a word: up to three bytes at the end are not read. -/
def chunksExact : List UInt8 → List UInt32
  | a :: b :: c :: d :: rest => UInt32.ofNat (byteRadix.total [a, b, c, d]) :: chunksExact rest
  | _ => []

theorem chunksExact_castSlice (words : List UInt32) {tail : List UInt8} (short : tail.length < 4) :
    chunksExact (castSlice words ++ tail) = words := by
  induction words with
  | nil =>
      rw [castSlice, List.flatMap_nil, List.nil_append]
      unfold chunksExact
      split
      · simp only [List.length_cons] at short
        omega
      · rfl
  | cons v words ih =>
      have back := byteRadix.total_write 4 v.toNat v.toNat_lt
      have first : U32.toLeBytes v = byteRadix.write 4 v.toNat := rfl
      have again : castSlice (v :: words) = byteRadix.write 4 v.toNat ++ castSlice words := rfl
      simp only [Radix.write] at back again
      rw [again]
      simp only [List.cons_append, List.nil_append, chunksExact, back, ih, UInt32.ofNat_toNat]

theorem castSlice_length (words : List UInt32) : (castSlice words).length = 4 * words.length := by
  simp [castSlice, List.length_flatMap, Nat.mul_comm]

namespace Words

/-- A `usize` of the host travels as a `u64`. -/
def u64 : Format UInt32 Nat := wordRadix.little 2

/-- A `usize` of the guest, which has 32 bits: larger numbers are refused. -/
def usize : Format UInt32 UInt32 :=
  u64.via UInt32.toNat (fun n => if n < 2 ^ 32 then some (UInt32.ofNat n) else none)
    (fun v => by simpa using v.toNat_lt)
    (by
      intro n v ts _ back
      split at back
      · rename_i small
        cases back
        exact Nat.mod_eq_of_lt small
      · cases back)

theorem usize_decode {n : Nat} {ts : List UInt32} (h : u64.encode n = some ts)
    (rest : List UInt32) :
    usize.decode (ts ++ rest) = if n < 2 ^ 32 then some (UInt32.ofNat n, rest) else none := by
  simp only [usize, Format.via, u64.reads h, Option.bind_some]
  split <;> rfl

end Words

/-- `GuestInput`, as the guest declares it. -/
structure GuestInput where
  accountIdBytes : Bytes32
  allocation : U128
  merklePath : List Bytes32
  leafIndex : UInt32
  merkleRoot : Bytes32
  distributorId : Bytes32
  recipientNotePreimage : List UInt8

/-- What the host writes. -/
def ProverInput.format : Format UInt32 ProverInput :=
  (Words.bytes32.pair (Words.u128.pair ((Words.vec Words.bytes32).pair (Words.u64.pair
    (Words.bytes32.pair (Words.bytes32.pair (Words.vec Words.u8))))))).via
    (fun r => (r.accountIdBytes, r.allocation, r.merklePath, r.leafIndex, r.merkleRoot,
      r.distributorId, r.recipientNotePreimage))
    (fun (account, allocation, path, index, root, distributor, note) =>
      some ⟨account, allocation, path, index, root, distributor, note⟩)
    (fun _ => rfl)
    (fun _ back => by obtain rfl := Option.some.inj back; rfl)

/-- What the guest reads. -/
def GuestInput.format : Format UInt32 GuestInput :=
  (Words.bytes32.pair (Words.u128.pair ((Words.vec Words.bytes32).pair (Words.usize.pair
    (Words.bytes32.pair (Words.bytes32.pair (Words.vec Words.u8))))))).via
    (fun r => (r.accountIdBytes, r.allocation, r.merklePath, r.leafIndex, r.merkleRoot,
      r.distributorId, r.recipientNotePreimage))
    (fun (account, allocation, path, index, root, distributor, note) =>
      some ⟨account, allocation, path, index, root, distributor, note⟩)
    (fun _ => rfl)
    (fun _ back => by obtain rfl := Option.some.inj back; rfl)

/-- What the guest commits, and `Journal` of the host reads. -/
def ClaimAttestation.format : Format UInt32 ClaimAttestation :=
  (Words.bytes32.pair (Words.bytes32.pair (Words.bytes32.pair (Words.u128.pair
    Words.bytes32)))).via
    (fun j => (j.merkleRoot, j.nullifier, j.distributorId, j.allocation, j.recipientNoteHash))
    (fun (root, nullifier, distributor, allocation, noteHash) =>
      some ⟨root, nullifier, distributor, allocation, noteHash⟩)
    (fun _ => rfl)
    (fun _ back => by obtain rfl := Option.some.inj back; rfl)

def ClaimAttestation.words (j : ClaimAttestation) : List UInt32 :=
  j.merkleRoot.toList.map UInt8.toUInt32 ++ (j.nullifier.toList.map UInt8.toUInt32 ++
    (j.distributorId.toList.map UInt8.toUInt32 ++ (wordRadix.write 4 j.allocation.toNat ++
      j.recipientNoteHash.toList.map UInt8.toUInt32)))

/-- The bytes of the journal of a receipt. -/
def ClaimAttestation.bytes (j : ClaimAttestation) : List UInt8 := castSlice j.words

/-- `receipt.journal.decode()`: whole words only, and nothing is asked of those left over. -/
def decodeJournal (bytes : List UInt8) : Option ClaimAttestation :=
  if bytes.length % 4 = 0 then
    (ClaimAttestation.format.decode (chunksExact bytes)).map Prod.fst
  else none

/-- The input with the index the guest has read. -/
def GuestInput.proverInput (g : GuestInput) : ProverInput where
  accountIdBytes := g.accountIdBytes
  allocation := g.allocation
  merklePath := g.merklePath
  leafIndex := g.leafIndex.toNat
  merkleRoot := g.merkleRoot
  distributorId := g.distributorId
  recipientNotePreimage := g.recipientNotePreimage

/-- The guest program on what was written for it: the journal, unless it panics. -/
def Guest.program (H : Sha256) (written : List UInt32) : Option (List UInt8) :=
  match GuestInput.format.decode written with
  | none => none
  | some (g, _) => (Guest.main H g.proverInput).toOption.map ClaimAttestation.bytes

section Guest

variable {H : Sha256}

theorem ClaimAttestation.encode_eq (j : ClaimAttestation) :
    ClaimAttestation.format.encode j = some j.words := by
  simp only [format, Format.via, Format.pair, Words.bytes32_encode, Words.u128_encode,
    Option.bind_some, Option.map_some, words]

theorem decodeJournal_bytes (j : ClaimAttestation) : decodeJournal j.bytes = some j := by
  have whole : j.bytes.length % 4 = 0 := by
    rw [ClaimAttestation.bytes, castSlice_length]
    omega
  have words : chunksExact (castSlice j.words ++ []) = j.words :=
    chunksExact_castSlice j.words (by decide)
  have read := ClaimAttestation.format.reads j.encode_eq []
  rw [List.append_nil] at words read
  rw [decodeJournal, if_pos whole, ClaimAttestation.bytes, words, read]
  rfl

theorem ClaimAttestation.bytes_length (j : ClaimAttestation) : j.bytes.length = 528 := by
  simp [bytes, castSlice_length, words]

theorem guest_reads {input : ProverInput} {written : List UInt32}
    (writes : ProverInput.format.encode input = some written) (rest : List UInt32) :
    GuestInput.format.decode (written ++ rest) =
      if input.leafIndex < 2 ^ 32 then
        some (⟨input.accountIdBytes, input.allocation, input.merklePath,
          UInt32.ofNat input.leafIndex, input.merkleRoot, input.distributorId,
          input.recipientNotePreimage⟩, rest)
      else none := by
  unfold ProverInput.format Format.via at writes
  simp only [Format.pair_encode_iff] at writes
  obtain ⟨_, _, h₁, ⟨_, _, h₂, ⟨_, _, h₃, ⟨_, _, h₄, ⟨_, _, h₅, ⟨_, _, h₆, h₇, rfl⟩, rfl⟩, rfl⟩,
    rfl⟩, rfl⟩, rfl⟩ := writes
  have index := Words.usize_decode h₄
  by_cases small : input.leafIndex < 2 ^ 32
  · simp only [small, if_true] at index ⊢
    simp only [GuestInput.format, Format.via, Format.pair, List.append_assoc,
      Words.bytes32.reads h₁, Words.u128.reads h₂, (Words.vec Words.bytes32).reads h₃, index,
      Words.bytes32.reads h₅, Words.bytes32.reads h₆, (Words.vec Words.u8).reads h₇,
      Option.bind_some, Option.map_some]
  · simp only [small, if_false] at index ⊢
    simp only [GuestInput.format, Format.via, Format.pair, List.append_assoc,
      Words.bytes32.reads h₁, Words.u128.reads h₂, (Words.vec Words.bytes32).reads h₃, index,
      Option.bind_some, Option.bind_none, Option.map_none]

end Guest

/-- What the guest commits to for an input it accepts. -/
def ProverInput.attestation (H : Sha256) (input : ProverInput) : ClaimAttestation where
  merkleRoot := input.merkleRoot
  nullifier := deriveNullifier H input.accountIdBytes input.distributorId
  distributorId := input.distributorId
  allocation := input.allocation
  recipientNoteHash := H input.recipientNotePreimage

/-- The root the claim circuit computes from the same input. -/
def ProverInput.computedRoot (H : Sha256) (input : ProverInput) : Bytes32 :=
  merkleWalk H (leafHash H input.accountIdBytes input.allocation) (UInt32.ofNat input.leafIndex)
    input.merklePath

theorem Guest.main_eq_attestation_iff {H : Sha256} {g : GuestInput} {att : ClaimAttestation} :
    Guest.main H g.proverInput = .ok att ↔
      g.proverInput.computedRoot H = g.merkleRoot ∧ att = g.proverInput.attestation H := by
  have index : UInt32.ofNat g.leafIndex.toNat = g.leafIndex := UInt32.ofNat_toNat
  rw [Guest.main_ok_iff rfl, ProverInput.computedRoot]
  simp only [GuestInput.proverInput, index]
  apply and_congr_right
  intro _
  cases att
  simp [ClaimAttestation.journal, claimJournal, ProverInput.attestation]

theorem guest_program_ok_iff {H : Sha256} {input : ProverInput} {written : List UInt32}
    (writes : ProverInput.format.encode input = some written) (rest : List UInt32)
    {bytes : List UInt8} : Guest.program H (written ++ rest) = some bytes ↔
      input.leafIndex < 2 ^ 32 ∧ input.computedRoot H = input.merkleRoot ∧
        bytes = (input.attestation H).bytes := by
  rw [Guest.program, guest_reads writes rest]
  by_cases small : input.leafIndex < 2 ^ 32
  · let g : GuestInput := ⟨input.accountIdBytes, input.allocation, input.merklePath,
      UInt32.ofNat input.leafIndex, input.merkleRoot, input.distributorId,
      input.recipientNotePreimage⟩
    have read : g.proverInput = input := by
      simp only [g, GuestInput.proverInput, UInt32.toNat_ofNat_of_lt' small]
    have main : ∀ att, Guest.main H g.proverInput = .ok att ↔
        input.computedRoot H = input.merkleRoot ∧ att = input.attestation H := by
      intro att
      rw [Guest.main_eq_attestation_iff, read]
    simp only [small, if_true, true_and]
    cases run : Guest.main H g.proverInput with
    | error e =>
        simp only [Except.toOption, Option.map_none, reduceCtorEq, false_iff]
        rintro ⟨included, -⟩
        cases run.symm.trans ((main _).mpr ⟨included, rfl⟩)
    | ok att =>
        obtain ⟨included, rfl⟩ := (main att).mp run
        simp only [Except.toOption, Option.map_some, Option.some.injEq, included, true_and]
        exact eq_comm
  · simp only [small, if_false, false_and, reduceCtorEq]

/-- The guest reads from the words of an input, whatever follows them, exactly what
    was written when the index fits 32 bits and nothing when it does not. So it ends
    well on just the inputs whose entry the claim circuit would accept, and commits
    to what the host reads back; none of its journals is one of the airdrop program. -/
theorem guest_program_iff (H : Sha256) (input : ProverInput) {written : List UInt32}
    (writes : ProverInput.format.encode input = some written) (rest : List UInt32) :
    ((∃ g, GuestInput.format.decode (written ++ rest) = some (g, rest) ∧ g.proverInput = input) ↔
        input.leafIndex < 2 ^ 32) ∧
      (∀ bytes, Guest.program H (written ++ rest) = some bytes ↔
        input.leafIndex < 2 ^ 32 ∧ input.computedRoot H = input.merkleRoot ∧
          bytes = (input.attestation H).bytes) ∧
      ∀ bytes, Guest.program H (written ++ rest) = some bytes →
        decodeJournal bytes = some (input.attestation H) ∧ ClaimJournal.tryFromSlice bytes = none := by
  refine ⟨?_, fun bytes => guest_program_ok_iff writes rest, ?_⟩
  · rw [guest_reads writes rest]
    constructor
    · rintro ⟨g, found, -⟩
      by_contra large
      rw [if_neg large] at found
      cases found
    · intro small
      rw [if_pos small]
      refine ⟨_, rfl, ?_⟩
      simp only [GuestInput.proverInput, UInt32.toNat_ofNat_of_lt' small]
  · intro bytes ends
    obtain ⟨-, -, rfl⟩ := (guest_program_ok_iff writes rest).mp ends
    refine ⟨decodeJournal_bytes _, ?_⟩
    cases decoded : ClaimJournal.tryFromSlice (input.attestation H).bytes with
    | none => rfl
    | some j =>
        have size := ClaimJournal.format_fixed.decodeAll_iff.mp ⟨j, decoded⟩
        rw [ClaimAttestation.bytes_length] at size
        cases size

/-- The first of two entries, with a word after its input. -/
theorem guest_program_iff_first :
    let H := lengthHash
    let zeros : Bytes32 := Vector.replicate 32 0
    let sibling := leafHash H zeros 7
    let input : ProverInput := ⟨zeros, 5, [sibling], 0, nodeHash H sibling sibling, zeros, []⟩
    ∃ written, ProverInput.format.encode input = some written ∧
      Guest.program H (written ++ [7]) = some (input.attestation H).bytes := by
  intro H zeros sibling input
  have writes : (ProverInput.format.encode input).isSome = true := by decide +kernel
  obtain ⟨written, writes⟩ := Option.isSome_iff_exists.mp writes
  obtain ⟨-, ends, -⟩ := guest_program_iff H input writes [7]
  exact ⟨written, writes, (ends _).mpr ⟨by decide, by decide +kernel, rfl⟩⟩

/-- The prover and the verifier for one guest program, and the words of receipts.
    Errors are their debug texts. -/
structure Zkvm (guest : List UInt32 → Option (List UInt8)) where
  Receipt : Type
  journal : Receipt → List UInt8
  prove : List UInt32 → Except String Receipt
  verify : Receipt → Except String Unit
  toVec : Receipt → Except String (List UInt32)
  fromSlice : List UInt32 → Except String Receipt
  /-- What is proved is a run of the guest that ends well, and verifies. -/
  proved : ∀ {written r}, prove written = .ok r →
    guest written = some (journal r) ∧ verify r = .ok ()
  /-- A receipt that verifies is one of a run of the guest. -/
  sound : ∀ {r}, verify r = .ok () → ∃ written, guest written = some (journal r)
  restored : ∀ {r words}, toVec r = .ok words → fromSlice words = .ok r

/-- A stand-in whose receipts are the words the guest was run on. -/
def Zkvm.transparent (guest : List UInt32 → Option (List UInt8)) : Zkvm guest where
  Receipt := List UInt32
  journal r := (guest r).getD []
  prove written := if (guest written).isSome then .ok written else .error "guest panicked"
  verify r := if (guest r).isSome then .ok () else .error "invalid"
  toVec r :=
    match (Words.vec Words.u32).encode r with
    | some words => .ok words
    | none => .error "too long"
  fromSlice words :=
    match (Words.vec Words.u32).decode words with
    | some (r, _) => .ok r
    | none => .error "unexpected end"
  proved := by
    intro written r h
    split at h
    · rename_i ends
      cases h
      obtain ⟨bytes, ends⟩ := Option.isSome_iff_exists.mp ends
      simp [ends]
    · cases h
  sound := by
    intro r h
    split at h
    · rename_i ends
      obtain ⟨bytes, ends⟩ := Option.isSome_iff_exists.mp ends
      exact ⟨r, by simp [ends]⟩
    · cases h
  restored := by
    intro r words h
    split at h
    · rename_i written writes
      cases h
      have read := (Words.vec Words.u32).reads writes []
      rw [List.append_nil] at read
      simp only [read]
    · cases h

/-- Why a command ends without its result. -/
inductive ReceiptError where
  | arguments (e : CliError)
  | input
  | prover (text : String)
  | message (text : String)
  | verification (text : String)
  | journal
  deriving Repr, DecidableEq

def orElse {ε α : Type} (f : ε → ReceiptError) : Except ε α → Except ReceiptError α
  | .ok a => .ok a
  | .error e => .error (f e)

/-- The receipt `prove` has written, and what it has printed. -/
structure Proved where
  file : List UInt8
  stdout : List (List Char)
  deriving Repr, DecidableEq

def hexLine (label : String) (digest : Bytes32) : List Char :=
  label.toList ++ characters.hexEncode digest.toList

def numberLine (label : String) (n : U128) : List Char := label.toList ++ Nat.toDigits 10 n.toNat

/-- `airdrop-claim prove`, on a file system that takes what is written. -/
def proveMain {guest : List UInt32 → Option (List UInt8)} (Z : Zkvm guest) (args : ProveArgs) :
    Except ReceiptError Proved := do
  let input ← orElse .arguments (proveCommand args)
  let some written := ProverInput.format.encode input | throw .input
  let receipt ← orElse .prover (Z.prove written)
  let words ← orElse (fun e => .message ("serialise: " ++ e)) (Z.toVec receipt)
  let some j := decodeJournal (Z.journal receipt) | throw .journal
  return {
    file := castSlice words
    stdout := [
      hexLine "merkle_root:         " j.merkleRoot,
      hexLine "distributor_id:      " j.distributorId,
      hexLine "nullifier:           " j.nullifier,
      numberLine "allocation:          " j.allocation,
      hexLine "recipient_note_hash: " j.recipientNoteHash] }

structure VerifyArgs where
  distributorId : List Char
  merkleRoot : List Char
  recipientNote : List Char

/-- `airdrop-claim verify`, on the bytes of the receipt file. -/
def verifyMain (H : Sha256) {guest : List UInt32 → Option (List UInt8)} (Z : Zkvm guest)
    (args : VerifyArgs) (raw : List UInt8) : Except ReceiptError (List (List Char)) := do
  let dist ← orElse .arguments (parseHex32 args.distributorId)
  let root ← orElse .arguments (parseHex32 args.merkleRoot)
  let noteBytes ← orElse .arguments
    (withContext "invalid recipient_note hex" (fromHex args.recipientNote))
  let words := chunksExact raw
  let r ← orElse (fun e => .message ("deserialise: " ++ e)) (Z.fromSlice words)
  orElse .verification (Z.verify r)
  let some j := decodeJournal (Z.journal r) | throw .journal
  orElse .message (verifyJournal H j dist root noteBytes)
  return ["OK".toList, hexLine "nullifier:  " j.nullifier, numberLine "allocation: " j.allocation]

section Commands

variable {H : Sha256} {guest : List UInt32 → Option (List UInt8)} {Z : Zkvm guest}

@[simp] theorem orElse_eq_ok {ε α : Type} {f : ε → ReceiptError} {x : Except ε α} {a : α} :
    orElse f x = .ok a ↔ x = .ok a := by
  cases x with
  | error e => simp [orElse]
  | ok b => simp [orElse]

theorem proveCommand_ok {args : ProveArgs} {input : ProverInput}
    (h : proveCommand args = .ok input) :
    parseHex32 args.accountId = .ok input.accountIdBytes ∧
      parseHex32 args.distributorId = .ok input.distributorId ∧
      parseHex32 args.merkleRoot = .ok input.merkleRoot ∧
      fromHex args.recipientNote = .ok input.recipientNotePreimage ∧
      parseMerklePath args.merklePath = .ok input.merklePath ∧
      input.allocation = args.allocation ∧ input.leafIndex = args.leafIndex := by
  simp only [proveCommand, bind_eq_ok, withContext_ok_iff, pure, Except.pure, Except.ok.injEq] at h
  obtain ⟨account, h₁, distributor, h₂, root, h₃, note, h₄, path, h₅, rfl⟩ := h
  exact ⟨h₁, h₂, h₃, h₄, h₅, rfl, rfl⟩

/-- What `verify` has seen before it prints OK. -/
structure Verified (H : Sha256) (Z : Zkvm guest) (args : VerifyArgs) (raw : List UInt8)
    (r : Z.Receipt) (j : ClaimAttestation) : Prop where
  distributor : parseHex32 args.distributorId = .ok j.distributorId
  root : parseHex32 args.merkleRoot = .ok j.merkleRoot
  note : ∃ note, fromHex args.recipientNote = .ok note ∧ H note = j.recipientNoteHash
  read : Z.fromSlice (chunksExact raw) = .ok r
  verified : Z.verify r = .ok ()
  journal : decodeJournal (Z.journal r) = some j

def ClaimAttestation.verifyLines (j : ClaimAttestation) : List (List Char) :=
  ["OK".toList, hexLine "nullifier:  " j.nullifier, numberLine "allocation: " j.allocation]

theorem verifyMain_ok_iff {args : VerifyArgs} {raw : List UInt8} {out : List (List Char)} :
    verifyMain H Z args raw = .ok out ↔
      ∃ r j, Verified H Z args raw r j ∧ out = j.verifyLines := by
  unfold verifyMain
  simp only [bind_eq_ok, orElse_eq_ok, withContext_ok_iff]
  constructor
  · rintro ⟨dist, hdist, root, hroot, note, hnote, r, read, _, verified, rest⟩
    cases journal : decodeJournal (Z.journal r) with
    | none => simp [journal] at rest
    | some j =>
        simp only [journal, bind_eq_ok, orElse_eq_ok, pure, Except.pure, Except.ok.injEq] at rest
        obtain ⟨_, checks, same⟩ := rest
        obtain ⟨rfl, rfl, hash⟩ := verifyJournal_ok_iff.mp checks
        exact ⟨r, j, ⟨hdist, hroot, ⟨note, hnote, hash⟩, read, verified, journal⟩, same.symm⟩
  · rintro ⟨r, j, ⟨hdist, hroot, ⟨note, hnote, hash⟩, read, verified, journal⟩, rfl⟩
    have checks : verifyJournal H j j.distributorId j.merkleRoot note = .ok () :=
      verifyJournal_ok_iff.mpr ⟨rfl, rfl, hash⟩
    refine ⟨_, hdist, _, hroot, note, hnote, r, read, (), verified, ?_⟩
    simp only [journal, checks, orElse, pure, Except.pure, bind, Except.bind]
    rfl

/-- What `prove` prints of what the guest committed to. -/
def ClaimAttestation.proveLines (j : ClaimAttestation) : List (List Char) := [
  hexLine "merkle_root:         " j.merkleRoot,
  hexLine "distributor_id:      " j.distributorId,
  hexLine "nullifier:           " j.nullifier,
  numberLine "allocation:          " j.allocation,
  hexLine "recipient_note_hash: " j.recipientNoteHash]

theorem proveMain_ok {args : ProveArgs} {out : Proved} (h : proveMain Z args = .ok out) :
    ∃ input written receipt words j, proveCommand args = .ok input ∧
      ProverInput.format.encode input = some written ∧ Z.prove written = .ok receipt ∧
      Z.toVec receipt = .ok words ∧ decodeJournal (Z.journal receipt) = some j ∧
      out = ⟨castSlice words, j.proveLines⟩ := by
  unfold proveMain at h
  obtain ⟨input, parsed, rest⟩ := bind_eq_ok.mp h
  cases writes : ProverInput.format.encode input with
  | none => simp [writes] at rest
  | some written =>
      simp only [writes, bind_eq_ok, orElse_eq_ok] at rest
      obtain ⟨receipt, proves, words, stores, rest⟩ := rest
      cases journal : decodeJournal (Z.journal receipt) with
      | none => simp [journal] at rest
      | some j =>
          simp only [journal, pure, Except.pure, Except.ok.injEq] at rest
          exact ⟨input, written, receipt, words, j, orElse_eq_ok.mp parsed, writes, proves, stores,
            journal, rest.symm⟩

end Commands

/-- A receipt that `prove` writes is one of an entry the claim circuit accepts, at an
    index of 32 bits, and it prints what the guest committed to. `verify` passes the
    file, with or without up to three bytes more, exactly for the distributor and
    the root it was proved with and a note of the same hash, and prints the same
    nullifier and allocation. -/
theorem prove_then_verify {H : Sha256} (Z : Zkvm (Guest.program H)) {args : ProveArgs} {out : Proved}
    (proved : proveMain Z args = .ok out) :
    ∃ input, proveCommand args = .ok input ∧ input.leafIndex < 2 ^ 32 ∧
      input.computedRoot H = input.merkleRoot ∧ out.stdout = (input.attestation H).proveLines ∧
      ∀ vargs tail lines, List.length tail < 4 →
        (verifyMain H Z vargs (out.file ++ tail) = .ok lines ↔
          parseHex32 vargs.distributorId = .ok input.distributorId ∧
          parseHex32 vargs.merkleRoot = .ok input.merkleRoot ∧
          (∃ note, fromHex vargs.recipientNote = .ok note ∧
            H note = H input.recipientNotePreimage) ∧
          lines = (input.attestation H).verifyLines) := by
  obtain ⟨input, written, receipt, words, j, parsed, writes, proves, stores, journal, rfl⟩ :=
    proveMain_ok proved
  obtain ⟨ends, verifies⟩ := Z.proved proves
  have ends' : Guest.program H (written ++ []) = some (Z.journal receipt) := by
    rw [List.append_nil]
    exact ends
  obtain ⟨small, included, committed⟩ := (guest_program_ok_iff writes []).mp ends'
  have committed_ : decodeJournal (Z.journal receipt) = some (input.attestation H) := by
    rw [committed]
    exact decodeJournal_bytes _
  cases journal.symm.trans committed_
  refine ⟨input, parsed, small, included, rfl, ?_⟩
  intro vargs tail lines short
  have file := chunksExact_castSlice words short
  have restored := Z.restored stores
  rw [verifyMain_ok_iff]
  constructor
  · rintro ⟨r, j, ok, rfl⟩
    have read := ok.read
    rw [file] at read
    cases restored.symm.trans read
    cases committed_.symm.trans ok.journal
    exact ⟨ok.distributor, ok.root, ok.note, rfl⟩
  · rintro ⟨distributor, root, note, rfl⟩
    refine ⟨receipt, input.attestation H, ⟨distributor, root, note, ?_, verifies, committed_⟩, rfl⟩
    rw [file]
    exact restored

theorem ok_of_toOption {ε α : Type} {x : Except ε α} {a : α} (h : x.toOption = some a) :
    x = .ok a := by
  cases x with
  | error e => cases h
  | ok b => exact congrArg Except.ok (Option.some.inj h)

/-- The receipt of the first of two entries, with a byte after it. -/
theorem prove_then_verify_first :
    let H := lengthHash
    let Z := Zkvm.transparent (Guest.program H)
    let zeros := List.replicate 64 '0'
    let sibling := (List.replicate 32 ['3', '1']).flatten
    let root := (List.replicate 32 ['4', '1']).flatten
    let args : ProveArgs := ⟨zeros, 5, zeros, root, 0, sibling, []⟩
    ∃ out, proveMain Z args = .ok out ∧ ∃ lines,
      verifyMain H Z ⟨zeros, root, []⟩ (out.file ++ [7]) = .ok lines := by
  intro H Z zeros sibling root args
  have some_ : (proveMain Z args).toOption.isSome = true := by decide +kernel
  obtain ⟨out, found⟩ := Option.isSome_iff_exists.mp some_
  have proved := ok_of_toOption found
  obtain ⟨input, parsed, -, -, -, verifies⟩ := prove_then_verify Z proved
  obtain ⟨-, distributor, same, note, -⟩ := proveCommand_ok parsed
  exact ⟨out, proved, _, (verifies ⟨zeros, root, []⟩ [7] _ (by decide)).mpr
    ⟨distributor, same, ⟨_, note, rfl⟩, rfl⟩⟩

end PrivateAirdrop

import PrivateAirdrop.ClaimCircuit

/-! # What travels between the programs and the host

The claim circuit writes its journal by hand, byte after byte, and the host writes
its instructions by hand, word after word. Their readers are derived: from the
declared types and their order. Both are compared here for every value.
-/

namespace PrivateAirdrop

open Library

theorem tryFromSlice_iff_journalBytes {bytes : List UInt8} {j : ClaimJournal} :
    ClaimJournal.tryFromSlice bytes = some j ↔ bytes = journalBytes j := by
  constructor
  · intro found
    have same := ClaimJournal.format.decodeAll_iff.mp found
    rw [ClaimJournal.encode_eq] at same
    rw [← Option.some.inj same]
    simp only [journalBytes, List.append_assoc]
  · intro same
    rw [same]
    exact tryFromSlice_journalBytes j

/-- The journal and the note of a chained claim arrive as they were written. The
    bytes that decode are the hand-written ones and no others, all 144 bytes long; and
    what `submitClaim` chains is read as the claim of its arguments under the root of
    the state it has decoded. -/
theorem chained_payload_round_trip :
    (∀ (j : ClaimJournal) (note : List UInt8), note.length < 2 ^ 32 →
      ClaimJournal.tryFromSlice (journalBytes j) = some j ∧
        Instruction.decode (AirdropInstruction.claim (journalBytes j) note).words =
          some (.claim (journalBytes j) note)) ∧
    (∀ bytes j, ClaimJournal.tryFromSlice bytes = some j ↔ bytes = journalBytes j) ∧
    (∀ bytes, (∃ j, ClaimJournal.tryFromSlice bytes = some j) ↔ bytes.length = 144) ∧
    ∀ H dist claimerNote target a v i path note out, note.length < 2 ^ 32 →
      submitClaim H dist claimerNote target a v i path note = .ok out →
      ∃ s call bytes, DistributionState.tryFromSlice dist.account.data = some s ∧
        out.chainedCalls = [call] ∧ call.programId = target ∧
        Instruction.decode call.instructionData = some (.claim bytes note) ∧
        ClaimJournal.tryFromSlice bytes =
          some ⟨s.merkleRoot, deriveNullifier H a dist.accountId, dist.accountId, v, H note⟩ := by
  have short : ∀ j : ClaimJournal, (journalBytes j).length < 2 ^ 32 := by
    intro j
    rw [journalBytes_length]
    decide
  refine ⟨?_, ?_, ?_, ?_⟩
  · intro j note fits
    exact ⟨tryFromSlice_journalBytes j, decode_claim_words (short j) fits⟩
  · intro bytes j
    exact tryFromSlice_iff_journalBytes
  · intro bytes
    exact ClaimJournal.format_fixed.decodeAll_iff
  · intro H dist claimerNote target a v i path note out fits submitted
    obtain ⟨s, state, -, rfl⟩ := submitClaim_ok_iff.mp submitted
    exact ⟨s, _, _, state, rfl, rfl, decode_claim_words (short _) fits, tryFromSlice_journalBytes _⟩

/-- The second of two entries, submitted with a note of two bytes. -/
theorem chained_payload_round_trip_second :
    let H := headHash
    let D : AccountId := Vector.replicate 32 0
    let ids : ProgramId := Vector.replicate 8 1
    let a : Bytes32 := Vector.replicate 32 3
    let sibling := leafHash H (Vector.replicate 32 2) 5
    let root := nodeHash H sibling (leafHash H a 7)
    let s := DistributionState.initial root ids 12
    let dist : AccountWithMetadata := ⟨⟨ids, s.header ++ [0, 0, 0, 0]⟩, false, D⟩
    ∃ out call bytes, submitClaim H dist dist ids a 7 1 [sibling] [1, 2] = .ok out ∧
      out.chainedCalls = [call] ∧
      Instruction.decode call.instructionData = some (.claim bytes [1, 2]) ∧
      ClaimJournal.tryFromSlice bytes = some ⟨root, deriveNullifier H a D, D, 7, H [1, 2]⟩ := by
  intro H D ids a sibling root s dist
  have state : DistributionState.tryFromSlice dist.account.data = some s := by decide +kernel
  have included : merkleWalk H (leafHash H a 7) 1 [sibling] = s.merkleRoot := rfl
  obtain ⟨out, accepts⟩ : ∃ out, submitClaim H dist dist ids a 7 1 [sibling] [1, 2] = .ok out :=
    ⟨_, submitClaim_ok_iff.mpr ⟨s, state, included, rfl⟩⟩
  obtain ⟨s', call, bytes, state', chained, -, decoded, journal⟩ :=
    chained_payload_round_trip.2.2.2 H dist dist ids a 7 1 [sibling] [1, 2] out (by decide)
      accepts
  rw [← Option.some.inj (state.symm.trans state')] at journal
  exact ⟨out, call, bytes, accepts, chained, decoded, journal⟩

def encodeBytes32 (b : Bytes32) (out : List UInt32) : List UInt32 :=
  b.toList.foldl (fun out byte => out ++ [byte.toUInt32]) out

def encodeU128 (v : U128) (out : List UInt32) : List UInt32 :=
  (List.range 4).foldl
    (fun out i => out ++ [UInt32.ofNat ((v >>> (i * 32)) &&& 0xffffffff).toNat]) out

def encodeVecU8 (bytes : List UInt8) (out : List UInt32) : List UInt32 :=
  bytes.foldl (fun out b => out ++ [b.toUInt32]) (out ++ [UInt32.ofNat bytes.length])

/-- The words of `initialize`, variant 0 of the airdrop program. -/
def instrInitialize (merkleRoot : Bytes32) (claimCircuitProgramId : ProgramId)
    (totalSupply : U128) : List UInt32 :=
  let w := [0]
  let w := encodeBytes32 merkleRoot w
  let w := w ++ claimCircuitProgramId.toList
  encodeU128 totalSupply w

/-- The words of `submit_claim`, variant 0 of the claim circuit. -/
def instrCcSubmitClaim (airdropProgramId : ProgramId) (accountId : Bytes32) (allocation : U128)
    (leafIndex : UInt32) (merklePath : List Bytes32) (recipientNote : List UInt8) : List UInt32 :=
  let w := [0]
  let w := w ++ airdropProgramId.toList
  let w := encodeBytes32 accountId w
  let w := encodeU128 allocation w
  let w := w ++ [leafIndex]
  let w := w ++ [UInt32.ofNat merklePath.length]
  let w := merklePath.foldl (fun w node => encodeBytes32 node w) w
  encodeVecU8 recipientNote w

/-- The private arguments of `submit_claim`, in the order it declares them. -/
structure SubmitClaimArgs where
  airdropProgramId : ProgramId
  accountId : Bytes32
  allocation : U128
  leafIndex : UInt32
  merklePath : List Bytes32
  recipientNote : List UInt8
  deriving Repr, DecidableEq

/-- The arguments of `initialize`, in the order it declares them. -/
structure InitializeArgs where
  merkleRoot : Bytes32
  claimCircuitProgramId : ProgramId
  totalSupply : U128
  deriving Repr, DecidableEq

/-- A variant word and the arguments of `submit_claim`. -/
def SubmitClaimArgs.format : Format UInt32 SubmitClaimArgs :=
  ((Format.exactly 0).pair (Words.programId.pair (Words.bytes32.pair (Words.u128.pair
    (Words.u32.pair ((Words.vec Words.bytes32).pair (Words.vec Words.u8))))))).via
    (fun r => ((), r.airdropProgramId, r.accountId, r.allocation, r.leafIndex, r.merklePath,
      r.recipientNote))
    (fun ((), target, account, allocation, index, path, note) =>
      some ⟨target, account, allocation, index, path, note⟩)
    (fun _ => rfl)
    (fun _ back => by obtain rfl := Option.some.inj back; rfl)

/-- A variant word and the arguments of `initialize`. -/
def InitializeArgs.format : Format UInt32 InitializeArgs :=
  ((Format.exactly 0).pair (Words.bytes32.pair (Words.programId.pair Words.u128))).via
    (fun r => ((), r.merkleRoot, r.claimCircuitProgramId, r.totalSupply))
    (fun ((), root, ccid, supply) => some ⟨root, ccid, supply⟩)
    (fun _ => rfl)
    (fun _ back => by obtain rfl := Option.some.inj back; rfl)

theorem foldl_push {α β : Type} (f : α → β) (l : List α) (out : List β) :
    l.foldl (fun out a => out ++ [f a]) out = out ++ l.map f := by
  rw [List.foldl_append_eq_append, ← List.flatMap_def, ← List.map_eq_flatMap]

theorem encodeBytes32_eq (b : Bytes32) (out : List UInt32) :
    encodeBytes32 b out = out ++ b.toList.map UInt8.toUInt32 := foldl_push ..

theorem encodeVecU8_eq (bytes : List UInt8) (out : List UInt32) :
    encodeVecU8 bytes out = out ++ vecWords bytes := by
  rw [encodeVecU8, foldl_push, List.append_assoc]
  rfl

theorem encodeU128_eq (v : U128) (out : List UInt32) :
    encodeU128 v out = out ++ wordRadix.write 4 v.toNat := by
  have digit : ∀ i, UInt32.ofNat ((v >>> (i * 32)) &&& 0xffffffff).toNat =
      wordRadix.digit (v.toNat / wordRadix.base ^ i) := by
    intro i
    have mask : (0xffffffff : U128).toNat = 2 ^ 32 - 1 := rfl
    have weight : wordRadix.base ^ i = 2 ^ (i * 32) := by
      rw [Nat.mul_comm, pow_mul]
      rfl
    rw [BitVec.toNat_and, mask, Nat.and_two_pow_sub_one_eq_mod, BitVec.toNat_ushiftRight,
      Nat.shiftRight_eq_div_pow, weight]
    apply UInt32.toNat_inj.mp
    simp [wordRadix]
  rw [encodeU128, foldl_push, wordRadix.write_eq_map]
  simp only [digit]

theorem foldl_encodeBytes32 (path : List Bytes32) (out : List UInt32) :
    path.foldl (fun w node => encodeBytes32 node w) out =
      out ++ path.flatMap fun node => node.toList.map UInt8.toUInt32 := by
  simp only [encodeBytes32_eq]
  rw [List.foldl_append_eq_append, ← List.flatMap_def]

theorem instrCcSubmitClaim_encodes (r : SubmitClaimArgs) (path : r.merklePath.length < 2 ^ 32)
    (note : r.recipientNote.length < 2 ^ 32) :
    SubmitClaimArgs.format.encode r = some (instrCcSubmitClaim r.airdropProgramId r.accountId
      r.allocation r.leafIndex r.merklePath r.recipientNote) := by
  have nodes : (Words.vec Words.bytes32).encode r.merklePath =
      some ([UInt32.ofNat r.merklePath.length] ++
        r.merklePath.flatMap fun node => node.toList.map UInt8.toUInt32) :=
    Format.prefixed_encode _ _ (Words.length_encode path)
      (Words.bytes32.encodeItems_of_total Words.bytes32_encode _)
  have bytes : (Words.vec Words.u8).encode r.recipientNote = some (vecWords r.recipientNote) :=
    vecWords_encode note
  simp only [SubmitClaimArgs.format, Format.via, Format.pair, Format.exactly_encode,
    Words.programId_encode, Words.bytes32_encode, Words.u128_encode, Words.u32_encode, nodes, bytes,
    Option.bind_some, Option.map_some]
  rw [instrCcSubmitClaim, foldl_encodeBytes32, encodeBytes32_eq, encodeU128_eq, encodeVecU8_eq]
  simp only [List.append_assoc]

theorem instrInitialize_encodes (r : InitializeArgs) :
    InitializeArgs.format.encode r =
      some (instrInitialize r.merkleRoot r.claimCircuitProgramId r.totalSupply) := by
  simp only [InitializeArgs.format, Format.via, Format.pair, Format.exactly_encode,
    Words.programId_encode, Words.bytes32_encode, Words.u128_encode, Option.bind_some,
    Option.map_some, instrInitialize, encodeBytes32_eq, encodeU128_eq, List.append_assoc]

theorem decode_instrInitialize (r : InitializeArgs) (rest : List UInt32) :
    Instruction.decode (instrInitialize r.merkleRoot r.claimCircuitProgramId r.totalSupply ++ rest) =
      some (.initializeDistribution r.merkleRoot r.claimCircuitProgramId r.totalSupply) := by
  have whole := Format.pair_encode _ _ (Words.bytes32_encode r.merkleRoot)
    (Format.pair_encode _ _ (Words.programId_encode r.claimCircuitProgramId)
      (Words.u128_encode r.totalSupply))
  have read := (Words.bytes32.pair (Words.programId.pair Words.u128)).reads whole rest
  simp only [List.append_assoc] at read
  rw [instrInitialize, encodeBytes32_eq, encodeU128_eq]
  simp only [List.append_assoc, List.cons_append, List.nil_append, Instruction.decode,
    if_true, read, Option.map_some]

/-- Whatever words follow, both instructions are read back to exactly the arguments
    they were written from and exactly those words; so no two tuples of arguments
    share their words, and the words of none are continued by those of another. -/
theorem host_instructions_unambiguous :
    (∀ pid acct alloc index path note rest,
      List.length path < 2 ^ 32 → List.length note < 2 ^ 32 →
      SubmitClaimArgs.format.decode (instrCcSubmitClaim pid acct alloc index path note ++ rest) =
        some (⟨pid, acct, alloc, index, path, note⟩, rest)) ∧
    (∀ root ccid supply rest,
      InitializeArgs.format.decode (instrInitialize root ccid supply ++ rest) =
        some (⟨root, ccid, supply⟩, rest)) ∧
    (∀ r r' : SubmitClaimArgs, ∀ rest,
      r.merklePath.length < 2 ^ 32 → r.recipientNote.length < 2 ^ 32 →
      r'.merklePath.length < 2 ^ 32 → r'.recipientNote.length < 2 ^ 32 →
      instrCcSubmitClaim r'.airdropProgramId r'.accountId r'.allocation r'.leafIndex
          r'.merklePath r'.recipientNote =
        instrCcSubmitClaim r.airdropProgramId r.accountId r.allocation r.leafIndex
          r.merklePath r.recipientNote ++ rest →
      r = r' ∧ rest = []) ∧
    ∀ r r' : InitializeArgs, ∀ rest,
      instrInitialize r'.merkleRoot r'.claimCircuitProgramId r'.totalSupply =
        instrInitialize r.merkleRoot r.claimCircuitProgramId r.totalSupply ++ rest →
      r = r' ∧ rest = [] := by
  refine ⟨?_, ?_, ?_, ?_⟩
  · intro pid acct alloc index path note rest pathFits noteFits
    exact SubmitClaimArgs.format.reads
      (instrCcSubmitClaim_encodes ⟨pid, acct, alloc, index, path, note⟩ pathFits noteFits) rest
  · intro root ccid supply rest
    exact InitializeArgs.format.reads (instrInitialize_encodes ⟨root, ccid, supply⟩) rest
  · intro r r' rest path note path' note' continues
    exact SubmitClaimArgs.format.encode_prefix_free (instrCcSubmitClaim_encodes r path note)
      (instrCcSubmitClaim_encodes r' path' note') continues
  · intro r r' rest continues
    exact InitializeArgs.format.encode_prefix_free (instrInitialize_encodes r)
      (instrInitialize_encodes r') continues

end PrivateAirdrop

import PrivateAirdrop.ClaimCircuit

/-! # The offline circuit

A second circuit proves the same claims off the chain. It concatenates buffers
where the claim circuit updates a hasher, counts its levels in a `usize` and
panics where the claim circuit returns an error. `verifyJournal` is what the
command line checks of its journal once the receipt itself is verified.
-/

namespace PrivateAirdrop

open Library

/-- What the host writes and the guest reads. A `usize` is a natural number here:
    the loop only shifts it down. -/
structure ProverInput where
  accountIdBytes : Bytes32
  allocation : U128
  merklePath : List Bytes32
  leafIndex : Nat
  merkleRoot : Bytes32
  distributorId : Bytes32
  recipientNotePreimage : List UInt8

structure ClaimAttestation where
  merkleRoot : Bytes32
  nullifier : Bytes32
  distributorId : Bytes32
  allocation : U128
  recipientNoteHash : Bytes32
  deriving Repr, DecidableEq

namespace Guest

def leafHash (H : Sha256) (input : ProverInput) : Bytes32 :=
  let preimage : List UInt8 := []
  let preimage := preimage ++ [0x00]
  let preimage := preimage ++ input.accountIdBytes.toList
  let preimage := preimage ++ U128.toLeBytes input.allocation
  H preimage

/-- The loop over the path, with the result and the level index it carries. -/
def computedRoot (H : Sha256) : Bytes32 → Nat → List Bytes32 → Bytes32
  | result, _, [] => result
  | result, levelIndex, node :: rest =>
    let preimage : List UInt8 := [0x01]
    let preimage :=
      if levelIndex &&& 1 = 0 then preimage ++ result.toList ++ node.toList
      else preimage ++ node.toList ++ result.toList
    computedRoot H (H preimage) (levelIndex >>> 1) rest

/-- The guest's `main`: what it commits, or the message it panics with. -/
def main (H : Sha256) (input : ProverInput) : Except String ClaimAttestation := do
  let leafHash := leafHash H input
  let computedRoot := computedRoot H leafHash input.leafIndex input.merklePath
  if computedRoot ≠ input.merkleRoot then
    throw "Merkle root mismatch"
  let nullifier := H (input.accountIdBytes.toList ++ input.distributorId.toList)
  let recipientNoteHash := H input.recipientNotePreimage
  return {
    merkleRoot := input.merkleRoot
    nullifier
    distributorId := input.distributorId
    allocation := input.allocation
    recipientNoteHash }

end Guest

/-- The journal checks of `airdrop-claim verify`. -/
def verifyJournal (H : Sha256) (j : ClaimAttestation) (dist root : Bytes32)
    (noteBytes : List UInt8) : Except String Unit := do
  if j.distributorId ≠ dist then throw "distributor_id mismatch"
  if j.merkleRoot ≠ root then throw "merkle_root mismatch"
  let expectedHash := H noteBytes
  if j.recipientNoteHash ≠ expectedHash then throw "recipient_note hash mismatch"

/-- The journal of the airdrop program with the fields of an attestation. -/
def ClaimAttestation.journal (att : ClaimAttestation) : ClaimJournal where
  merkleRoot := att.merkleRoot
  nullifier := att.nullifier
  distributorId := att.distributorId
  allocation := att.allocation
  recipientNoteHash := att.recipientNoteHash

section Agreement

variable {H : Sha256}

theorem Guest.computedRoot_eq (result : Bytes32) (index : UInt32) (path : List Bytes32) :
    Guest.computedRoot H result index.toNat path = merkleWalk H result index path := by
  induction path generalizing result index with
  | nil => rfl
  | cons node rest ih =>
      have half : index.toNat >>> 1 = (index >>> 1).toNat := by simp [UInt32.toNat_shiftRight]
      have parity : index.toNat &&& 1 = 0 ↔ index &&& 1 = 0 := by
        rw [← UInt32.toNat_inj, UInt32.toNat_and]
        rfl
      rw [Guest.computedRoot, merkleWalk, half, ih]
      by_cases even : index &&& 1 = 0
      · simp only [parity, even, if_true]
        rfl
      · simp only [parity, even, if_false]
        rfl

/-- The guest commits exactly when the recomputed root is the one it was given. -/
theorem Guest.main_ok_iff {input : ProverInput} {index : UInt32} {att : ClaimAttestation}
    (counted : input.leafIndex = index.toNat) :
    Guest.main H input = .ok att ↔
      merkleWalk H (PrivateAirdrop.leafHash H input.accountIdBytes input.allocation) index
          input.merklePath = input.merkleRoot ∧
        att.journal = claimJournal H input.merkleRoot input.distributorId input.accountIdBytes
          input.allocation input.recipientNotePreimage := by
  have leaf : Guest.leafHash H input =
      PrivateAirdrop.leafHash H input.accountIdBytes input.allocation := rfl
  have walked := Guest.computedRoot_eq (H := H) (Guest.leafHash H input) index input.merklePath
  rw [leaf] at walked
  unfold Guest.main
  simp only [leaf, counted, walked]
  by_cases included : merkleWalk H (PrivateAirdrop.leafHash H input.accountIdBytes input.allocation)
      index input.merklePath = input.merkleRoot
  · simp only [included, ne_eq, not_true_eq_false, if_false, true_and]
    cases att with
    | mk root nullifier distributor allocation noteHash =>
        simp only [ClaimAttestation.journal, claimJournal, pure, Except.pure]
        grind [deriveNullifier_eq, nullifierPreimage]
  · simp [included]

theorem verifyJournal_ok_iff {att : ClaimAttestation} {dist root : Bytes32} {note : List UInt8} :
    verifyJournal H att dist root note = .ok () ↔
      att.distributorId = dist ∧ att.merkleRoot = root ∧ H note = att.recipientNoteHash := by
  unfold verifyJournal
  by_cases distributor : att.distributorId = dist
  · by_cases same : att.merkleRoot = root
    · by_cases hash : att.recipientNoteHash = H note
      · simp [distributor, same, hash, pure, Except.pure]
      · simp [distributor, same, hash, Ne.symm hash]
    · simp [distributor, same]
  · simp [distributor]

/-- The code of an error that carries one. -/
def errorCode : Except SpelError Unit → Option UInt32
  | .ok _ => none
  | .error (.custom code _) => some code
  | .error (.serializationError _) => none

/-- A call of `apply_claim` passes its first three checks when it fails none of
    them, whatever the two checks after them say. -/
theorem applyClaim_passes_iff {s : DistributionState} {j : ClaimJournal} {D : Bytes32}
    {note : List UInt8} :
    errorCode (exec (applyClaim H j D note) s).1 ∉
        [some errDistributorMismatch, some errRootMismatch, some errRecipientMismatch] ↔
      j.distributorId = D ∧ j.merkleRoot = s.merkleRoot ∧ H note = j.recipientNoteHash := by
  let early : List (Option UInt32) :=
    [some errDistributorMismatch, some errRootMismatch, some errRecipientMismatch]
  have spent_later : some errNullifierSpent ∉ early := by decide
  have exhausted_later : some errDistributionExhausted ∉ early := by decide
  have accepted : none ∉ early := by decide
  rw [exec_applyClaim]
  unfold refusal
  split_ifs with distributor root hash spent exhausted
  · simp [errorCode, distributor]
  · simp [errorCode, root]
  · simp [errorCode, hash]
  · simp only [not_not] at distributor root hash
    exact ⟨fun _ => ⟨distributor, root, hash⟩, fun _ => spent_later⟩
  · simp only [not_not] at distributor root hash
    exact ⟨fun _ => ⟨distributor, root, hash⟩, fun _ => exhausted_later⟩
  · simp only [not_not] at distributor root hash
    exact ⟨fun _ => ⟨distributor, root, hash⟩, fun _ => accepted⟩

end Agreement

/-- The two circuits decide the same claims: one commits exactly when the other
    returns `Ok`, the attestation is the journal of the chained call field by field,
    and `verify` passes a note exactly when `apply_claim` lets that journal and note
    through its distributor, root and recipient checks. -/
theorem circuits_agree {H : Sha256} {dist : AccountWithMetadata} {s : DistributionState}
    (state : DistributionState.tryFromSlice dist.account.data = some s)
    (claimerNote : AccountWithMetadata) (target : ProgramId) (a : Bytes32) (v : U128)
    (i : UInt32) (path : List Bytes32) (note : List UInt8) :
    let input : ProverInput := ⟨a, v, path, i.toNat, s.merkleRoot, dist.accountId, note⟩
    let submitted := submitClaim H dist claimerNote target a v i path note
    ((∃ att, Guest.main H input = .ok att) ↔ ∃ out, submitted = .ok out) ∧
    (∀ att out, Guest.main H input = .ok att → submitted = .ok out →
      ∃ bytes, out.chainedCalls = [ChainedCall.new target [dist] (.claim bytes note)] ∧
        ClaimJournal.tryFromSlice bytes = some att.journal) ∧
    ∀ att, Guest.main H input = .ok att → ∀ n s', s'.merkleRoot = s.merkleRoot →
      (verifyJournal H att dist.accountId s.merkleRoot n = .ok () ↔
        errorCode (exec (applyClaim H att.journal dist.accountId n) s').1 ∉
          [some errDistributorMismatch, some errRootMismatch, some errRecipientMismatch]) := by
  intro input submitted
  refine ⟨?_, ?_, ?_⟩
  · constructor
    · rintro ⟨att, commits⟩
      obtain ⟨included, -⟩ := (Guest.main_ok_iff rfl).mp commits
      exact ⟨_, submitClaim_ok_iff.mpr ⟨s, state, included, rfl⟩⟩
    · rintro ⟨out, accepts⟩
      obtain ⟨s', state', included, -⟩ := submitClaim_ok_iff.mp accepts
      cases state'.symm.trans state
      refine ⟨⟨_, _, _, _, _⟩, (Guest.main_ok_iff rfl).mpr ⟨included, rfl⟩⟩
  · intro att out commits accepts
    obtain ⟨-, journal⟩ := (Guest.main_ok_iff rfl).mp commits
    obtain ⟨s', state', -, rfl⟩ := submitClaim_ok_iff.mp accepts
    cases state'.symm.trans state
    refine ⟨_, rfl, ?_⟩
    rw [tryFromSlice_journalBytes, journal]
  · intro att commits n s' same
    rw [verifyJournal_ok_iff, applyClaim_passes_iff, same]
    rfl

/-- The second of two entries, on both circuits, with a note of two bytes. -/
theorem circuits_agree_second :
    let H := headHash
    let D : AccountId := Vector.replicate 32 0
    let ids : ProgramId := Vector.replicate 8 0
    let a : Bytes32 := Vector.replicate 32 3
    let sibling := leafHash H (Vector.replicate 32 2) 5
    let s := DistributionState.initial (nodeHash H sibling (leafHash H a 7)) ids 12
    let dist : AccountWithMetadata := ⟨⟨ids, s.header ++ [0, 0, 0, 0]⟩, false, D⟩
    ∃ att out,
      Guest.main H ⟨a, 7, [sibling], 1, s.merkleRoot, D, [1, 2]⟩ = .ok att ∧
      submitClaim H dist dist ids a 7 1 [sibling] [1, 2] = .ok out ∧
      (∃ bytes, out.chainedCalls = [ChainedCall.new ids [dist] (.claim bytes [1, 2])] ∧
        ClaimJournal.tryFromSlice bytes = some att.journal) ∧
      verifyJournal H att D s.merkleRoot [1, 2] = .ok () := by
  intro H D ids a sibling s dist
  have state : DistributionState.tryFromSlice dist.account.data = some s := by decide +kernel
  obtain ⟨decides, journals, verifies⟩ :=
    circuits_agree (H := H) state dist ids a 7 1 [sibling] [1, 2]
  have commits : Guest.main H ⟨a, 7, [sibling], 1, s.merkleRoot, D, [1, 2]⟩ =
      .ok ⟨s.merkleRoot, deriveNullifier H a D, D, 7, H [1, 2]⟩ := by decide +kernel
  obtain ⟨out, accepts⟩ := decides.mp ⟨_, commits⟩
  refine ⟨_, out, commits, accepts, journals _ out commits accepts, ?_⟩
  exact (verifies _ commits [1, 2] s rfl).mpr (by decide +kernel)

end PrivateAirdrop

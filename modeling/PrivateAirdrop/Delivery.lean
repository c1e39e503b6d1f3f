import PrivateAirdrop.ClaimCircuit

/-! # Delivering a claim

One privacy-preserving transaction runs the claim circuit and then the call it
chains. The chained call travels as words, so it reaches `claim` through the
instruction decoder of the airdrop program.
-/

namespace PrivateAirdrop

open Library

/-- The identities of a deployment. `topLevelId` is what a call without a caller
    reads as its caller's program. -/
structure Deployment where
  airdropId : ProgramId
  claimCircuitId : ProgramId
  topLevelId : ProgramId

/-- The private arguments of `submit_claim`. The circuit runs on a 32-bit
    machine, where no vector has `2 ^ 32` bytes. -/
structure ClaimRequest where
  airdropProgramId : ProgramId
  accountId : Bytes32
  allocation : U128
  leafIndex : UInt32
  merklePath : List Bytes32
  recipientNote : List UInt8
  note_fits : recipientNote.length < 2 ^ 32

/-- Why a call changes nothing: its instruction is not one of the program's, its
    account is not fresh or not the caller's to write, or the program returned an
    error. -/
inductive Fault where
  | instruction
  | initialized
  | notOwner
  | program (e : SpelError)
  deriving Repr, DecidableEq

/-- An accepted `claim`: what it was called with, and the account it wrote. -/
structure Executed where
  journalBytes : List UInt8
  recipientNote : List UInt8
  account : AccountWithMetadata
  deriving Repr, DecidableEq

namespace ClaimRequest

variable (H : Sha256) (r : ClaimRequest)

def entry : Entry := (r.accountId, r.allocation)

/-- The root the circuit computes. -/
def computedRoot : Bytes32 :=
  merkleWalk H (leafHash H r.accountId r.allocation) r.leafIndex r.merklePath

def nullifier (D : AccountId) : Bytes32 := deriveNullifier H r.accountId D

def journal (root : Bytes32) (D : AccountId) : ClaimJournal :=
  claimJournal H root D r.accountId r.allocation r.recipientNote

@[simp] theorem journal_nullifier (root : Bytes32) (D : AccountId) :
    (r.journal H root D).nullifier = r.nullifier H D := rfl

@[simp] theorem journal_allocation (root : Bytes32) (D : AccountId) :
    (r.journal H root D).allocation = r.allocation := rfl

/-- Everything hashed while an accepted request is carried out. -/
def inputs (D : AccountId) : Set (List UInt8) :=
  (hashing H).openInputs r.entry r.leafIndex.toNat r.merklePath ∪
    {nullifierPreimage r.accountId D, r.recipientNote}

theorem computedRoot_eq : r.computedRoot H =
    walk (hashing H).combine (H ((hashing H).leaf r.entry)) r.leafIndex.toNat r.merklePath :=
  merkleWalk_eq ..

end ClaimRequest

/-- Run a call that the claim circuit chained. Calls of other programs have no
    part in the airdrop. -/
def executeChained (P : Platform) (dep : Deployment) (call : ChainedCall) :
    Except Fault (Option Executed) :=
  if call.programId ≠ dep.airdropId then .ok none
  else
    match Instruction.decode call.instructionData, call.preStates with
    | some (.claim journalBytes recipientNote), [account] =>
      match claim P ⟨dep.claimCircuitId⟩ account journalBytes recipientNote with
      | .ok out => .ok (some ⟨journalBytes, recipientNote, out.postStates.headD account⟩)
      | .error e => .error (.program e)
    | _, _ => .error .instruction

/-- A whole claim transaction on the accounts it is handed. -/
def executeClaim (P : Platform) (dep : Deployment)
    (distributionAccount claimerNote : AccountWithMetadata) (r : ClaimRequest) :
    Except Fault (Option Executed) :=
  match submitClaim P.sha256 distributionAccount claimerNote r.airdropProgramId r.accountId
      r.allocation r.leafIndex r.merklePath r.recipientNote with
  | .error e => .error (.program e)
  | .ok out =>
    match out.chainedCalls with
    | [call] => executeChained P dep call
    | _ => .ok none

/-- What a delivered claim went through, from the circuit's checks to the bytes
    written. -/
structure Delivered (P : Platform) (dep : Deployment) (D : AccountId) (data : List UInt8)
    (r : ClaimRequest) (s : DistributionState) (data' : List UInt8) : Prop where
  target : r.airdropProgramId = dep.airdropId
  state : DistributionState.tryFromSlice data = some s
  included : r.computedRoot P.sha256 = s.merkleRoot
  registered : dep.claimCircuitId = s.claimCircuitProgramId
  allowed : refusal P.sha256 s (r.journal P.sha256 s.merkleRoot D) D r.recipientNote = none
  stored : storeState P (s.record (r.journal P.sha256 s.merkleRoot D)) = .ok data'

theorem executeChained_claim {P : Platform} {dep : Deployment} {dist : AccountWithMetadata}
    {j : ClaimJournal} {note : List UInt8} (fits : note.length < 2 ^ 32) {x : Executed} :
    executeChained P dep (ChainedCall.new dep.airdropId [dist] (.claim (journalBytes j) note)) =
        .ok (some x) ↔
      ∃ s data', DistributionState.tryFromSlice dist.account.data = some s ∧
        dep.claimCircuitId = s.claimCircuitProgramId ∧
        refusal P.sha256 s j dist.accountId note = none ∧
        storeState P (s.record j) = .ok data' ∧
        x = ⟨journalBytes j, note, dist.withData data'⟩ := by
  have short : (journalBytes j).length < 2 ^ 32 := by rw [journalBytes_length]; omega
  have words := decode_claim_words short fits
  simp only [executeChained, ChainedCall.new, ne_eq, not_true_eq_false, if_false, words]
  constructor
  · intro h
    cases run : claim P ⟨dep.claimCircuitId⟩ dist (journalBytes j) note with
    | error e => simp [run] at h
    | ok out =>
        obtain ⟨s, j', data', accepted, rfl⟩ := claim_ok_iff.mp run
        cases accepted.journal.symm.trans (tryFromSlice_journalBytes j)
        simp only [run, Except.ok.injEq, Option.some.injEq, List.headD_cons] at h
        exact ⟨s, data', accepted.state, accepted.caller_eq, accepted.allowed, accepted.stored, h.symm⟩
  · rintro ⟨s, data', state, registered, allowed, stored, rfl⟩
    have accepted : Accepted P dep.claimCircuitId dist.accountId dist.account.data
        (journalBytes j) note s j data' :=
      ⟨state, registered, tryFromSlice_journalBytes j, allowed, stored⟩
    have run : claim P ⟨dep.claimCircuitId⟩ dist (journalBytes j) note =
        .ok ⟨[dist.withData data'], []⟩ := claim_ok_iff.mpr ⟨s, j, data', accepted, rfl⟩
    simp only [run, List.headD_cons]

theorem executeClaim_some_iff {P : Platform} {dep : Deployment} {dist note : AccountWithMetadata}
    {r : ClaimRequest} {x : Executed} :
    executeClaim P dep dist note r = .ok (some x) ↔
      ∃ s data', Delivered P dep dist.accountId dist.account.data r s data' ∧
        x = ⟨journalBytes (r.journal P.sha256 s.merkleRoot dist.accountId), r.recipientNote,
          dist.withData data'⟩ := by
  constructor
  · intro h
    unfold executeClaim at h
    split at h
    · cases h
    · rename_i out submitted
      obtain ⟨s, state, included, rfl⟩ := submitClaim_ok_iff.mp submitted
      by_cases target : r.airdropProgramId = dep.airdropId
      · rw [target] at h
        obtain ⟨s', data', state', registered, allowed, stored, rfl⟩ :=
          (executeChained_claim r.note_fits).mp h
        cases state'.symm.trans state
        exact ⟨s, data', ⟨target, state, included, registered, allowed, stored⟩, rfl⟩
      · simp [executeChained, ChainedCall.new, target] at h
  · rintro ⟨s, data', h, rfl⟩
    unfold executeClaim
    rw [submitClaim_ok_iff.mpr ⟨s, h.state, h.included, rfl⟩, h.target]
    exact (executeChained_claim r.note_fits).mpr
      ⟨s, data', h.state, h.registered, h.allowed, h.stored, rfl⟩

end PrivateAirdrop

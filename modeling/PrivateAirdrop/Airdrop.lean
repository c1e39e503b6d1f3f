import PrivateAirdrop.Runtime

/-! # The airdrop program

Its two instructions, and the dispatcher that reads an instruction from words
and runs it. `claim` decodes the stored state, checks its caller and the
journal, applies the claim and stores the whole state again.
-/

namespace PrivateAirdrop

open Library

/-- The state `initialize` writes. -/
def DistributionState.initial (merkleRoot : Bytes32) (claimCircuitProgramId : ProgramId)
    (totalSupply : U128) : DistributionState where
  merkleRoot
  claimCircuitProgramId
  totalSupply
  claimed := 0
  spentNullifiers := []

/-- The `initialize` instruction; the bare word is a keyword of Lean. -/
def initializeDistribution (P : Platform) (distributionAccount : AccountWithMetadata)
    (merkleRoot : Bytes32) (claimCircuitProgramId : ProgramId) (totalSupply : U128) :
    Except SpelError SpelOutput := do
  let state := DistributionState.initial merkleRoot claimCircuitProgramId totalSupply
  let data ← storeState P state
  return { postStates := [distributionAccount.withData data], chainedCalls := [] }

def claim (P : Platform) (ctx : ProgramContext) (distributionAccount : AccountWithMetadata)
    (journalBytes recipientNote : List UInt8) : Except SpelError SpelOutput := do
  let some state := DistributionState.tryFromSlice distributionAccount.account.data
    | throw (.custom errProofInvalid "state deserialise failed")
  -- The inclusion proof is the caller itself.
  if ctx.callerProgramId ≠ state.claimCircuitProgramId then
    throw (.custom errUnauthorizedCaller
      "claim must arrive as a chained call from the claim-circuit program")
  let some journal := ClaimJournal.tryFromSlice journalBytes
    | throw (.custom errProofInvalid "journal decode failed")
  match exec (applyClaim P.sha256 journal distributionAccount.accountId recipientNote) state with
  | (.error e, _) => throw e
  | (.ok (), state) =>
    let data ← storeState P state
    return { postStates := [distributionAccount.withData data], chainedCalls := [] }

/-- The instruction enum generated from the declaration order of the program. -/
inductive Instruction where
  | initializeDistribution (merkleRoot : Bytes32) (claimCircuitProgramId : ProgramId)
      (totalSupply : U128)
  | claim (journalBytes recipientNote : List UInt8)
  deriving Repr, DecidableEq

/-- A variant word, then the arguments in order. Words after them are not read. -/
def Instruction.decode : List UInt32 → Option Instruction
  | [] => none
  | variant :: words =>
    if variant = 0 then
      ((Words.bytes32.pair (Words.programId.pair Words.u128)).decode words).map fun p =>
        .initializeDistribution p.1.1 p.1.2.1 p.1.2.2
    else if variant = 1 then
      (((Words.vec Words.u8).pair (Words.vec Words.u8)).decode words).map fun p =>
        .claim p.1.1 p.1.2
    else none

theorem initializeDistribution_ok_iff {P : Platform} {a : AccountWithMetadata} {root : Bytes32}
    {ccid : ProgramId} {supply : U128} {out : SpelOutput} :
    initializeDistribution P a root ccid supply = .ok out ↔
      ∃ data, storeState P (.initial root ccid supply) = .ok data ∧
        out = { postStates := [a.withData data], chainedCalls := [] } := by
  unfold initializeDistribution
  simp only [bind_eq_ok, pure, Except.pure, Except.ok.injEq, eq_comm (b := out)]

/-- What an accepted claim went through: the stored state and the journal it
    decoded, the caller check, the checks of `apply_claim`, and the bytes written. -/
structure Accepted (P : Platform) (caller : ProgramId) (D : AccountId) (data : List UInt8)
    (journalBytes note : List UInt8) (s : DistributionState) (j : ClaimJournal)
    (data' : List UInt8) : Prop where
  state : DistributionState.tryFromSlice data = some s
  caller_eq : caller = s.claimCircuitProgramId
  journal : ClaimJournal.tryFromSlice journalBytes = some j
  allowed : refusal P.sha256 s j D note = none
  stored : storeState P (s.record j) = .ok data'

theorem claim_eq (P : Platform) (ctx : ProgramContext) (a : AccountWithMetadata)
    (journalBytes note : List UInt8) {s : DistributionState} {j : ClaimJournal}
    (state : DistributionState.tryFromSlice a.account.data = some s)
    (caller : ctx.callerProgramId = s.claimCircuitProgramId)
    (journal : ClaimJournal.tryFromSlice journalBytes = some j) :
    claim P ctx a journalBytes note =
      match refusal P.sha256 s j a.accountId note with
      | some e => .error e
      | none => (storeState P (s.record j)).map fun data =>
          { postStates := [a.withData data], chainedCalls := [] } := by
  cases allowed : refusal P.sha256 s j a.accountId note with
  | some e => simp [claim, state, caller, journal, exec_applyClaim, allowed]
  | none =>
      simp only [claim, state, caller, journal, exec_applyClaim, allowed, ne_eq,
        not_true_eq_false, if_false]
      rfl

theorem claim_ok_iff {P : Platform} {ctx : ProgramContext} {a : AccountWithMetadata}
    {journalBytes note : List UInt8} {out : SpelOutput} :
    claim P ctx a journalBytes note = .ok out ↔
      ∃ s j data',
        Accepted P ctx.callerProgramId a.accountId a.account.data journalBytes note s j data' ∧
          out = { postStates := [a.withData data'], chainedCalls := [] } := by
  constructor
  · intro h
    cases state : DistributionState.tryFromSlice a.account.data with
    | none => simp [claim, state] at h
    | some s =>
        by_cases caller : ctx.callerProgramId = s.claimCircuitProgramId
        · cases journal : ClaimJournal.tryFromSlice journalBytes with
          | none => simp [claim, state, caller, journal] at h
          | some j =>
              rw [claim_eq P ctx a journalBytes note state caller journal] at h
              split at h
              · cases h
              · rename_i allowed
                cases stored : storeState P (s.record j) with
                | error e => simp [stored, Except.map] at h
                | ok data' =>
                    simp only [stored, Except.map, Except.ok.injEq] at h
                    exact ⟨s, j, data', ⟨state, caller, journal, allowed, stored⟩, h.symm⟩
        · simp [claim, state, caller] at h
  · rintro ⟨s, j, data', h, rfl⟩
    rw [claim_eq P ctx a journalBytes note h.state h.caller_eq h.journal, h.allowed, h.stored]
    rfl

theorem claim_ne_deserialise_error (P : Platform) (ctx : ProgramContext) (a : AccountWithMetadata)
    (journalBytes note : List UInt8) {s : DistributionState}
    (state : DistributionState.tryFromSlice a.account.data = some s) :
    claim P ctx a journalBytes note ≠ .error (.custom errProofInvalid "state deserialise failed") := by
  by_cases caller : ctx.callerProgramId = s.claimCircuitProgramId
  · cases journal : ClaimJournal.tryFromSlice journalBytes with
    | none => simp [claim, state, caller, journal]
    | some j =>
        rw [claim_eq P ctx a journalBytes note state caller journal]
        split
        · rename_i e refused
          exact fun same => refusal_ne_proofInvalid refused _ (Except.error.inj same)
        · unfold storeState
          split
          · simp [Except.map]
          · split <;> simp [Except.map]
  · simp [claim, state, caller]

end PrivateAirdrop

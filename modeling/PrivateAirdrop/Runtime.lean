import PrivateAirdrop.Distribution

/-! # What the programs see of the runtime

Accounts, call contexts and chained calls, as far as the two programs read or
build them. `Platform` is what is not in this repository: the hash, which byte
vectors `Data::try_from` turns away, and the words of the errors of libraries.
-/

namespace PrivateAirdrop

structure Platform where
  sha256 : Sha256
  /-- The debug text of the error of `Data::try_from`, when it refuses the bytes. -/
  dataRefusal : List UInt8 → Option String
  /-- The text of the error of `borsh::to_vec` for a count that does not fit. -/
  countRefusal : String

/-- A platform whose accounts hold at most `bound` bytes. -/
def Platform.bounded (H : Sha256) (bound : Nat) : Platform where
  sha256 := H
  dataRefusal bytes := if bytes.length ≤ bound then none else some "data too big"
  countRefusal := "invalid data"

structure Account where
  programOwner : ProgramId
  data : List UInt8
  deriving Repr, DecidableEq

structure AccountWithMetadata where
  account : Account
  isAuthorized : Bool
  accountId : AccountId
  deriving Repr, DecidableEq

namespace AccountWithMetadata

def withData (a : AccountWithMetadata) (bytes : List UInt8) : AccountWithMetadata :=
  { a with account := { a.account with data := bytes } }

@[simp] theorem withData_data (a : AccountWithMetadata) (bytes : List UInt8) :
    (a.withData bytes).account.data = bytes := rfl

@[simp] theorem withData_accountId (a : AccountWithMetadata) (bytes : List UInt8) :
    (a.withData bytes).accountId = a.accountId := rfl

@[simp] theorem withData_programOwner (a : AccountWithMetadata) (bytes : List UInt8) :
    (a.withData bytes).account.programOwner = a.account.programOwner := rfl

end AccountWithMetadata

structure ProgramContext where
  callerProgramId : ProgramId

structure ChainedCall where
  programId : ProgramId
  preStates : List AccountWithMetadata
  instructionData : List UInt32
  deriving Repr, DecidableEq

structure SpelOutput where
  postStates : List AccountWithMetadata
  chainedCalls : List ChainedCall
  deriving Repr, DecidableEq

/-- `borsh::to_vec` and `Data::try_from`, with the errors both programs give them. -/
def storeState (P : Platform) (state : DistributionState) : Except SpelError (List UInt8) :=
  match state.toVec with
  | none => .error (.serializationError P.countRefusal)
  | some bytes =>
    match P.dataRefusal bytes with
    | some e => .error (.serializationError ("state too large: " ++ e))
    | none => .ok bytes

theorem storeState_ok_iff {P : Platform} {s : DistributionState} {bytes : List UInt8} :
    storeState P s = .ok bytes ↔ s.toVec = some bytes ∧ P.dataRefusal bytes = none := by
  unfold storeState
  split
  · rename_i failed
    simp [failed]
  · rename_i found written
    split
    · rename_i e refused
      simp only [written, reduceCtorEq, Option.some.injEq, false_iff, not_and]
      rintro rfl
      simp [refused]
    · rename_i accepted
      simp only [written, Except.ok.injEq, Option.some.injEq]
      exact ⟨fun same => ⟨same, same ▸ accepted⟩, fun h => h.1⟩

theorem storeState_decodes {P : Platform} {s : DistributionState} {bytes : List UInt8}
    (h : storeState P s = .ok bytes) : DistributionState.tryFromSlice bytes = some s :=
  DistributionState.tryFromSlice_iff.mpr (storeState_ok_iff.mp h).1

/-- The platform takes the bytes of any state with `n` nullifiers. -/
def Platform.RoomFor (P : Platform) (n : Nat) : Prop :=
  ∀ bytes : List UInt8, bytes.length = 100 + 32 * n → P.dataRefusal bytes = none

theorem storeState_ok_of_room {P : Platform} {s : DistributionState}
    (count : s.spentNullifiers.length < 2 ^ 32) (room : P.RoomFor s.spentNullifiers.length) :
    ∃ data, storeState P s = .ok data := by
  obtain ⟨data, written⟩ := DistributionState.toVec_of_lt count
  exact ⟨data, storeState_ok_iff.mpr ⟨written, room data (DistributionState.toVec_length written)⟩⟩

theorem Platform.bounded_dataRefusal {H : Sha256} {bound : Nat} {bytes : List UInt8} :
    (Platform.bounded H bound).dataRefusal bytes = none ↔ bytes.length ≤ bound := by
  by_cases fits : bytes.length ≤ bound
  · simp [Platform.bounded, fits]
  · simp [Platform.bounded, fits]

theorem Platform.bounded_roomFor {H : Sha256} {bound n : Nat} (h : 100 + 32 * n ≤ bound) :
    (Platform.bounded H bound).RoomFor n := by
  intro bytes size
  apply Platform.bounded_dataRefusal.mpr
  omega

end PrivateAirdrop

import PrivateAirdrop.Library.Machine
import PrivateAirdrop.Encoding

/-! # The distribution state and `apply_claim`

The ledger of one distribution: its frozen configuration, the amount claimed and
the nullifiers spent. `applyClaim` mutates the state in place and may fail at any
of its five checks, so it is modelled in a monad that keeps the state reached
when an error is thrown.
-/

namespace PrivateAirdrop

open Library

/-- The two shapes of error the programs return. -/
inductive SpelError where
  | custom (code : UInt32) (message : String)
  | serializationError (message : String)
  deriving Repr, DecidableEq

def errProofInvalid : UInt32 := 7001
def errDistributorMismatch : UInt32 := 7002
def errRootMismatch : UInt32 := 7003
def errNullifierSpent : UInt32 := 7004
def errDistributionExhausted : UInt32 := 7005
def errRecipientMismatch : UInt32 := 7006
def errUnauthorizedCaller : UInt32 := 7007

/-- Per-distribution state stored on-chain. -/
structure DistributionState where
  merkleRoot : Bytes32
  claimCircuitProgramId : ProgramId
  totalSupply : U128
  claimed : U128
  spentNullifiers : List Bytes32
  deriving Repr, DecidableEq

/-- Public outputs of the claim circuit, as delivered to `claim`. -/
structure ClaimJournal where
  merkleRoot : Bytes32
  nullifier : Bytes32
  distributorId : Bytes32
  allocation : U128
  recipientNoteHash : Bytes32
  deriving Repr, DecidableEq

namespace DistributionState

def format : Format UInt8 DistributionState :=
  (Borsh.bytes32.pair (Borsh.programId.pair (Borsh.u128.pair (Borsh.u128.pair
    (Borsh.vec Borsh.bytes32))))).via
    (fun s => (s.merkleRoot, s.claimCircuitProgramId, s.totalSupply, s.claimed, s.spentNullifiers))
    (fun (root, ccid, supply, claimed, spent) => some ⟨root, ccid, supply, claimed, spent⟩)
    (fun _ => rfl)
    (fun _ back => by obtain rfl := Option.some.inj back; rfl)

/-- `borsh::to_vec`, which fails only on a count that does not fit its prefix. -/
def toVec (s : DistributionState) : Option (List UInt8) := format.encode s

def tryFromSlice (bytes : List UInt8) : Option DistributionState := format.decodeAll bytes

/-- What precedes the nullifiers: the four fixed fields. -/
def header (s : DistributionState) : List UInt8 :=
  s.merkleRoot.toList ++ (s.claimCircuitProgramId.toList.flatMap U32.toLeBytes ++
    (U128.toLeBytes s.totalSupply ++ U128.toLeBytes s.claimed))

@[simp] theorem header_length (s : DistributionState) : s.header.length = 96 := by
  have words : (s.claimCircuitProgramId.toList.flatMap U32.toLeBytes).length = 32 := by
    simp [List.length_flatMap]
  simp [header, words]

theorem encode_eq (s : DistributionState) : format.encode s =
    if s.spentNullifiers.length < 256 ^ 4 then
      some (s.header ++ (byteRadix.write 4 s.spentNullifiers.length ++
        s.spentNullifiers.flatMap Vector.toList))
    else none := by
  have items := Borsh.bytes32.encodeItems_of_total Borsh.bytes32_encode s.spentNullifiers
  simp only [format, Format.via, Format.pair, Borsh.bytes32_encode, Borsh.programId_encode,
    Borsh.u128_encode, Option.bind_some, Borsh.vec, Format.prefixed, items, Option.map_some]
  by_cases fits : s.spentNullifiers.length < 256 ^ 4
  · simp only [byteRadix.little_encode fits, fits, if_true, Option.bind_some, Option.map_some,
      header, List.append_assoc]
  · have refused : (byteRadix.little 4).encode s.spentNullifiers.length = none := if_neg fits
    simp only [refused, fits, if_false, Option.bind_none, Option.map_none]

theorem tryFromSlice_iff {s : DistributionState} {bytes : List UInt8} :
    tryFromSlice bytes = some s ↔ s.toVec = some bytes := format.decodeAll_iff

theorem toVec_length {s : DistributionState} {bytes : List UInt8} (h : s.toVec = some bytes) :
    bytes.length = 100 + 32 * s.spentNullifiers.length := by
  rw [toVec, encode_eq] at h
  split at h
  · cases h
    simp [List.length_flatMap]
    omega
  · cases h

theorem toVec_of_lt {s : DistributionState} (h : s.spentNullifiers.length < 2 ^ 32) :
    ∃ bytes, s.toVec = some bytes := by
  refine ⟨_, (encode_eq s).trans (if_pos ?_)⟩
  simpa using h

theorem toVec_lt {s : DistributionState} {bytes : List UInt8} (h : s.toVec = some bytes) :
    s.spentNullifiers.length < 2 ^ 32 := by
  rw [toVec, encode_eq] at h
  split at h
  · rename_i fits
    simpa using fits
  · cases h

end DistributionState

namespace ClaimJournal

/-- The decoder of `claim`, a record with the fields of the journal in order. -/
def format : Format UInt8 ClaimJournal :=
  (Borsh.bytes32.pair (Borsh.bytes32.pair (Borsh.bytes32.pair (Borsh.u128.pair
    Borsh.bytes32)))).via
    (fun j => (j.merkleRoot, j.nullifier, j.distributorId, j.allocation, j.recipientNoteHash))
    (fun (root, nullifier, distributor, allocation, noteHash) =>
      some ⟨root, nullifier, distributor, allocation, noteHash⟩)
    (fun _ => rfl)
    (fun _ back => by obtain rfl := Option.some.inj back; rfl)

def tryFromSlice (bytes : List UInt8) : Option ClaimJournal := format.decodeAll bytes

theorem format_fixed : format.Fixed 144 := by
  have fields := Borsh.bytes32_fixed.pair (Borsh.bytes32_fixed.pair (Borsh.bytes32_fixed.pair
    (Borsh.u128_fixed.pair Borsh.bytes32_fixed)))
  refine fields.presented (fun _ => rfl) ?_
  intro ts parts rest found
  simp [format, Format.via, found]

theorem encode_eq (j : ClaimJournal) : format.encode j =
    some (j.merkleRoot.toList ++ (j.nullifier.toList ++ (j.distributorId.toList ++
      (U128.toLeBytes j.allocation ++ j.recipientNoteHash.toList)))) := by
  simp only [format, Format.via, Format.pair, Borsh.bytes32_encode, Borsh.u128_encode,
    Option.bind_some, Option.map_some]

end ClaimJournal

def sha2Hash (H : Sha256) (data : List UInt8) : Bytes32 := H data

/-- Core claim validation against mutable distribution state. The release build
    does not check overflow, so both additions wrap. -/
def applyClaim (H : Sha256) (journal : ClaimJournal) (distributorId : Bytes32)
    (recipientNote : List UInt8) : ExceptT SpelError (StateM DistributionState) Unit := do
  if journal.distributorId ≠ distributorId then
    throw (.custom errDistributorMismatch "distributor mismatch")
  if journal.merkleRoot ≠ (← get).merkleRoot then
    throw (.custom errRootMismatch "merkle root mismatch")
  -- Recipient binding before any state mutation.
  let expectedHash := sha2Hash H recipientNote
  if expectedHash ≠ journal.recipientNoteHash then
    throw (.custom errRecipientMismatch "recipient mismatch")
  if (← get).spentNullifiers.contains journal.nullifier then
    throw (.custom errNullifierSpent "nullifier already spent")
  if (← get).claimed + journal.allocation > (← get).totalSupply then
    throw (.custom errDistributionExhausted "distribution exhausted")
  modify fun state => { state with spentNullifiers := state.spentNullifiers ++ [journal.nullifier] }
  modify fun state => { state with claimed := state.claimed + journal.allocation }

namespace DistributionState

/-- The state after an accepted claim. -/
def record (s : DistributionState) (j : ClaimJournal) : DistributionState :=
  { s with
    spentNullifiers := s.spentNullifiers ++ [j.nullifier]
    claimed := s.claimed + j.allocation }

@[simp] theorem record_merkleRoot (s : DistributionState) (j : ClaimJournal) :
    (s.record j).merkleRoot = s.merkleRoot := rfl

@[simp] theorem record_claimCircuitProgramId (s : DistributionState) (j : ClaimJournal) :
    (s.record j).claimCircuitProgramId = s.claimCircuitProgramId := rfl

@[simp] theorem record_totalSupply (s : DistributionState) (j : ClaimJournal) :
    (s.record j).totalSupply = s.totalSupply := rfl

@[simp] theorem record_claimed (s : DistributionState) (j : ClaimJournal) :
    (s.record j).claimed = s.claimed + j.allocation := rfl

@[simp] theorem record_spentNullifiers (s : DistributionState) (j : ClaimJournal) :
    (s.record j).spentNullifiers = s.spentNullifiers ++ [j.nullifier] := rfl

end DistributionState

/-- The first check that fails, with its error. -/
def refusal (H : Sha256) (s : DistributionState) (j : ClaimJournal) (D : Bytes32)
    (note : List UInt8) : Option SpelError :=
  if j.distributorId ≠ D then some (.custom errDistributorMismatch "distributor mismatch")
  else if j.merkleRoot ≠ s.merkleRoot then some (.custom errRootMismatch "merkle root mismatch")
  else if H note ≠ j.recipientNoteHash then some (.custom errRecipientMismatch "recipient mismatch")
  else if j.nullifier ∈ s.spentNullifiers then
    some (.custom errNullifierSpent "nullifier already spent")
  else if s.totalSupply < s.claimed + j.allocation then
    some (.custom errDistributionExhausted "distribution exhausted")
  else none

theorem exec_applyClaim (H : Sha256) (s : DistributionState) (j : ClaimJournal) (D : Bytes32)
    (note : List UInt8) : exec (applyClaim H j D note) s =
      match refusal H s j D note with
      | some e => (.error e, s)
      | none => (.ok (), s.record j) := by
  unfold applyClaim refusal sha2Hash
  by_cases distributor : j.distributorId = D
  · by_cases root : j.merkleRoot = s.merkleRoot
    · by_cases hash : H note = j.recipientNoteHash
      · by_cases spent : j.nullifier ∈ s.spentNullifiers
        · simp [distributor, root, hash, spent]
        · by_cases exhausted : s.totalSupply < s.claimed + j.allocation
          · simp [distributor, root, hash, spent, exhausted]
          · simp [distributor, root, hash, spent, exhausted, DistributionState.record]
      · simp [distributor, root, hash]
    · simp [distributor, root]
  · simp [distributor]

theorem refusal_none_iff {H : Sha256} {s : DistributionState} {j : ClaimJournal} {D : Bytes32}
    {note : List UInt8} : refusal H s j D note = none ↔
      j.distributorId = D ∧ j.merkleRoot = s.merkleRoot ∧ H note = j.recipientNoteHash ∧
        j.nullifier ∉ s.spentNullifiers ∧ s.claimed + j.allocation ≤ s.totalSupply := by
  unfold refusal
  split_ifs with distributor root hash spent exhausted
  · simp [distributor]
  · simp [root]
  · simp [hash]
  · simp [spent]
  · simp only [false_iff, not_and]
    exact fun _ _ _ _ => BitVec.not_le.mpr exhausted
  · simp only [not_not] at distributor root hash
    exact ⟨fun _ => ⟨distributor, root, hash, spent, BitVec.not_lt.mp exhausted⟩, fun _ => rfl⟩

theorem refusal_ne_proofInvalid {H : Sha256} {s : DistributionState} {j : ClaimJournal}
    {D : Bytes32} {note : List UInt8} {e : SpelError} (h : refusal H s j D note = some e)
    (message : String) : e ≠ .custom errProofInvalid message := by
  have other : ∀ {code : UInt32} {text : String}, code ≠ errProofInvalid →
      SpelError.custom code text ≠ .custom errProofInvalid message :=
    fun different same => different (SpelError.custom.inj same).1
  unfold refusal at h
  split_ifs at h
  all_goals
    cases h
    exact other (by decide)

end PrivateAirdrop

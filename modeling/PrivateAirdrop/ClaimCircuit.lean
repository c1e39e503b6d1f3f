import PrivateAirdrop.Library.HashTree
import PrivateAirdrop.Airdrop

/-! # The claim circuit

`submitClaim` recomputes the root from a claimed entry, derives the nullifier
and the note hash, and emits a chained call into the airdrop program. It reads
the distribution account and changes nothing itself.
-/

namespace PrivateAirdrop

open Library

def leafHash (H : Sha256) (accountId : Bytes32) (allocation : U128) : Bytes32 :=
  let h := Hasher.new
  let h := h.update [0x00]
  let h := h.update accountId.toList
  let h := h.update (U128.toLeBytes allocation)
  h.finalize H

def nodeHash (H : Sha256) (left right : Bytes32) : Bytes32 :=
  let h := Hasher.new
  let h := h.update [0x01]
  let h := h.update left.toList
  let h := h.update right.toList
  h.finalize H

/-- The loop over the siblings, with the node and the index it carries. -/
def merkleWalk (H : Sha256) : Bytes32 → UInt32 → List Bytes32 → Bytes32
  | node, _, [] => node
  | node, index, sibling :: rest =>
    merkleWalk H
      (if index &&& 1 = 0 then nodeHash H node sibling else nodeHash H sibling node)
      (index >>> 1) rest

def deriveNullifier (H : Sha256) (accountId distributorId : Bytes32) : Bytes32 :=
  let h := Hasher.new
  let h := h.update accountId.toList
  let h := h.update distributorId.toList
  h.finalize H

/-- Wire-format mirror of the airdrop program's instruction enum. -/
inductive AirdropInstruction where
  | initializeDistribution
  | claim (journalBytes recipientNote : List UInt8)

/-- `Vec<u8>` in risc0 serde: a length word, then one word for each byte. -/
def vecWords (bytes : List UInt8) : List UInt32 :=
  UInt32.ofNat bytes.length :: bytes.map UInt8.toUInt32

def AirdropInstruction.words : AirdropInstruction → List UInt32
  | .initializeDistribution => [0]
  | .claim journalBytes recipientNote => 1 :: (vecWords journalBytes ++ vecWords recipientNote)

def ChainedCall.new (programId : ProgramId) (preStates : List AccountWithMetadata)
    (instruction : AirdropInstruction) : ChainedCall where
  programId
  preStates
  instructionData := instruction.words

def submitClaim (H : Sha256) (distributionAccount claimerNote : AccountWithMetadata)
    (airdropProgramId : ProgramId) (accountId : Bytes32) (allocation : U128) (leafIndex : UInt32)
    (merklePath : List Bytes32) (recipientNote : List UInt8) : Except SpelError SpelOutput := do
  let some state := DistributionState.tryFromSlice distributionAccount.account.data
    | throw (.custom errProofInvalid "distribution state deserialise failed")
  let distributorId := distributionAccount.accountId
  let node := merkleWalk H (leafHash H accountId allocation) leafIndex merklePath
  if node ≠ state.merkleRoot then
    throw (.custom errRootMismatch "merkle inclusion proof does not match committed root")
  let nullifier := deriveNullifier H accountId distributorId
  let recipientNoteHash := H recipientNote
  let journalBytes := state.merkleRoot.toList ++ nullifier.toList ++ distributorId.toList ++
    U128.toLeBytes allocation ++ recipientNoteHash.toList
  let chainedCall := ChainedCall.new airdropProgramId [distributionAccount]
    (.claim journalBytes recipientNote)
  return { postStates := [distributionAccount, claimerNote], chainedCalls := [chainedCall] }

def leafPreimage (accountId : Bytes32) (allocation : U128) : List UInt8 :=
  0x00 :: (accountId.toList ++ U128.toLeBytes allocation)

def nodePreimage (left right : Bytes32) : List UInt8 := 0x01 :: (left.toList ++ right.toList)

def nullifierPreimage (accountId distributorId : Bytes32) : List UInt8 :=
  accountId.toList ++ distributorId.toList

theorem nodeHash_eq (H : Sha256) (l r : Bytes32) : nodeHash H l r = H (nodePreimage l r) := rfl

theorem deriveNullifier_eq (H : Sha256) (a D : Bytes32) :
    deriveNullifier H a D = H (nullifierPreimage a D) := rfl

theorem nullifierPreimage_injective {a b D : Bytes32}
    (h : nullifierPreimage a D = nullifierPreimage b D) : a = b :=
  Bytes32.toList_injective (List.append_cancel_right h)

/-- An eligibility entry: an account and what it is allocated. -/
abbrev Entry := Bytes32 × U128

/-- Leaves and inner nodes are told apart by their first byte. -/
def hashing (H : Sha256) : Hashing Entry (List UInt8) Bytes32 where
  hash := H
  leaf e := leafPreimage e.1 e.2
  node := nodePreimage
  leaf_injective := by
    intro a b same
    have tails := (List.cons.inj same).2
    refine (Borsh.bytes32.pair Borsh.u128).encode_injective
      (Format.pair_encode _ _ (Borsh.bytes32_encode a.1) (Borsh.u128_encode a.2)) ?_
    rw [tails]
    exact Format.pair_encode _ _ (Borsh.bytes32_encode b.1) (Borsh.u128_encode b.2)
  node_injective := by
    intro a b c d same
    have tails := (List.cons.inj same).2
    obtain ⟨left, right⟩ := List.append_inj tails (by simp)
    exact ⟨Bytes32.toList_injective left, Bytes32.toList_injective right⟩
  leaf_ne_node := by
    intro e l r same
    exact absurd (List.cons.inj same).1 (by decide)

@[simp] theorem hashing_hash (H : Sha256) : (hashing H).hash = H := rfl

theorem hashing_combine (H : Sha256) : (hashing H).combine = nodeHash H := rfl

theorem merkleWalk_eq (H : Sha256) (node : Bytes32) (index : UInt32) (path : List Bytes32) :
    merkleWalk H node index path = walk (hashing H).combine node index.toNat path := by
  induction path generalizing node index with
  | nil => rfl
  | cons sibling rest ih =>
      have half : (index >>> 1).toNat = index.toNat / 2 := by
        simp [UInt32.toNat_shiftRight, Nat.shiftRight_eq_div_pow]
      have parity : index &&& 1 = 0 ↔ index.toNat % 2 = 0 := by
        rw [← UInt32.toNat_inj, UInt32.toNat_and]
        simp [Nat.and_one_is_mod]
      simp only [merkleWalk, walk, ih, half, step, parity, hashing_combine]

/-- The journal of a claim, as `claim` decodes it. -/
def claimJournal (H : Sha256) (root D : Bytes32) (accountId : Bytes32) (allocation : U128)
    (note : List UInt8) : ClaimJournal where
  merkleRoot := root
  nullifier := deriveNullifier H accountId D
  distributorId := D
  allocation
  recipientNoteHash := H note

/-- The journal bytes `submitClaim` puts together by hand. -/
def journalBytes (j : ClaimJournal) : List UInt8 :=
  j.merkleRoot.toList ++ j.nullifier.toList ++ j.distributorId.toList ++
    U128.toLeBytes j.allocation ++ j.recipientNoteHash.toList

theorem tryFromSlice_journalBytes (j : ClaimJournal) :
    ClaimJournal.tryFromSlice (journalBytes j) = some j := by
  rw [ClaimJournal.tryFromSlice, Format.decodeAll_iff, ClaimJournal.encode_eq]
  simp only [journalBytes, List.append_assoc]

@[simp] theorem journalBytes_length (j : ClaimJournal) : (journalBytes j).length = 144 := by
  simp [journalBytes]

theorem submitClaim_ok_iff {H : Sha256} {dist note : AccountWithMetadata} {target : ProgramId}
    {a : Bytes32} {v : U128} {i : UInt32} {path : List Bytes32} {n : List UInt8} {out : SpelOutput} :
    submitClaim H dist note target a v i path n = .ok out ↔
      ∃ s, DistributionState.tryFromSlice dist.account.data = some s ∧
        merkleWalk H (leafHash H a v) i path = s.merkleRoot ∧
        out = { postStates := [dist, note]
                chainedCalls := [ChainedCall.new target [dist]
                  (.claim (journalBytes (claimJournal H s.merkleRoot dist.accountId a v n)) n)] } := by
  unfold submitClaim
  cases state : DistributionState.tryFromSlice dist.account.data with
  | none => simp
  | some s =>
      by_cases reaches : merkleWalk H (leafHash H a v) i path = s.merkleRoot
      · simp [reaches, pure, Except.pure, eq_comm (b := out), journalBytes, claimJournal]
      · simp [reaches]

theorem submitClaim_ne_deserialise_error (H : Sha256) (dist note : AccountWithMetadata)
    (target : ProgramId) (a : Bytes32) (v : U128) (i : UInt32) (path : List Bytes32)
    (n : List UInt8) {s : DistributionState}
    (state : DistributionState.tryFromSlice dist.account.data = some s) :
    submitClaim H dist note target a v i path n ≠
      .error (.custom errProofInvalid "distribution state deserialise failed") := by
  by_cases reaches : merkleWalk H (leafHash H a v) i path = s.merkleRoot
  · simp [submitClaim, state, reaches, pure, Except.pure]
  · have other : errRootMismatch ≠ errProofInvalid := by decide
    simp [submitClaim, state, reaches, other]

theorem vecWords_encode {bytes : List UInt8} (fits : bytes.length < 2 ^ 32) :
    (Words.vec Words.u8).encode bytes = some (vecWords bytes) :=
  Format.prefixed_encode _ _ (Words.length_encode fits) (Words.encodeItems_u8 bytes)

theorem decode_claim_words {journal note : List UInt8} (hj : journal.length < 2 ^ 32)
    (hn : note.length < 2 ^ 32) :
    Instruction.decode (AirdropInstruction.claim journal note).words = some (.claim journal note) := by
  have whole := Format.pair_encode _ _ (vecWords_encode hj) (vecWords_encode hn)
  have read := ((Words.vec Words.u8).pair (Words.vec Words.u8)).reads whole []
  rw [List.append_nil] at read
  simp only [AirdropInstruction.words, Instruction.decode, read, Option.map_some]
  rfl

end PrivateAirdrop

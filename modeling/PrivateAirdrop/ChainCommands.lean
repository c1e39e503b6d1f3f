import PrivateAirdrop.Library.Decimal
import PrivateAirdrop.CommandLine
import PrivateAirdrop.Lifecycle

/-! # The commands that reach the chain

`chain initialize` and `chain claim`, from the text of their arguments to what the
sequencer applies. The first sends a public transaction, which meets the account as
it then is. The second first executes the whole claim on the account as it reads it,
so it sends nothing that was refused there, and what it sends is proved on that
account and applied to no other.
-/

namespace PrivateAirdrop

open Library
open Library.Alphabet (characters)

def parseU128 (text : List Char) : Option U128 :=
  (Decimal.unsigned (2 ^ 128) text).map (BitVec.ofNat 128)

def parseU32 (text : List Char) : Option UInt32 :=
  (Decimal.unsigned (2 ^ 32) text).map UInt32.ofNat

theorem parseU128_toDigits (v : U128) : parseU128 (Nat.toDigits 10 v.toNat) = some v := by
  rw [parseU128, Decimal.unsigned_toDigits v.isLt, Option.map_some, BitVec.ofNat_toNat,
    BitVec.setWidth_eq]

theorem parseU32_toDigits {n : Nat} (small : n < 2 ^ 32) :
    parseU32 (Nat.toDigits 10 n) = some (UInt32.ofNat n) := by
  rw [parseU32, Decimal.unsigned_toDigits small, Option.map_some]

theorem block_of_flatMap {α β : Type} {f : α → List β} {k : Nat} (sizes : ∀ a, (f a).length = k)
    {l : List α} {i : Nat} {a : α} (here : l[i]? = some a) :
    ((l.flatMap f).drop (k * i)).take k = f a := by
  induction l generalizing i with
  | nil => cases here
  | cons b l ih =>
      cases i with
      | zero =>
          obtain rfl : b = a := Option.some.inj here
          rw [Nat.mul_zero, List.drop_zero, List.flatMap_cons, List.take_left' (sizes b)]
      | succ i =>
          have shift : k * (i + 1) = (f b).length + k * i := by rw [sizes, Nat.mul_succ, Nat.add_comm]
          rw [List.flatMap_cons, shift, List.drop_length_add_append, ih here]

theorem parseProgramId_hexEncode (pid : ProgramId) :
    parseProgramId (characters.hexEncode (pid.toList.flatMap U32.toLeBytes)) = .ok pid := by
  let bytes := pid.toList.flatMap U32.toLeBytes
  have decoded : fromHex (characters.hexEncode bytes) = .ok bytes :=
    fromHex_ok_iff.mpr (characters.lower_hexEncode _)
  have size : bytes.length = 32 := by simp [bytes, List.length_flatMap]
  have words : (Vector.ofFn fun i : Fin 8 =>
      UInt32.ofNat (byteRadix.total ((bytes.drop (4 * i.val)).take 4))) = pid := by
    apply Vector.ext
    intro i small
    have here : pid.toList[i]? = some pid[i] := by simp
    have fits := UInt32.toNat_lt pid[i]
    rw [Vector.getElem_ofFn, block_of_flatMap U32.toLeBytes_length here, U32.toLeBytes,
      byteRadix.total_write 4 _ (by simpa [byteRadix] using fits), UInt32.ofNat_toNat]
  rw [parseProgramId, withContext_ok_iff.mpr decoded]
  simp only [bind, Except.bind, size, if_true, words]
  rfl

theorem length_of_parseProgramId {text : List Char} {pid : ProgramId}
    (parsed : parseProgramId text = .ok pid) : text.length = 64 := by
  rw [parseProgramId, bind_eq_ok] at parsed
  obtain ⟨decoded, found, kept⟩ := parsed
  have written := congrArg List.length (fromHex_ok_iff.mp (withContext_ok_iff.mp found))
  rw [List.length_map, characters.hexEncode_length] at written
  split at kept
  · omega
  · cases kept

structure ChainInitializeArgs where
  programId : List Char
  claimCircuitProgramId : List Char
  /-- The account of the signing key, or why the key does not parse. -/
  signingKey : Except String AccountId
  merkleRoot : List Char
  totalSupply : U128

/-- `chain initialize`, up to the call it sends: a program, the signer, the words. -/
def chainInitializeCommand (args : ChainInitializeArgs) :
    Except CliError (ProgramId × AccountId × List UInt32) := do
  let pid ← parseProgramId args.programId
  let ccPid ← parseProgramId args.claimCircuitProgramId
  let accountId ←
    match args.signingKey with
    | .ok accountId => .ok accountId
    | .error e => .error (.message ("invalid signing key: " ++ e))
  let root ← parseHex32 args.merkleRoot
  return (pid, accountId, instrInitialize root ccPid args.totalSupply)

/-- A transaction on its way to the sequencer, with the account it was proved on if
    it is a private one. -/
structure Sent where
  call : Call
  provedOn : Option Account

/-- The sequencer applies it: what was proved on an account, while it is that account. -/
def Sent.Applies (t : Sent) (w : World) : Prop :=
  ∀ account ∈ t.provedOn, w t.call.address = account

instance (t : Sent) (w : World) : Decidable (t.Applies w) :=
  inferInstanceAs (Decidable (∀ account ∈ t.provedOn, w t.call.address = account))

/-- `send_signed_call`. Transactions to other programs have no part in the airdrop. -/
def sendSignedCall (dep : Deployment) (pid : ProgramId) (signer : AccountId)
    (words : List UInt32) : List Sent :=
  if pid = dep.airdropId then
    ((Instruction.decode words).map fun i => ⟨.airdrop .topLevel signer i, none⟩).toList
  else []

def chainInitialize (dep : Deployment) (args : ChainInitializeArgs) :
    Except CliError (List Sent) := do
  let (pid, signer, words) ← chainInitializeCommand args
  return sendSignedCall dep pid signer words

/-- What the circuit is called with, once it has read its words. -/
def ClaimRequest.read (words : List UInt32) : Option ClaimRequest := do
  let (a, _) ← SubmitClaimArgs.format.decode words
  if fits : a.recipientNote.length < 2 ^ 32 then
    some ⟨a.airdropProgramId, a.accountId, a.allocation, a.leafIndex, a.merklePath,
      a.recipientNote, fits⟩
  else none

/-- `send_claim_ppe`. Of the programs that the circuit may chain to only the airdrop
    program is at hand, so the execution of any other chained call fails. -/
def sendClaimPpe (P : Platform) (dep : Deployment) (w : World) (did claimerNote : AccountId)
    (words : List UInt32) : Option Sent :=
  match ClaimRequest.read words with
  | none => none
  | some r =>
    match executeClaim P dep (w.live did) (w.live claimerNote) r with
    | .ok (some _) => some ⟨.submitClaim did claimerNote r, some (w did)⟩
    | .ok none => none
    | .error _ => none

/-- `chain claim` in a world: what it sends, if it does. -/
def chainClaim (P : Platform) (dep : Deployment) (w : World) (claimerNote : AccountId)
    (args : ChainClaimArgs) : Option Sent :=
  match chainClaimCommand args with
  | .error _ => none
  | .ok (did, words) => sendClaimPpe P dep w did claimerNote words

/-- The arguments ask for the request `r` on the account `did`. -/
structure ChainClaimArgs.Asks (args : ChainClaimArgs) (did : AccountId) (r : ClaimRequest) :
    Prop where
  programId : parseProgramId args.programId = .ok r.airdropProgramId
  distributorId : parseHex32 args.distributorId = .ok did
  accountId : parseHex32 args.accountId = .ok r.accountId
  allocation : args.allocation = r.allocation
  leafIndex : args.leafIndex = r.leafIndex
  merklePath : parseMerklePath args.merklePath = .ok r.merklePath
  recipientNote : fromHex args.recipientNote = .ok r.recipientNote

/-- Texts that stand for no more items than a 32-bit count can say. -/
structure ChainClaimArgs.Short (args : ChainClaimArgs) : Prop where
  merklePath : args.merklePath.length + 1 < 2 ^ 32
  recipientNote : args.recipientNote.length < 2 ^ 32

/-- The words of a request, as the host writes them. -/
def ClaimRequest.words (r : ClaimRequest) : List UInt32 :=
  instrCcSubmitClaim r.airdropProgramId r.accountId r.allocation r.leafIndex r.merklePath
    r.recipientNote

section Claim

variable {P : Platform} {dep : Deployment} {w : World} {claimerNote did : AccountId}
  {args : ChainClaimArgs} {r : ClaimRequest} {words : List UInt32}

theorem ClaimRequest.read_words (path : r.merklePath.length < 2 ^ 32) :
    ClaimRequest.read r.words = some r := by
  let a : SubmitClaimArgs :=
    ⟨r.airdropProgramId, r.accountId, r.allocation, r.leafIndex, r.merklePath, r.recipientNote⟩
  have decoded : SubmitClaimArgs.format.decode (r.words ++ []) = some (a, []) :=
    SubmitClaimArgs.format.reads (instrCcSubmitClaim_encodes a path r.note_fits) []
  rw [List.append_nil] at decoded
  rw [ClaimRequest.read, decoded]
  exact dif_pos r.note_fits

theorem ChainClaimArgs.Asks.command (asks : args.Asks did r) :
    chainClaimCommand args = .ok (did, r.words) := by
  simp only [chainClaimCommand, asks.programId, asks.distributorId, asks.accountId,
    asks.recipientNote, asks.merklePath, withContext, asks.allocation, asks.leafIndex]
  rfl

theorem ChainClaimArgs.Asks.unique {did' : AccountId} {r' : ClaimRequest} (asks : args.Asks did r)
    (asks' : args.Asks did' r') : did = did' ∧ r = r' := by
  obtain ⟨pid, acct, alloc, index, path, note, fits⟩ := r
  obtain ⟨pid', acct', alloc', index', path', note', fits'⟩ := r'
  have same := asks.programId.symm.trans asks'.programId
  have account := asks.accountId.symm.trans asks'.accountId
  have nodes := asks.merklePath.symm.trans asks'.merklePath
  have bytes := asks.recipientNote.symm.trans asks'.recipientNote
  have value := asks.allocation.symm.trans asks'.allocation
  have position := asks.leafIndex.symm.trans asks'.leafIndex
  simp only [Except.ok.injEq] at same account nodes bytes value position
  exact ⟨Except.ok.inj (asks.distributorId.symm.trans asks'.distributorId), by
    simp only [same, account, nodes, bytes, value, position]⟩

theorem ChainClaimArgs.Short.asks (short : args.Short)
    (parsed : chainClaimCommand args = .ok (did, words)) :
    ∃ r, args.Asks did r ∧ words = r.words ∧ r.merklePath.length < 2 ^ 32 := by
  simp only [chainClaimCommand, bind_eq_ok, withContext_ok_iff] at parsed
  obtain ⟨pid, pid_, did', did_, acct, acct_, note, note_, path, path_, same⟩ := parsed
  cases same
  have written := congrArg List.length (fromHex_ok_iff.mp note_)
  have items := (parseMerklePath_ok_iff.mp path_).length_eq
  have pieces := length_splitOn_le ',' args.merklePath
  have note_short := short.recipientNote
  have path_short := short.merklePath
  rw [List.length_map, characters.hexEncode_length] at written
  exact ⟨⟨pid, acct, args.allocation, args.leafIndex, path, note, by omega⟩,
    ⟨pid_, did_, acct_, rfl, rfl, path_, note_⟩, rfl, by show path.length < _; omega⟩

theorem sendClaimPpe_some_iff {t : Sent} (read : ClaimRequest.read words = some r) :
    sendClaimPpe P dep w did claimerNote words = some t ↔
      (∃ s data', Delivered P dep did (w did).data r s data') ∧
        t = ⟨.submitClaim did claimerNote r, some (w did)⟩ := by
  have accepts := fun x => @executeClaim_some_iff P dep (w.live did) (w.live claimerNote) r x
  cases run : executeClaim P dep (w.live did) (w.live claimerNote) r with
  | error f =>
      simp only [sendClaimPpe, read, run, reduceCtorEq, false_iff]
      rintro ⟨⟨s, data', delivered⟩, -⟩
      cases run.symm.trans ((accepts _).mpr ⟨s, data', delivered, rfl⟩)
  | ok done =>
      cases done with
      | none =>
          simp only [sendClaimPpe, read, run, reduceCtorEq, false_iff]
          rintro ⟨⟨s, data', delivered⟩, -⟩
          cases run.symm.trans ((accepts _).mpr ⟨s, data', delivered, rfl⟩)
      | some x =>
          obtain ⟨s, data', delivered, -⟩ := (accepts x).mp run
          simp only [sendClaimPpe, read, run, Option.some.injEq]
          exact ⟨fun same => ⟨⟨s, data', delivered⟩, same.symm⟩, fun sent => sent.2.symm⟩

theorem submitClaim_claimed_iff :
    (∃ acc, ((world P dep).step w (.submitClaim did claimerNote r)).1 = .claimed acc) ↔
      ∃ s data', Delivered P dep did (w did).data r s data' := by
  constructor
  · rintro ⟨acc, claimed⟩
    rcases world_submitClaim_cases P dep w did claimerNote r with
      ⟨outcome, other, same⟩ | ⟨s, data', delivered, -⟩
    · rw [same] at claimed
      exact absurd claimed (other acc)
    · exact ⟨s, data', delivered⟩
  · rintro ⟨s, data', delivered⟩
    rw [world_submitClaim_delivered claimerNote delivered]
    exact ⟨_, rfl⟩

theorem chainClaim_some_iff (short : args.Short) {t : Sent} :
    chainClaim P dep w claimerNote args = some t ↔
      ∃ did r, args.Asks did r ∧ (∃ s data', Delivered P dep did (w did).data r s data') ∧
        t = ⟨.submitClaim did claimerNote r, some (w did)⟩ := by
  constructor
  · intro sent
    cases parsed : chainClaimCommand args with
    | error e =>
        rw [chainClaim, parsed] at sent
        cases sent
    | ok asked =>
        obtain ⟨did, words⟩ := asked
        obtain ⟨r, asks, rfl, path⟩ := short.asks parsed
        rw [chainClaim, parsed] at sent
        exact ⟨did, r, asks, (sendClaimPpe_some_iff (r.read_words path)).mp sent⟩
  · rintro ⟨did, r, asks, accepted⟩
    obtain ⟨r', asks', same, path⟩ := short.asks asks.command
    have path_ := asks'.merklePath
    rw [asks.merklePath, Except.ok.injEq] at path_
    rw [← path_] at path
    rw [chainClaim, asks.command]
    exact (sendClaimPpe_some_iff (r.read_words path)).mpr accepted

theorem world_step_congr {w' : World} {call : Call} (same : w' call.address = w call.address) :
    (world P dep).step w' call = (((world P dep).step w call).1,
      w'.set call.address (((world P dep).step w call).2 call.address)) := by
  simp only [world_step_local w', world_step_local w, same, World.set_same]

end Claim

/-- `chain claim` sends a transaction exactly when its arguments ask for a request
    that the chain would accept on the account as it is read. While that account is
    what it was, whatever became of all others, the transaction is applied, with the
    acceptance and the account that were foreseen; and once it is not, never. -/
theorem chain_claim_sends_iff {P : Platform} {dep : Deployment} {w : World}
    {claimerNote : AccountId} {args : ChainClaimArgs} (short : args.Short) (t : Sent) :
    (chainClaim P dep w claimerNote args = some t ↔
      ∃ did r acc, args.Asks did r ∧
        ((world P dep).step w (.submitClaim did claimerNote r)).1 = .claimed acc ∧
        t = ⟨.submitClaim did claimerNote r, some (w did)⟩) ∧
    (chainClaim P dep w claimerNote args = some t → ∀ w' : World,
      (t.Applies w' ↔ w' t.call.address = w t.call.address) ∧
      (t.Applies w' → (world P dep).step w' t.call = (((world P dep).step w t.call).1,
        w'.set t.call.address (((world P dep).step w t.call).2 t.call.address)))) := by
  constructor
  · rw [chainClaim_some_iff short]
    constructor
    · rintro ⟨did, r, asks, accepted, same⟩
      obtain ⟨acc, claimed⟩ := submitClaim_claimed_iff.mpr accepted
      exact ⟨did, r, acc, asks, claimed, same⟩
    · rintro ⟨did, r, acc, asks, claimed, same⟩
      exact ⟨did, r, asks, submitClaim_claimed_iff.mp ⟨acc, claimed⟩, same⟩
  · intro sent w'
    obtain ⟨did, r, asks, accepted, rfl⟩ := (chainClaim_some_iff short).mp sent
    have applies : (Sent.mk (.submitClaim did claimerNote r) (some (w did))).Applies w' ↔
        w' did = w did := by
      simp [Sent.Applies, Call.address]
    exact ⟨applies, fun current => world_step_congr (applies.mp current)⟩

/-- The first of two entries, claimed with the second as its path. -/
theorem chain_claim_sends_first :
    let H : Sha256 := fun x => Vector.ofFn fun i => x.getD i.val 0
    let zeros : Bytes32 := Vector.replicate 32 0
    let ones : Bytes32 := Vector.replicate 32 1
    let dep : Deployment := ⟨Vector.replicate 8 1, Vector.replicate 8 2, Vector.replicate 8 0⟩
    let P := Platform.bounded H 1000
    let t : Perfect Bytes32 1 := ⟨[leafHash H zeros 5, leafHash H ones 7], rfl⟩
    let s := DistributionState.initial (t.root (nodeHash H)) dep.claimCircuitId 12
    let w := World.alone zeros ⟨dep.airdropId, s.header ++ [0, 0, 0, 0]⟩
    let hex := fun node : Bytes32 => characters.hexEncode node.toList
    let args : ChainClaimArgs := {
      programId := characters.hexEncode (dep.airdropId.toList.flatMap U32.toLeBytes)
      distributorId := hex zeros
      accountId := hex zeros
      allocation := 5
      leafIndex := 0
      merklePath := hex (leafHash H ones 7)
      recipientNote := [] }
    ∃ t did r acc, chainClaim P dep w zeros args = some t ∧ args.Asks did r ∧
      ((world P dep).step w (.submitClaim did zeros r)).1 = .claimed acc := by
  intro H zeros ones dep P t s w hex args
  have some_ : (chainClaim P dep w zeros args).isSome = true := by decide +kernel
  obtain ⟨t, sent⟩ := Option.isSome_iff_exists.mp some_
  have short : args.Short := ⟨by decide +kernel, by decide⟩
  obtain ⟨did, r, acc, asks, claimed, -⟩ := (chain_claim_sends_iff short t).1.mp sent
  exact ⟨t, did, r, acc, sent, asks, claimed⟩

end PrivateAirdrop

import Mathlib.Data.List.Dedup
import PrivateAirdrop.Completeness
import PrivateAirdrop.Privacy

/-! # Who learns what from a whole run

Everything on the chain can be redone from the public calls and, for each accepted
claim, its distribution, its nullifier and its allocation. It knows account ids
only as input of the hash: under another hash the same chain is that of other
accounts. Whoever has the list can tell every nullifier on it by trying.
-/

namespace PrivateAirdrop

open Library

/-- What can be seen of a call that went through. -/
inductive Sighting where
  | airdrop (caller : Caller) (target : AccountId) (instruction : Instruction)
  | claim (distribution : AccountId) (nullifier : Bytes32) (allocation : U128)
  | foreign (id : AccountId) (account : Account)

/-- Nothing is seen of a call that is refused, nor of a claim that does not reach
    the airdrop program. -/
def sighting (H : Sha256) : Call → Outcome → Option Sighting
  | _, .refused _ => none
  | .airdrop caller target instruction, .passed => some (.airdrop caller target instruction)
  | .airdrop caller target instruction, .claimed _ => some (.airdrop caller target instruction)
  | .submitClaim _ _ _, .passed => none
  | .submitClaim D _ r, .claimed _ => some (.claim D (r.nullifier H D) r.allocation)
  | .foreign id account, .passed => some (.foreign id account)
  | .foreign id account, .claimed _ => some (.foreign id account)

def sightings (P : Platform) (dep : Deployment) (w : World) (calls : List Call) : List Sighting :=
  (world P dep).log (sighting P.sha256) w calls

/-- The world as a watcher keeps it. -/
def watched (P : Platform) (dep : Deployment) : Machine World Sighting Unit where
  step w
    | .airdrop caller target instruction =>
      ((), ((world P dep).step w (.airdrop caller target instruction)).2)
    | .claim D nullifier allocation =>
      match publicEffect P (w D).data (nullifier, allocation) with
      | some data => ((), w.set D { w D with data })
      | none => ((), w)
    | .foreign id account => ((), ((world P dep).step w (.foreign id account)).2)

section Watching

variable {P : Platform} {dep : Deployment} {w : World}

theorem world_refused {call : Call} {f : Fault}
    (refused : ((world P dep).step w call).1 = .refused f) : ((world P dep).step w call).2 = w := by
  cases call with
  | airdrop caller id instruction =>
      cases instruction with
      | initializeDistribution root ccid supply =>
          by_cases fresh : w id = Account.fresh
          · cases run : initializeDistribution P (w.live id) root ccid supply with
            | error e => simp [world, fresh, run]
            | ok out => simp [world, fresh, run] at refused
          · simp [world, fresh]
      | claim bytes note =>
          rcases world_claim_cases P dep w caller id bytes note with
            ⟨e, same⟩ | ⟨s, j, data', -, same⟩
          · rw [same]
          · rw [same] at refused
            cases refused
  | submitClaim id note r =>
      rcases world_submitClaim_cases P dep w id note r with
        ⟨outcome, -, same⟩ | ⟨s, data', -, same⟩
      · rw [same]
      · rw [same] at refused
        cases refused
  | foreign id account =>
      by_cases mine : (w id).programOwner = dep.airdropId
      · simp [world, mine]
      · simp [world, mine] at refused

/-- What a call did can be redone from what was seen of it. -/
theorem watched_redoes (w : World) (call : Call) :
    (watched P dep).run w (sighting P.sha256 call ((world P dep).step w call).1).toList =
      ((world P dep).step w call).2 := by
  cases outcome : ((world P dep).step w call).1 with
  | refused f =>
      have seen : sighting P.sha256 call (.refused f) = none := by cases call <;> rfl
      rw [seen, world_refused outcome]
      rfl
  | passed =>
      cases call with
      | airdrop caller target instruction => rfl
      | submitClaim D note r =>
          rcases world_submitClaim_cases P dep w D note r with
            ⟨_, -, same⟩ | ⟨s, data', -, same⟩
          · rw [same]
            rfl
          · rw [same] at outcome
            cases outcome
      | foreign id account => rfl
  | claimed acc =>
      cases call with
      | airdrop caller target instruction => rfl
      | submitClaim D note r =>
          rcases world_submitClaim_cases P dep w D note r with
            ⟨_, other, same⟩ | ⟨s, data', delivered, same⟩
          · rw [same] at outcome
            exact absurd outcome (other acc)
          · have effect := delivered.effect
            rw [ClaimRequest.publicPart] at effect
            simp only [sighting, Option.toList_some, Machine.run, watched, effect, same]
      | foreign id account => rfl

end Watching

/-- Whatever is called in whatever order, the world reached can be computed from the
    public calls and from the distribution, the nullifier and the allocation of each
    accepted claim. So two runs that show the same end in the same world, whoever
    claimed, with whatever positions, paths and notes, and whatever was refused. -/
theorem world_redone_from_sightings (P : Platform) (dep : Deployment) (w : World)
    (calls : List Call) :
    (world P dep).run w calls = (watched P dep).run w (sightings P dep w calls) ∧
      ∀ calls', sightings P dep w calls = sightings P dep w calls' →
        (world P dep).run w calls = (world P dep).run w calls' := by
  have redone := (world P dep).run_redone (watched P dep) watched_redoes w
  refine ⟨(redone calls).symm, ?_⟩
  intro calls' same
  rw [← redone calls, ← redone calls']
  exact congrArg _ same

/-- The bytes with another account in front. -/
def relabelHead (π : Equiv.Perm Bytes32) (x : List UInt8) : List UInt8 :=
  match Borsh.bytes32.decode x with
  | some (a, rest) => (π a).toList ++ rest
  | none => x

/-- The accounts in the preimages of leaves and nullifiers, exchanged for others.
    Lengths tell these preimages from those of nodes. -/
def relabel (π : Equiv.Perm Bytes32) : List UInt8 → List UInt8
  | [] => []
  | b :: x =>
    if x.length = 63 then relabelHead π (b :: x)
    else if b = 0x00 ∧ x.length = 48 then b :: relabelHead π x
    else b :: x

/-- The platform whose hash takes `π a` for `a`. -/
def Platform.relabelled (P : Platform) (π : Equiv.Perm Bytes32) : Platform :=
  { P with sha256 := fun x => P.sha256 (relabel π.symm x) }

section Relabelling

variable (π : Equiv.Perm Bytes32)

@[simp] theorem relabelHead_append (a : Bytes32) (rest : List UInt8) :
    relabelHead π (a.toList ++ rest) = (π a).toList ++ rest := by
  rw [relabelHead, Borsh.bytes32.reads (Borsh.bytes32_encode a)]

theorem relabelHead_cases (x : List UInt8) :
    (∃ a rest, x = Vector.toList (a : Bytes32) ++ rest) ∨
      ∀ π, relabelHead π x = x := by
  cases found : Borsh.bytes32.decode x with
  | none =>
      apply Or.inr
      intro π
      rw [relabelHead, found]
  | some p =>
      obtain ⟨a, rest⟩ := p
      obtain ⟨pre, written, same⟩ := Borsh.bytes32.written found
      rw [Borsh.bytes32_encode, Option.some.injEq] at written
      exact .inl ⟨a, rest, by rw [same, written]⟩

@[simp] theorem relabelHead_length (x : List UInt8) : (relabelHead π x).length = x.length := by
  rcases relabelHead_cases x with ⟨a, rest, rfl⟩ | still
  · simp
  · rw [still]

@[simp] theorem relabelHead_symm (x : List UInt8) :
    relabelHead π.symm (relabelHead π x) = x := by
  rcases relabelHead_cases x with ⟨a, rest, rfl⟩ | still
  · simp
  · rw [still, still]

@[simp] theorem relabel_length (x : List UInt8) : (relabel π x).length = x.length := by
  unfold relabel
  split
  · rfl
  · split_ifs <;> simp

theorem relabel_nullifierPreimage (a D : Bytes32) :
    relabel π (nullifierPreimage a D) = nullifierPreimage (π a) D := by
  have length : (nullifierPreimage a D).length = 64 := by simp [nullifierPreimage]
  cases bytes : nullifierPreimage a D with
  | nil => simp [bytes] at length
  | cons b x =>
      rw [bytes, List.length_cons] at length
      rw [relabel, if_pos (by omega), ← bytes]
      exact relabelHead_append π a D.toList

theorem relabel_leafPreimage (a : Bytes32) (v : U128) :
    relabel π (leafPreimage a v) = leafPreimage (π a) v := by
  have length : (a.toList ++ U128.toLeBytes v).length = 48 := by simp
  rw [leafPreimage, relabel, if_neg (by omega), if_pos ⟨rfl, length⟩, relabelHead_append]
  rfl

theorem relabel_nodePreimage (l r : Bytes32) : relabel π (nodePreimage l r) = nodePreimage l r := by
  have length : (l.toList ++ r.toList).length = 64 := by simp
  rw [nodePreimage, relabel, if_neg (by omega), if_neg (by omega)]

theorem relabel_symm (x : List UInt8) : relabel π.symm (relabel π x) = x := by
  cases x with
  | nil => rfl
  | cons b x =>
      by_cases nullifier : x.length = 63
      · have length := relabelHead_length π (b :: x)
        have back := relabelHead_symm π (b :: x)
        rw [relabel, if_pos nullifier]
        cases bytes : relabelHead π (b :: x) with
        | nil => simp [bytes] at length
        | cons b' x' =>
            rw [bytes, List.length_cons, List.length_cons] at length
            rw [relabel, if_pos (by omega), ← bytes, back]
      · by_cases leaf : b = 0x00 ∧ x.length = 48
        · have length := relabelHead_length π x
          have leaf' : b = 0x00 ∧ (relabelHead π x).length = 48 := ⟨leaf.1, by omega⟩
          rw [relabel, if_neg nullifier, if_pos leaf, relabel, if_neg (by omega), if_pos leaf',
            relabelHead_symm]
        · rw [relabel, if_neg nullifier, if_neg leaf, relabel, if_neg nullifier, if_neg leaf]

@[simp] theorem Platform.relabelled_sha256 (P : Platform) (x : List UInt8) :
    (P.relabelled π).sha256 (relabel π x) = P.sha256 x := congrArg P.sha256 (relabel_symm π x)

theorem leafHash_relabelled (P : Platform) (a : Bytes32) (v : U128) :
    leafHash (P.relabelled π).sha256 (π a) v = leafHash P.sha256 a v := by
  have preimage := P.relabelled_sha256 π (leafPreimage a v)
  rwa [relabel_leafPreimage] at preimage

theorem deriveNullifier_relabelled (P : Platform) (a D : Bytes32) :
    deriveNullifier (P.relabelled π).sha256 (π a) D = deriveNullifier P.sha256 a D := by
  have preimage := P.relabelled_sha256 π (nullifierPreimage a D)
  rwa [relabel_nullifierPreimage] at preimage

theorem nodeHash_relabelled (P : Platform) :
    nodeHash (P.relabelled π).sha256 = nodeHash P.sha256 := by
  funext l r
  have preimage := P.relabelled_sha256 π (nodePreimage l r)
  rwa [relabel_nodePreimage] at preimage

theorem merkleWalk_relabelled (P : Platform) (node : Bytes32) (index : UInt32)
    (path : List Bytes32) :
    merkleWalk (P.relabelled π).sha256 node index path = merkleWalk P.sha256 node index path := by
  induction path generalizing node index with
  | nil => rfl
  | cons sibling rest ih => rw [merkleWalk, merkleWalk, nodeHash_relabelled, ih]

end Relabelling

/-! The same run, with other accounts and under another hash. A note that is itself
the preimage of a leaf or of a nullifier is relabelled as such. -/

def ClaimRequest.relabelled (π : Equiv.Perm Bytes32) (r : ClaimRequest) : ClaimRequest where
  airdropProgramId := r.airdropProgramId
  accountId := π r.accountId
  allocation := r.allocation
  leafIndex := r.leafIndex
  merklePath := r.merklePath
  recipientNote := relabel π r.recipientNote
  note_fits := by
    rw [relabel_length]
    exact r.note_fits

def Instruction.relabelled (π : Equiv.Perm Bytes32) : Instruction → Instruction
  | .initializeDistribution root ccid supply => .initializeDistribution root ccid supply
  | .claim journalBytes recipientNote => .claim journalBytes (relabel π recipientNote)

def Call.relabelled (π : Equiv.Perm Bytes32) : Call → Call
  | .airdrop caller target instruction => .airdrop caller target (instruction.relabelled π)
  | .submitClaim D note r => .submitClaim D note (r.relabelled π)
  | .foreign id account => .foreign id account

def Outcome.relabelled (π : Equiv.Perm Bytes32) : Outcome → Outcome
  | .claimed acc => .claimed { acc with recipientNote := relabel π acc.recipientNote }
  | .passed => .passed
  | .refused f => .refused f

def Sighting.relabelled (π : Equiv.Perm Bytes32) : Sighting → Sighting
  | .airdrop caller target instruction => .airdrop caller target (instruction.relabelled π)
  | .claim D nullifier allocation => .claim D nullifier allocation
  | .foreign id account => .foreign id account

section Relabelled

variable {P : Platform} {dep : Deployment} (π : Equiv.Perm Bytes32)

theorem refusal_relabelled (s : DistributionState) (j : ClaimJournal) (D : Bytes32)
    (note : List UInt8) :
    refusal (P.relabelled π).sha256 s j D (relabel π note) = refusal P.sha256 s j D note := by
  simp only [refusal, Platform.relabelled_sha256]

theorem claim_relabelled (ctx : ProgramContext) (a : AccountWithMetadata)
    (journalBytes note : List UInt8) :
    claim (P.relabelled π) ctx a journalBytes (relabel π note) = claim P ctx a journalBytes note := by
  have stores : storeState (P.relabelled π) = storeState P := rfl
  unfold claim
  simp only [exec_applyClaim, refusal_relabelled, stores]

/-- A whole claim transaction, with nothing left of the words in between. -/
theorem executeClaim_eq (dist note : AccountWithMetadata) (r : ClaimRequest) :
    executeClaim P dep dist note r =
      match DistributionState.tryFromSlice dist.account.data with
      | none =>
        .error (.program (.custom errProofInvalid "distribution state deserialise failed"))
      | some s =>
        if r.computedRoot P.sha256 = s.merkleRoot then
          if r.airdropProgramId = dep.airdropId then
            let bytes := journalBytes (r.journal P.sha256 s.merkleRoot dist.accountId)
            match claim P ⟨dep.claimCircuitId⟩ dist bytes r.recipientNote with
            | .ok out => .ok (some ⟨bytes, r.recipientNote, out.postStates.headD dist⟩)
            | .error e => .error (.program e)
          else .ok none
        else
          .error (.program (.custom errRootMismatch
            "merkle inclusion proof does not match committed root")) := by
  unfold executeClaim submitClaim
  cases DistributionState.tryFromSlice dist.account.data with
  | none => rfl
  | some s =>
      have computed : merkleWalk P.sha256 (leafHash P.sha256 r.accountId r.allocation) r.leafIndex
          r.merklePath = r.computedRoot P.sha256 := rfl
      by_cases included : r.computedRoot P.sha256 = s.merkleRoot
      · let j := r.journal P.sha256 s.merkleRoot dist.accountId
        have short : (journalBytes j).length < 2 ^ 32 := by
          rw [journalBytes_length]
          omega
        have words := decode_claim_words short r.note_fits
        simp only [computed, included, ne_eq, not_true_eq_false, if_false, if_true]
        change executeChained P dep (ChainedCall.new r.airdropProgramId [dist]
          (.claim (journalBytes j) r.recipientNote)) = _
        by_cases target : r.airdropProgramId = dep.airdropId
        · simp only [executeChained, ChainedCall.new, target, ne_eq, not_true_eq_false, if_false,
            if_true, words]
          rfl
        · simp only [executeChained, ChainedCall.new, target, ne_eq, not_false_eq_true, if_false,
            if_true]
      · simp only [computed, included, ne_eq, not_false_eq_true, if_true, if_false]
        rfl

theorem executeClaim_relabelled (dist note : AccountWithMetadata) (r : ClaimRequest) :
    executeClaim (P.relabelled π) dep dist note (r.relabelled π) =
      (executeClaim P dep dist note r).map (Option.map fun x =>
        { x with recipientNote := relabel π x.recipientNote }) := by
  have root : (r.relabelled π).computedRoot (P.relabelled π).sha256 = r.computedRoot P.sha256 := by
    simp only [ClaimRequest.computedRoot, ClaimRequest.relabelled, merkleWalk_relabelled,
      leafHash_relabelled]
  have journal : ∀ m D, (r.relabelled π).journal (P.relabelled π).sha256 m D =
      r.journal P.sha256 m D := by
    intro m D
    simp only [ClaimRequest.journal, ClaimRequest.relabelled, claimJournal,
      deriveNullifier_relabelled, Platform.relabelled_sha256]
  have target : (r.relabelled π).airdropProgramId = r.airdropProgramId := rfl
  have carried : (r.relabelled π).recipientNote = relabel π r.recipientNote := rfl
  rw [executeClaim_eq, executeClaim_eq]
  simp only [root, journal, target, carried, claim_relabelled]
  cases DistributionState.tryFromSlice dist.account.data with
  | none => rfl
  | some s =>
      by_cases included : r.computedRoot P.sha256 = s.merkleRoot
      · by_cases same : r.airdropProgramId = dep.airdropId
        · simp only [included, same, if_true]
          cases claim P ⟨dep.claimCircuitId⟩ dist
              (journalBytes (r.journal P.sha256 s.merkleRoot dist.accountId)) r.recipientNote with
          | error e => rfl
          | ok out => rfl
        · simp only [included, same, if_true, if_false]
          rfl
      · simp only [included, if_false]
        rfl

theorem world_relabelled_step (w : World) (call : Call) :
    (world (P.relabelled π) dep).step w (call.relabelled π) =
      (((world P dep).step w call).1.relabelled π, ((world P dep).step w call).2) := by
  cases call with
  | airdrop caller id instruction =>
      cases instruction with
      | initializeDistribution root ccid supply =>
          have stores : initializeDistribution (P.relabelled π) = initializeDistribution P := rfl
          by_cases fresh : w id = Account.fresh
          · cases run : initializeDistribution P (w.live id) root ccid supply with
            | error e => simp [world, Call.relabelled, Instruction.relabelled, stores, fresh, run,
                Outcome.relabelled]
            | ok out => simp [world, Call.relabelled, Instruction.relabelled, stores, fresh, run,
                Outcome.relabelled]
          · simp [world, Call.relabelled, Instruction.relabelled, fresh, Outcome.relabelled]
      | claim bytes note =>
          cases run : claim P ⟨dep.reported caller⟩ (w.live id) bytes note with
          | error e => simp [world, Call.relabelled, Instruction.relabelled, claim_relabelled, run,
              Outcome.relabelled]
          | ok out => simp [world, Call.relabelled, Instruction.relabelled, claim_relabelled, run,
              Outcome.relabelled]
  | submitClaim id note r =>
      simp only [world, Call.relabelled, executeClaim_relabelled]
      cases executeClaim P dep (w.live id) (w.live note) r with
      | error f => rfl
      | ok done =>
          cases done with
          | none => rfl
          | some x => rfl
  | foreign id account =>
      by_cases mine : (w id).programOwner = dep.airdropId
      · simp [world, Call.relabelled, mine, Outcome.relabelled]
      · simp [world, Call.relabelled, mine, Outcome.relabelled]

theorem sighting_relabelled (call : Call) (outcome : Outcome) :
    sighting (P.relabelled π).sha256 (call.relabelled π) (outcome.relabelled π) =
      (sighting P.sha256 call outcome).map (Sighting.relabelled π) := by
  cases outcome with
  | refused f => cases call <;> rfl
  | passed => cases call <;> rfl
  | claimed acc =>
      cases call with
      | airdrop caller id instruction => rfl
      | submitClaim D note r =>
          have nullifier := deriveNullifier_relabelled π P r.accountId D
          simp only [sighting, Call.relabelled, Outcome.relabelled, ClaimRequest.nullifier,
            ClaimRequest.relabelled, nullifier]
          rfl
      | foreign id account => rfl

/-! Where no note is such a preimage, the account ids of the requests are all that
is exchanged. -/

/-- By its length and its first byte, not the preimage of a leaf or of a nullifier. -/
def PlainNote (note : List UInt8) : Prop :=
  note.length ≠ 64 ∧ ¬ (note.length = 49 ∧ note.head? = some 0x00)

instance (note : List UInt8) : Decidable (PlainNote note) := inferInstanceAs (Decidable (_ ∧ _))

def Call.PlainNote : Call → Prop
  | .airdrop _ _ (.initializeDistribution _ _ _) => True
  | .airdrop _ _ (.claim _ recipientNote) => PrivateAirdrop.PlainNote recipientNote
  | .submitClaim _ _ r => PrivateAirdrop.PlainNote r.recipientNote
  | .foreign _ _ => True

def Call.exchanged (π : Equiv.Perm Bytes32) : Call → Call
  | .submitClaim D note r => .submitClaim D note { r with accountId := π r.accountId }
  | .airdrop caller target instruction => .airdrop caller target instruction
  | .foreign id account => .foreign id account

theorem relabel_plain {note : List UInt8} (plain : PlainNote note) : relabel π note = note := by
  cases note with
  | nil => rfl
  | cons b x =>
      obtain ⟨nullifier, leaf⟩ := plain
      rw [List.length_cons] at nullifier leaf
      have other : ¬ (b = 0x00 ∧ x.length = 48) := by
        rintro ⟨rfl, length⟩
        exact leaf ⟨by omega, rfl⟩
      rw [relabel, if_neg (by omega), if_neg other]

theorem Call.relabelled_plain {call : Call} (plain : call.PlainNote) :
    call.relabelled π = call.exchanged π := by
  cases call with
  | airdrop caller id instruction =>
      cases instruction with
      | initializeDistribution root ccid supply => rfl
      | claim bytes note =>
          simp only [relabelled, Instruction.relabelled, exchanged, relabel_plain π plain]
  | submitClaim id note r =>
      simp only [relabelled, ClaimRequest.relabelled, exchanged, relabel_plain π plain]
  | foreign id account => rfl

theorem reply_relabelled_plain (w : World) {call : Call} (plain : call.PlainNote) :
    ((world P dep).step w call).1.relabelled π = ((world P dep).step w call).1 := by
  cases call with
  | airdrop caller id instruction =>
      cases instruction with
      | initializeDistribution root ccid supply =>
          by_cases fresh : w id = Account.fresh
          · cases run : initializeDistribution P (w.live id) root ccid supply with
            | error e => simp [world, fresh, run, Outcome.relabelled]
            | ok out => simp [world, fresh, run, Outcome.relabelled]
          · simp [world, fresh, Outcome.relabelled]
      | claim bytes note =>
          rcases world_claim_cases P dep w caller id bytes note with
            ⟨e, same⟩ | ⟨s, j, data', -, same⟩
          · rw [same]
            rfl
          · rw [same, Outcome.relabelled, relabel_plain π plain]
  | submitClaim id note r =>
      rcases world_submitClaim_cases P dep w id note r with
        ⟨outcome, other, same⟩ | ⟨s, data', -, same⟩
      · rw [same]
        cases outcome with
        | refused f => rfl
        | passed => rfl
        | claimed acc => exact absurd rfl (other acc)
      · rw [same, Outcome.relabelled, relabel_plain π plain]
  | foreign id account =>
      by_cases mine : (w id).programOwner = dep.airdropId
      · simp [world, mine, Outcome.relabelled]
      · simp [world, mine, Outcome.relabelled]

theorem world_exchanged_step (w : World) {call : Call} (plain : call.PlainNote) :
    (world (P.relabelled π) dep).step w (call.exchanged π) = (world P dep).step w call := by
  rw [← Call.relabelled_plain π plain, world_relabelled_step, reply_relabelled_plain π w plain]

theorem sighting_exchanged (call : Call) (outcome : Outcome) :
    sighting (P.relabelled π).sha256 (call.exchanged π) outcome =
      sighting P.sha256 call outcome := by
  cases outcome with
  | refused f => cases call <;> rfl
  | passed => cases call <;> rfl
  | claimed acc =>
      cases call with
      | airdrop caller id instruction => rfl
      | submitClaim D note r =>
          have nullifier := deriveNullifier_relabelled π P r.accountId D
          simp only [sighting, Call.exchanged, ClaimRequest.nullifier, nullifier]
      | foreign id account => rfl

end Relabelled

/-- For any exchange of the accounts there is a hash under which the same run, made
    with the exchanged accounts, leaves the same world and shows the same but for the
    notes that are preimages themselves, which are exchanged with the accounts. Where
    no note is one, replies and sightings are equal with nothing but the account ids
    of the requests exchanged: of a claimant's account only its hashes reach the chain. -/
theorem accounts_exchangeable (P : Platform) (dep : Deployment) (π : Equiv.Perm Bytes32) (w : World)
    (calls : List Call) :
    ((world (P.relabelled π) dep).run w (calls.map (Call.relabelled π)) =
        (world P dep).run w calls ∧
      (world (P.relabelled π) dep).replies w (calls.map (Call.relabelled π)) =
        ((world P dep).replies w calls).map (Outcome.relabelled π) ∧
      sightings (P.relabelled π) dep w (calls.map (Call.relabelled π)) =
        (sightings P dep w calls).map (Sighting.relabelled π)) ∧
    ((∀ call ∈ calls, call.PlainNote) →
      (world (P.relabelled π) dep).run w (calls.map (Call.exchanged π)) =
        (world P dep).run w calls ∧
      (world (P.relabelled π) dep).replies w (calls.map (Call.exchanged π)) =
        (world P dep).replies w calls ∧
      sightings (P.relabelled π) dep w (calls.map (Call.exchanged π)) = sightings P dep w calls) := by
  let M := world P dep
  let N := world (P.relabelled π) dep
  constructor
  · have steps : ∀ w, ∀ call ∈ calls, N.step w (call.relabelled π) =
        ((M.step w call).1.relabelled π, (M.step w call).2) :=
      fun w call _ => world_relabelled_step π w call
    obtain ⟨final, replies⟩ := M.run_translated N steps w
    exact ⟨final, replies, M.log_translated N steps (sighting_relabelled π) w⟩
  · intro plain
    have steps : ∀ w, ∀ call ∈ calls, N.step w (call.exchanged π) =
        (id (M.step w call).1, (M.step w call).2) :=
      fun w call inside => world_exchanged_step π w (plain call inside)
    have shows : ∀ call outcome, sighting (P.relabelled π).sha256 (call.exchanged π) (id outcome) =
        (sighting P.sha256 call outcome).map id := by
      intro call outcome
      rw [Option.map_id]
      exact sighting_exchanged π call outcome
    obtain ⟨final, replies⟩ := M.run_translated N steps w
    have seen := M.log_translated N steps shows w
    rw [List.map_id] at replies seen
    exact ⟨final, replies, seen⟩

/-- Two entries of one allocation whose accounts are exchanged: both claim. -/
theorem accounts_exchangeable_two :
    let H := headHash
    let D : AccountId := Vector.replicate 32 0
    let dep : Deployment := ⟨Vector.replicate 8 1, Vector.replicate 8 2, Vector.replicate 8 0⟩
    let P := Platform.bounded H 1000
    let e : Entry := (Vector.replicate 32 2, 5)
    let e' : Entry := (Vector.replicate 32 3, 5)
    let L : Perfect Entry 1 := ⟨[e, e'], rfl⟩
    let π := Equiv.swap e.1 e'.1
    let r : ClaimRequest := ⟨dep.airdropId, e.1, e.2, 0, merklePath H L 0, [], by decide⟩
    let r' : ClaimRequest := ⟨dep.airdropId, e'.1, e'.2, 1, merklePath H L 1, [1, 2], by decide⟩
    let w : World := fun _ => Account.fresh
    let calls : List Call := [
      .airdrop .topLevel D (.initializeDistribution (merkleRoot H L) dep.claimCircuitId 10),
      .submitClaim D D r, .submitClaim D D r']
    (acceptances P dep D w calls).length = 2 ∧
      calls.map (Call.exchanged π) ≠ calls ∧
      (world (P.relabelled π) dep).replies w (calls.map (Call.exchanged π)) =
        (world P dep).replies w calls := by
  intro H D dep P e e' L π r r' w calls
  have plain : ∀ call ∈ calls, call.PlainNote := by
    simp [calls, Call.PlainNote, PlainNote, r, r']
  have count : (acceptances P dep D w calls).length = 2 := by decide +kernel
  have moved : calls.map (Call.exchanged π) ≠ calls := by
    intro same
    have first := (List.cons.inj (List.cons.inj same).2).1
    have account := congrArg ClaimRequest.accountId (Call.submitClaim.inj first).2.2
    exact absurd account (by decide)
  obtain ⟨-, replies, -⟩ := (accounts_exchangeable P dep π w calls).2 plain
  exact ⟨count, moved, replies⟩

/-- The listed accounts that a nullifier can be of. -/
def suspects (H : Sha256) {d : Nat} (L : Perfect Entry d) (D nullifier : Bytes32) : List Bytes32 :=
  (L.items.map Prod.fst).dedup.filter fun a => deriveNullifier H a D = nullifier

theorem suspects_of_listed {H : Sha256} {d : Nat} {L : Perfect Entry d} {D a : Bytes32}
    {inputs : Set (List UInt8)} (injective : Set.InjOn H inputs)
    (listed : ∀ e ∈ L.items, nullifierPreimage e.1 D ∈ inputs)
    (inside : a ∈ L.items.map Prod.fst) : suspects H L D (deriveNullifier H a D) = [a] := by
  have preimages : ∀ b ∈ L.items.map Prod.fst, nullifierPreimage b D ∈ inputs := by
    intro b member
    obtain ⟨e, entry, rfl⟩ := List.mem_map.mp member
    exact listed e entry
  have tried : ∀ b ∈ (L.items.map Prod.fst).dedup,
      decide (deriveNullifier H b D = deriveNullifier H a D) = decide (b = a) := by
    intro b member
    have preimage := preimages b (List.mem_dedup.mp member)
    simp only [decide_eq_decide]
    exact ⟨account_of_nullifier injective preimage (preimages a inside), fun same => same ▸ rfl⟩
  rw [suspects, List.filter_congr tried, List.filter_eq,
    List.count_eq_one_of_mem (List.nodup_dedup _) (List.mem_dedup.mpr inside)]
  rfl

/-- From the creation of a distribution on, short of a collision: whoever has the
    list finds behind each spent nullifier the one account that claimed with it,
    and an account of the list has claimed exactly if its nullifier is spent. -/
theorem distributor_identifies {P : Platform} {dep : Deployment} {d : Nat} {L : Perfect Entry d}
    {supply : U128} {D : AccountId} {who : Caller} {w w' : World}
    (created : Creates P dep (merkleRoot P.sha256 L) dep.claimCircuitId supply D who w w')
    (calls : List Call) (truthful : ∀ call ∈ calls, call.Truthful dep)
    (injective : Set.InjOn P.sha256 ((hashing P.sha256).treeInputs L ∪
      acceptedInputs P dep D w' calls ∪ {x | ∃ e ∈ L.items, x = nullifierPreimage e.1 D})) :
    ∃ requests s,
      List.Forall₂ (Backed P.sha256 dep D L) (acceptances P dep D w' calls) requests ∧
      DistributionState.tryFromSlice ((world P dep).run w' calls D).data = some s ∧
      s.spentNullifiers.map (suspects P.sha256 L D) = requests.map (fun r => [r.accountId]) ∧
      ∀ e ∈ L.items, deriveNullifier P.sha256 e.1 D ∈ s.spentNullifiers ↔
        e.1 ∈ requests.map ClaimRequest.accountId := by
  obtain ⟨requests, s, live, backed⟩ := run_backed truthful created.live
  have listed : ∀ e ∈ L.items, nullifierPreimage e.1 D ∈ (hashing P.sha256).treeInputs L ∪
      acceptedInputs P dep D w' calls ∪ {x | ∃ e ∈ L.items, x = nullifierPreimage e.1 D} :=
    fun e entry => .inr ⟨e, entry, rfl⟩
  have entries : ∀ r ∈ requests, r.entry ∈ L.items := by
    intro r asked
    obtain ⟨g, member, back⟩ := exists_of_forall₂ backed asked
    obtain ⟨note, submitted⟩ := back.submitted
    rcases back.entry with ⟨-, opened, -⟩ | collides
    · rw [← opened]
      exact L.get_mem _
    · apply absurd collides
      apply not_collision_iff.mpr
      apply injective.mono
      apply Set.union_subset
      · exact fun x tree => .inl (.inl tree)
      · exact fun x hashed => .inl (.inr ⟨g, member, note, r, submitted, hashed⟩)
  have accounts : ∀ r ∈ requests, r.accountId ∈ L.items.map Prod.fst :=
    fun r asked => List.mem_map.mpr ⟨r.entry, entries r asked, rfl⟩
  refine ⟨requests, s, backed, live.holds.state, ?_, ?_⟩
  · rw [live.holds.spentNullifiers, List.map_map]
    apply List.map_congr_left
    intro r asked
    exact suspects_of_listed injective listed (accounts r asked)
  · intro e entry
    rw [live.holds.spentNullifiers]
    constructor
    · intro spent
      obtain ⟨r, asked, same⟩ := List.mem_map.mp spent
      have preimage := listed r.entry (entries r asked)
      have account := account_of_nullifier injective preimage (listed e entry) same
      exact List.mem_map.mpr ⟨r, asked, account⟩
    · intro claimed
      obtain ⟨r, asked, same⟩ := List.mem_map.mp claimed
      rw [← same]
      exact List.mem_map.mpr ⟨r, asked, rfl⟩

/-- Of two accounts the second claims, between two claims that are refused. -/
theorem distributor_identifies_second :
    let H := headHash
    let D : AccountId := Vector.replicate 32 0
    let dep : Deployment := ⟨Vector.replicate 8 1, Vector.replicate 8 2, Vector.replicate 8 0⟩
    let P := Platform.bounded H 1000
    let e : Entry := (Vector.replicate 32 2, 5)
    let e' : Entry := (Vector.replicate 32 3, 7)
    let L : Perfect Entry 1 := ⟨[e, e'], rfl⟩
    let t := (hashing H).leaves L
    let c : Claimant := ⟨e, 0, [], by decide, D⟩
    let c' : Claimant := ⟨e', 1, [], by decide, D⟩
    let calls : List Call := [.airdrop .topLevel D (.claim (c.acceptance H dep t D).journalBytes []),
      c'.call H dep t D, c'.call H dep t D]
    ∃ w' s, Creates P dep (merkleRoot H L) dep.claimCircuitId 12 D .topLevel
        (fun _ => Account.fresh) w' ∧
      DistributionState.tryFromSlice ((world P dep).run w' calls D).data = some s ∧
      s.spentNullifiers.map (suspects H L D) = [[e'.1]] ∧
      deriveNullifier H e.1 D ∉ s.spentNullifiers := by
  intro H D dep P e e' L t c c' calls
  let w' := ((world P dep).step (fun _ => Account.fresh)
    (.airdrop .topLevel D (.initializeDistribution (merkleRoot H L) dep.claimCircuitId 12))).2
  have created : Creates P dep (merkleRoot H L) dep.claimCircuitId 12 D .topLevel
      (fun _ => Account.fresh) w' := .of_passed (by decide +kernel)
  have one : (acceptances P dep D w' calls).length = 1 := by decide +kernel
  have truthful : ∀ call ∈ calls, call.Truthful dep := by
    have unlike : dep.topLevelId ≠ dep.claimCircuitId := by decide
    simpa [calls, Claimant.call, Call.Truthful, Deployment.reported] using unlike
  have submitted_ : ∀ g ∈ acceptances P dep D w' calls, ∀ note r, g.1 = .submitClaim D note r →
      r = c'.request H dep t := by
    intro g member note r submitted
    have called := call_of_acceptance g member
    rw [submitted] at called
    simp only [calls, Claimant.call, List.mem_cons, Call.submitClaim.injEq, reduceCtorEq,
      List.not_mem_nil, or_false, false_or, or_self] at called
    exact called.2.2
  have strings : ∀ x ∈ pairStrings H D e e', ∀ y ∈ pairStrings H D e e', H x = H y → x = y := by
    decide +kernel
  have tree := treeInputs_pair (H := H) D (L := L) rfl
  have hashed : (hashing H).treeInputs L ∪ acceptedInputs P dep D w' calls ∪
      {x | ∃ a ∈ L.items, x = nullifierPreimage a.1 D} ⊆ {x | x ∈ pairStrings H D e e'} := by
    refine Set.union_subset (Set.union_subset tree ?_) ?_
    · rintro x ⟨g, member, note, r, submitted, input⟩
      rw [submitted_ g member note r submitted] at input
      exact Claimant.pair_inputs rfl (by decide) rfl rfl input
    · rintro x ⟨a, member, rfl⟩
      simp only [L, List.mem_cons, List.not_mem_nil, or_false] at member
      rcases member with rfl | rfl <;> simp [pairStrings]
  clear_value w'
  obtain ⟨requests, s, backed, state, found, claimed⟩ := distributor_identifies created calls
    truthful fun x hx y hy => strings x (hashed hx) y (hashed hy)
  obtain ⟨r, rfl⟩ := List.length_eq_one_iff.mp (backed.length_eq.symm.trans one)
  obtain ⟨g, member, back⟩ := exists_of_forall₂ backed (List.mem_singleton_self r)
  obtain ⟨note, submitted⟩ := back.submitted
  have account : r.accountId = e'.1 := by
    rw [submitted_ g member note r submitted]
    rfl
  refine ⟨w', s, created, state, ?_, ?_⟩
  · exact found.trans (by rw [List.map_singleton, account])
  · intro spent
    have claimant := (claimed e (by simp [L])).mp spent
    rw [List.map_singleton, account, List.mem_singleton] at claimant
    exact absurd claimant (by decide)

end PrivateAirdrop

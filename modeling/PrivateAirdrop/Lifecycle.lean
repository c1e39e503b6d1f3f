import PrivateAirdrop.Library.Cells
import PrivateAirdrop.World

/-! # Accounts apart, and from their creation on

A call acts on the one account it names, so the world is a machine for each
account, side by side. In a world that begins without distributions each of them
was created by one `initialize`, and everything it holds was claimed since.
-/

namespace PrivateAirdrop

open Library

/-- The account a call names. A claim also names its claimer note, which neither
    program reads. -/
def Call.address : Call → AccountId
  | .airdrop _ target _ => target
  | .submitClaim distribution _ _ => distribution
  | .foreign id _ => id

/-- The world with one account in use. -/
def World.alone (D : AccountId) (account : Account) : World :=
  World.set (fun _ => Account.fresh) D account

/-- What calls do to an account in a world of its own. -/
def oneAccount (P : Platform) (dep : Deployment) (D : AccountId) :
    Machine Account Call Outcome where
  step account call :=
    let done := (world P dep).step (World.alone D account) call
    (done.1, done.2 D)

section Local

variable {P : Platform} {dep : Deployment}

@[simp] theorem World.set_self (w : World) (id : AccountId) : w.set id (w id) = w :=
  Function.update_eq_self ..

@[simp] theorem World.alone_same (D : AccountId) (account : Account) :
    World.alone D account D = account := World.set_same ..

@[simp] theorem World.live_alone (w : World) (D : AccountId) :
    (World.alone D (w D)).live D = w.live D := by
  rw [World.live, World.live, World.alone_same]

theorem executeClaim_claimerNote (dist note note' : AccountWithMetadata) (r : ClaimRequest) :
    executeClaim P dep dist note r = executeClaim P dep dist note' r := by
  unfold executeClaim submitClaim
  cases DistributionState.tryFromSlice dist.account.data with
  | none => rfl
  | some s =>
      by_cases included : merkleWalk P.sha256 (leafHash P.sha256 r.accountId r.allocation)
          r.leafIndex r.merklePath = s.merkleRoot
      · simp only [included, ne_eq, not_true_eq_false, if_false]
        rfl
      · simp only [included, ne_eq, not_false_eq_true, if_true]
        rfl

theorem world_step_local (w : World) (call : Call) :
    (world P dep).step w call =
      let done := (oneAccount P dep call.address).step (w call.address) call
      (done.1, w.set call.address done.2) := by
  cases call with
  | airdrop caller id instruction =>
      cases instruction with
      | initializeDistribution root ccid supply =>
          by_cases fresh : w id = Account.fresh
          · cases run : initializeDistribution P (w.live id) root ccid supply with
            | error e =>
                simp only [oneAccount, world, Call.address, World.live_alone, World.alone_same,
                  if_pos fresh, run, World.set_self]
            | ok out =>
                simp only [oneAccount, world, Call.address, World.live_alone, World.alone_same,
                  if_pos fresh, run, World.set_same]
          · simp [oneAccount, world, Call.address, fresh]
      | claim bytes note =>
          cases run : claim P ⟨dep.reported caller⟩ (w.live id) bytes note with
          | error e => simp [oneAccount, world, Call.address, run]
          | ok out => simp [oneAccount, world, Call.address, run]
  | submitClaim id note r =>
      have note_free := @executeClaim_claimerNote P dep (w.live id) (w.live note)
        ((World.alone id (w id)).live note) r
      cases run : executeClaim P dep (w.live id) ((World.alone id (w id)).live note) r with
      | error f => simp [oneAccount, world, Call.address, note_free, run]
      | ok done =>
          cases done with
          | none => simp [oneAccount, world, Call.address, note_free, run]
          | some x => simp [oneAccount, world, Call.address, note_free, run]
  | foreign id account =>
      by_cases mine : (w id).programOwner = dep.airdropId
      · simp [oneAccount, world, Call.address, mine]
      · simp [oneAccount, world, Call.address, mine]

theorem world_eq_cells (P : Platform) (dep : Deployment) :
    world P dep = cells Call.address (oneAccount P dep) := by
  have steps : (world P dep).step = (cells Call.address (oneAccount P dep)).step := by
    funext w call
    exact world_step_local w call
  exact congrArg Machine.mk steps

end Local

/-- A call to one account cannot be told from a call to another world: what an
    account goes through, and what its callers are answered, is the run of its own
    calls, so two orders that agree on the calls of each account are one. -/
theorem accounts_run_apart (P : Platform) (dep : Deployment) (w : World) (calls : List Call) :
    (∀ D, (world P dep).run w calls D =
        (oneAccount P dep D).run (w D) (inputsTo Call.address D calls) ∧
      ((world P dep).transcript w calls).filter (fun entry => entry.1.address = D) =
        (oneAccount P dep D).transcript (w D) (inputsTo Call.address D calls)) ∧
    ∀ calls', SameByCell Call.address calls calls' →
      (world P dep).run w calls = (world P dep).run w calls' ∧
      ∀ D, ((world P dep).transcript w calls).filter (fun entry => entry.1.address = D) =
        ((world P dep).transcript w calls').filter (fun entry => entry.1.address = D) := by
  rw [world_eq_cells]
  refine ⟨fun D => ⟨cells_run_apply w calls D, cells_transcript w calls D⟩, ?_⟩
  intro calls' same
  exact ⟨cells_run_congr same w, cells_transcript_congr same w⟩

/-- What a distribution was created with, and by whom. -/
structure Creation where
  who : Caller
  merkleRoot : Bytes32
  claimCircuitProgramId : ProgramId
  totalSupply : U128
  deriving Repr, DecidableEq

def Creation.call (c : Creation) (D : AccountId) : Call :=
  .airdrop c.who D (.initializeDistribution c.merkleRoot c.claimCircuitProgramId c.totalSupply)

/-- A successful `initialize` of `D`. -/
def createdOn (D : AccountId) : Call → Outcome → Option Creation
  | .airdrop who id (.initializeDistribution root ccid supply), .passed =>
    if id = D then some ⟨who, root, ccid, supply⟩ else none
  | _, _ => none

def creations (P : Platform) (dep : Deployment) (D : AccountId) (w : World) (calls : List Call) :
    List Creation := (world P dep).log (createdOn D) w calls

/-- No other program makes the airdrop program the owner of an account: a program
    takes accounts for itself only. -/
def Call.Respectful (dep : Deployment) : Call → Prop
  | .airdrop _ _ _ => True
  | .submitClaim _ _ _ => True
  | .foreign _ account => account.programOwner ≠ dep.airdropId

/-- An accepted claim on `D` carried the nullifier, the distributor and the root of
    the distribution, and was reported as the circuit registered there. -/
structure Recorded (dep : Deployment) (D : AccountId) (c : Creation) (g : Call × Acceptance)
    (nullifier : Bytes32) : Prop where
  reported : dep.reported g.2.caller = c.claimCircuitProgramId
  journal : ∃ j, ClaimJournal.tryFromSlice g.2.journalBytes = some j ∧
    j.merkleRoot = c.merkleRoot ∧ j.distributorId = D ∧ j.nullifier = nullifier

section Creations

variable {P : Platform} {dep : Deployment} {D : AccountId} {w : World} {c : Creation}
  {log : List Bytes32} {s : DistributionState} {call : Call} {calls : List Call}

theorem createdOn_some_iff {outcome : Outcome} :
    createdOn D call outcome = some c ↔ call = c.call D ∧ outcome = .passed := by
  constructor
  · intro h
    unfold createdOn at h
    split at h
    · rename_i who id root ccid supply
      by_cases here : id = D
      · rw [if_pos here] at h
        cases h
        exact ⟨by rw [Creation.call, here], rfl⟩
      · rw [if_neg here] at h
        cases h
    · cases h
  · rintro ⟨rfl, rfl⟩
    exact if_pos rfl

theorem Creation.creates (h : createdOn D call ((world P dep).step w call).1 = some c) :
    Creates P dep c.merkleRoot c.claimCircuitProgramId c.totalSupply D c.who w
      ((world P dep).step w call).2 := by
  obtain ⟨rfl, passed⟩ := createdOn_some_iff.mp h
  exact .of_passed passed

theorem World.owner_set_data (w : World) (id D : AccountId) (bytes : List UInt8) :
    (w.set id { w id with data := bytes } D).programOwner = (w D).programOwner := by
  by_cases here : D = id
  · subst here
    rw [World.set_same]
  · rw [World.set_other _ _ here]

/-- An account comes to the airdrop program by its `initialize`, and by nothing else. -/
theorem becomes_owned (outside : (w D).programOwner ≠ dep.airdropId)
    (respectful : call.Respectful dep)
    (owned : (((world P dep).step w call).2 D).programOwner = dep.airdropId) :
    ∃ c, createdOn D call ((world P dep).step w call).1 = some c := by
  cases call with
  | airdrop who id instruction =>
      cases instruction with
      | initializeDistribution root ccid supply =>
          refine ⟨⟨who, root, ccid, supply⟩, createdOn_some_iff.mpr ?_⟩
          by_cases fresh : w id = Account.fresh
          · cases run : initializeDistribution P (w.live id) root ccid supply with
            | error e => exact absurd owned (by simpa [world, fresh, run] using outside)
            | ok out =>
                simp only [world, fresh, if_true, run] at owned ⊢
                by_cases here : D = id
                · exact ⟨by rw [Creation.call, here], trivial⟩
                · rw [World.set_other _ _ here] at owned
                  exact absurd owned outside
          · exact absurd owned (by simpa [world, fresh] using outside)
      | claim bytes note =>
          apply absurd owned
          rcases world_claim_cases P dep w who id bytes note with
            ⟨e, same⟩ | ⟨s, j, data', -, same⟩
          · rw [same]
            exact outside
          · rw [same, World.owner_set_data]
            exact outside
  | submitClaim id note r =>
      apply absurd owned
      rcases world_submitClaim_cases P dep w id note r with
        ⟨outcome, -, same⟩ | ⟨s, data', -, same⟩
      · rw [same]
        exact outside
      · rw [same, World.owner_set_data]
        exact outside
  | foreign id account =>
      apply absurd owned
      by_cases mine : (w id).programOwner = dep.airdropId
      · simpa [world, mine] using outside
      · by_cases here : D = id
        · subst here
          simpa [world, mine, Call.Respectful] using respectful
        · simpa [world, mine, World.set_other w account here] using outside

theorem Live.not_created {root : Bytes32} {ccid : ProgramId} {supply : U128}
    (live : Live dep root ccid supply D w log s) (call : Call) :
    createdOn D call ((world P dep).step w call).1 = none := by
  cases again : createdOn D call ((world P dep).step w call).1 with
  | none => rfl
  | some c =>
      obtain ⟨rfl, passed⟩ := createdOn_some_iff.mp again
      have used := ne_fresh live.holds.state
      simp [Creation.call, world, used] at passed

theorem Live.since {root : Bytes32} {ccid : ProgramId} {supply : U128} {who : Caller}
    (start : Live dep root ccid supply D w [] (.initial root ccid supply)) (calls : List Call) :
    creations P dep D w calls = [] ∧
      ∃ log s, Live dep root ccid supply D ((world P dep).run w calls) log s ∧
        List.Forall₂ (Recorded dep D ⟨who, root, ccid, supply⟩) (acceptances P dep D w calls)
          log := by
  constructor
  · have still : (∃ log s, Live dep root ccid supply D ((world P dep).run w calls) log s) ∧
        (world P dep).log (createdOn D) w calls = [] :=
      (world P dep).run_log_invariant
        (R := fun w made => (∃ log s, Live dep root ccid supply D w log s) ∧ made = []) (by
        rintro w call made ⟨⟨log, s, live⟩, rfl⟩
        rw [live.not_created call]
        cases live.step (P := P) call with
        | inl nothing => exact ⟨⟨log, s, nothing.2.2⟩, rfl⟩
        | inr done =>
            obtain ⟨acc, j, data', -, -, live'⟩ := done
            exact ⟨⟨_, _, live'⟩, rfl⟩) ⟨⟨_, _, start⟩, rfl⟩ calls
    exact still.2
  · apply run_live start List.Forall₂.nil
    intro w w' call acc s j data' accs log called live change recorded
    refine List.rel_append recorded (.cons ?_ .nil)
    have allowed := refusal_none_iff.mp change.accepted.allowed
    constructor
    · rw [change.accepted.caller_eq, live.holds.claimCircuitProgramId]
    · refine ⟨j, change.accepted.journal, ?_, allowed.1, rfl⟩
      rw [allowed.2.1, live.holds.merkleRoot]

theorem run_created (outside : (w D).programOwner ≠ dep.airdropId)
    (respectful : ∀ call ∈ calls, call.Respectful dep) :
    (((world P dep).run w calls D).programOwner ≠ dep.airdropId ∧ creations P dep D w calls = []) ∨
    ∃ c before after, calls = before ++ c.call D :: after ∧ creations P dep D w calls = [c] ∧
      ((world P dep).run w before D).programOwner ≠ dep.airdropId ∧
      ∃ log s, Live dep c.merkleRoot c.claimCircuitProgramId c.totalSupply D
          ((world P dep).run w calls) log s ∧
        List.Forall₂ (Recorded dep D c)
          (acceptances P dep D ((world P dep).run w (before ++ [c.call D])) after) log := by
  induction calls generalizing w with
  | nil => exact .inl ⟨outside, rfl⟩
  | cons call calls ih =>
      obtain ⟨first, rest⟩ := List.forall_mem_cons.mp respectful
      by_cases owned : (((world P dep).step w call).2 D).programOwner = dep.airdropId
      · obtain ⟨c, created⟩ := becomes_owned outside first owned
        have start := (Creation.creates created).live
        obtain ⟨once, log, s, live, recorded⟩ := start.since calls
        obtain ⟨rfl, -⟩ := createdOn_some_iff.mp created
        refine .inr ⟨c, [], calls, rfl, ?_, outside, log, s, live, recorded⟩
        rw [creations] at once
        rw [creations, Machine.log, created, once]
        rfl
      · have none_ : createdOn D call ((world P dep).step w call).1 = none := by
          cases created : createdOn D call ((world P dep).step w call).1 with
          | none => rfl
          | some c => exact absurd (Creation.creates created).live.owned owned
        have shift : creations P dep D w (call :: calls) =
            creations P dep D ((world P dep).step w call).2 calls := by
          rw [creations, Machine.log, none_]
          rfl
        rw [shift]
        rcases ih owned rest with stays | ⟨c, before, after, rfl, once, out, found⟩
        · exact .inl stays
        · exact .inr ⟨c, call :: before, after, rfl, once, out, found⟩

end Creations

/-- From any world in which `D` is no distribution, whatever is called in whatever
    order: either `D` is none at the end and was never created, or one `initialize`
    created it. It then has the root, the circuit and the supply of that call, its
    nullifiers are those of the claims accepted on it since, each once, and each of
    these claims was bound to `D` and to that root, and reported as that circuit. -/
theorem distribution_created_once {P : Platform} {dep : Deployment} {D : AccountId} {w : World}
    {calls : List Call} (outside : (w D).programOwner ≠ dep.airdropId)
    (respectful : ∀ call ∈ calls, call.Respectful dep) :
    let final := (world P dep).run w calls
    ((final D).programOwner ≠ dep.airdropId ∧ creations P dep D w calls = []) ∨
    ((final D).programOwner = dep.airdropId ∧
      ∃ c before after s, calls = before ++ c.call D :: after ∧
        creations P dep D w calls = [c] ∧
        ((world P dep).run w before D).programOwner ≠ dep.airdropId ∧
        DistributionState.tryFromSlice (final D).data = some s ∧
        s.merkleRoot = c.merkleRoot ∧ s.claimCircuitProgramId = c.claimCircuitProgramId ∧
        s.totalSupply = c.totalSupply ∧ s.spentNullifiers.Nodup ∧
        List.Forall₂ (Recorded dep D c)
          (acceptances P dep D ((world P dep).run w (before ++ [c.call D])) after)
          s.spentNullifiers) := by
  intro final
  rcases run_created outside respectful with
    never | ⟨c, before, after, split_, once, out, log, s, live, recorded⟩
  · exact .inl never
  · have holds := live.holds
    refine .inr ⟨live.owned, c, before, after, s, split_, once, out, holds.state, holds.merkleRoot,
      holds.claimCircuitProgramId, holds.totalSupply, ?_, ?_⟩
    · rw [holds.spentNullifiers]
      exact holds.nodup
    · rw [holds.spentNullifiers]
      exact recorded

/-- A refused claim, a creation, a second one and a claim. -/
theorem distribution_created_once_among_others :
    let H := lengthHash
    let zeros : Bytes32 := Vector.replicate 32 0
    let dep : Deployment := ⟨Vector.replicate 8 1, Vector.replicate 8 2, Vector.replicate 8 0⟩
    let P := Platform.bounded H 1000
    let root := leafHash H zeros 5
    let c : Creation := ⟨.topLevel, root, dep.claimCircuitId, 10⟩
    let r : ClaimRequest := ⟨dep.airdropId, zeros, 5, 0, [], [], by decide⟩
    let calls : List Call := [.submitClaim zeros zeros r, c.call zeros,
      .airdrop .topLevel zeros (.initializeDistribution root dep.topLevelId 1),
      .submitClaim zeros zeros r]
    let final := (world P dep).run (fun _ => Account.fresh) calls
    ∃ s, DistributionState.tryFromSlice (final zeros).data = some s ∧
      creations P dep zeros (fun _ => Account.fresh) calls = [c] ∧ s.totalSupply = 10 ∧
      s.spentNullifiers.Nodup := by
  intro H zeros dep P root c r calls final
  have owned : (final zeros).programOwner = dep.airdropId := by decide +kernel
  have once : creations P dep zeros (fun _ => Account.fresh) calls = [c] := by decide +kernel
  have respectful : ∀ call ∈ calls, call.Respectful dep := by
    simp [calls, Call.Respectful, Creation.call]
  rcases @distribution_created_once P dep zeros (fun _ => Account.fresh) calls (by decide)
      respectful with
    never | ⟨-, c', before, after, s, -, made, -, state, -, -, supply, nodup, -⟩
  · exact absurd owned never.1
  · obtain rfl : c' = c := List.singleton_inj.mp (made.symm.trans once)
    exact ⟨s, state, once, supply, nodup⟩

end PrivateAirdrop

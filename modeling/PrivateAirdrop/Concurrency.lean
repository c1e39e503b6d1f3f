import PrivateAirdrop.Library.Optimistic
import PrivateAirdrop.Delivery
import PrivateAirdrop.ClaimRuns

/-! # Concurrent claimants

A claimant reads the distribution account, proves a claim on what was read and
sends the proof, which the sequencer applies while the account is still the one
the proof committed to. Every accepted claim makes the account 32 bytes longer,
so no account data ever comes back, not even when the counter wraps.
-/

namespace PrivateAirdrop

open Library

/-- The data a claimant computes from the data it read. -/
def claimOnData (P : Platform) (dep : Deployment) (D : AccountId) (note : AccountWithMetadata)
    (data : List UInt8) (r : ClaimRequest) : Option (List UInt8) :=
  match executeClaim P dep ⟨⟨dep.airdropId, data⟩, false, D⟩ note r with
  | .ok (some x) => some x.account.account.data
  | .ok none => none
  | .error _ => none

/-- The call of `apply_claim` that a request comes down to. -/
def ClaimRequest.attempt (H : Sha256) (root D : Bytes32) (r : ClaimRequest) : Attempt where
  journal := r.journal H root D
  distributorId := D
  recipientNote := r.recipientNote

section Data

variable {P : Platform} {dep : Deployment} {D : AccountId} {note : AccountWithMetadata}
  {data data' : List UInt8} {r : ClaimRequest}

theorem claimOnData_some (h : claimOnData P dep D note data r = some data') :
    ∃ s, Delivered P dep D data r s data' := by
  unfold claimOnData at h
  split at h
  · rename_i x run
    obtain ⟨s, written, delivered, rfl⟩ := executeClaim_some_iff.mp run
    cases h
    exact ⟨s, delivered⟩
  · cases h
  · cases h

theorem claimOnData_length (h : claimOnData P dep D note data r = some data') :
    data'.length = data.length + 32 := by
  obtain ⟨s, delivered⟩ := claimOnData_some h
  have before := DistributionState.toVec_length (DistributionState.tryFromSlice_iff.mp delivered.state)
  have after := DistributionState.toVec_length (storeState_ok_iff.mp delivered.stored).1
  rw [DistributionState.record_spentNullifiers, List.length_append, List.length_singleton] at after
  omega

theorem claimOnData_grows :
    ∀ data r data', claimOnData P dep D note data r = some data' → data.length < data'.length := by
  intro data r data' h
  have longer := claimOnData_length h
  omega

theorem Holds.advance {root : Bytes32} {ccid : ProgramId} {supply : U128}
    {log : List Bytes32} {s : DistributionState} (holds : Holds root ccid supply data log s)
    (h : claimOnData P dep D note data r = some data') :
    (applyClaims P.sha256).step s (r.attempt P.sha256 root D) =
        (.ok (), s.record (r.journal P.sha256 root D)) ∧
      Holds root ccid supply data' (log ++ [r.nullifier P.sha256 D])
        (s.record (r.journal P.sha256 root D)) := by
  obtain ⟨s', delivered⟩ := claimOnData_some h
  cases delivered.state.symm.trans holds.state
  have allowed := delivered.allowed
  have stored := delivered.stored
  rw [holds.merkleRoot] at allowed stored
  exact ⟨applyClaims_accepted allowed, holds.accept allowed stored⟩

theorem Holds.follows {root : Bytes32} {ccid : ProgramId} {supply : U128} {log : List Bytes32}
    {s : DistributionState} (holds : Holds root ccid supply data log s)
    {ts : List (Transaction (List UInt8) ClaimRequest)}
    (history : Follows (claimOnData P dep D note) data ts data') :
    Holds root ccid supply data' (log ++ ts.map fun t => t.request.nullifier P.sha256 D)
        ((applyClaims P.sha256).run s (ts.map fun t => t.request.attempt P.sha256 root D)) ∧
      (applyClaims P.sha256).replies s (ts.map fun t => t.request.attempt P.sha256 root D) =
        ts.map fun _ => .ok () := by
  induction ts generalizing data log s with
  | nil =>
      obtain rfl : data = data' := history
      exact ⟨by simpa using holds, rfl⟩
  | cons t ts ih =>
      obtain ⟨-, made, rest⟩ := history
      obtain ⟨step, next⟩ := holds.advance made
      obtain ⟨final, replies⟩ := ih next rest
      rw [List.append_assoc] at final
      simp only [List.map_cons, Machine.run, Machine.replies, step]
      exact ⟨final, congrArg (List.cons _) replies⟩

end Data

/-- However claims are sent, duplicated, dropped, delayed and reordered: the live
    account is the sequential result of the applied claims, each of which adds its
    nullifier; no transaction is applied twice, one that read superseded data never
    is, and no live data comes back once it was replaced. -/
theorem concurrent_claims_linearize {P : Platform} (dep : Deployment)
    (note : AccountWithMetadata) {a account : AccountWithMetadata} {root : Bytes32}
    {ccid : ProgramId} {supply : U128}
    (created : initializeDistribution P a root ccid supply = .ok ⟨[account], []⟩)
    (events : List (NetEvent ClaimRequest)) :
    let D := account.accountId
    let clients := optimistic (claimOnData P dep D note)
    let start : Net (List UInt8) ClaimRequest := ⟨account.account.data, []⟩
    let net := clients.run start events
    let history := applied (claimOnData P dep D note) start events
    let attempts := history.map fun t => t.request.attempt P.sha256 root D
    let final := (applyClaims P.sha256).run (.initial root ccid supply) attempts
    DistributionState.tryFromSlice net.live = some final ∧
    (applyClaims P.sha256).replies (.initial root ccid supply) attempts =
      history.map (fun _ => .ok ()) ∧
    final.spentNullifiers = history.map (fun t => t.request.nullifier P.sha256 D) ∧
    (∀ e t, (clients.step net e).1 = some t → ∃ s,
      DistributionState.tryFromSlice (clients.step net e).2.live = some s ∧
      s.spentNullifiers = final.spentNullifiers ++ [t.request.nullifier P.sha256 D]) ∧
    (history.map Transaction.pre).Nodup ∧
    (∀ t ∈ net.flight, t.pre ≠ net.live → ∀ more, t.pre ≠ (clients.run net more).live) ∧
    ∀ more further, (clients.run net more).live ≠ net.live →
      (clients.run net (more ++ further)).live ≠ net.live := by
  intro D clients start net history attempts final
  obtain ⟨data, stored, same⟩ := initializeDistribution_ok_iff.mp created
  have there : account = a.withData data := (List.cons.inj (SpelOutput.mk.inj same).1).1
  have begin_ : Holds root ccid supply start.live [] (.initial root ccid supply) := by
    show Holds root ccid supply account.account.data [] _
    rw [there]
    exact holds_initial stored
  have nothing : start.Computed (claimOnData P dep D note) := nofun
  have quiet : start.Behind List.length := nofun
  have follows : Follows (claimOnData P dep D note) start.live history net.live :=
    run_follows nothing events
  obtain ⟨holds, replies⟩ := begin_.follows follows
  obtain ⟨computed, behind⟩ := run_computed_behind claimOnData_grows nothing quiet events
  refine ⟨holds.state, replies, holds.spentNullifiers, ?_, ?_, ?_, ?_⟩
  · intro e t applies
    cases optimistic_step_cases (claimOnData P dep D note) net e with
    | inl still => cases still.1.symm.trans applies
    | inr effect =>
        obtain ⟨u, sent, read, applies', next, -⟩ := effect
        cases applies'.symm.trans applies
        have made := computed t sent
        rw [read] at made
        obtain ⟨-, holds'⟩ := holds.advance made
        rw [next]
        exact ⟨_, holds'.state, rfl⟩
  · exact (follows.reads_nodup claimOnData_grows).2
  · intro t sent superseded more
    exact superseded_never_applies claimOnData_grows computed behind sent superseded more
  · intro more further replaced
    exact live_never_returns claimOnData_grows computed more further replaced

/-- One claim, sent once and delivered twice. -/
theorem concurrent_claims_linearize_duplicate :
    let H := lengthHash
    let zeros : Bytes32 := Vector.replicate 32 0
    let dep : Deployment := ⟨Vector.replicate 8 1, Vector.replicate 8 2, Vector.replicate 8 0⟩
    let P := Platform.bounded H 1000
    let root := leafHash H zeros 5
    let s := DistributionState.initial root dep.claimCircuitId 10
    let account : AccountWithMetadata := ⟨⟨dep.airdropId, s.header ++ [0, 0, 0, 0]⟩, true, zeros⟩
    let r : ClaimRequest := ⟨dep.airdropId, zeros, 5, 0, [], [], by decide⟩
    let events : List (NetEvent ClaimRequest) := [.send r, .duplicate 0, .deliver 0, .deliver 0]
    let history := applied (claimOnData P dep zeros account) ⟨account.account.data, []⟩ events
    history.length = 1 ∧ (history.map Transaction.pre).Nodup ∧
      ∃ final, DistributionState.tryFromSlice ((optimistic (claimOnData P dep zeros account)).run
          ⟨account.account.data, []⟩ events).live = some final ∧
        final.spentNullifiers = history.map (fun t => t.request.nullifier H zeros) := by
  intro H zeros dep P root s account r events history
  have created : initializeDistribution P ⟨⟨dep.airdropId, []⟩, true, zeros⟩ root
      dep.claimCircuitId 10 = .ok ⟨[account], []⟩ := by decide +kernel
  have one : history.length = 1 := by decide +kernel
  obtain ⟨state, -, spent, -, nodup, -⟩ :=
    concurrent_claims_linearize dep account created events
  exact ⟨one, nodup, _, state, spent⟩

end PrivateAirdrop

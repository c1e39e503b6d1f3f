import PrivateAirdrop.Library.Views
import PrivateAirdrop.Concurrency

/-! # What a claim makes public

The account id, the position in the tree, the path and the note are private
inputs. Of all of these a claim writes only the nullifier, and beside it the
allocation: the new data can be computed from the old data and these two.
-/

namespace PrivateAirdrop

open Library

/-- The public part of a request: its nullifier and its allocation. -/
def ClaimRequest.publicPart (H : Sha256) (D : AccountId) (r : ClaimRequest) : Bytes32 × U128 :=
  (r.nullifier H D, r.allocation)

/-- The data after a claim, from the data before it and what the claim makes public. -/
def publicEffect (P : Platform) (data : List UInt8) (p : Bytes32 × U128) : Option (List UInt8) :=
  match DistributionState.tryFromSlice data with
  | none => none
  | some s =>
    (storeState P { s with
      spentNullifiers := s.spentNullifiers ++ [p.1]
      claimed := s.claimed + p.2 }).toOption

section Effect

variable {P : Platform} {dep : Deployment} {D : AccountId} {note : AccountWithMetadata}

theorem Delivered.effect {data data' : List UInt8} {r : ClaimRequest} {s : DistributionState}
    (h : Delivered P dep D data r s data') :
    publicEffect P data (r.publicPart P.sha256 D) = some data' := by
  have stored := h.stored
  simp only [DistributionState.record, ClaimRequest.journal_nullifier,
    ClaimRequest.journal_allocation] at stored
  simp only [publicEffect, h.state, ClaimRequest.publicPart, stored]
  rfl

theorem claimOnData_revealsOnly :
    RevealsOnly (claimOnData P dep D note) (ClaimRequest.publicPart P.sha256 D) := by
  apply RevealsOnly.of_effect (publicEffect P)
  intro data r data' h
  obtain ⟨s, delivered⟩ := claimOnData_some h
  exact delivered.effect

/-- Of a whole history of accepted claims the data shows only which nullifiers were
    spent, in order, and what each was paid. -/
theorem claimOnData_history {data data₁ data₂ : List UInt8} {first second : List ClaimRequest}
    (run₁ : first.foldlM (claimOnData P dep D note) data = some data₁)
    (run₂ : second.foldlM (claimOnData P dep D note) data = some data₂)
    (same : first.map (ClaimRequest.publicPart P.sha256 D) =
      second.map (ClaimRequest.publicPart P.sha256 D)) : data₁ = data₂ :=
  claimOnData_revealsOnly.history run₁ run₂ same

end Effect

theorem executeClaim_submitted {P : Platform} {dep : Deployment} {dist note : AccountWithMetadata}
    {r : ClaimRequest} {x : Executed} (h : executeClaim P dep dist note r = .ok (some x)) :
    ∃ out, submitClaim P.sha256 dist note r.airdropProgramId r.accountId r.allocation r.leafIndex
        r.merklePath r.recipientNote = .ok out ∧ out.postStates = [dist, note] := by
  obtain ⟨s, data', delivered, -⟩ := executeClaim_some_iff.mp h
  exact ⟨_, submitClaim_ok_iff.mpr ⟨s, delivered.state, delivered.included, rfl⟩, rfl⟩

/-- Two accepted claims on one account with one nullifier and one allocation write
    the same bytes, computed from these two alone, whatever account, position, path
    and note they were made with; and the circuit writes nothing itself. -/
theorem claim_hides_private_inputs {P : Platform} {dep : Deployment}
    {dist note₁ note₂ : AccountWithMetadata} {r₁ r₂ : ClaimRequest} {x₁ x₂ : Executed}
    (first : executeClaim P dep dist note₁ r₁ = .ok (some x₁))
    (second : executeClaim P dep dist note₂ r₂ = .ok (some x₂))
    (nullifier : r₁.nullifier P.sha256 dist.accountId = r₂.nullifier P.sha256 dist.accountId)
    (allocation : r₁.allocation = r₂.allocation) :
    x₁.account.account.data = x₂.account.account.data ∧
      publicEffect P dist.account.data (r₁.nullifier P.sha256 dist.accountId, r₁.allocation) =
        some x₁.account.account.data ∧
      (∃ out, submitClaim P.sha256 dist note₁ r₁.airdropProgramId r₁.accountId r₁.allocation
          r₁.leafIndex r₁.merklePath r₁.recipientNote = .ok out ∧
        out.postStates = [dist, note₁]) ∧
      ∃ out, submitClaim P.sha256 dist note₂ r₂.airdropProgramId r₂.accountId r₂.allocation
          r₂.leafIndex r₂.merklePath r₂.recipientNote = .ok out ∧
        out.postStates = [dist, note₂] := by
  obtain ⟨s₁, data₁, delivered₁, written₁⟩ := executeClaim_some_iff.mp first
  obtain ⟨s₂, data₂, delivered₂, written₂⟩ := executeClaim_some_iff.mp second
  have data₁_eq : x₁.account.account.data = data₁ := by rw [written₁]; rfl
  have data₂_eq : x₂.account.account.data = data₂ := by rw [written₂]; rfl
  have effect₁ := delivered₁.effect
  have effect₂ := delivered₂.effect
  have public_ : r₁.publicPart P.sha256 dist.accountId = r₂.publicPart P.sha256 dist.accountId :=
    Prod.ext nullifier allocation
  rw [data₁_eq, data₂_eq]
  refine ⟨?_, effect₁, executeClaim_submitted first, executeClaim_submitted second⟩
  rw [public_, effect₂] at effect₁
  exact (Option.some.inj effect₁).symm

/-- Under a hash that maps everything to one digest, two accounts with different
    positions, paths and notes make one public claim. -/
theorem claim_hides_private_inputs_one_digest :
    let zeros : Bytes32 := Vector.replicate 32 0
    let ones : Bytes32 := Vector.replicate 32 1
    let dep : Deployment := ⟨Vector.replicate 8 1, Vector.replicate 8 2, Vector.replicate 8 0⟩
    let P := Platform.bounded (fun _ => zeros) 1000
    let dist : AccountWithMetadata :=
      ⟨⟨dep.airdropId, (DistributionState.initial zeros dep.claimCircuitId 10).header ++
        [0, 0, 0, 0]⟩, false, zeros⟩
    let r₁ : ClaimRequest := ⟨dep.airdropId, zeros, 5, 0, [], [], by decide⟩
    let r₂ : ClaimRequest := ⟨dep.airdropId, ones, 5, 3, [ones, zeros], [7], by decide⟩
    ∃ x₁ x₂, executeClaim P dep dist dist r₁ = .ok (some x₁) ∧
      executeClaim P dep dist dist r₂ = .ok (some x₂) ∧
      x₁.account.account.data = x₂.account.account.data := by
  intro zeros ones dep P dist r₁ r₂
  let s := (DistributionState.initial zeros dep.claimCircuitId 10).record
    (r₁.journal P.sha256 zeros zeros)
  let written := dist.withData (s.header ++ ([1, 0, 0, 0] ++ zeros.toList))
  have first : executeClaim P dep dist dist r₁ =
      .ok (some ⟨journalBytes (r₁.journal P.sha256 zeros zeros), [], written⟩) := by
    decide +kernel
  have second : executeClaim P dep dist dist r₂ =
      .ok (some ⟨journalBytes (r₂.journal P.sha256 zeros zeros), [7], written⟩) := by
    decide +kernel
  exact ⟨_, _, first, second, (claim_hides_private_inputs first second rfl rfl).1⟩

end PrivateAirdrop

import Mathlib.Data.List.Perm.Subperm
import Mathlib.Algebra.Order.BigOperators.Group.List
import PrivateAirdrop.World

/-! # Only eligible accounts claim, and only once

On a distribution that commits to a list of entries and registers the claim
circuit, every accepted claim was submitted through the circuit for an entry of
that list, and no account is paid twice. The alternative is always a collision
between two byte strings that were hashed for the tree or for the claim.
-/

namespace PrivateAirdrop

open Library

/-- The root that commits to a list of entries. -/
def merkleRoot (H : Sha256) {d : Nat} (L : Perfect Entry d) : Bytes32 :=
  (L.map fun e => leafHash H e.1 e.2).root (nodeHash H)

/-- The siblings of a position, lowest first. -/
def merklePath (H : Sha256) {d : Nat} (L : Perfect Entry d) (i : Nat) : List Bytes32 :=
  (L.map fun e => leafHash H e.1 e.2).siblings (nodeHash H) i

theorem merkleRoot_eq (H : Sha256) {d : Nat} (L : Perfect Entry d) :
    merkleRoot H L = ((hashing H).leaves L).root (hashing H).combine := rfl

/-- Whatever the length of its path, a walk that ends in the root of a list of
    entries opens the entry at its index with that entry's siblings, or two of the
    byte strings hashed for the tree and for the walk collide. -/
theorem merkleWalk_sound {H : Sha256} {d : Nat} {L : Perfect Entry d} {accountId : Bytes32}
    {allocation : U128} {leafIndex : UInt32} {path : List Bytes32}
    (accepted : merkleWalk H (leafHash H accountId allocation) leafIndex path = merkleRoot H L) :
    (path.length = d ∧ L.items[leafIndex.toNat % 2 ^ d]? = some (accountId, allocation) ∧
        path = merklePath H L leafIndex.toNat) ∨
      Collision H ((hashing H).treeInputs L ∪
        (hashing H).openInputs (accountId, allocation) leafIndex.toNat path) := by
  rw [merkleWalk_eq, merkleRoot_eq] at accepted
  cases Hashing.opening_sound (a := (accountId, allocation)) L accepted with
  | inl opened =>
      obtain ⟨level, entry, siblings⟩ := opened
      exact .inl ⟨level, L.get_eq_iff.mp entry, siblings⟩
  | inr collides => exact .inr collides

/-- The first of two entries, opened at an index past the last. -/
theorem merkleWalk_sound_two :
    let H := lengthHash
    let zeros : Bytes32 := Vector.replicate 32 0
    let L : Perfect Entry 1 := ⟨[(zeros, 5), (zeros, 7)], rfl⟩
    let path := [leafHash H zeros 7]
    merkleWalk H (leafHash H zeros 5) 2 path = merkleRoot H L ∧
      ((path.length = 1 ∧ L.items[(2 : UInt32).toNat % 2 ^ 1]? = some (zeros, 5) ∧
          path = merklePath H L 2) ∨
        Collision H ((hashing H).treeInputs L ∪ (hashing H).openInputs (zeros, 5) 2 path)) := by
  intro H zeros L path
  have accepted : merkleWalk H (leafHash H zeros 5) 2 path = merkleRoot H L := by decide +kernel
  exact ⟨accepted, merkleWalk_sound accepted⟩

/-- Only a call that the claim circuit chains is reported as the claim circuit's. -/
def Call.Truthful (dep : Deployment) : Call → Prop
  | .airdrop caller _ _ => dep.reported caller ≠ dep.claimCircuitId
  | .submitClaim _ _ _ => True
  | .foreign _ _ => True

/-- An accepted claim on `D` is the claim of a request for an entry of the list. -/
structure Backed (H : Sha256) (dep : Deployment) (D : AccountId) {d : Nat} (L : Perfect Entry d)
    (g : Call × Acceptance) (r : ClaimRequest) : Prop where
  submitted : ∃ note, g.1 = .submitClaim D note r
  caller : g.2.caller = .program dep.claimCircuitId
  journal : ClaimJournal.tryFromSlice g.2.journalBytes = some (r.journal H (merkleRoot H L) D)
  recipientNote : g.2.recipientNote = r.recipientNote
  entry : (r.merklePath.length = d ∧ L.get r.leafIndex.toNat = r.entry ∧
      r.merklePath = merklePath H L r.leafIndex.toNat) ∨
    Collision H ((hashing H).treeInputs L ∪ r.inputs H D)

section Soundness

variable {P : Platform} {dep : Deployment} {d : Nat} {L : Perfect Entry d} {supply : U128}
  {D : AccountId} {w w' : World} {log : List Bytes32} {s : DistributionState}

theorem computedRoot_sound {H : Sha256} {r : ClaimRequest}
    (included : r.computedRoot H = merkleRoot H L) :
    (r.merklePath.length = d ∧ L.get r.leafIndex.toNat = r.entry ∧
        r.merklePath = merklePath H L r.leafIndex.toNat) ∨
      Collision H ((hashing H).treeInputs L ∪ r.inputs H D) := by
  rw [r.computedRoot_eq, merkleRoot_eq] at included
  cases Hashing.opening_sound L included with
  | inl opened => exact .inl opened
  | inr collides =>
      apply Or.inr
      exact collides.mono (Set.union_subset_union_right _ Set.subset_union_left)

theorem AcceptedOn.backed {call : Call} {acc : Acceptance} {j : ClaimJournal} {data' : List UInt8}
    (truthful : call.Truthful dep)
    (live : Live dep (merkleRoot P.sha256 L) dep.claimCircuitId supply D w log s)
    (change : AcceptedOn P dep D w w' call acc s j data') :
    ∃ r, Backed P.sha256 dep D L (call, acc) r ∧ j.nullifier = r.nullifier P.sha256 D := by
  have root := live.holds.merkleRoot
  cases change.origin with
  | direct called =>
      subst called
      have reported := change.accepted.caller_eq
      rw [live.holds.claimCircuitProgramId] at reported
      exact absurd reported truthful
  | circuit note r called delivered same =>
      subst same
      have decoded := change.accepted.journal
      rw [tryFromSlice_journalBytes, root] at decoded
      cases decoded
      have included := delivered.included
      rw [root] at included
      refine ⟨r, ⟨⟨note, called⟩, rfl, ?_, rfl, computedRoot_sound included⟩, rfl⟩
      rw [tryFromSlice_journalBytes, root]

/-- The accepted claims of a run match requests, in order, and the nullifiers of
    these requests are all that the distribution holds. -/
theorem run_backed {calls : List Call} (truthful : ∀ call ∈ calls, call.Truthful dep)
    (start : Live dep (merkleRoot P.sha256 L) dep.claimCircuitId supply D w []
      (.initial (merkleRoot P.sha256 L) dep.claimCircuitId supply)) :
    ∃ requests s, Live dep (merkleRoot P.sha256 L) dep.claimCircuitId supply D
        ((world P dep).run w calls) (requests.map (·.nullifier P.sha256 D)) s ∧
      List.Forall₂ (Backed P.sha256 dep D L) (acceptances P dep D w calls) requests := by
  obtain ⟨log, s, live, requests, rfl, backed⟩ := run_live (P := P)
    (R := fun accs log => ∃ requests : List ClaimRequest,
      log = requests.map (·.nullifier P.sha256 D) ∧
      List.Forall₂ (Backed P.sha256 dep D L) accs requests)
    start ⟨[], rfl, .nil⟩ (by
      rintro w w' call acc s j data' accs log called live change ⟨requests, rfl, backed⟩
      obtain ⟨r, back, same⟩ := change.backed (truthful call called) live
      refine ⟨requests ++ [r], ?_, List.rel_append backed (.cons back .nil)⟩
      rw [List.map_append, List.map_singleton, same])
  exact ⟨requests, s, live, backed⟩

theorem subperm_of_backed {requests : List ClaimRequest}
    (accounts : (requests.map ClaimRequest.accountId).Nodup)
    (entries : ∀ r ∈ requests, L.get r.leafIndex.toNat = r.entry) :
    (requests.map ClaimRequest.entry).Subperm L.items := by
  have distinct : (requests.map ClaimRequest.entry).Nodup := by
    apply List.Nodup.of_map Prod.fst
    rw [List.map_map]
    exact accounts
  apply distinct.subperm
  intro e member
  obtain ⟨r, asked, rfl⟩ := List.mem_map.mp member
  rw [← entries r asked]
  exact L.get_mem _

theorem bounds_of_backed {requests : List ClaimRequest}
    (accounts : (requests.map ClaimRequest.accountId).Nodup)
    (entries : ∀ r ∈ requests, L.get r.leafIndex.toNat = r.entry) :
    requests.length ≤ 2 ^ d ∧
      (requests.map fun r => r.allocation.toNat).sum ≤ (L.items.map fun e => e.2.toNat).sum := by
  have once := subperm_of_backed accounts entries
  constructor
  · have count := once.length_le
    rwa [List.length_map, L.length_items] at count
  · obtain ⟨chosen, same, inside⟩ := once
    have paid := (inside.map fun e => e.2.toNat).sum_le_sum fun _ _ => Nat.zero_le _
    rwa [(same.map _).sum_eq, List.map_map] at paid

end Soundness

/-- From the creation of a distribution on, whoever calls what in whatever order:
    its accepted claims are the claims of requests for entries of its list, each
    account has at most one of them, and the distribution holds exactly their
    nullifiers. -/
theorem accepted_claims_backed {P : Platform} {dep : Deployment} {d : Nat} {L : Perfect Entry d}
    {supply : U128} {D : AccountId} {who : Caller} {w w' : World}
    (created : Creates P dep (merkleRoot P.sha256 L) dep.claimCircuitId supply D who w w')
    (calls : List Call) (truthful : ∀ call ∈ calls, call.Truthful dep) :
    ∃ requests s,
      List.Forall₂ (Backed P.sha256 dep D L) (acceptances P dep D w' calls) requests ∧
      DistributionState.tryFromSlice ((world P dep).run w' calls D).data = some s ∧
      s.spentNullifiers = requests.map (·.nullifier P.sha256 D) ∧
      s.spentNullifiers.Nodup ∧
      (requests.map ClaimRequest.accountId).Nodup ∧
      ((requests.length ≤ 2 ^ d ∧
          (requests.map fun r => r.allocation.toNat).sum ≤ (L.items.map fun e => e.2.toNat).sum) ∨
        ∃ r ∈ requests,
          Collision P.sha256 ((hashing P.sha256).treeInputs L ∪ r.inputs P.sha256 D)) := by
  obtain ⟨requests, s, live, backed⟩ := run_backed truthful created.live
  have nullifiers := live.holds.nodup
  have accounts : (requests.map ClaimRequest.accountId).Nodup := by
    apply List.Nodup.of_map fun a => deriveNullifier P.sha256 a D
    rw [List.map_map]
    exact nullifiers
  refine ⟨requests, s, backed, live.holds.state, live.holds.spentNullifiers, ?_, accounts, ?_⟩
  · rw [live.holds.spentNullifiers]
    exact nullifiers
  · by_cases collides : ∃ r ∈ requests,
        Collision P.sha256 ((hashing P.sha256).treeInputs L ∪ r.inputs P.sha256 D)
    · exact .inr collides
    · apply Or.inl
      apply bounds_of_backed accounts
      intro r asked
      obtain ⟨g, -, back⟩ := exists_of_forall₂ backed asked
      cases back.entry with
      | inl opened => exact opened.2.1
      | inr found => exact absurd ⟨r, asked, found⟩ collides

/-- A list of two entries. Another program claims with a genuine journal, somebody
    shows a path that leads elsewhere, and both entries are claimed, one of them twice. -/
theorem accepted_claims_backed_two :
    let H := headHash
    let D : AccountId := Vector.replicate 32 0
    let dep : Deployment := ⟨Vector.replicate 8 1, Vector.replicate 8 2, Vector.replicate 8 0⟩
    let P := Platform.bounded H 1000
    let e : Entry := (Vector.replicate 32 2, 5)
    let e' : Entry := (Vector.replicate 32 3, 7)
    let L : Perfect Entry 1 := ⟨[e, e'], rfl⟩
    let r : ClaimRequest := ⟨dep.airdropId, e.1, e.2, 0, merklePath H L 0, [], by decide⟩
    let r' : ClaimRequest := ⟨dep.airdropId, e'.1, e'.2, 1, merklePath H L 1, [1, 2], by decide⟩
    let forged : ClaimRequest := { r with accountId := Vector.replicate 32 4 }
    let other : Caller := .program (Vector.replicate 8 9)
    let calls : List Call := [
      .airdrop other D (.claim (journalBytes (r.journal H (merkleRoot H L) D)) []),
      .submitClaim D D forged, .submitClaim D D r', .submitClaim D D r, .submitClaim D D r']
    ∃ w' requests s, Creates P dep (merkleRoot H L) dep.claimCircuitId 12 D .topLevel
        (fun _ => Account.fresh) w' ∧
      List.Forall₂ (Backed H dep D L) (acceptances P dep D w' calls) requests ∧
      DistributionState.tryFromSlice ((world P dep).run w' calls D).data = some s ∧
      requests.length = 2 ∧ (requests.map ClaimRequest.accountId).Nodup := by
  intro H D dep P e e' L r r' forged other calls
  let w' := ((world P dep).step (fun _ => Account.fresh)
    (.airdrop .topLevel D (.initializeDistribution (merkleRoot H L) dep.claimCircuitId 12))).2
  have created : Creates P dep (merkleRoot H L) dep.claimCircuitId 12 D .topLevel
      (fun _ => Account.fresh) w' := .of_passed (by decide +kernel)
  have count : (acceptances P dep D w' calls).length = 2 := by decide +kernel
  clear_value w'
  have truthful : ∀ call ∈ calls, call.Truthful dep := by
    have unlike : dep.reported other ≠ dep.claimCircuitId := by decide
    simpa [calls, Call.Truthful] using unlike
  obtain ⟨requests, s, backed, state, -, -, accounts, -⟩ :=
    accepted_claims_backed created calls truthful
  exact ⟨w', requests, s, created, backed, state, backed.length_eq ▸ count, accounts⟩

end PrivateAirdrop

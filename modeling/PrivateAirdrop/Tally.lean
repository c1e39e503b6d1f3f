import PrivateAirdrop.Completeness
import PrivateAirdrop.Lifecycle

/-! # What a distribution has paid

A distribution for a list pays requests, one for each claim it accepts. Its counter
is what they ask for, as 128 bits show it, and was within the supply after every
one of them. Of any run the tally grows by the claims accepted there, and where it
does not grow the account stays what it is.
-/

namespace PrivateAirdrop

open Library

/-- What a list of requests asks for, added without wrapping. -/
def asked (requests : List ClaimRequest) : Nat := (requests.map fun r => r.allocation.toNat).sum

@[simp] theorem asked_nil : asked [] = 0 := rfl

@[simp] theorem asked_append (requests requests' : List ClaimRequest) :
    asked (requests ++ requests') = asked requests + asked requests' := by
  simp [asked]

@[simp] theorem asked_singleton (r : ClaimRequest) : asked [r] = r.allocation.toNat := by
  simp [asked]

/-- What entries allocate, added without wrapping. -/
def allocated (claims : List Entry) : Nat := (claims.map fun e => e.2.toNat).sum

theorem asked_eq (requests : List ClaimRequest) :
    asked requests = allocated (requests.map ClaimRequest.entry) := by
  rw [asked, allocated, List.map_map]
  rfl

/-- After each of the claims the counter, of 128 bits, shows no more than the supply. -/
def Affordable (supply : U128) (claims : List Entry) : Prop :=
  ∀ k, allocated (claims.take k) % 2 ^ 128 ≤ supply.toNat

theorem affordable_append {supply : U128} {claims : List Entry} {e : Entry} :
    Affordable supply (claims ++ [e]) ↔
      Affordable supply claims ∧ allocated (claims ++ [e]) % 2 ^ 128 ≤ supply.toNat := by
  constructor
  · intro all
    constructor
    · intro k
      by_cases inside : k ≤ claims.length
      · rw [← List.take_append_of_le_length inside]
        exact all k
      · have whole := all claims.length
        rw [List.take_left] at whole
        rwa [List.take_of_length_le (by omega)]
    · have whole := all (claims ++ [e]).length
      rwa [List.take_length] at whole
  · rintro ⟨earlier, last⟩ k
    by_cases inside : k ≤ claims.length
    · rw [List.take_append_of_le_length inside]
      exact earlier k
    · rwa [List.take_of_length_le (by simp; omega)]

/-- A distribution for a list of entries, the claims accepted on it so far, and the
    requests they are of. -/
structure Tally (P : Platform) (dep : Deployment) (D : AccountId) {d : Nat} (L : Perfect Entry d)
    (supply : U128) (w : World) (paid : List (Call × Acceptance)) (requests : List ClaimRequest)
    (s : DistributionState) : Prop where
  live : Live dep (merkleRoot P.sha256 L) dep.claimCircuitId supply D w
    (requests.map (·.nullifier P.sha256 D)) s
  backed : List.Forall₂ (Backed P.sha256 dep D L) paid requests
  claimed : s.claimed.toNat = asked requests % 2 ^ 128
  stored : P.dataRefusal (w D).data = none
  affordable : Affordable supply (requests.map ClaimRequest.entry)

/-- Nothing that was hashed for a request collides with what the tree hashes. -/
def Clean (H : Sha256) (D : AccountId) {d : Nat} (L : Perfect Entry d)
    (requests : List ClaimRequest) : Prop :=
  ∀ r ∈ requests, ¬ Collision H ((hashing H).treeInputs L ∪ r.inputs H D)

section Tally

variable {P : Platform} {dep : Deployment} {D : AccountId} {d : Nat} {L : Perfect Entry d}
  {supply : U128} {w w' : World} {paid : List (Call × Acceptance)} {requests : List ClaimRequest}
  {s : DistributionState} {call : Call}

theorem Creates.stored {root : Bytes32} {ccid : ProgramId} {who : Caller}
    (created : Creates P dep root ccid supply D who w w') : P.dataRefusal (w' D).data = none := by
  by_cases fresh : w D = Account.fresh
  · cases run : initializeDistribution P (w.live D) root ccid supply with
    | error e => simp [Creates, world, fresh, run] at created
    | ok out =>
        obtain ⟨data, stored, rfl⟩ := initializeDistribution_ok_iff.mp run
        simp only [Creates, world, fresh, run, if_true, List.headD_cons, Prod.mk.injEq,
          true_and] at created
        rw [← created, World.set_same]
        exact (storeState_ok_iff.mp stored).2
  · simp [Creates, world, fresh] at created

theorem Creates.tally {who : Caller}
    (created : Creates P dep (merkleRoot P.sha256 L) dep.claimCircuitId supply D who w w') :
    Tally P dep D L supply w' [] [] (.initial (merkleRoot P.sha256 L) dep.claimCircuitId supply) where
  live := created.live
  backed := .nil
  claimed := rfl
  stored := created.stored
  affordable := by simp [Affordable, allocated]

theorem Tally.step (tally : Tally P dep D L supply w paid requests s)
    (truthful : call.Truthful dep) :
    (acceptedOn D call ((world P dep).step w call).1 = none ∧
      ((world P dep).step w call).2 D = w D ∧
      Tally P dep D L supply ((world P dep).step w call).2 paid requests s) ∨
    (∃ acc r s', acceptedOn D call ((world P dep).step w call).1 = some (call, acc) ∧
      (∃ note, call = .submitClaim D note r) ∧
      Tally P dep D L supply ((world P dep).step w call).2 (paid ++ [(call, acc)])
        (requests ++ [r]) s') := by
  rcases tally.live.step (P := P) call with ⟨none_, still, live⟩ | ⟨acc, j, data', some_, change, live⟩
  · exact .inl ⟨none_, still, live, tally.backed, tally.claimed, still ▸ tally.stored,
      tally.affordable⟩
  · obtain ⟨r, back, same⟩ := change.backed truthful tally.live
    obtain rfl : j = r.journal P.sha256 (merkleRoot P.sha256 L) D :=
      Option.some.inj (change.accepted.journal.symm.trans back.journal)
    have counter : (s.record (r.journal P.sha256 (merkleRoot P.sha256 L) D)).claimed.toNat =
        asked (requests ++ [r]) % 2 ^ 128 := by
      rw [DistributionState.record_claimed, ClaimRequest.journal_allocation, BitVec.toNat_add,
        tally.claimed, asked_append, asked_singleton, Nat.mod_add_mod]
    have within : (s.claimed + r.allocation) ≤ s.totalSupply :=
      (refusal_none_iff.mp change.accepted.allowed).2.2.2.2
    refine .inr ⟨acc, r, _, some_, back.submitted, ?_,
      List.rel_append tally.backed (.cons back .nil), counter, ?_, ?_⟩
    · rw [List.map_append, List.map_singleton, ← same]
      exact live
    · rw [change.written]
      exact (storeState_ok_iff.mp change.accepted.stored).2
    · rw [List.map_append, List.map_singleton]
      refine affordable_append.mpr ⟨tally.affordable, ?_⟩
      rw [← List.map_singleton, ← List.map_append, ← asked_eq, ← counter]
      rw [tally.live.holds.totalSupply] at within
      exact BitVec.le_def.mp within

theorem Tally.delivered (tally : Tally P dep D L supply w paid requests s) {r : ClaimRequest}
    {s₀ : DistributionState} {data' : List UInt8} (delivered : Delivered P dep D (w D).data r s₀ data')
    (note : AccountId) :
    ∃ acc s', acceptedOn D (.submitClaim D note r)
        ((world P dep).step w (.submitClaim D note r)).1 = some (.submitClaim D note r, acc) ∧
      Tally P dep D L supply ((world P dep).step w (.submitClaim D note r)).2
        (paid ++ [(.submitClaim D note r, acc)]) (requests ++ [r]) s' := by
  have step := world_submitClaim_delivered note delivered
  have truthful : (Call.submitClaim D note r).Truthful dep := trivial
  rcases tally.step truthful with ⟨none_, -, -⟩ | ⟨acc, r', s', some_, ⟨note', same⟩, tally'⟩
  · simp [step, acceptedOn] at none_
  · cases same
    exact ⟨acc, s', some_, tally'⟩

theorem Tally.run (tally : Tally P dep D L supply w paid requests s) {calls : List Call}
    (truthful : ∀ call ∈ calls, call.Truthful dep) :
    ∃ more s', Tally P dep D L supply ((world P dep).run w calls)
        (paid ++ acceptances P dep D w calls) (requests ++ more) s' ∧
      (more = [] → (world P dep).run w calls D = w D) := by
  induction calls generalizing w paid requests s with
  | nil => exact ⟨[], s, by simpa [acceptances] using tally, fun _ => rfl⟩
  | cons call calls ih =>
      have later : ∀ call ∈ calls, call.Truthful dep :=
        fun call member => truthful call (List.mem_cons_of_mem _ member)
      simp only [acceptances, Machine.run, Machine.log]
      rcases tally.step (truthful call List.mem_cons_self) with
        ⟨none_, still, tally'⟩ | ⟨acc, r, s', some_, -, tally'⟩
      · obtain ⟨more, s', done, unmoved⟩ := ih tally' later
        rw [none_, Option.toList_none, List.nil_append]
        exact ⟨more, s', done, fun none_ => (unmoved none_).trans still⟩
      · obtain ⟨more, s', done, -⟩ := ih tally' later
        rw [some_, Option.toList_some]
        rw [List.append_assoc, List.append_assoc] at done
        exact ⟨r :: more, s', done, fun impossible => (by cases impossible)⟩

theorem Tally.length_eq {paid' : List (Call × Acceptance)} {requests' : List ClaimRequest}
    {s' : DistributionState} (tally : Tally P dep D L supply w paid requests s)
    (tally' : Tally P dep D L supply w paid' requests' s') : requests.length = requests'.length := by
  cases tally.live.holds.state.symm.trans tally'.live.holds.state
  have same := tally.live.holds.spentNullifiers.symm.trans tally'.live.holds.spentNullifiers
  simpa using congrArg List.length same

theorem Tally.fits {bound : Nat} (tally : Tally P dep D L supply w paid requests s)
    (limit : ∀ bytes, P.dataRefusal bytes = none ↔ bytes.length ≤ bound) :
    requests.length ≤ capacity bound := by
  have written := DistributionState.tryFromSlice_iff.mp tally.live.holds.state
  have size := DistributionState.toVec_length written
  have count := DistributionState.toVec_lt written
  have within := (limit _).mp tally.stored
  rw [tally.live.holds.spentNullifiers, List.length_map] at size count
  unfold capacity
  omega

theorem Tally.accounts (tally : Tally P dep D L supply w paid requests s) :
    (requests.map ClaimRequest.accountId).Nodup := by
  apply List.Nodup.of_map fun a => deriveNullifier P.sha256 a D
  rw [List.map_map]
  exact tally.live.holds.nodup

theorem Tally.entries (tally : Tally P dep D L supply w paid requests s)
    (clean : Clean P.sha256 D L requests) :
    ∀ r ∈ requests, L.get r.leafIndex.toNat = r.entry := by
  intro r member
  obtain ⟨g, -, back⟩ := exists_of_forall₂ tally.backed member
  rcases back.entry with opened | found
  · exact opened.2.1
  · exact absurd found (clean r member)

theorem Clean.left {requests' : List ClaimRequest} {H : Sha256}
    (clean : Clean H D L (requests ++ requests')) : Clean H D L requests :=
  fun r member => clean r (List.mem_append_left _ member)

end Tally

/-- A call that the key of `D` is not needed for: it neither creates a distribution
    there nor makes the account another program's. -/
def Keyless (D : AccountId) : Call → Prop
  | .airdrop _ id (.initializeDistribution _ _ _) => id ≠ D
  | .airdrop _ _ (.claim _ _) => True
  | .submitClaim _ _ _ => True
  | .foreign id _ => id ≠ D

/-- An `initialize` signed by the key of the account. -/
def creationOf (dep : Deployment) (D : AccountId) (root : Bytes32) (supply : U128) : Call :=
  .airdrop .topLevel D (.initializeDistribution root dep.claimCircuitId supply)

/-- The account is as it was drawn, or it holds the distribution that its key created
    and has paid what was accepted there. -/
inductive Standing (P : Platform) (dep : Deployment) (D : AccountId) {d : Nat}
    (L : Perfect Entry d) (supply : U128) (w : World) (paid : List (Call × Acceptance)) : Prop
  | drawn (fresh : w D = Account.fresh) (nobody : paid = [])
  | live (requests : List ClaimRequest) (s : DistributionState)
      (tally : Tally P dep D L supply w paid requests s)

section Standing

variable {P : Platform} {dep : Deployment} {D : AccountId} {d : Nat} {L : Perfect Entry d}
  {supply : U128} {w : World} {paid : List (Call × Acceptance)} {call : Call}

theorem step_elsewhere (elsewhere : call.address ≠ D) :
    ((world P dep).step w call).2 D = w D ∧
      acceptedOn D call ((world P dep).step w call).1 = none := by
  constructor
  · rw [world_step_local]
    exact World.set_other _ _ elsewhere.symm
  · apply acceptedOn_none
    intro acc claimed
    cases call with
    | airdrop who id instruction =>
        cases instruction with
        | initializeDistribution root ccid supply =>
            by_cases fresh : w id = Account.fresh
            · cases run : initializeDistribution P (w.live id) root ccid supply with
              | error e => simp [world, fresh, run] at claimed
              | ok out => simp [world, fresh, run] at claimed
            · simp [world, fresh] at claimed
        | claim bytes note =>
            rcases world_claim_cases P dep w who id bytes note with
              ⟨e, same⟩ | ⟨s, j, data', -, same⟩
            · rw [same] at claimed
              cases claimed
            · rw [same] at claimed
              cases claimed
              exact elsewhere
    | submitClaim id note r =>
        rcases world_submitClaim_cases P dep w id note r with
          ⟨outcome, other, same⟩ | ⟨s, data', -, same⟩
        · rw [same] at claimed
          exact absurd claimed (other acc)
        · rw [same] at claimed
          cases claimed
          exact elsewhere
    | foreign id account =>
        by_cases mine : (w id).programOwner = dep.airdropId
        · simp [world, mine] at claimed
        · simp [world, mine] at claimed

theorem step_drawn (fresh : w D = Account.fresh) (keyless : Keyless D call) :
    ((world P dep).step w call).2 D = Account.fresh ∧
      acceptedOn D call ((world P dep).step w call).1 = none := by
  by_cases here : call.address = D
  · have empty : ∀ s, DistributionState.tryFromSlice (w D).data ≠ some s := by
      intro s decodes
      exact ne_fresh decodes fresh
    cases call with
    | airdrop who id instruction =>
        cases here
        cases instruction with
        | initializeDistribution root ccid supply => exact absurd rfl keyless
        | claim bytes note =>
            rcases world_claim_cases P dep w who id bytes note with
              ⟨e, same⟩ | ⟨s, j, data', accepted, -⟩
            · rw [same]
              exact ⟨fresh, rfl⟩
            · exact absurd accepted.state (empty s)
    | submitClaim id note r =>
        cases here
        rcases world_submitClaim_cases P dep w id note r with
          ⟨outcome, other, same⟩ | ⟨s, data', delivered, -⟩
        · rw [same]
          exact ⟨fresh, acceptedOn_none fun acc claimed => absurd claimed (other acc)⟩
        · exact absurd delivered.state (empty s)
    | foreign id account =>
        cases here
        exact absurd rfl keyless
  · have still := @step_elsewhere P dep D w call here
    rw [still.1]
    exact ⟨fresh, still.2⟩

theorem step_again {root : Bytes32} (used : w D ≠ Account.fresh) :
    acceptedOn D (creationOf dep D root supply)
        ((world P dep).step w (creationOf dep D root supply)).1 = none ∧
      ((world P dep).step w (creationOf dep D root supply)).2 = w := by
  simp only [creationOf, world, if_neg used]
  exact ⟨rfl, trivial⟩

theorem step_creation (root : Bytes32) (fresh : w D = Account.fresh) :
    (∃ e, storeState P (.initial root dep.claimCircuitId supply) = .error e ∧
      (world P dep).step w (creationOf dep D root supply) = (.refused (.program e), w)) ∨
    ∃ w', Creates P dep root dep.claimCircuitId supply D .topLevel w w' := by
  cases stored : storeState P (.initial root dep.claimCircuitId supply) with
  | error e =>
      have run : initializeDistribution P (w.live D) root dep.claimCircuitId supply = .error e := by
        rw [initializeDistribution, stored]
        rfl
      exact .inl ⟨e, rfl, by simp only [creationOf, world, if_pos fresh, run]⟩
  | ok data =>
      have run := initializeDistribution_ok_iff (a := w.live D).mpr ⟨data, stored, rfl⟩
      exact .inr ⟨_, by simp only [Creates, world, if_pos fresh, run]; rfl⟩

theorem Standing.step (standing : Standing P dep D L supply w paid)
    (safe : (call.Truthful dep ∧ Keyless D call) ∨
      call = creationOf dep D (merkleRoot P.sha256 L) supply) :
    Standing P dep D L supply ((world P dep).step w call).2
      (paid ++ (acceptedOn D call ((world P dep).step w call).1).toList) := by
  cases standing with
  | drawn fresh nobody =>
      subst nobody
      rcases safe with ⟨-, keyless⟩ | rfl
      · obtain ⟨still, none_⟩ := @step_drawn P dep D w call fresh keyless
        rw [none_]
        exact .drawn still rfl
      · rcases @step_creation P dep D supply w (merkleRoot P.sha256 L) fresh with
          ⟨e, -, refused⟩ | ⟨w', created⟩
        · rw [refused]
          exact .drawn fresh rfl
        · have made : (world P dep).step w (creationOf dep D (merkleRoot P.sha256 L) supply) =
            (.passed, w') := created
          rw [made]
          exact .live [] _ created.tally
  | live requests s tally =>
      rcases safe with ⟨truthful, -⟩ | rfl
      · rcases tally.step truthful with ⟨none_, -, tally'⟩ | ⟨acc, r, s', some_, -, tally'⟩
        · rw [none_, Option.toList_none, List.append_nil]
          exact .live requests s tally'
        · rw [some_]
          exact .live _ s' tally'
      · obtain ⟨none_, still⟩ := @step_again P dep D supply w (merkleRoot P.sha256 L)
          (ne_fresh tally.live.holds.state)
        rw [none_, still, Option.toList_none, List.append_nil]
        exact .live requests s tally

end Standing

end PrivateAirdrop

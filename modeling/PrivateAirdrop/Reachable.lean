import PrivateAirdrop.Tally

/-! # The states a distribution can be in

Whatever is called, short of a collision, a distribution is in a state in which some
entries of its list have been claimed, one for an account, within the supply and the
account's room. There are no more states than that, and no fewer: each of them is
reached by claimants who claim in that order.
-/

namespace PrivateAirdrop

open Library

/-- The state in which these entries have been claimed, in this order. -/
def claimedState (H : Sha256) (D : AccountId) (root : Bytes32) (ccid : ProgramId) (supply : U128)
    (claims : List Entry) : DistributionState where
  merkleRoot := root
  claimCircuitProgramId := ccid
  totalSupply := supply
  claimed := BitVec.ofNat 128 (allocated claims)
  spentNullifiers := claims.map fun e => deriveNullifier H e.1 D

/-- Entries of a list that can be claimed in this order. -/
structure Claimable {d : Nat} (L : Perfect Entry d) (supply : U128) (bound : Nat)
    (claims : List Entry) : Prop where
  listed : ∀ e ∈ claims, e ∈ L.items
  accounts : (claims.map Prod.fst).Nodup
  affordable : Affordable supply claims
  fits : claims.length ≤ capacity bound

/-- A run of truthful calls leads to this state of `D`, and nothing that is hashed for
    the tree and for the claims of the run collides. -/
def Reaches (P : Platform) (dep : Deployment) (D : AccountId) {d : Nat} (L : Perfect Entry d)
    (w : World) (s : DistributionState) : Prop :=
  ∃ calls : List Call, (∀ call ∈ calls, call.Truthful dep) ∧
    Set.InjOn P.sha256 ((hashing P.sha256).treeInputs L ∪ acceptedInputs P dep D w calls) ∧
    DistributionState.tryFromSlice ((world P dep).run w calls D).data = some s

/-- Someone who claims a listed entry, with an empty note. -/
def listedClaimant {d : Nat} (L : Perfect Entry d) (e : Entry) : Claimant where
  entry := e
  position := L.items.idxOf e
  recipientNote := []
  note_fits := by decide
  claimerNote := Vector.replicate 32 0

def listedRequest (H : Sha256) (dep : Deployment) {d : Nat} (L : Perfect Entry d) (e : Entry) :
    ClaimRequest := (listedClaimant L e).request H dep ((hashing H).leaves L)

/-- The claims of listed entries, one after the other. -/
def listedCalls (H : Sha256) (dep : Deployment) (D : AccountId) {d : Nat} (L : Perfect Entry d)
    (claims : List Entry) : List Call :=
  claims.map fun e => .submitClaim D (listedClaimant L e).claimerNote (listedRequest H dep L e)

section Reachable

variable {P : Platform} {dep : Deployment} {D : AccountId} {d bound : Nat} {L : Perfect Entry d}
  {supply : U128} {w : World} {paid : List (Call × Acceptance)} {requests : List ClaimRequest}
  {s : DistributionState} {claims : List Entry} {e : Entry}

theorem Tally.state_eq (tally : Tally P dep D L supply w paid requests s) :
    s = claimedState P.sha256 D (merkleRoot P.sha256 L) dep.claimCircuitId supply
      (requests.map ClaimRequest.entry) := by
  obtain ⟨root, ccid, total, claimed, spent⟩ := s
  have holds := tally.live.holds
  obtain rfl : root = _ := holds.merkleRoot
  obtain rfl : ccid = _ := holds.claimCircuitProgramId
  obtain rfl : total = _ := holds.totalSupply
  obtain rfl : spent = _ := holds.spentNullifiers
  have counter : claimed = BitVec.ofNat 128 (asked requests) := by
    apply BitVec.eq_of_toNat_eq
    rw [BitVec.toNat_ofNat]
    exact tally.claimed
  simp only [counter, asked_eq, claimedState, List.map_map]
  rfl

theorem Tally.claimable (tally : Tally P dep D L supply w paid requests s)
    (clean : Clean P.sha256 D L requests)
    (limit : ∀ bytes, P.dataRefusal bytes = none ↔ bytes.length ≤ bound) :
    Claimable L supply bound (requests.map ClaimRequest.entry) where
  listed := by
    intro e member
    obtain ⟨r, asked, rfl⟩ := List.mem_map.mp member
    rw [← tally.entries clean r asked]
    exact L.get_mem _
  accounts := by
    rw [List.map_map]
    exact tally.accounts
  affordable := tally.affordable
  fits := by
    rw [List.length_map]
    exact tally.fits limit

theorem listedClaimant_placed (listed : e ∈ L.items) :
    (listedClaimant L e).position < 2 ^ d ∧ L.get (listedClaimant L e).position = e := by
  have inside : L.items.idxOf e < L.items.length := List.idxOf_lt_length_iff.mpr listed
  have small : L.items.idxOf e < 2 ^ d := by rwa [L.length_items] at inside
  have item := L.getElem?_of_lt small
  rw [List.getElem?_idxOf listed] at item
  exact ⟨small, (Option.some.inj item).symm⟩

theorem Claimable.left (claimable : Claimable L supply bound (claims ++ [e])) :
    Claimable L supply bound claims where
  listed := fun e' member => claimable.listed e' (List.mem_append_left _ member)
  accounts := by
    have accounts := claimable.accounts
    rw [List.map_append] at accounts
    exact accounts.of_append_left
  affordable := (affordable_append.mp claimable.affordable).1
  fits := by
    have fits := claimable.fits
    rw [List.length_append] at fits
    omega

theorem listedRequests_entry (claims : List Entry) :
    (claims.map (listedRequest P.sha256 dep L)).map ClaimRequest.entry = claims := by
  rw [List.map_map]
  exact List.map_id _

theorem listedRequest_inputs (depth : d ≤ 32) (listed : e ∈ L.items) :
    (listedRequest P.sha256 dep L e).inputs P.sha256 D ⊆ (hashing P.sha256).treeInputs L ∪
      {x | x = [] ∨ ∃ e ∈ L.items, x = nullifierPreimage e.1 D} := by
  obtain ⟨inside, here⟩ := listedClaimant_placed listed
  refine (Claimant.request_inputs depth inside here).trans (Set.union_subset_union_right _ ?_)
  rintro x (rfl | rfl)
  · exact .inr ⟨e, listed, rfl⟩
  · exact .inl rfl

theorem listedCalls_inputs (depth : d ≤ 32) (listed : ∀ e ∈ claims, e ∈ L.items) :
    acceptedInputs P dep D w (listedCalls P.sha256 dep D L claims) ⊆
      (hashing P.sha256).treeInputs L ∪
        {x | x = [] ∨ ∃ e ∈ L.items, x = nullifierPreimage e.1 D} := by
  rintro x ⟨g, accepted, note, r, submitted, hashed⟩
  have made := call_of_acceptance g accepted
  rw [submitted] at made
  obtain ⟨e, member, called⟩ := List.mem_map.mp made
  cases called
  exact listedRequest_inputs depth (listed e member) hashed

theorem Claimable.served (claimable : Claimable L supply bound claims)
    (limit : ∀ bytes, P.dataRefusal bytes = none ↔ bytes.length ≤ bound) (depth : d ≤ 32)
    (injective : Set.InjOn P.sha256 {x | ∃ e ∈ L.items, x = nullifierPreimage e.1 D})
    (start : Tally P dep D L supply w [] []
      (.initial (merkleRoot P.sha256 L) dep.claimCircuitId supply)) :
    ∃ paid s, Tally P dep D L supply ((world P dep).run w (listedCalls P.sha256 dep D L claims)) paid
      (claims.map (listedRequest P.sha256 dep L)) s := by
  induction claims using List.reverseRecOn with
  | nil => exact ⟨[], _, start⟩
  | append_singleton claims e ih =>
      obtain ⟨paid, s, tally⟩ := ih claimable.left
      have listed : e ∈ L.items := claimable.listed e (List.mem_append_right _ List.mem_cons_self)
      obtain ⟨inside, here⟩ := listedClaimant_placed listed
      let r := listedRequest P.sha256 dep L e
      have placed : (listedClaimant L e).Placed P.sha256 ((hashing P.sha256).leaves L) := by
        refine ⟨inside, ?_⟩
        rw [Hashing.leaves, Perfect.map_get, here]
        rfl
      have fresh : r.nullifier P.sha256 D ∉
          (claims.map (listedRequest P.sha256 dep L)).map (·.nullifier P.sha256 D) := by
        rw [List.map_map]
        intro spent
        obtain ⟨e', member, same⟩ := List.mem_map.mp spent
        have account := account_of_nullifier injective
          ⟨e', claimable.left.listed e' member, rfl⟩ ⟨e, listed, rfl⟩ same
        have accounts := claimable.accounts
        rw [List.map_append] at accounts
        exact (List.nodup_append.mp accounts).2.2 _ (List.mem_map_of_mem member) _ (by simp) account
      have within : s.claimed + r.allocation ≤ supply := by
        have last := (affordable_append.mp claimable.affordable).2
        rw [BitVec.le_def, BitVec.toNat_add, tally.claimed, asked_eq, listedRequests_entry,
          Nat.mod_add_mod]
        rwa [allocated, List.map_append, List.sum_append, List.map_singleton, List.sum_singleton]
          at last
      have fits := claimable.fits
      have count : ((claims.map (listedRequest P.sha256 dep L)).map
          (·.nullifier P.sha256 D)).length + 1 ≤ capacity bound := by simpa using fits
      obtain ⟨data', delivered⟩ := tally.live.delivers_of_within rfl
        (Claimant.computedRoot_request depth placed) fresh within
        (succ_le_capacity_iff.mp count).1 (roomFor_of_limit limit count (Nat.succ_pos _))
      obtain ⟨acc, s', -, tally'⟩ := tally.delivered delivered (listedClaimant L e).claimerNote
      rw [listedCalls, List.map_append, List.map_append, Machine.run_append]
      exact ⟨_, s', tally'⟩

theorem Tally.clean {calls : List Call}
    (tally : Tally P dep D L supply ((world P dep).run w calls) (acceptances P dep D w calls) requests s)
    (injective : Set.InjOn P.sha256
      ((hashing P.sha256).treeInputs L ∪ acceptedInputs P dep D w calls)) :
    Clean P.sha256 D L requests := by
  intro r member
  obtain ⟨g, accepted, back⟩ := exists_of_forall₂ tally.backed member
  obtain ⟨note, submitted⟩ := back.submitted
  apply not_collision_iff.mpr
  apply injective.mono
  apply Set.union_subset_union_right
  exact fun x hashed => ⟨g, accepted, note, r, submitted, hashed⟩

end Reachable

/-- The states that truthful runs lead a distribution to, short of a collision, are
    exactly those in which entries of its list have been claimed, no account twice,
    with the counter within the supply after each of them and room for all. -/
theorem reachable_states_iff {P : Platform} {dep : Deployment} {D : AccountId} {d bound : Nat}
    {L : Perfect Entry d} {supply : U128} {who : Caller} {w w' : World}
    (created : Creates P dep (merkleRoot P.sha256 L) dep.claimCircuitId supply D who w w')
    (limit : ∀ bytes, P.dataRefusal bytes = none ↔ bytes.length ≤ bound) (depth : d ≤ 32)
    (injective : Set.InjOn P.sha256 ((hashing P.sha256).treeInputs L ∪
      {x | x = [] ∨ ∃ e ∈ L.items, x = nullifierPreimage e.1 D})) (s : DistributionState) :
    Reaches P dep D L w' s ↔ ∃ claims, Claimable L supply bound claims ∧
      s = claimedState P.sha256 D (merkleRoot P.sha256 L) dep.claimCircuitId supply claims := by
  constructor
  · rintro ⟨calls, truthful, clean, state⟩
    obtain ⟨requests, s', tally, -⟩ := created.tally.run truthful
    rw [List.nil_append, List.nil_append] at tally
    cases tally.live.holds.state.symm.trans state
    exact ⟨_, tally.claimable (tally.clean clean) limit, tally.state_eq⟩
  · rintro ⟨claims, claimable, rfl⟩
    have nullifiers : Set.InjOn P.sha256 {x | ∃ e ∈ L.items, x = nullifierPreimage e.1 D} :=
      injective.mono fun x listed => .inr (.inr listed)
    obtain ⟨paid, s, tally⟩ := claimable.served limit depth nullifiers created.tally
    refine ⟨listedCalls P.sha256 dep D L claims, ?_, ?_, ?_⟩
    · intro call member
      obtain ⟨e, -, rfl⟩ := List.mem_map.mp member
      trivial
    · apply injective.mono
      exact Set.union_subset Set.subset_union_left (listedCalls_inputs depth claimable.listed)
    · rw [tally.live.holds.state, tally.state_eq, listedRequests_entry]

/-- Where there is room for one nullifier, either of two entries can have been
    claimed but not both. -/
theorem reachable_states_iff_either :
    let H := headHash
    let D : AccountId := Vector.replicate 32 0
    let dep : Deployment := ⟨Vector.replicate 8 1, Vector.replicate 8 2, Vector.replicate 8 0⟩
    let P := Platform.bounded H 132
    let e : Entry := (Vector.replicate 32 2, 5)
    let e' : Entry := (Vector.replicate 32 3, 7)
    let L : Perfect Entry 1 := ⟨[e, e'], rfl⟩
    let state := claimedState H D (merkleRoot H L) dep.claimCircuitId 12
    ∃ w', Creates P dep (merkleRoot H L) dep.claimCircuitId 12 D .topLevel
        (fun _ => Account.fresh) w' ∧
      Reaches P dep D L w' (state [e]) ∧ Reaches P dep D L w' (state [e']) ∧
      ¬ Reaches P dep D L w' (state [e', e]) := by
  intro H D dep P e e' L state
  let w' := ((world P dep).step (fun _ => Account.fresh)
    (.airdrop .topLevel D (.initializeDistribution (merkleRoot H L) dep.claimCircuitId 12))).2
  have created : Creates P dep (merkleRoot H L) dep.claimCircuitId 12 D .topLevel
      (fun _ => Account.fresh) w' := .of_passed (by decide +kernel)
  clear_value w'
  have strings : ∀ x ∈ pairStrings H D e e', ∀ y ∈ pairStrings H D e e', H x = H y → x = y := by
    decide +kernel
  have hashed : (hashing H).treeInputs L ∪
      {x | x = [] ∨ ∃ a ∈ L.items, x = nullifierPreimage a.1 D} ⊆
      {x | x ∈ pairStrings H D e e'} := by
    refine Set.union_subset (treeInputs_pair D rfl) ?_
    rintro x (rfl | ⟨a, member, rfl⟩)
    · simp [pairStrings]
    · simp only [L, List.mem_cons, List.not_mem_nil, or_false] at member
      rcases member with rfl | rfl <;> simp [pairStrings]
  have states := reachable_states_iff created (fun _ => Platform.bounded_dataRefusal) (by decide)
    fun x hx y hy => strings x (hashed hx) y (hashed hy)
  have single : ∀ a ∈ L.items, Reaches P dep D L w' (state [a]) := by
    intro a listed
    have affordable : Affordable 12 [a] := by
      simp only [L, List.mem_cons, List.not_mem_nil, or_false] at listed
      intro k
      cases k with
      | zero => exact Nat.zero_le _
      | succ k =>
          rw [List.take_succ_cons, List.take_nil]
          rcases listed with rfl | rfl <;> decide
    have fits : 1 ≤ capacity 132 := by decide
    have claimable : Claimable L 12 132 [a] :=
      ⟨by simpa using listed, List.nodup_singleton _, affordable, fits⟩
    exact (states _).mpr ⟨[a], claimable, rfl⟩
  refine ⟨w', created, single e (by simp [L]), single e' (by simp [L]), ?_⟩
  intro both
  obtain ⟨claims, claimable, same⟩ := (states _).mp both
  have count := congrArg (fun s => s.spentNullifiers.length) same
  simp only [state, claimedState, List.length_map, List.length_cons, List.length_nil] at count
  have fits : claims.length ≤ 1 := claimable.fits
  omega

end PrivateAirdrop

import PrivateAirdrop.Soundness

/-! # Nobody eligible is locked out, while there is room

The honest request of a committed entry is accepted in every reachable state that
has the supply and the room for one claim more, whatever was accepted or rejected
before. Room is finite: the nullifiers of a distribution share one account, so
only as many claimants as that account can hold get in.
-/

namespace PrivateAirdrop

open Library

/-- Someone with an entry, the position it is committed at and a note. -/
structure Claimant where
  entry : Entry
  position : Nat
  recipientNote : List UInt8
  note_fits : recipientNote.length < 2 ^ 32
  claimerNote : AccountId

namespace Claimant

variable (H : Sha256) (dep : Deployment) {d : Nat} (t : Perfect Bytes32 d) (c : Claimant)

/-- The request that proves the leaf of a tree at the claimant's position. -/
def request : ClaimRequest where
  airdropProgramId := dep.airdropId
  accountId := c.entry.1
  allocation := c.entry.2
  leafIndex := UInt32.ofNat c.position
  merklePath := t.siblings (nodeHash H) c.position
  recipientNote := c.recipientNote
  note_fits := c.note_fits

def call (D : AccountId) : Call := .submitClaim D c.claimerNote (c.request H dep t)

def nullifier (D : AccountId) : Bytes32 := deriveNullifier H c.entry.1 D

/-- The claim of `c` as the airdrop program accepts it. -/
def acceptance (D : AccountId) : Acceptance where
  distribution := D
  caller := .program dep.claimCircuitId
  journalBytes := journalBytes ((c.request H dep t).journal H (t.root (nodeHash H)) D)
  recipientNote := c.recipientNote

/-- The claimant's leaf is in the tree, at a position a 32-bit index can name. -/
def Placed : Prop := c.position < 2 ^ d ∧ t.get c.position = leafHash H c.entry.1 c.entry.2

variable {H dep t c}

theorem computedRoot_request (depth : d ≤ 32) (placed : c.Placed H t) :
    (c.request H dep t).computedRoot H = t.root (nodeHash H) := by
  have small : c.position < 2 ^ 32 := placed.1.trans_le (Nat.pow_le_pow_right (by omega) depth)
  have index : (UInt32.ofNat c.position).toNat = c.position := by
    rw [UInt32.toNat_ofNat']
    exact Nat.mod_eq_of_lt small
  rw [ClaimRequest.computedRoot, merkleWalk_eq]
  simp only [request, index, ← placed.2, hashing_combine]
  exact walk_siblings (nodeHash H) t c.position

end Claimant

section Delivery

variable {P : Platform} {dep : Deployment} {root : Bytes32} {supply : U128} {D : AccountId}
  {w : World} {log : List Bytes32} {s : DistributionState}

theorem Live.delivers_of_within (live : Live dep root dep.claimCircuitId supply D w log s)
    {r : ClaimRequest} (target : r.airdropProgramId = dep.airdropId)
    (included : r.computedRoot P.sha256 = root) (fresh : r.nullifier P.sha256 D ∉ log)
    (within : s.claimed + r.allocation ≤ supply)
    (count : log.length + 1 < 2 ^ 32) (room : P.RoomFor (log.length + 1)) :
    ∃ data', Delivered P dep D (w D).data r s data' := by
  have same := live.holds.spentNullifiers
  have size : (s.record (r.journal P.sha256 s.merkleRoot D)).spentNullifiers.length =
      log.length + 1 := by
    rw [DistributionState.record_spentNullifiers, List.length_append, same]
    rfl
  obtain ⟨data', stored⟩ := storeState_ok_of_room (size ▸ count) (size ▸ room)
  refine ⟨data', target, live.holds.state, ?_, ?_, ?_, stored⟩
  · rw [included, live.holds.merkleRoot]
  · rw [live.holds.claimCircuitProgramId]
  · apply refusal_none_iff.mpr
    refine ⟨rfl, rfl, rfl, ?_, ?_⟩
    · rw [same]
      exact fresh
    · rw [live.holds.totalSupply]
      exact within

theorem Live.delivers (live : Live dep root dep.claimCircuitId supply D w log s)
    {r : ClaimRequest} (target : r.airdropProgramId = dep.airdropId)
    (included : r.computedRoot P.sha256 = root) (fresh : r.nullifier P.sha256 D ∉ log)
    (affordable : s.claimed.toNat + r.allocation.toNat ≤ supply.toNat)
    (count : log.length + 1 < 2 ^ 32) (room : P.RoomFor (log.length + 1)) :
    ∃ data', Delivered P dep D (w D).data r s data' :=
  live.delivers_of_within target included fresh (sum_within_iff.mpr (.inl affordable)) count room

theorem Live.delivered (live : Live dep root dep.claimCircuitId supply D w log s)
    {r : ClaimRequest} {data' : List UInt8} (delivered : Delivered P dep D (w D).data r s data')
    (note : AccountId) :
    ∃ w', (world P dep).step w (.submitClaim D note r) =
        (.claimed ⟨D, .program dep.claimCircuitId, journalBytes (r.journal P.sha256 root D),
          r.recipientNote⟩, w') ∧
      Live dep root dep.claimCircuitId supply D w' (log ++ [r.nullifier P.sha256 D])
        (s.record (r.journal P.sha256 root D)) := by
  have journal := live.holds.merkleRoot
  have step := world_submitClaim_delivered note delivered
  rw [journal] at step
  refine ⟨_, step, ?_, ?_⟩
  · rw [World.set_same]
    exact live.owned
  · rw [World.set_same]
    have accepted := live.holds.accept delivered.allowed delivered.stored
    rw [journal] at accepted
    exact accepted

/-- A claimant with a leaf in the tree and a new nullifier gets in, if the supply
    covers the allocation and one nullifier more has room. -/
theorem Live.admits {d : Nat} {t : Perfect Bytes32 d}
    (live : Live dep (t.root (nodeHash P.sha256)) dep.claimCircuitId supply D w log s)
    (depth : d ≤ 32) {c : Claimant} (placed : c.Placed P.sha256 t)
    (fresh : c.nullifier P.sha256 D ∉ log)
    (affordable : s.claimed.toNat + c.entry.2.toNat ≤ supply.toNat)
    (count : log.length + 1 < 2 ^ 32) (room : P.RoomFor (log.length + 1)) :
    ∃ w' s', (world P dep).step w (c.call P.sha256 dep t D) =
        (.claimed (c.acceptance P.sha256 dep t D), w') ∧
      Live dep (t.root (nodeHash P.sha256)) dep.claimCircuitId supply D w'
        (log ++ [c.nullifier P.sha256 D]) s' ∧
      s' = { s with
        spentNullifiers := s.spentNullifiers ++ [c.nullifier P.sha256 D]
        claimed := s.claimed + c.entry.2 } ∧
      s'.claimed.toNat = s.claimed.toNat + c.entry.2.toNat := by
  let r := c.request P.sha256 dep t
  have included : r.computedRoot P.sha256 = t.root (nodeHash P.sha256) :=
    Claimant.computedRoot_request depth placed
  have target : r.airdropProgramId = dep.airdropId := rfl
  obtain ⟨data', delivered⟩ := live.delivers target included fresh affordable count room
  obtain ⟨w', step, live'⟩ := live.delivered delivered c.claimerNote
  refine ⟨w', _, step, live', rfl, ?_⟩
  have below := supply.isLt
  have exact_ : (s.claimed + c.entry.2).toNat = s.claimed.toNat + c.entry.2.toNat := by
    rw [BitVec.toNat_add]
    exact Nat.mod_eq_of_lt (by omega)
  exact exact_

end Delivery

theorem account_of_nullifier {H : Sha256} {D : AccountId} {inputs : Set (List UInt8)}
    (injective : Set.InjOn H inputs) {a b : Bytes32} (ha : nullifierPreimage a D ∈ inputs)
    (hb : nullifierPreimage b D ∈ inputs) (same : deriveNullifier H a D = deriveNullifier H b D) :
    a = b := nullifierPreimage_injective (injective ha hb same)

/-- Everything hashed for the accepted claims on `D` in a run. -/
def acceptedInputs (P : Platform) (dep : Deployment) (D : AccountId) (w : World)
    (calls : List Call) : Set (List UInt8) :=
  {x | ∃ g ∈ acceptances P dep D w calls, ∃ note r,
    g.1 = .submitClaim D note r ∧ x ∈ r.inputs P.sha256 D}

theorem Claimant.request_inputs {H : Sha256} {dep : Deployment} {D : AccountId} {d : Nat}
    {L : Perfect Entry d} {c : Claimant} (depth : d ≤ 32) (inside : c.position < 2 ^ d)
    (listed : L.get c.position = c.entry) :
    (c.request H dep ((hashing H).leaves L)).inputs H D ⊆
      (hashing H).treeInputs L ∪ {nullifierPreimage c.entry.1 D, c.recipientNote} := by
  have small : c.position < 2 ^ 32 := inside.trans_le (Nat.pow_le_pow_right (by omega) depth)
  have index : (UInt32.ofNat c.position).toNat = c.position := UInt32.toNat_ofNat_of_lt' small
  have opening := Hashing.openInputs_siblings (S := hashing H) L c.position
  rw [listed] at opening
  apply Set.union_subset_union_left
  simp only [Claimant.request, index]
  exact opening

/-- In every state reached from the creation of a distribution, the honest request
    of an account with no accepted claim is accepted and recorded, if the supply
    covers it and one nullifier more has room. -/
theorem honest_claim_accepted {P : Platform} {dep : Deployment} {d : Nat} {L : Perfect Entry d}
    {supply : U128} {D : AccountId} {who : Caller} {w w' : World} (depth : d ≤ 32)
    (created : Creates P dep (merkleRoot P.sha256 L) dep.claimCircuitId supply D who w w')
    (calls : List Call) (truthful : ∀ call ∈ calls, call.Truthful dep)
    (c : Claimant) (inside : c.position < 2 ^ d) (listed : L.get c.position = c.entry)
    (unclaimed : ∀ g ∈ acceptances P dep D w' calls, ∀ note r, g.1 = .submitClaim D note r →
      r.accountId ≠ c.entry.1)
    (injective : Set.InjOn P.sha256 ((hashing P.sha256).treeInputs L ∪
      acceptedInputs P dep D w' calls ∪
      (c.request P.sha256 dep ((hashing P.sha256).leaves L)).inputs P.sha256 D))
    {s : DistributionState}
    (state : DistributionState.tryFromSlice ((world P dep).run w' calls D).data = some s)
    (affordable : s.claimed.toNat + c.entry.2.toNat ≤ supply.toNat)
    (count : s.spentNullifiers.length + 1 < 2 ^ 32)
    (room : P.RoomFor (s.spentNullifiers.length + 1)) :
    ∃ w'', (world P dep).step ((world P dep).run w' calls)
        (c.call P.sha256 dep ((hashing P.sha256).leaves L) D) =
          (.claimed (c.acceptance P.sha256 dep ((hashing P.sha256).leaves L) D), w'') ∧
      DistributionState.tryFromSlice (w'' D).data = some { s with
        spentNullifiers := s.spentNullifiers ++ [deriveNullifier P.sha256 c.entry.1 D]
        claimed := s.claimed + c.entry.2 } ∧
      (s.claimed + c.entry.2).toNat = s.claimed.toNat + c.entry.2.toNat := by
  obtain ⟨requests, s', live, backed⟩ := run_backed truthful created.live
  cases live.holds.state.symm.trans state
  have placed : c.Placed P.sha256 ((hashing P.sha256).leaves L) := by
    refine ⟨inside, ?_⟩
    rw [Hashing.leaves, Perfect.map_get, listed]
    rfl
  have fresh : c.nullifier P.sha256 D ∉ requests.map (·.nullifier P.sha256 D) := by
    intro spent
    obtain ⟨r, asked, same⟩ := List.mem_map.mp spent
    obtain ⟨g, member, back⟩ := exists_of_forall₂ backed asked
    obtain ⟨note, submitted⟩ := back.submitted
    have old : nullifierPreimage r.accountId D ∈ acceptedInputs P dep D w' calls :=
      ⟨g, member, note, r, submitted, .inr (.inl rfl)⟩
    have account := account_of_nullifier injective (.inl (.inr old)) (.inr (.inr (.inl rfl))) same
    exact unclaimed g member note r submitted account
  have log := live.holds.spentNullifiers
  rw [log] at count room
  obtain ⟨w'', s'', step, live'', rfl, sum⟩ :=
    live.admits depth placed fresh affordable count room
  exact ⟨w'', step, live''.holds.state, sum⟩

/-- The strings hashed for a list of two entries and for their claims, with empty notes. -/
def pairStrings (H : Sha256) (D : AccountId) (e e' : Entry) : List (List UInt8) :=
  [leafPreimage e.1 e.2, leafPreimage e'.1 e'.2,
    nodePreimage (H (leafPreimage e.1 e.2)) (H (leafPreimage e'.1 e'.2)),
    nullifierPreimage e.1 D, nullifierPreimage e'.1 D, []]

theorem treeInputs_pair {H : Sha256} (D : AccountId) {e e' : Entry} {L : Perfect Entry 1}
    (items : L.items = [e, e']) :
    (hashing H).treeInputs L ⊆ {x | x ∈ pairStrings H D e e'} := by
  obtain ⟨_, size⟩ := L
  subst items
  rintro x (⟨i, rfl⟩ | ⟨i, rfl⟩ | impossible)
  · rcases Nat.mod_two_eq_zero_or_one i with even | odd
    · simp [Perfect.get, even, pairStrings, hashing]
    · simp [Perfect.get, odd, pairStrings, hashing]
  · have even : 2 * i % 2 = 0 := by omega
    have odd : (2 * i + 1) % 2 = 1 := by omega
    simp [Hashing.leaves, Perfect.map, Perfect.get, even, odd, pairStrings, hashing]
  · cases impossible

theorem Claimant.pair_inputs {H : Sha256} {dep : Deployment} {D : AccountId} {e e' : Entry}
    {L : Perfect Entry 1} (items : L.items = [e, e']) {c : Claimant} (inside : c.position < 2)
    (listed : L.get c.position = c.entry) (note : c.recipientNote = []) :
    (c.request H dep ((hashing H).leaves L)).inputs H D ⊆ {x | x ∈ pairStrings H D e e'} := by
  have member : c.entry ∈ L.items := listed ▸ L.get_mem _
  rw [items, List.mem_cons, List.mem_singleton] at member
  refine (Claimant.request_inputs (by decide) inside listed).trans
    (Set.union_subset (treeInputs_pair D items) ?_)
  rintro x (rfl | rfl)
  · rcases member with same | same <;> simp [pairStrings, same]
  · simp [pairStrings, note]

/-- The first of two entries, claimed after the second was, after the second was
    claimed again and after a claim that no circuit chained. -/
theorem honest_claim_accepted_second :
    let H := headHash
    let D : AccountId := Vector.replicate 32 0
    let dep : Deployment := ⟨Vector.replicate 8 1, Vector.replicate 8 2, Vector.replicate 8 0⟩
    let P := Platform.bounded H 164
    let e : Entry := (Vector.replicate 32 2, 5)
    let e' : Entry := (Vector.replicate 32 3, 7)
    let L : Perfect Entry 1 := ⟨[e, e'], rfl⟩
    let t := (hashing H).leaves L
    let c : Claimant := ⟨e, 0, [], by decide, D⟩
    let c' : Claimant := ⟨e', 1, [], by decide, D⟩
    let calls : List Call := [c'.call H dep t D, c'.call H dep t D,
      .airdrop .topLevel D (.claim (c.acceptance H dep t D).journalBytes [])]
    ∃ w' w'', Creates P dep (merkleRoot H L) dep.claimCircuitId 12 D .topLevel
        (fun _ => Account.fresh) w' ∧
      (acceptances P dep D w' calls).map Prod.snd = [c'.acceptance H dep t D] ∧
      (world P dep).step ((world P dep).run w' calls) (c.call H dep t D) =
        (.claimed (c.acceptance H dep t D), w'') := by
  intro H D dep P e e' L t c c' calls
  let s : DistributionState := { DistributionState.initial (merkleRoot H L) dep.claimCircuitId 12 with
    spentNullifiers := [deriveNullifier H e'.1 D]
    claimed := 7 }
  let w' := ((world P dep).step (fun _ => Account.fresh)
    (.airdrop .topLevel D (.initializeDistribution (merkleRoot H L) dep.claimCircuitId 12))).2
  have created : Creates P dep (merkleRoot H L) dep.claimCircuitId 12 D .topLevel
      (fun _ => Account.fresh) w' := .of_passed (by decide +kernel)
  have one : (acceptances P dep D w' calls).map Prod.snd = [c'.acceptance H dep t D] := by
    decide +kernel
  have submitted_ : ∀ g ∈ acceptances P dep D w' calls, ∀ note r, g.1 = .submitClaim D note r →
      r = c'.request H dep t := by
    intro g member note r submitted
    have called := call_of_acceptance g member
    rw [submitted] at called
    simp only [calls, Claimant.call, List.mem_cons, Call.submitClaim.injEq, reduceCtorEq,
      List.not_mem_nil, or_false, or_self] at called
    exact called.2.2
  have state : DistributionState.tryFromSlice ((world P dep).run w' calls D).data = some s := by
    decide +kernel
  have strings : ∀ x ∈ pairStrings H D e e', ∀ y ∈ pairStrings H D e e', H x = H y → x = y := by
    decide +kernel
  have tree := treeInputs_pair (H := H) D (L := L) rfl
  have hashed : (hashing H).treeInputs L ∪ acceptedInputs P dep D w' calls ∪
      (c.request H dep t).inputs H D ⊆ {x | x ∈ pairStrings H D e e'} := by
    refine Set.union_subset (Set.union_subset tree ?_)
      (Claimant.pair_inputs rfl (by decide) rfl rfl)
    rintro x ⟨g, member, note, r, submitted, input⟩
    rw [submitted_ g member note r submitted] at input
    exact Claimant.pair_inputs rfl (by decide) rfl rfl input
  have unclaimed : ∀ g ∈ acceptances P dep D w' calls, ∀ note r, g.1 = .submitClaim D note r →
      r.accountId ≠ c.entry.1 := by
    intro g member note r submitted
    rw [submitted_ g member note r submitted]
    decide
  obtain ⟨w'', accepted, -⟩ := honest_claim_accepted (by omega) created calls
    (by simp [calls, Claimant.call, Call.Truthful, Deployment.reported]; decide) c (by decide) rfl
    unclaimed (fun x hx y hy => strings x (hashed hx) y (hashed hy)) state (by decide +kernel)
    (by decide) (Platform.bounded_roomFor (by decide))
  clear_value w'
  exact ⟨w', w'', created, one, accepted⟩

/-- How many nullifiers an account of at most `bound` bytes can hold. -/
def capacity (bound : Nat) : Nat := min ((bound - 100) / 32) (2 ^ 32 - 1)

theorem succ_le_capacity_iff {n bound : Nat} :
    n + 1 ≤ capacity bound ↔ n + 1 < 2 ^ 32 ∧ 100 + 32 * (n + 1) ≤ bound := by
  unfold capacity
  omega

/-- What a list of claimants is allocated, added without wrapping. -/
def allocations (claimants : List Claimant) : Nat := (claimants.map fun c => c.entry.2.toNat).sum

theorem allocations_append (l l' : List Claimant) :
    allocations (l ++ l') = allocations l + allocations l' := by
  simp only [allocations, List.map_append, List.sum_append]

section Capacity

variable {P : Platform} {dep : Deployment} {d : Nat} {t : Perfect Bytes32 d} {root : Bytes32}
  {supply : U128} {D : AccountId} {w : World} {log : List Bytes32} {s : DistributionState}
  {bound : Nat}

theorem roomFor_of_limit (limit : ∀ bytes, P.dataRefusal bytes = none ↔ bytes.length ≤ bound)
    {n : Nat} (h : n ≤ capacity bound) (some_ : 0 < n) : P.RoomFor n := by
  obtain ⟨m, rfl⟩ := Nat.exists_eq_succ_of_ne_zero some_.ne'
  intro bytes size
  have fits := (succ_le_capacity_iff.mp h).2
  apply (limit bytes).mpr
  omega

theorem Live.full (limit : ∀ bytes, P.dataRefusal bytes = none ↔ bytes.length ≤ bound)
    {ccid : ProgramId} (live : Live dep root ccid supply D w log s)
    (full : capacity bound ≤ log.length) (call : Call) :
    acceptedOn D call ((world P dep).step w call).1 = none ∧
      Live dep root ccid supply D ((world P dep).step w call).2 log s := by
  cases live.step (P := P) call with
  | inl nothing => exact ⟨nothing.1, nothing.2.2⟩
  | inr done =>
      obtain ⟨acc, j, data', -, change, -⟩ := done
      obtain ⟨written, taken⟩ := storeState_ok_iff.mp change.accepted.stored
      have size := DistributionState.toVec_length written
      have count := DistributionState.toVec_lt written
      have within := (limit data').mp taken
      rw [DistributionState.record_spentNullifiers, List.length_append, live.holds.spentNullifiers,
        List.length_singleton] at size count
      have room : log.length + 1 ≤ capacity bound := succ_le_capacity_iff.mpr ⟨count, size ▸ within⟩
      omega

/-- The claimants that fit get in, in their order, and the others change nothing. -/
theorem run_claimants (limit : ∀ bytes, P.dataRefusal bytes = none ↔ bytes.length ≤ bound)
    (depth : d ≤ 32)
    (start : Live dep (t.root (nodeHash P.sha256)) dep.claimCircuitId supply D w []
      (.initial (t.root (nodeHash P.sha256)) dep.claimCircuitId supply))
    {claimants : List Claimant} (placed : ∀ c ∈ claimants, c.Placed P.sha256 t)
    (accounts : (claimants.map fun c => c.entry.1).Nodup)
    (injective : Set.InjOn P.sha256 {x | ∃ c ∈ claimants, x = nullifierPreimage c.entry.1 D})
    (affordable : allocations claimants ≤ supply.toNat) :
    ∃ s, Live dep (t.root (nodeHash P.sha256)) dep.claimCircuitId supply D
        ((world P dep).run w (claimants.map fun c => c.call P.sha256 dep t D))
        ((claimants.take (capacity bound)).map fun c => c.nullifier P.sha256 D) s ∧
      s.claimed.toNat = allocations (claimants.take (capacity bound)) ∧
      acceptances P dep D w (claimants.map fun c => c.call P.sha256 dep t D) =
        (claimants.take (capacity bound)).map fun c =>
          (c.call P.sha256 dep t D, c.acceptance P.sha256 dep t D) := by
  induction claimants using List.reverseRecOn with
  | nil =>
      simp only [List.map_nil, List.take_nil, acceptances, Machine.run_nil, Machine.log_nil]
      exact ⟨_, start, rfl, trivial⟩
  | append_singleton claimants c ih =>
      rw [List.map_append] at accounts
      rw [allocations_append] at affordable
      obtain ⟨s, live, claimed, accepted⟩ := ih
        (fun c' member => placed c' (List.mem_append_left _ member))
        (List.Nodup.of_append_left accounts)
        (injective.mono fun x => Exists.imp fun c' => And.imp_left (List.mem_append_left _))
        (by omega)
      rw [acceptances] at accepted
      simp only [List.map_append, List.map_singleton, acceptances, Machine.run_append,
        Machine.run_singleton, Machine.log_append, Machine.log_singleton, accepted]
      by_cases fits : claimants.length + 1 ≤ capacity bound
      · have before : claimants.take (capacity bound) = claimants :=
          List.take_of_length_le (by omega)
        have after : (claimants ++ [c]).take (capacity bound) = claimants ++ [c] :=
          List.take_of_length_le (by simpa using fits)
        rw [before] at live claimed accepted ⊢
        have fresh : c.nullifier P.sha256 D ∉ claimants.map fun c => c.nullifier P.sha256 D := by
          intro spent
          obtain ⟨c', member, same⟩ := List.mem_map.mp spent
          have account := account_of_nullifier injective
            ⟨c', List.mem_append_left _ member, rfl⟩ ⟨c, by simp, rfl⟩ same
          exact (List.nodup_append.mp accounts).2.2 _ (List.mem_map_of_mem member) _ (by simp) account
        have count : (claimants.map fun c => c.nullifier P.sha256 D).length + 1 ≤ capacity bound := by
          rw [List.length_map]
          exact fits
        have sum : allocations [c] = c.entry.2.toNat := List.sum_singleton ..
        rw [sum] at affordable
        obtain ⟨w', s', step, live', -, claimed'⟩ := live.admits depth (placed c (by simp)) fresh
          (claimed ▸ affordable) (succ_le_capacity_iff.mp count).1
          (roomFor_of_limit limit count (Nat.succ_pos _))
        have entry : acceptedOn D (c.call P.sha256 dep t D)
            (.claimed (c.acceptance P.sha256 dep t D)) = some (_, _) := acceptedOn_claimed rfl
        rw [after, step, entry]
        refine ⟨s', ?_, ?_, ?_⟩
        · rw [List.map_append]
          exact live'
        · rw [claimed', claimed, allocations_append, sum]
        · rw [List.map_append]
          rfl
      · have same : (claimants ++ [c]).take (capacity bound) = claimants.take (capacity bound) :=
          List.take_append_of_le_length (by omega)
        obtain ⟨none_, still⟩ := live.full limit (by simp; omega) (c.call P.sha256 dep t D)
        rw [same, none_]
        exact ⟨s, still, claimed, List.append_nil _⟩

end Capacity

/-- Of any number of claimants in any order, exactly as many get in as the account
    can hold nullifiers, and those are the first; so all of them do if and only if
    they are no more. The counter is then the exact sum of what they are allocated,
    and the distribution holds one nullifier for each. -/
theorem all_claimants_accepted_iff {P : Platform} {dep : Deployment} {d : Nat}
    {t : Perfect Bytes32 d} {supply : U128} {D : AccountId} {who : Caller} {w w' : World}
    {bound : Nat} (limit : ∀ bytes, P.dataRefusal bytes = none ↔ bytes.length ≤ bound)
    (depth : d ≤ 32)
    (created : Creates P dep (t.root (nodeHash P.sha256)) dep.claimCircuitId supply D who w w')
    (claimants : List Claimant) (placed : ∀ c ∈ claimants, c.Placed P.sha256 t)
    (accounts : (claimants.map fun c => c.entry.1).Nodup)
    (injective : Set.InjOn P.sha256 {x | ∃ c ∈ claimants, x = nullifierPreimage c.entry.1 D})
    (affordable : allocations claimants ≤ supply.toNat) :
    let calls := claimants.map fun c => c.call P.sha256 dep t D
    let admitted := claimants.take (capacity bound)
    (acceptances P dep D w' calls =
        claimants.map (fun c => (c.call P.sha256 dep t D, c.acceptance P.sha256 dep t D)) ↔
      claimants.length ≤ capacity bound) ∧
    acceptances P dep D w' calls =
      admitted.map (fun c => (c.call P.sha256 dep t D, c.acceptance P.sha256 dep t D)) ∧
    ∃ s, DistributionState.tryFromSlice ((world P dep).run w' calls D).data = some s ∧
      s.claimed.toNat = allocations admitted ∧
      s.spentNullifiers = admitted.map fun c => deriveNullifier P.sha256 c.entry.1 D := by
  intro calls admitted
  obtain ⟨s, live, claimed, accepted⟩ :=
    run_claimants limit depth created.live placed accounts injective affordable
  refine ⟨?_, accepted, s, live.holds.state, claimed, live.holds.spentNullifiers⟩
  constructor
  · intro all
    have lengths := congrArg List.length (accepted.symm.trans all)
    simp only [List.length_map, List.length_take] at lengths
    omega
  · intro fits
    rw [accepted, List.take_of_length_le fits]

/-- Three claimants of a list of four places, in an account with room for two nullifiers. -/
theorem all_claimants_accepted_two_of_three :
    let H := headHash
    let D : AccountId := Vector.replicate 32 0
    let dep : Deployment := ⟨Vector.replicate 8 1, Vector.replicate 8 2, Vector.replicate 8 0⟩
    let P := Platform.bounded H 164
    let account : UInt8 → Bytes32 := Vector.replicate 32
    let t : Perfect Bytes32 2 := ⟨[leafHash H (account 2) 5, leafHash H (account 3) 6,
      leafHash H (account 4) 7, leafHash H (account 4) 7], rfl⟩
    let a : Claimant := ⟨(account 2, 5), 0, [], by decide, D⟩
    let b : Claimant := ⟨(account 3, 6), 1, [], by decide, D⟩
    let c : Claimant := ⟨(account 4, 7), 2, [], by decide, D⟩
    let calls := fun claimants : List Claimant => claimants.map fun k => k.call H dep t D
    let accepted := fun claimants : List Claimant =>
      claimants.map fun k => (k.call H dep t D, k.acceptance H dep t D)
    ∃ w', Creates P dep (t.root (nodeHash H)) dep.claimCircuitId 18 D .topLevel
        (fun _ => Account.fresh) w' ∧
      acceptances P dep D w' (calls [c, a]) = accepted [c, a] ∧
      acceptances P dep D w' (calls [c, a, b]) = accepted [c, a] ∧
      acceptances P dep D w' (calls [c, a, b]) ≠ accepted [c, a, b] := by
  intro H D dep P account t a b c calls accepted
  let w' := ((world P dep).step (fun _ => Account.fresh)
    (.airdrop .topLevel D (.initializeDistribution (t.root (nodeHash H)) dep.claimCircuitId 18))).2
  have created : Creates P dep (t.root (nodeHash H)) dep.claimCircuitId 18 D .topLevel
      (fun _ => Account.fresh) w' := .of_passed (by decide +kernel)
  clear_value w'
  have placed : ∀ k ∈ [c, a, b], k.Placed H t := by
    intro k member
    simp only [List.mem_cons, List.not_mem_nil, or_false] at member
    rcases member with rfl | rfl | rfl
    · exact ⟨by decide, rfl⟩
    · exact ⟨by decide, rfl⟩
    · exact ⟨by decide, rfl⟩
  have apart : ∀ k ∈ [c, a, b], ∀ l ∈ [c, a, b],
      H (nullifierPreimage k.entry.1 D) = H (nullifierPreimage l.entry.1 D) →
        k.entry.1 = l.entry.1 := by
    decide +kernel
  have injective : Set.InjOn H {x | ∃ k ∈ [c, a, b], x = nullifierPreimage k.entry.1 D} := by
    rintro x ⟨k, hk, rfl⟩ y ⟨l, hl, rfl⟩ same
    rw [apart k hk l hl same]
  have three := all_claimants_accepted_iff (P := P) (fun _ => Platform.bounded_dataRefusal)
    (by decide) created [c, a, b] placed (by decide +kernel) injective (by decide)
  have two := all_claimants_accepted_iff (P := P) (fun _ => Platform.bounded_dataRefusal)
    (by decide) created [c, a] (fun k member => placed k (by grind)) (by decide +kernel)
    (injective.mono fun x => Exists.imp fun k => And.imp_left (by grind)) (by decide)
  refine ⟨w', created, two.1.mpr (by decide), three.2.1, fun all => ?_⟩
  exact absurd (three.1.mp all) (by decide)

/-- Three claimants of a list of four places, in an account with room for two
    nullifiers: the third in turn is locked out, though no two of the strings that are
    hashed collide, the accounts are distinct and the supply is what they are allocated. -/
theorem claimant_locked_out :
    let H := headHash
    let D : AccountId := Vector.replicate 32 0
    let dep : Deployment := ⟨Vector.replicate 8 1, Vector.replicate 8 2, Vector.replicate 8 0⟩
    let P := Platform.bounded H 164
    let account : UInt8 → Bytes32 := Vector.replicate 32
    let leaf2 := leafHash H (account 2) 5
    let leaf3 := leafHash H (account 3) 6
    let leaf4 := leafHash H (account 4) 7
    let t : Perfect Bytes32 2 := ⟨[leaf2, leaf3, leaf4, leaf4], rfl⟩
    let a : Claimant := ⟨(account 2, 5), 0, [], by decide, D⟩
    let b : Claimant := ⟨(account 3, 6), 1, [], by decide, D⟩
    let c : Claimant := ⟨(account 4, 7), 2, [], by decide, D⟩
    let strings := [leafPreimage (account 2) 5, leafPreimage (account 3) 6,
      leafPreimage (account 4) 7, nodePreimage leaf2 leaf3, nodePreimage leaf4 leaf4,
      nodePreimage (nodeHash H leaf2 leaf3) (nodeHash H leaf4 leaf4),
      nullifierPreimage (account 2) D, nullifierPreimage (account 3) D,
      nullifierPreimage (account 4) D, []]
    Set.InjOn H {x | x ∈ strings} ∧ ([c, a, b].map fun k => k.entry.1).Nodup ∧
      allocations [c, a, b] = 18 ∧
      (world P dep).replies (fun _ => Account.fresh)
          [.airdrop .topLevel D
            (.initializeDistribution (t.root (nodeHash H)) dep.claimCircuitId 18),
            c.call H dep t D, a.call H dep t D, b.call H dep t D] =
        [.passed, .claimed (c.acceptance H dep t D), .claimed (a.acceptance H dep t D),
          .refused (.program (.serializationError "state too large: data too big"))] := by
  intro H D dep P account leaf2 leaf3 leaf4 t a b c strings
  have apart : ∀ x ∈ strings, ∀ y ∈ strings, H x = H y → x = y := by decide +kernel
  exact ⟨fun x hx y hy => apart x hx y hy, by decide +kernel, by decide, by decide +kernel⟩

end PrivateAirdrop

import PrivateAirdrop.Library.Contention
import PrivateAirdrop.Concurrency
import PrivateAirdrop.Tally

/-! # Claimants in one another's way

All claims of a distribution rewrite one account, so of the claims proved on one
reading of it only the first to arrive counts, and the others have to be proved
anew. Every round of such attempts serves exactly one claimant, and while the
supply and the account have room for all of them nobody is turned away for good.
-/

namespace PrivateAirdrop

open Library

/-- The requests still open, on a distribution with room for all of them; `total` is
    what was and what will be paid. -/
structure Open (P : Platform) (dep : Deployment) (D : AccountId) (root : Bytes32) (supply : U128)
    (bound total : Nat) (data : List UInt8) (pending : List ClaimRequest) : Prop where
  affordable : total ≤ supply.toNat
  target : ∀ r ∈ pending, r.airdropProgramId = dep.airdropId
  included : ∀ r ∈ pending, r.computedRoot P.sha256 = root
  distinct : (pending.map (·.nullifier P.sha256 D)).Nodup
  holds : ∃ log s, Holds root dep.claimCircuitId supply data log s ∧
    (∀ r ∈ pending, r.nullifier P.sha256 D ∉ log) ∧
    s.claimed.toNat + asked pending = total ∧
    log.length + pending.length ≤ capacity bound

section Rounds

variable {P : Platform} {dep : Deployment} {D : AccountId} {note : AccountWithMetadata}
  {root : Bytes32} {supply : U128} {bound total : Nat} {data : List UInt8} {pending : List ClaimRequest}

theorem claimOnData_of_delivered {r : ClaimRequest} {s : DistributionState} {data' : List UInt8}
    (h : Delivered P dep D data r s data') : claimOnData P dep D note data r = some data' := by
  let dist : AccountWithMetadata := ⟨⟨dep.airdropId, data⟩, false, D⟩
  have delivered : Delivered P dep dist.accountId dist.account.data r s data' := h
  have run : executeClaim P dep dist note r = .ok (some _) :=
    executeClaim_some_iff.mpr ⟨s, data', delivered, rfl⟩
  rw [claimOnData, run]
  rfl

theorem Open.able (limit : ∀ bytes, P.dataRefusal bytes = none ↔ bytes.length ≤ bound)
    (h : Open P dep D root supply bound total data pending) :
    ∀ r ∈ pending, ∃ data', claimOnData P dep D note data r = some data' := by
  intro r open_
  have affordable := h.affordable
  obtain ⟨log, s, holds, fresh, sum, room⟩ := h.holds
  have part : r.allocation.toNat ≤ asked pending :=
    List.single_le_sum (fun _ _ => Nat.zero_le _) _ (List.mem_map.mpr ⟨r, open_, rfl⟩)
  have some_ := List.length_pos_of_mem open_
  have one : log.length + 1 ≤ capacity bound := by omega
  let w : World := World.set (fun _ => Account.fresh) D ⟨dep.airdropId, data⟩
  have here : w D = ⟨dep.airdropId, data⟩ := World.set_same ..
  have live : Live dep root dep.claimCircuitId supply D w log s := by
    constructor
    · rw [here]
    · rw [here]
      exact holds
  obtain ⟨data', delivered⟩ := live.delivers (h.target r open_) (h.included r open_) (fresh r open_)
    (by omega) (succ_le_capacity_iff.mp one).1 (roomFor_of_limit limit one (Nat.succ_pos _))
  rw [here] at delivered
  exact ⟨data', claimOnData_of_delivered delivered⟩

theorem Open.serve (h : Open P dep D root supply bound total data pending) {r : ClaimRequest}
    {rest : List ClaimRequest} (others : pending.Perm (r :: rest)) {data' : List UInt8}
    (computed : claimOnData P dep D note data r = some data') :
    Open P dep D root supply bound total data' rest := by
  have later : ∀ r' ∈ rest, r' ∈ pending :=
    fun r' member => others.mem_iff.mpr (List.mem_cons_of_mem _ member)
  have distinct : (r.nullifier P.sha256 D :: rest.map (·.nullifier P.sha256 D)).Nodup :=
    (others.map _).nodup_iff.mp h.distinct
  obtain ⟨apart, distinct'⟩ := List.nodup_cons.mp distinct
  have affordable := h.affordable
  obtain ⟨log, s, holds, fresh, sum, room⟩ := h.holds
  have parts : asked pending = r.allocation.toNat + asked rest := by
    rw [asked, (others.map _).sum_eq, List.map_cons, List.sum_cons, asked]
  have count := others.length_eq
  have below := supply.isLt
  obtain ⟨-, holds'⟩ := holds.advance computed
  refine ⟨affordable, fun r' member => h.target r' (later r' member),
    fun r' member => h.included r' (later r' member), distinct', _, _, holds', ?_, ?_, ?_⟩
  · intro r' member spent
    rcases List.mem_append.mp spent with old | new
    · exact fresh r' (later r' member) old
    · exact apart (List.mem_map.mpr ⟨r', member, List.mem_singleton.mp new⟩)
  · have exact_ : (s.claimed + r.allocation).toNat = s.claimed.toNat + r.allocation.toNat := by
      rw [BitVec.toNat_add]
      omega
    rw [DistributionState.record_claimed, ClaimRequest.journal_allocation, exact_]
    omega
  · rw [List.length_cons] at count
    rw [List.length_append, List.length_singleton]
    omega

end Rounds

/-- Claimants contend for a new distribution, in rounds of attempts that read it at
    one time and arrive in any order, with retries. If the supply and the account
    suffice for all of them, every round serves one claimant and no more; what is
    recorded are the claims of those served, once each; and all are served exactly
    when there were as many rounds as claimants. -/
theorem contended_claims {P : Platform} {dep : Deployment} {d : Nat} {t : Perfect Bytes32 d}
    {supply : U128} {note a account : AccountWithMetadata} {bound : Nat}
    (limit : ∀ bytes, P.dataRefusal bytes = none ↔ bytes.length ≤ bound) (depth : d ≤ 32)
    (created : initializeDistribution P a (t.root (nodeHash P.sha256)) dep.claimCircuitId supply =
      .ok ⟨[account], []⟩)
    (claimants : List Claimant) (placed : ∀ c ∈ claimants, c.Placed P.sha256 t)
    (accounts : (claimants.map fun c => c.entry.1).Nodup)
    (injective : Set.InjOn P.sha256
      {x | ∃ c ∈ claimants, x = nullifierPreimage c.entry.1 account.accountId})
    (affordable : allocations claimants ≤ supply.toNat)
    (fits : claimants.length ≤ capacity bound)
    {rounds : List (Round ClaimRequest)} {left : List ClaimRequest}
    (contend : Rounds (claimants.map fun c => c.request P.sha256 dep t) rounds left) :
    let D := account.accountId
    let start : Net (List UInt8) ClaimRequest := ⟨account.account.data, []⟩
    let events := rounds.flatMap Round.events
    let net := (optimistic (claimOnData P dep D note)).run start events
    let history := applied (claimOnData P dep D note) start events
    history.length = rounds.length ∧
    (claimants.map fun c => c.request P.sha256 dep t).Perm
      (history.map Transaction.request ++ left) ∧
    (left = [] ↔ rounds.length = claimants.length) ∧
    net.flight = [] ∧ ∃ s, DistributionState.tryFromSlice net.live = some s ∧
      s.spentNullifiers = history.map (fun t => t.request.nullifier P.sha256 D) ∧
      s.claimed.toNat = asked (history.map Transaction.request) := by
  intro D start events net history
  let requests := claimants.map fun c => c.request P.sha256 dep t
  obtain ⟨data, stored, same⟩ := initializeDistribution_ok_iff.mp created
  have there : account = a.withData data := (List.cons.inj (SpelOutput.mk.inj same).1).1
  have begin_ : Holds (t.root (nodeHash P.sha256)) dep.claimCircuitId supply start.live []
      (.initial (t.root (nodeHash P.sha256)) dep.claimCircuitId supply) := by
    show Holds _ _ _ account.account.data [] _
    rw [there]
    exact holds_initial stored
  have nullifiers : (requests.map (·.nullifier P.sha256 D)).Nodup := by
    rw [List.map_map]
    apply List.Nodup.map_on _ (List.Nodup.of_map _ accounts)
    intro c member c' member' equal
    have account := account_of_nullifier injective ⟨c, member, rfl⟩ ⟨c', member', rfl⟩ equal
    exact List.inj_on_of_nodup_map accounts member member' account
  have total : asked requests = allocations claimants := by
    rw [asked, allocations, List.map_map]
    rfl
  have open_ : Open P dep D (t.root (nodeHash P.sha256)) supply bound (allocations claimants)
      start.live requests := by
    refine ⟨affordable, ?_, ?_, nullifiers, [], _, begin_, fun _ _ => List.not_mem_nil, ?_, ?_⟩
    · intro r member
      obtain ⟨c, -, rfl⟩ := List.mem_map.mp member
      rfl
    · intro r member
      obtain ⟨c, asks, rfl⟩ := List.mem_map.mp member
      exact Claimant.computedRoot_request depth (placed c asks)
    · rw [total]
      exact Nat.zero_add _
    · simpa [requests] using fits
  have grows : ∀ data r data', claimOnData P dep D note data r = some data' →
      data.length < data'.length := claimOnData_grows
  obtain ⟨live, run, after, count, served⟩ := run_rounds grows
    (fun _ _ h => h.able limit) (fun _ _ _ _ _ h others computed => h.serve others computed)
    open_ contend
  have nothing : start.Computed (claimOnData P dep D note) := by
    intro sent member
    cases member
  have follows : Follows (claimOnData P dep D note) start.live history net.live :=
    run_follows nothing events
  obtain ⟨holds, -⟩ := begin_.follows follows
  have now : net = ⟨live, []⟩ := run
  rw [now] at holds ⊢
  obtain ⟨log, s, holds', -, sum, -⟩ := after.holds
  cases holds'.state.symm.trans holds.state
  have all := contend.length_eq
  have parts : asked requests = asked (history.map Transaction.request) + asked left := by
    rw [asked, (served.map _).sum_eq, List.map_append, List.sum_append]
    rfl
  refine ⟨count, served, ?_, rfl, _, holds.state, holds.spentNullifiers, by omega⟩
  rw [List.length_map] at all
  rw [← List.length_eq_zero_iff]
  omega

/-- Two claimants who both try; the second arrives first, and the first tries again. -/
theorem contended_claims_two :
    let H : Sha256 := fun x => Vector.ofFn fun i => x.getD i.val 0
    let zeros : Bytes32 := Vector.replicate 32 0
    let ones : Bytes32 := Vector.replicate 32 1
    let dep : Deployment := ⟨Vector.replicate 8 1, Vector.replicate 8 2, Vector.replicate 8 0⟩
    let P := Platform.bounded H 1000
    let t : Perfect Bytes32 1 := ⟨[leafHash H zeros 5, leafHash H ones 7], rfl⟩
    let s := DistributionState.initial (t.root (nodeHash H)) dep.claimCircuitId 12
    let account : AccountWithMetadata := ⟨⟨dep.airdropId, s.header ++ [0, 0, 0, 0]⟩, true, zeros⟩
    let first : Claimant := ⟨(zeros, 5), 0, [], by decide, zeros⟩
    let second : Claimant := ⟨(ones, 7), 1, [], by decide, zeros⟩
    let both := [first, second].map fun c => c.request H dep t
    let rounds : List (Round ClaimRequest) := [⟨both, [1, 0]⟩, ⟨[first.request H dep t], [0]⟩]
    let net := (optimistic (claimOnData P dep account.accountId account)).run
      ⟨account.account.data, []⟩ (rounds.flatMap Round.events)
    let history := applied (claimOnData P dep account.accountId account)
      ⟨account.account.data, []⟩ (rounds.flatMap Round.events)
    history.length = 2 ∧ both.Perm (history.map Transaction.request ++ []) ∧
    (([] : List ClaimRequest) = [] ↔ 2 = 2) ∧
    net.flight = [] ∧ ∃ s, DistributionState.tryFromSlice net.live = some s ∧
      s.spentNullifiers =
        history.map (fun t => t.request.nullifier P.sha256 account.accountId) ∧
      s.claimed.toNat = asked (history.map Transaction.request) := by
  intro H zeros ones dep P t s account first second both rounds net history
  have created : initializeDistribution P ⟨⟨dep.airdropId, []⟩, true, zeros⟩
      (t.root (nodeHash H)) dep.claimCircuitId 12 = .ok ⟨[account], []⟩ := by decide +kernel
  have placed : ∀ c ∈ [first, second], c.Placed H t := by
    intro c member
    rcases List.mem_pair.mp member with rfl | rfl
    · exact ⟨by decide, rfl⟩
    · exact ⟨by decide, rfl⟩
  have apart : H (nullifierPreimage zeros zeros) ≠ H (nullifierPreimage ones zeros) := by
    decide +kernel
  have injective : Set.InjOn H {x | ∃ c ∈ [first, second], x = nullifierPreimage c.entry.1 zeros} := by
    rintro x ⟨c, member, rfl⟩ y ⟨c', member', rfl⟩ same
    rcases List.mem_pair.mp member with rfl | rfl
    · rcases List.mem_pair.mp member' with rfl | rfl
      · rfl
      · exact absurd same apart
    · rcases List.mem_pair.mp member' with rfl | rfl
      · exact absurd same.symm apart
      · rfl
  have contend : Rounds both rounds [] := by
    refine .next (by simp [both, Delivers]) (fun _ => id) rfl (.swap _ _ []) ?_
    exact .next (by simp [Delivers]) (fun _ => id) rfl (.refl _) (.done [])
  exact @contended_claims P dep 1 t 12 account ⟨⟨dep.airdropId, []⟩, true, zeros⟩ account 1000
    (fun _ => Platform.bounded_dataRefusal) (by omega) created [first, second] placed
    (by decide) injective (by decide) (by decide) rounds [] contend

end PrivateAirdrop

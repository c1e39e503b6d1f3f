import Mathlib.Data.List.Dedup
import PrivateAirdrop.ChainCommands
import PrivateAirdrop.Tally

/-! # A claimant who tries again

A claim is lost when another is accepted between the reading it was proved on and its
arrival; whoever made it has then used up an entry of the list. So against anybody,
in whatever order, someone who runs `chain claim` again after each loss is served
before there are as many losses as accounts.
-/

namespace PrivateAirdrop

open Library
open Library.Alphabet (characters)

/-- One try of `chain claim`: the note it draws, what others call while it is proved
    and on its way, and what they call after it has arrived. -/
structure Try where
  claimerNote : AccountId
  meanwhile : List Call
  after : List Call

def Try.others (t : Try) : List Call := t.meanwhile ++ t.after

/-- The calls of a try that starts in a world. -/
def Try.calls (P : Platform) (dep : Deployment) (args : ChainClaimArgs) (w : World) (t : Try) :
    List Call :=
  let arrives := (chainClaim P dep w t.claimerNote args).filter fun sent =>
    sent.Applies ((world P dep).run w t.meanwhile)
  t.meanwhile ++ (arrives.map Sent.call).toList ++ t.after

/-- The calls of one try after the other. -/
def triesCalls (P : Platform) (dep : Deployment) (args : ChainClaimArgs) :
    World → List Try → List Call
  | _, [] => []
  | w, t :: tries =>
    let calls := t.calls P dep args w
    calls ++ triesCalls P dep args ((world P dep).run w calls) tries

/-- The accounts that are on a list. -/
def accountsOf {d : Nat} (L : Perfect Entry d) : List Bytes32 := (L.items.map Prod.fst).dedup

/-- What a list allocates, an entry that is repeated counted once. -/
def allocatedBy {d : Nat} (L : Perfect Entry d) : Nat := allocated L.items.dedup

section Tries

variable {P : Platform} {dep : Deployment} {D : AccountId} {d bound : Nat} {L : Perfect Entry d}
  {supply : U128} {w : World} {paid : List (Call × Acceptance)} {requests : List ClaimRequest}
  {s : DistributionState} {c : Claimant} {args : ChainClaimArgs} {t : Try}

/-- While a listed account has not claimed, there is an account and its allocation
    left beside what was paid. -/
theorem Tally.left (tally : Tally P dep D L supply w paid requests s)
    (clean : Clean P.sha256 D L requests) {e : Entry} (listed : e ∈ L.items)
    (unspent : deriveNullifier P.sha256 e.1 D ∉ requests.map (·.nullifier P.sha256 D)) :
    requests.length + 1 ≤ (accountsOf L).length ∧ asked requests + e.2.toNat ≤ allocatedBy L := by
  have members : ∀ r ∈ requests, r.entry ∈ L.items := by
    intro r member
    rw [← tally.entries clean r member]
    exact L.get_mem _
  have apart : e.1 ∉ requests.map ClaimRequest.accountId := by
    intro claimed
    obtain ⟨r, member, same⟩ := List.mem_map.mp claimed
    exact unspent (List.mem_map.mpr ⟨r, member, same ▸ rfl⟩)
  have accounts : (requests.map ClaimRequest.accountId ++ [e.1]).Nodup :=
    List.nodup_append.mpr ⟨tally.accounts, List.nodup_singleton _, by
      rintro a here b there rfl
      exact apart (List.mem_singleton.mp there ▸ here)⟩
  have entries : (requests.map ClaimRequest.entry ++ [e]).Nodup := by
    apply List.Nodup.of_map Prod.fst
    rw [List.map_append, List.map_map]
    exact accounts
  constructor
  · have inside : (requests.map ClaimRequest.accountId ++ [e.1]).Subperm (accountsOf L) := by
      apply accounts.subperm
      intro a member
      apply List.mem_dedup.mpr
      rcases List.mem_append.mp member with old | new
      · obtain ⟨r, asked, rfl⟩ := List.mem_map.mp old
        exact List.mem_map.mpr ⟨r.entry, members r asked, rfl⟩
      · rw [List.mem_singleton.mp new]
        exact List.mem_map_of_mem listed
    simpa using inside.length_le
  · have inside : (requests.map ClaimRequest.entry ++ [e]).Subperm L.items.dedup := by
      apply entries.subperm
      intro e' member
      apply List.mem_dedup.mpr
      rcases List.mem_append.mp member with old | new
      · obtain ⟨r, asked, rfl⟩ := List.mem_map.mp old
        exact members r asked
      · rw [List.mem_singleton.mp new]
        exact listed
    obtain ⟨chosen, same, sub⟩ := inside
    have total := (sub.map fun e : Entry => e.2.toNat).sum_le_sum fun _ _ => Nat.zero_le _
    rw [(same.map _).sum_eq, List.map_append, List.sum_append, ← allocated, ← asked_eq] at total
    exact total

theorem Tally.serves (tally : Tally P dep D L supply w paid requests s)
    (clean : Clean P.sha256 D L requests)
    (limit : ∀ bytes, P.dataRefusal bytes = none ↔ bytes.length ≤ bound) (depth : d ≤ 32)
    (affordable : allocatedBy L ≤ supply.toNat) (fits : (accountsOf L).length ≤ capacity bound)
    (inside : c.position < 2 ^ d) (listed : L.get c.position = c.entry)
    (unspent : c.nullifier P.sha256 D ∉ requests.map (·.nullifier P.sha256 D)) :
    ∃ data', Delivered P dep D (w D).data
      (c.request P.sha256 dep ((hashing P.sha256).leaves L)) s data' := by
  have member : c.entry ∈ L.items := by
    rw [← listed]
    exact L.get_mem _
  obtain ⟨room, supplied⟩ := tally.left clean member unspent
  have placed : c.Placed P.sha256 ((hashing P.sha256).leaves L) := by
    refine ⟨inside, ?_⟩
    rw [Hashing.leaves, Perfect.map_get, listed]
    rfl
  have count : (requests.map (·.nullifier P.sha256 D)).length + 1 ≤ capacity bound := by
    rw [List.length_map]
    omega
  have small := supply.isLt
  have counter := tally.claimed
  rw [Nat.mod_eq_of_lt (by omega)] at counter
  apply tally.live.delivers rfl (Claimant.computedRoot_request depth placed) unspent ?_
    (succ_le_capacity_iff.mp count).1 (roomFor_of_limit limit count (Nat.succ_pos _))
  show s.claimed.toNat + c.entry.2.toNat ≤ supply.toNat
  omega

/-- A try that does not serve the claimant has let another claim through. -/
theorem Tally.attempt (tally : Tally P dep D L supply w paid requests s)
    (limit : ∀ bytes, P.dataRefusal bytes = none ↔ bytes.length ≤ bound) (depth : d ≤ 32)
    (affordable : allocatedBy L ≤ supply.toNat) (fits : (accountsOf L).length ≤ capacity bound)
    (inside : c.position < 2 ^ d) (listed : L.get c.position = c.entry) (short : args.Short)
    (asks : args.Asks D (c.request P.sha256 dep ((hashing P.sha256).leaves L)))
    (truthful : ∀ call ∈ t.others, call.Truthful dep) :
    ∃ more s', Tally P dep D L supply ((world P dep).run w (t.calls P dep args w))
        (paid ++ acceptances P dep D w (t.calls P dep args w)) (requests ++ more) s' ∧
      (Clean P.sha256 D L (requests ++ more) →
        c.nullifier P.sha256 D ∉ (requests ++ more).map (·.nullifier P.sha256 D) → more ≠ []) := by
  obtain ⟨more₁, s₁, done₁, unmoved⟩ := tally.run fun call member =>
    truthful call (List.mem_append_left _ member)
  let w₁ := (world P dep).run w t.meanwhile
  let own := (((chainClaim P dep w t.claimerNote args).filter fun sent =>
    sent.Applies w₁).map Sent.call).toList
  have mine : ∀ call ∈ own, call.Truthful dep := by
    intro call member
    obtain ⟨sent, arrived, rfl⟩ := Option.map_eq_some_iff.mp (Option.mem_toList.mp member)
    obtain ⟨did, r, -, -, rfl⟩ := (chainClaim_some_iff short).mp (Option.filter_eq_some_iff.mp arrived).1
    trivial
  obtain ⟨more₂, s₂, done₂, -⟩ := done₁.run mine
  obtain ⟨more₃, s₃, done₃, -⟩ := done₂.run fun call member =>
    truthful call (List.mem_append_right _ member)
  refine ⟨more₁ ++ more₂ ++ more₃, s₃, ?_, ?_⟩
  · simpa only [Try.calls, acceptances, Machine.run_append, Machine.log_append, List.append_assoc]
      using done₃
  · intro clean unspent nothing
    obtain ⟨both, -⟩ := List.append_eq_nil_iff.mp nothing
    obtain ⟨rfl, rfl⟩ := List.append_eq_nil_iff.mp both
    rw [nothing, List.append_nil] at clean unspent
    obtain ⟨data', delivered⟩ :=
      tally.serves clean limit depth affordable fits inside listed unspent
    let request := c.request P.sha256 dep ((hashing P.sha256).leaves L)
    let sent : Sent := ⟨.submitClaim D t.claimerNote request, some (w D)⟩
    have sends : chainClaim P dep w t.claimerNote args = some sent :=
      (chainClaim_some_iff short).mpr ⟨D, request, asks, ⟨s, data', delivered⟩, rfl⟩
    have still : w₁ D = w D := unmoved rfl
    have applies : sent.Applies w₁ := by simpa [sent, Sent.Applies, Call.address] using still
    have arrived : own = [sent.call] := by
      simp only [own, sends, Option.filter_some, decide_eq_true applies, if_true, Option.map_some,
        Option.toList_some]
    rw [← still] at delivered
    obtain ⟨acc, s', -, served⟩ := done₁.delivered delivered t.claimerNote
    rw [arrived] at done₂
    have count := served.length_eq done₂
    simp at count

theorem Tally.tries (tally : Tally P dep D L supply w paid requests s)
    (limit : ∀ bytes, P.dataRefusal bytes = none ↔ bytes.length ≤ bound) (depth : d ≤ 32)
    (affordable : allocatedBy L ≤ supply.toNat) (fits : (accountsOf L).length ≤ capacity bound)
    (inside : c.position < 2 ^ d) (listed : L.get c.position = c.entry) (short : args.Short)
    (asks : args.Asks D (c.request P.sha256 dep ((hashing P.sha256).leaves L)))
    {tries : List Try} (truthful : ∀ t ∈ tries, ∀ call ∈ t.others, call.Truthful dep) :
    ∃ more s', Tally P dep D L supply ((world P dep).run w (triesCalls P dep args w tries))
        (paid ++ acceptances P dep D w (triesCalls P dep args w tries)) (requests ++ more) s' ∧
      (Clean P.sha256 D L (requests ++ more) →
        c.nullifier P.sha256 D ∉ (requests ++ more).map (·.nullifier P.sha256 D) →
        tries.length ≤ more.length) := by
  induction tries generalizing w paid requests s with
  | nil =>
      refine ⟨[], s, ?_, fun _ _ => Nat.le_refl _⟩
      simpa [triesCalls, acceptances] using tally
  | cons t tries ih =>
      obtain ⟨first, s₁, done₁, gained⟩ := tally.attempt limit depth affordable fits
        inside listed short asks (truthful t List.mem_cons_self)
      obtain ⟨later, s', done, gain⟩ := ih done₁ fun t' member =>
        truthful t' (List.mem_cons_of_mem _ member)
      refine ⟨first ++ later, s', ?_, ?_⟩
      · simpa only [triesCalls, acceptances, Machine.run_append, Machine.log_append,
          List.append_assoc] using done
      · intro clean unspent
        rw [← List.append_assoc] at clean unspent
        have before : c.nullifier P.sha256 D ∉ (requests ++ first).map (·.nullifier P.sha256 D) := by
          intro spent
          rw [List.map_append] at unspent
          exact unspent (List.mem_append_left _ spent)
        have one := List.length_pos_iff.mpr (gained clean.left before)
        have rest := gain clean unspent
        rw [List.length_cons, List.length_append]
        omega

theorem mem_triesCalls {r : ClaimRequest} (short : args.Short) (asks : args.Asks D r)
    {tries : List Try} {call : Call} (member : call ∈ triesCalls P dep args w tries) :
    ∃ t ∈ tries, call ∈ t.others ∨ call = .submitClaim D t.claimerNote r := by
  induction tries generalizing w with
  | nil => cases member
  | cons t tries ih =>
      rcases List.mem_append.mp member with now | later
      · refine ⟨t, List.mem_cons_self, ?_⟩
        rcases List.mem_append.mp now with early | after
        · rcases List.mem_append.mp early with others | own
          · exact .inl (List.mem_append_left _ others)
          · obtain ⟨sent, arrived, rfl⟩ := Option.map_eq_some_iff.mp (Option.mem_toList.mp own)
            obtain ⟨D', r', asks', -, rfl⟩ :=
              (chainClaim_some_iff short).mp (Option.filter_eq_some_iff.mp arrived).1
            obtain ⟨rfl, rfl⟩ := asks.unique asks'
            exact .inr rfl
        · exact .inl (List.mem_append_right _ after)
      · obtain ⟨t', inside, found⟩ := ih later
        exact ⟨t', List.mem_cons_of_mem _ inside, found⟩

end Tries

/-- Someone who has an entry of the list and tries again until served has been served
    after as many tries as the list has accounts that had not claimed before, however
    others time what they call; or two of the strings hashed for a claim and for the
    tree collide. -/
theorem claim_within_tries {P : Platform} {dep : Deployment} {D : AccountId} {d bound : Nat}
    {L : Perfect Entry d} {supply : U128} {who : Caller} {w w' : World} {c : Claimant}
    {args : ChainClaimArgs} {earlier : List Call} {tries : List Try}
    (created : Creates P dep (merkleRoot P.sha256 L) dep.claimCircuitId supply D who w w')
    (limit : ∀ bytes, P.dataRefusal bytes = none ↔ bytes.length ≤ bound) (depth : d ≤ 32)
    (affordable : allocatedBy L ≤ supply.toNat) (fits : (accountsOf L).length ≤ capacity bound)
    (inside : c.position < 2 ^ d) (listed : L.get c.position = c.entry) (short : args.Short)
    (asks : args.Asks D (c.request P.sha256 dep ((hashing P.sha256).leaves L)))
    (truthful : ∀ call ∈ earlier ++ tries.flatMap Try.others, call.Truthful dep) :
    let calls := earlier ++ triesCalls P dep args ((world P dep).run w' earlier) tries
    ∃ requests s,
      List.Forall₂ (Backed P.sha256 dep D L) (acceptances P dep D w' calls) requests ∧
      DistributionState.tryFromSlice ((world P dep).run w' calls D).data = some s ∧
      (((accountsOf L).length ≤ (acceptances P dep D w' earlier).length + tries.length →
          deriveNullifier P.sha256 c.entry.1 D ∈ s.spentNullifiers) ∨
        ∃ r ∈ requests,
          Collision P.sha256 ((hashing P.sha256).treeInputs L ∪ r.inputs P.sha256 D)) := by
  intro calls
  obtain ⟨before, s₀, done₀, -⟩ := created.tally.run fun call member =>
    truthful call (List.mem_append_left _ member)
  obtain ⟨more, s, done, gain⟩ := done₀.tries limit depth affordable fits inside listed short asks
    fun t member call other =>
      truthful call (List.mem_append_right _ (List.mem_flatMap.mpr ⟨t, member, other⟩))
  simp only [List.nil_append] at done₀ done gain
  have paid : acceptances P dep D w' calls = acceptances P dep D w' earlier ++
      acceptances P dep D ((world P dep).run w' earlier)
        (triesCalls P dep args ((world P dep).run w' earlier) tries) := by
    simp only [calls, acceptances, Machine.log_append]
  have final : (world P dep).run w' calls = (world P dep).run ((world P dep).run w' earlier)
      (triesCalls P dep args ((world P dep).run w' earlier) tries) := by
    simp only [calls, Machine.run_append]
  rw [paid, final]
  refine ⟨before ++ more, s, done.backed, done.live.holds.state, ?_⟩
  by_cases clean : Clean P.sha256 D L (before ++ more)
  · refine .inl fun enough => ?_
    rw [done.live.holds.spentNullifiers]
    by_contra unspent
    have member : c.entry ∈ L.items := by
      rw [← listed]
      exact L.get_mem _
    have room := (done.left clean member unspent).1
    have lost := gain clean unspent
    have served := done₀.backed.length_eq
    rw [List.length_append] at room
    omega
  · simp only [Clean, not_forall, not_not] at clean
    obtain ⟨r, member, collides⟩ := clean
    exact .inr ⟨r, member, collides⟩

/-- The first of two accounts, whose first try the second gets in before. -/
theorem claim_within_tries_two :
    let H := headHash
    let D : AccountId := Vector.replicate 32 0
    let dep : Deployment := ⟨Vector.replicate 8 1, Vector.replicate 8 2, Vector.replicate 8 0⟩
    let P := Platform.bounded H 1000
    let e : Entry := (Vector.replicate 32 2, 5)
    let e' : Entry := (Vector.replicate 32 3, 7)
    let L : Perfect Entry 1 := ⟨[e, e'], rfl⟩
    let t := (hashing H).leaves L
    let hex := fun node : Bytes32 => characters.hexEncode node.toList
    let args : ChainClaimArgs := {
      programId := characters.hexEncode (dep.airdropId.toList.flatMap U32.toLeBytes)
      distributorId := hex D
      accountId := hex e.1
      allocation := 5
      leafIndex := 0
      merklePath := hex (leafHash H e'.1 e'.2)
      recipientNote := [] }
    let c' : Claimant := ⟨e', 1, [], by decide, D⟩
    let tries : List Try := [⟨D, [c'.call H dep t D], []⟩, ⟨D, [], []⟩]
    ∃ w' s, Creates P dep (merkleRoot H L) dep.claimCircuitId 12 D .topLevel
        (fun _ => Account.fresh) w' ∧
      DistributionState.tryFromSlice ((world P dep).run w' (triesCalls P dep args w' tries) D).data =
        some s ∧
      deriveNullifier H e.1 D ∈ s.spentNullifiers := by
  intro H D dep P e e' L t hex args c' tries
  let c : Claimant := ⟨e, 0, [], by decide, D⟩
  let w' := ((world P dep).step (fun _ => Account.fresh)
    (.airdrop .topLevel D (.initializeDistribution (merkleRoot H L) dep.claimCircuitId 12))).2
  have created : Creates P dep (merkleRoot H L) dep.claimCircuitId 12 D .topLevel
      (fun _ => Account.fresh) w' := .of_passed (by decide +kernel)
  clear_value w'
  have short : args.Short := ⟨by decide +kernel, by decide⟩
  have parsed : ∀ node, parseHex32 (hex node) = .ok node :=
    fun node => parseHex32_ok_iff.mpr (characters.lower_hexEncode _)
  have asks : args.Asks D (c.request H dep t) :=
    ⟨parseProgramId_hexEncode _, parsed D, parsed e.1, rfl, rfl, by decide +kernel, rfl⟩
  have strings : ∀ x ∈ pairStrings H D e e', ∀ y ∈ pairStrings H D e e', H x = H y → x = y := by
    decide +kernel
  obtain ⟨requests, s, backed, state, served⟩ := @claim_within_tries P dep D 1 1000 L 12 .topLevel
    (fun _ => Account.fresh) w' c args [] tries created (fun _ => Platform.bounded_dataRefusal)
    (by decide) (by decide +kernel) (by decide +kernel) (by decide) rfl short asks
    (by simp [tries, Try.others, Claimant.call, Call.Truthful])
  rw [List.nil_append] at backed
  rw [List.nil_append] at state
  refine ⟨w', s, created, state, ?_⟩
  rcases served with enough | ⟨r, asked, collides⟩
  · have two : (accountsOf L).length ≤ 0 + 2 := by decide +kernel
    exact enough two
  · obtain ⟨g, member, back⟩ := exists_of_forall₂ backed asked
    obtain ⟨note, submitted⟩ := back.submitted
    obtain ⟨try_, inside, found⟩ := mem_triesCalls short asks (call_of_acceptance g member)
    have hashed : r.inputs H D ⊆ {x | x ∈ pairStrings H D e e'} := by
      rw [submitted] at found
      rcases found with others | own
      · have second : r = c'.request H dep t := by
          simp only [tries, List.mem_cons, List.not_mem_nil, or_false] at inside
          rcases inside with rfl | rfl
          · simp only [Try.others, List.append_nil, List.mem_singleton] at others
            exact (Call.submitClaim.inj others).2.2
          · cases others
        rw [second]
        exact Claimant.pair_inputs rfl (by decide) rfl rfl
      · rw [(Call.submitClaim.inj own).2.2]
        exact Claimant.pair_inputs rfl (by decide) rfl rfl
    have all : (hashing H).treeInputs L ∪ r.inputs H D ⊆ {x | x ∈ pairStrings H D e e'} :=
      Set.union_subset (treeInputs_pair D rfl) hashed
    apply absurd collides
    exact not_collision_iff.mpr fun x hx y hy => strings x (all hx) y (all hy)

end PrivateAirdrop

import PrivateAirdrop.EvidenceRun

/-! # How far the script gets

On a chain where nobody touches its distribution and what it sends arrives while it
still looks, the script gets as far as the tree builder and the supply allow: it
pays every claimant exactly if there are up to sixteen of them, or thirty-two. For
other numbers there is no tree, or the supply ends at the forty-fifth claim.
-/

namespace PrivateAirdrop

open Library
open Library.Alphabet (characters)

namespace Evidence

open Script

/-- This look is the last one, or there is none left. -/
def Stage.lastLook : Stage → Bool
  | .initializing _ looks => looks ≤ 1
  | .landing _ _ looks => looks ≤ 1
  | .start => false
  | .claiming _ => false
  | .finished => false
  | .failed => false

/-- The nullifiers of the first `k` claimants. -/
def spent (H : Sha256) (distTag : List Char) (D : AccountId) (k : Nat) : List Bytes32 :=
  (List.range k).map fun i => deriveNullifier H (claimant H distTag i).1 D

/-- The first `k` claimants have been paid, and nobody else. -/
def Served (P : Platform) (dep : Deployment) (s : Settings) {d : Nat} (L : Perfect Entry d)
    (w : World) (k : Nat) : Prop :=
  ∃ st, Live dep (merkleRoot P.sha256 L) dep.claimCircuitId 100000 s.distributor w
      (spent P.sha256 s.tag s.distributor k) st ∧
    st.claimed.toNat = 50 * k * (k + 1)

section Served

variable {P : Platform} {dep : Deployment} {s : Settings} {n d k : Nat} {L : Perfect Entry d}
  {w w' : World}

theorem Served.congr (served : Served P dep s L w k)
    (same : w' s.distributor = w s.distributor) : Served P dep s L w' k := by
  obtain ⟨st, live, claimed⟩ := served
  refine ⟨st, ⟨?_, ?_⟩, claimed⟩
  · rw [same]
    exact live.owned
  · rw [same]
    exact live.holds

theorem Served.count (served : Served P dep s L w k) : nullifierCount (s.state w) = k := by
  obtain ⟨st, live, -⟩ := served
  rw [Settings.state, nullifierCount_live live, spent, List.length_map, List.length_range]

/-- The request of the `k`-th claimant. -/
def Settings.request (s : Settings) (H : Sha256) (dep : Deployment) {d : Nat} (L : Perfect Entry d)
    (k : Nat) : ClaimRequest :=
  (s.claimantOf H k).request H dep ((hashing H).leaves L)

theorem Settings.request_included {H : Sha256} (tree : Tree H s.tag n L) (inside : k < n)
    (small : k < 2 ^ 32) : (s.request H dep L k).computedRoot H = merkleRoot H L := by
  have index : (UInt32.ofNat k).toNat = k := UInt32.toNat_ofNat_of_lt' small
  have leaf : ((hashing H).leaves L).get k =
      leafHash H (claimant H s.tag k).1 (claimant H s.tag k).2 := by
    rw [Hashing.leaves, Perfect.map_get, tree.placed k inside]
    rfl
  rw [ClaimRequest.computedRoot, merkleWalk_eq]
  simp only [Settings.request, Claimant.request, Settings.claimantOf, index, ← leaf]
  exact walk_siblings (nodeHash H) ((hashing H).leaves L) k

theorem claimant_allocation {H : Sha256} {distTag : List Char} (bounded : 100 * n < 2 ^ 128)
    (inside : k < n) : (claimant H distTag k).2.toNat = 100 * (k + 1) := by
  rw [claimant, BitVec.toNat_ofNat]
  exact Nat.mod_eq_of_lt (by omega)

theorem Served.delivers (served : Served P dep s L w k) (tree : Tree P.sha256 s.tag n L)
    (inside : k < n) (lasts : k < 44) (room : P.RoomFor (k + 1))
    (distinct : (spent P.sha256 s.tag s.distributor n).Nodup) :
    ∃ st data', Delivered P dep s.distributor (w s.distributor).data (s.request P.sha256 dep L k)
        st data' ∧
      ∃ w', (world P dep).step w (.submitClaim s.distributor s.claimerNote
          (s.request P.sha256 dep L k)) =
        (.claimed ⟨s.distributor, .program dep.claimCircuitId,
          journalBytes ((s.request P.sha256 dep L k).journal P.sha256 (merkleRoot P.sha256 L)
            s.distributor), (s.request P.sha256 dep L k).recipientNote⟩, w') ∧
        Served P dep s L w' (k + 1) := by
  obtain ⟨st, live, claimed⟩ := served
  have allocation := @claimant_allocation _ _ P.sha256 s.tag tree.bounded inside
  have square : k * (k + 1) ≤ 43 * 44 := Nat.mul_le_mul (by omega) (by omega)
  rw [Nat.mul_assoc] at claimed
  have included := @Settings.request_included dep s _ _ _ _ P.sha256 tree inside (by omega)
  have more : spent P.sha256 s.tag s.distributor (k + 1) =
      spent P.sha256 s.tag s.distributor k ++
        [(s.request P.sha256 dep L k).nullifier P.sha256 s.distributor] := by
    rw [spent, List.range_succ, List.map_append]
    rfl
  have length : (spent P.sha256 s.tag s.distributor k).length = k := by
    rw [spent, List.length_map, List.length_range]
  have new : (s.request P.sha256 dep L k).nullifier P.sha256 s.distributor ∉
      spent P.sha256 s.tag s.distributor k := by
    have part : (spent P.sha256 s.tag s.distributor (k + 1)).Nodup := by
      apply List.Nodup.sublist _ distinct
      exact (List.range_sublist.mpr inside).map _
    rw [more] at part
    exact fun old => List.disjoint_of_nodup_append part old (List.mem_singleton_self _)
  have supply : (100000 : U128).toNat = 100000 := rfl
  have asks : (s.request P.sha256 dep L k).allocation.toNat = 100 * (k + 1) := allocation
  obtain ⟨data', delivered⟩ := live.delivers (r := s.request P.sha256 dep L k) rfl included new
    (by omega) (by omega) (by rwa [length])
  obtain ⟨w', step, live'⟩ := live.delivered delivered s.claimerNote
  refine ⟨st, data', delivered, w', step, _, more ▸ live', ?_⟩
  rw [DistributionState.record_claimed, ClaimRequest.journal_allocation, BitVec.toNat_add]
  have sum : 50 * (k + 1) * (k + 1 + 1) = 50 * (k * (k + 1)) + 100 * (k + 1) := by ring
  rw [sum]
  omega

/-- When it is exhausted, nobody is: 100 for the first, 200 for the next and so on
    make 99000 for forty-four claimants, and 4500 do not fit. -/
theorem Served.exhausted (served : Served P dep s L w 44) (bounded : 100 * n < 2 ^ 128)
    (more : 44 < n) {st : DistributionState} {data' : List UInt8} :
    ¬ Delivered P dep s.distributor (w s.distributor).data (s.request P.sha256 dep L 44) st
        data' := by
  obtain ⟨st', live, claimed⟩ := served
  intro delivered
  cases delivered.state.symm.trans live.holds.state
  have allocation := @claimant_allocation _ _ P.sha256 s.tag bounded more
  have within := (refusal_none_iff.mp delivered.allowed).2.2.2.2
  have asks : (s.request P.sha256 dep L 44).allocation.toNat = 4500 := allocation
  have supply : (100000 : U128).toNat = 100000 := rfl
  rw [ClaimRequest.journal_allocation, live.holds.totalSupply, BitVec.le_def, BitVec.toNat_add] at within
  omega

theorem chainClaim_line (tree : Tree P.sha256 s.tag n L)
    (adpid : parseProgramId s.adpid = .ok dep.airdropId) (small : k < 256) (t : Sent) :
    chainClaim P dep w s.claimerNote (s.argsOf P.sha256 L k) = some t ↔
      (∃ st data', Delivered P dep s.distributor (w s.distributor).data
        (s.request P.sha256 dep L k) st data') ∧
      t = ⟨.submitClaim s.distributor s.claimerNote (s.request P.sha256 dep L k),
        some (w s.distributor)⟩ := by
  have asks := s.asks tree adpid small
  rw [chainClaim_some_iff (s.argsOf_short tree small)]
  constructor
  · rintro ⟨did, r, asks', delivered, same⟩
    obtain ⟨rfl, rfl⟩ := asks.unique asks'
    exact ⟨delivered, same⟩
  · rintro ⟨delivered, same⟩
    exact ⟨_, _, asks, delivered, same⟩

end Served

/-- Where the script and the chain are in a run of this kind. -/
inductive OnTrack (P : Platform) (dep : Deployment) (s : Settings) {d : Nat} (L : Perfect Entry d)
    (n : Nat) (lines : List (List Char)) : Config Stage → Prop
  | start (w : World) (fresh : w s.distributor = Account.fresh) :
      OnTrack P dep s L n lines ⟨.start, [], w⟩
  | sent (w : World) (looks : Nat) (left : 1 ≤ looks) (fresh : w s.distributor = Account.fresh) :
      OnTrack P dep s L n lines ⟨.initializing lines looks,
        [⟨s.creation dep (merkleRoot P.sha256 L), none⟩], w⟩
  | created (w : World) (looks : Nat) (served : Served P dep s L w 0) :
      OnTrack P dep s L n lines ⟨.initializing lines looks, [], w⟩
  | ready (w : World) (k : Nat) (inside : k ≤ n) (lasts : k ≤ 44) (served : Served P dep s L w k) :
      OnTrack P dep s L n lines ⟨.claiming (lines.drop k), [], w⟩
  | proved (w : World) (k looks : Nat) (inside : k < n) (lasts : k < 44) (left : 1 ≤ looks)
      (served : Served P dep s L w k) :
      OnTrack P dep s L n lines ⟨.landing k (lines.drop (k + 1)) looks,
        [⟨.submitClaim s.distributor s.claimerNote (s.request P.sha256 dep L k),
          some (w s.distributor)⟩], w⟩
  | arrived (w : World) (k looks : Nat) (inside : k < n) (lasts : k < 44) (left : 1 ≤ looks)
      (served : Served P dep s L w (k + 1)) :
      OnTrack P dep s L n lines ⟨.landing k (lines.drop (k + 1)) looks, [], w⟩
  | finished (w : World) (lasts : n ≤ 44) (served : Served P dep s L w n) :
      OnTrack P dep s L n lines ⟨.finished, [], w⟩
  | exhausted (w : World) (more : 44 < n) (served : Served P dep s L w 44) :
      OnTrack P dep s L n lines ⟨.failed, [], w⟩

section Steps

variable {P : Platform} {dep : Deployment} {s : Settings} {d n : Nat} {L : Perfect Entry d}
  {lines : List (List Char)} {c : Config Stage}

theorem OnTrack.others (track : OnTrack P dep s L n lines c) {call : Call}
    (elsewhere : call.address ≠ s.distributor) :
    OnTrack P dep s L n lines ((run P dep s).step c (.others call)).2 := by
  have still := (@step_elsewhere P dep s.distributor c.world call elsewhere).1
  cases track with
  | start w fresh => exact .start _ (still.trans fresh)
  | sent w looks left fresh => exact .sent _ looks left (still.trans fresh)
  | created w looks served => exact .created _ looks (served.congr still)
  | ready w k inside lasts served => exact .ready _ k inside lasts (served.congr still)
  | proved w k looks inside lasts left served =>
      have on := @OnTrack.proved P dep s d L n lines _ k looks inside lasts left (served.congr still)
      rwa [still] at on
  | arrived w k looks inside lasts left served =>
      exact .arrived _ k looks inside lasts left (served.congr still)
  | finished w lasts served => exact .finished _ lasts (served.congr still)
  | exhausted w more served => exact .exhausted _ more (served.congr still)

theorem OnTrack.arrives (track : OnTrack P dep s L n lines c)
    (tree : Tree P.sha256 s.tag n L) (room : ∀ m ≤ 44, P.RoomFor m)
    (distinct : (spent P.sha256 s.tag s.distributor n).Nodup) (k : Nat) :
    OnTrack P dep s L n lines ((run P dep s).step c (.arrives k)).2 := by
  cases track with
  | start w fresh => rw [arrives_nil]; exact .start w fresh
  | created w looks served => rw [arrives_nil]; exact .created w looks served
  | ready w i inside lasts served => rw [arrives_nil]; exact .ready w i inside lasts served
  | arrived w i looks inside lasts left served =>
      rw [arrives_nil]; exact .arrived w i looks inside lasts left served
  | finished w lasts served => rw [arrives_nil]; exact .finished w lasts served
  | exhausted w more served => rw [arrives_nil]; exact .exhausted w more served
  | sent w looks left fresh =>
      cases k with
      | succ k => rw [arrives_succ]; exact .sent w looks left fresh
      | zero =>
          rw [arrives_zero _ _ (by simp [Sent.Applies])]
          rcases @step_creation P dep s.distributor 100000 w (merkleRoot P.sha256 L) fresh with
            ⟨e, failed, -⟩ | ⟨w', created⟩
          · have none_ : (DistributionState.initial (merkleRoot P.sha256 L) dep.claimCircuitId
                100000).spentNullifiers.length = 0 := rfl
            obtain ⟨data, stored⟩ := storeState_ok_of_room (by omega)
              (none_ ▸ room 0 (Nat.zero_le _))
            cases failed.symm.trans stored
          · have made : ((world P dep).step w (s.creation dep (merkleRoot P.sha256 L))).2 = w' :=
              congrArg Prod.snd created
            rw [made]
            exact .created w' looks ⟨_, created.live, rfl⟩
  | proved w i looks inside lasts left served =>
      cases k with
      | succ k => rw [arrives_succ]; exact .proved w i looks inside lasts left served
      | zero =>
          rw [arrives_zero _ _ (by simp [Sent.Applies, Call.address])]
          obtain ⟨st, data', -, w', step, served'⟩ :=
            served.delivers tree inside lasts (room (i + 1) lasts) distinct
          rw [step]
          exact .arrived w' i looks inside lasts left served'

/-- The lines of all claimants. -/
def linesOf (H : Sha256) (distTag : List Char) {d : Nat} (L : Perfect Entry d) (n : Nat) :
    List (List Char) := (List.range n).map fun i => printLine (lineOf H distTag L i)

theorem drop_linesOf {H : Sha256} {distTag : List Char} {k : Nat} (inside : k < n) :
    (linesOf H distTag L n).drop k =
      printLine (lineOf H distTag L k) :: (linesOf H distTag L n).drop (k + 1) := by
  have small : k < (linesOf H distTag L n).length := by
    rw [linesOf, List.length_map, List.length_range]
    exact inside
  rw [List.drop_eq_getElem_cons small]
  simp [linesOf]

theorem OnTrack.turn (track : OnTrack P dep s L s.claimsPerDist
      (linesOf P.sha256 s.tag L s.claimsPerDist) c)
    (tree : Tree P.sha256 s.tag s.claimsPerDist L)
    (adpid : parseProgramId s.adpid = .ok dep.airdropId)
    (ccpid : parseProgramId s.ccpid = .ok dep.claimCircuitId)
    (named : dep.airdropId ≠ Account.fresh.programOwner) (room : ∀ m ≤ 44, P.RoomFor m)
    (distinct : (spent P.sha256 s.tag s.distributor s.claimsPerDist).Nodup)
    (timely : c.stage.lastLook = true → c.inFlight = []) :
    OnTrack P dep s L s.claimsPerDist (linesOf P.sha256 s.tag L s.claimsPerDist)
      ((run P dep s).step c .script).2 := by
  cases track with
  | start w fresh =>
      have done : Evidence.turn P dep s w .start =
          ⟨.initializing (linesOf P.sha256 s.tag L s.claimsPerDist) 60,
            [⟨s.creation dep (merkleRoot P.sha256 L), none⟩], none⟩ := by
        simp only [Evidence.turn, tree.text, tree.lines tree.text, List.headD_cons,
          initializeArgs_eq adpid ccpid, if_true, List.tail_cons]
        rfl
      simp only [run_script, done]
      exact .sent w 60 (by decide) fresh
  | sent w looks left fresh =>
      have blind : s.seesOwner w ≠ true := by
        intro sees
        have owner := owner_of_seesOwner sees adpid
        rw [fresh] at owner
        exact named owner.symm
      obtain ⟨looks, rfl⟩ : ∃ more, looks = more + 1 := ⟨looks - 1, by omega⟩
      have still : 1 ≤ looks := by
        by_contra last
        have none_ := timely (by simp [Stage.lastLook]; omega)
        cases none_
      simp only [run_script, Evidence.turn, if_neg blind]
      exact .sent w looks still fresh
  | created w looks served =>
      have next := @OnTrack.ready P dep s d L s.claimsPerDist
        (linesOf P.sha256 s.tag L s.claimsPerDist) w 0 (Nat.zero_le _) (Nat.zero_le _) served
      cases looks with
      | zero => exact next
      | succ looks =>
          by_cases sees : s.seesOwner w = true
          · simp only [run_script, Evidence.turn, if_pos sees]
            exact next
          · simp only [run_script, Evidence.turn, if_neg sees]
            exact .created w looks served
  | ready w k inside lasts served =>
      by_cases all : k = s.claimsPerDist
      · have nothing : (linesOf P.sha256 s.tag L s.claimsPerDist).drop k = [] := by
          rw [List.drop_eq_nil_iff, linesOf, List.length_map, List.length_range]
          omega
        simp only [run_script, nothing, Evidence.turn]
        exact .finished w (all ▸ lasts) (all ▸ served)
      · have more : k < s.claimsPerDist := by omega
        have args := s.claimArgs_line (H := P.sha256) (L := L) (i := k) (by omega)
        have goes := @chainClaim_line P dep s s.claimsPerDist d k L w tree adpid (by omega)
        rw [drop_linesOf more]
        by_cases supplied : k < 44
        · obtain ⟨st, data', delivered, -⟩ :=
            served.delivers tree more supplied (room (k + 1) supplied) distinct
          have sent := (goes _).mpr ⟨⟨st, data', delivered⟩, rfl⟩
          simp only [run_script, Evidence.turn, args, sent]
          exact .proved w k 36 more supplied (by decide) served
        · obtain rfl : k = 44 := by omega
          have none_ : chainClaim P dep w s.claimerNote (s.argsOf P.sha256 L 44) = none := by
            cases sent : chainClaim P dep w s.claimerNote (s.argsOf P.sha256 L 44) with
            | none => rfl
            | some t =>
                obtain ⟨⟨st, data', delivered⟩, -⟩ := (goes t).mp sent
                exact absurd delivered (served.exhausted tree.bounded more)
          simp only [run_script, Evidence.turn, args, none_]
          exact .exhausted w more served
  | proved w k looks inside lasts left served =>
      have other : nullifierCount (s.state w) ≠ k + 1 := by
        rw [served.count]
        omega
      obtain ⟨looks, rfl⟩ : ∃ more, looks = more + 1 := ⟨looks - 1, by omega⟩
      have still : 1 ≤ looks := by
        by_contra last
        have none_ := timely (by simp [Stage.lastLook]; omega)
        cases none_
      simp only [run_script, Evidence.turn, if_neg other]
      exact .proved w k looks inside lasts still served
  | arrived w k looks inside lasts left served =>
      have count : nullifierCount (s.state w) = k + 1 := served.count
      obtain ⟨looks, rfl⟩ : ∃ more, looks = more + 1 := ⟨looks - 1, by omega⟩
      simp only [run_script, Evidence.turn, if_pos count]
      exact .ready w (k + 1) inside lasts served
  | finished w lasts served => exact .finished w lasts served
  | exhausted w more served => exact .exhausted w more served

theorem OnTrack.run (tree : Tree P.sha256 s.tag s.claimsPerDist L)
    (adpid : parseProgramId s.adpid = .ok dep.airdropId)
    (ccpid : parseProgramId s.ccpid = .ok dep.claimCircuitId)
    (named : dep.airdropId ≠ Account.fresh.programOwner) (room : ∀ m ≤ 44, P.RoomFor m)
    (distinct : (spent P.sha256 s.tag s.distributor s.claimsPerDist).Nodup) {events : List Event}
    (apart : ∀ call, .others call ∈ events → call.address ≠ s.distributor)
    (timely : Timely P dep (Evidence.turn P dep s) Stage.lastLook c events)
    (track : OnTrack P dep s L s.claimsPerDist (linesOf P.sha256 s.tag L s.claimsPerDist) c) :
    OnTrack P dep s L s.claimsPerDist (linesOf P.sha256 s.tag L s.claimsPerDist)
      ((Evidence.run P dep s).run c events) := by
  induction events generalizing c with
  | nil => exact track
  | cons event events ih =>
      obtain ⟨now, later⟩ := timely
      apply ih (fun call member => apart call (List.mem_cons_of_mem _ member)) later
      cases event with
      | script => exact track.turn tree adpid ccpid named room distinct (now rfl)
      | arrives k => exact track.arrives tree room distinct k
      | others call => exact track.others (apart call List.mem_cons_self)

end Steps

end Evidence

end PrivateAirdrop

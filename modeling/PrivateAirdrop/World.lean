import PrivateAirdrop.Delivery
import PrivateAirdrop.ClaimRuns

/-! # Many distributions, any callers

The world is every account at once. Anyone may call the airdrop program directly,
on any account and with any instruction, anyone may run a claim transaction with
any request, and other programs may write what the airdrop program does not own.
What is assumed of the runtime is in `world` itself: calls see live accounts, a
caller is reported as what it is, and `init` refuses an account in use.
-/

namespace PrivateAirdrop

open Library

abbrev World := AccountId → Account

/-- The account no program has written yet. -/
def Account.fresh : Account := ⟨Vector.replicate 8 0, []⟩

namespace World

def live (w : World) (id : AccountId) : AccountWithMetadata := ⟨w id, false, id⟩

def set (w : World) (id : AccountId) (account : Account) : World := Function.update w id account

@[simp] theorem set_same (w : World) (id : AccountId) (account : Account) :
    w.set id account id = account := Function.update_self ..

theorem set_other (w : World) {id other : AccountId} (account : Account) (h : other ≠ id) :
    w.set id account other = w other := Function.update_of_ne h ..

end World

/-- Who makes a call: nobody, for a top-level call, or a program that chains it. -/
inductive Caller where
  | topLevel
  | program (id : ProgramId)
  deriving Repr, DecidableEq

def Deployment.reported (dep : Deployment) : Caller → ProgramId
  | .topLevel => dep.topLevelId
  | .program id => id

inductive Call where
  | airdrop (caller : Caller) (target : AccountId) (instruction : Instruction)
  | submitClaim (distribution claimerNote : AccountId) (request : ClaimRequest)
  | foreign (id : AccountId) (account : Account)

/-- An accepted `claim`, with the caller it came from. -/
structure Acceptance where
  distribution : AccountId
  caller : Caller
  journalBytes : List UInt8
  recipientNote : List UInt8
  deriving Repr, DecidableEq

inductive Outcome where
  | refused (f : Fault)
  | passed
  | claimed (acceptance : Acceptance)
  deriving Repr, DecidableEq

def world (P : Platform) (dep : Deployment) : Machine World Call Outcome where
  step w
    | .airdrop _ id (.initializeDistribution root ccid supply) =>
      if w id = Account.fresh then
        match initializeDistribution P (w.live id) root ccid supply with
        | .ok out =>
          let written := (out.postStates.headD (w.live id)).account.data
          (.passed, w.set id ⟨dep.airdropId, written⟩)
        | .error e => (.refused (.program e), w)
      else (.refused .initialized, w)
    | .airdrop caller id (.claim journalBytes recipientNote) =>
      match claim P ⟨dep.reported caller⟩ (w.live id) journalBytes recipientNote with
      | .ok out =>
        (.claimed ⟨id, caller, journalBytes, recipientNote⟩,
          w.set id (out.postStates.headD (w.live id)).account)
      | .error e => (.refused (.program e), w)
    | .submitClaim D note r =>
      match executeClaim P dep (w.live D) (w.live note) r with
      | .ok (some x) =>
        (.claimed ⟨D, .program dep.claimCircuitId, x.journalBytes, x.recipientNote⟩,
          w.set D x.account.account)
      | .ok none => (.passed, w)
      | .error f => (.refused f, w)
    | .foreign id account =>
      if (w id).programOwner = dep.airdropId then (.refused .notOwner, w)
      else (.passed, w.set id account)

/-- Where an accepted claim on `D` came from: a direct call, or the circuit. -/
inductive Origin (P : Platform) (dep : Deployment) (D : AccountId) (data : List UInt8) (call : Call)
    (acc : Acceptance) (s : DistributionState) (data' : List UInt8) : Prop where
  | direct (h : call = .airdrop acc.caller D (.claim acc.journalBytes acc.recipientNote))
  | circuit (note : AccountId) (r : ClaimRequest) (h : call = .submitClaim D note r)
      (delivered : Delivered P dep D data r s data')
      (same : acc = ⟨D, .program dep.claimCircuitId,
        journalBytes (r.journal P.sha256 s.merkleRoot D), r.recipientNote⟩)

/-- A claim on `D` that was accepted: everything the call did to the account. -/
structure AcceptedOn (P : Platform) (dep : Deployment) (D : AccountId) (w w' : World) (call : Call)
    (acc : Acceptance) (s : DistributionState) (j : ClaimJournal) (data' : List UInt8) : Prop where
  distribution : acc.distribution = D
  accepted : Accepted P (dep.reported acc.caller) D (w D).data acc.journalBytes acc.recipientNote
    s j data'
  written : w' D = { w D with data := data' }
  origin : Origin P dep D (w D).data call acc s data'

section Steps

variable {P : Platform} {dep : Deployment} {D : AccountId} {w : World}

theorem Delivered.accepted {data data' : List UInt8} {r : ClaimRequest} {s : DistributionState}
    (h : Delivered P dep D data r s data') :
    Accepted P dep.claimCircuitId D data (journalBytes (r.journal P.sha256 s.merkleRoot D))
      r.recipientNote s (r.journal P.sha256 s.merkleRoot D) data' :=
  ⟨h.state, h.registered, tryFromSlice_journalBytes _, h.allowed, h.stored⟩

theorem world_claim_accepted {caller : Caller} {journalBytes note : List UInt8}
    {s : DistributionState} {j : ClaimJournal} {data' : List UInt8}
    (h : Accepted P (dep.reported caller) D (w D).data journalBytes note s j data') :
    (world P dep).step w (.airdrop caller D (.claim journalBytes note)) =
      (.claimed ⟨D, caller, journalBytes, note⟩, w.set D { w D with data := data' }) := by
  have run : claim P ⟨dep.reported caller⟩ (w.live D) journalBytes note =
      .ok ⟨[(w.live D).withData data'], []⟩ := claim_ok_iff.mpr ⟨s, j, data', h, rfl⟩
  simp only [world, run]
  rfl

theorem world_submitClaim_delivered (note : AccountId) {r : ClaimRequest} {s : DistributionState}
    {data' : List UInt8} (h : Delivered P dep D (w D).data r s data') :
    (world P dep).step w (.submitClaim D note r) =
      (.claimed ⟨D, .program dep.claimCircuitId,
          journalBytes (r.journal P.sha256 s.merkleRoot D), r.recipientNote⟩,
        w.set D { w D with data := data' }) := by
  have run : executeClaim P dep (w.live D) (w.live note) r =
      .ok (some ⟨journalBytes (r.journal P.sha256 s.merkleRoot D), r.recipientNote,
        (w.live D).withData data'⟩) := executeClaim_some_iff.mpr ⟨s, data', h, rfl⟩
  simp only [world, run]
  rfl

theorem ne_fresh {account : Account} {s : DistributionState}
    (state : DistributionState.tryFromSlice account.data = some s) : account ≠ Account.fresh := by
  rintro rfl
  cases state

theorem world_claim_cases (P : Platform) (dep : Deployment) (w : World) (caller : Caller)
    (id : AccountId) (bytes note : List UInt8) :
    (∃ e, (world P dep).step w (.airdrop caller id (.claim bytes note)) =
      (.refused (.program e), w)) ∨
    (∃ s j data', Accepted P (dep.reported caller) id (w id).data bytes note s j data' ∧
      (world P dep).step w (.airdrop caller id (.claim bytes note)) =
        (.claimed ⟨id, caller, bytes, note⟩, w.set id { w id with data := data' })) := by
  cases run : claim P ⟨dep.reported caller⟩ (w.live id) bytes note with
  | error e => exact .inl ⟨e, by simp only [world, run]⟩
  | ok out =>
      obtain ⟨s, j, data', accepted, -⟩ := claim_ok_iff.mp run
      exact .inr ⟨s, j, data', accepted, world_claim_accepted accepted⟩

theorem world_submitClaim_cases (P : Platform) (dep : Deployment) (w : World)
    (id note : AccountId) (r : ClaimRequest) :
    (∃ outcome, (∀ acc, outcome ≠ .claimed acc) ∧
      (world P dep).step w (.submitClaim id note r) = (outcome, w)) ∨
    (∃ s data', Delivered P dep id (w id).data r s data' ∧
      (world P dep).step w (.submitClaim id note r) =
        (.claimed ⟨id, .program dep.claimCircuitId,
            journalBytes (r.journal P.sha256 s.merkleRoot id), r.recipientNote⟩,
          w.set id { w id with data := data' })) := by
  cases run : executeClaim P dep (w.live id) (w.live note) r with
  | error f => exact .inl ⟨.refused f, fun _ => nofun, by simp only [world, run]⟩
  | ok done =>
      cases done with
      | none => exact .inl ⟨.passed, fun _ => nofun, by simp only [world, run]⟩
      | some x =>
          obtain ⟨s, data', delivered, -⟩ := executeClaim_some_iff.mp run
          exact .inr ⟨s, data', delivered, world_submitClaim_delivered note delivered⟩

theorem claimed_elsewhere {id : AccountId} {acc : Acceptance} (account : Account)
    (on : acc.distribution = id) (other : id ≠ D) :
    w.set id account D = w D ∧
      ∀ acc', Outcome.claimed acc = .claimed acc' → acc'.distribution ≠ D := by
  refine ⟨World.set_other w _ other.symm, ?_⟩
  intro acc' same
  cases same
  rw [on]
  exact other

/-- All a call can do to an account the airdrop program owns and has initialised:
    nothing, or one accepted claim. -/
theorem world_step_cases (owned : (w D).programOwner = dep.airdropId)
    {s : DistributionState} (state : DistributionState.tryFromSlice (w D).data = some s)
    (call : Call) :
    (((world P dep).step w call).2 D = w D ∧
      ∀ acc, ((world P dep).step w call).1 = .claimed acc → acc.distribution ≠ D) ∨
    (∃ acc j data', ((world P dep).step w call).1 = .claimed acc ∧
      AcceptedOn P dep D w ((world P dep).step w call).2 call acc s j data') := by
  cases call with
  | airdrop caller id instruction =>
      cases instruction with
      | initializeDistribution root ccid supply =>
          apply Or.inl
          by_cases fresh : w id = Account.fresh
          · have elsewhere : D ≠ id := by
              rintro rfl
              exact ne_fresh state fresh
            cases run : initializeDistribution P (w.live id) root ccid supply with
            | error e => simp [world, fresh, run]
            | ok out => simp [world, fresh, run, World.set_other w _ elsewhere]
          · simp [world, fresh]
      | claim bytes note =>
          cases world_claim_cases P dep w caller id bytes note with
          | inl rejected =>
              obtain ⟨e, same⟩ := rejected
              rw [same]
              exact .inl ⟨rfl, fun _ => nofun⟩
          | inr done =>
              obtain ⟨s', j, data', accepted, same⟩ := done
              rw [same]
              by_cases here : id = D
              · subst here
                cases accepted.state.symm.trans state
                exact .inr ⟨_, j, data', rfl, rfl, accepted, World.set_same .., .direct rfl⟩
              · exact .inl (claimed_elsewhere _ rfl here)
  | submitClaim id note r =>
      cases world_submitClaim_cases P dep w id note r with
      | inl rejected =>
          obtain ⟨outcome, other, same⟩ := rejected
          rw [same]
          exact .inl ⟨rfl, fun acc claimed => absurd claimed (other acc)⟩
      | inr done =>
          obtain ⟨s', data', delivered, same⟩ := done
          rw [same]
          by_cases here : id = D
          · subst here
            cases delivered.state.symm.trans state
            exact .inr ⟨_, _, data', rfl, rfl, delivered.accepted, World.set_same ..,
              .circuit note r rfl delivered rfl⟩
          · exact .inl (claimed_elsewhere _ rfl here)
  | foreign id account =>
      apply Or.inl
      by_cases mine : (w id).programOwner = dep.airdropId
      · simp [world, mine]
      · have elsewhere : D ≠ id := by
          rintro rfl
          exact mine owned
        simp [world, mine, World.set_other w _ elsewhere]

end Steps

/-- The accepted claims on `D`, each with the call that made it. -/
def acceptedOn (D : AccountId) (call : Call) : Outcome → Option (Call × Acceptance)
  | .claimed acc => if acc.distribution = D then some (call, acc) else none
  | .refused _ => none
  | .passed => none

def acceptances (P : Platform) (dep : Deployment) (D : AccountId) (w : World) (calls : List Call) :
    List (Call × Acceptance) := (world P dep).log (acceptedOn D) w calls

/-- `D` belongs to the airdrop program and holds a distribution. -/
structure Live (dep : Deployment) (root : Bytes32) (ccid : ProgramId) (supply : U128)
    (D : AccountId) (w : World) (log : List Bytes32) (s : DistributionState) : Prop where
  owned : (w D).programOwner = dep.airdropId
  holds : Holds root ccid supply (w D).data log s

/-- A successful `initialize` of `D`, by anyone. -/
def Creates (P : Platform) (dep : Deployment) (root : Bytes32) (ccid : ProgramId) (supply : U128)
    (D : AccountId) (who : Caller) (w w' : World) : Prop :=
  (world P dep).step w (.airdrop who D (.initializeDistribution root ccid supply)) = (.passed, w')

section Distribution

variable {P : Platform} {dep : Deployment} {root : Bytes32} {ccid : ProgramId} {supply : U128}
  {D : AccountId} {w w' : World} {log : List Bytes32} {s : DistributionState}

theorem Creates.of_passed {who : Caller} (passed : ((world P dep).step w
      (.airdrop who D (.initializeDistribution root ccid supply))).1 = .passed) :
    Creates P dep root ccid supply D who w ((world P dep).step w
      (.airdrop who D (.initializeDistribution root ccid supply))).2 :=
  Prod.ext passed rfl

theorem acceptedOn_claimed {call : Call} {acc : Acceptance} (h : acc.distribution = D) :
    acceptedOn D call (.claimed acc) = some (call, acc) := if_pos h

theorem acceptedOn_none {call : Call} {outcome : Outcome}
    (h : ∀ acc, outcome = .claimed acc → acc.distribution ≠ D) :
    acceptedOn D call outcome = none := by
  cases outcome with
  | refused f => rfl
  | passed => rfl
  | claimed acc => exact if_neg (h acc rfl)

theorem call_of_acceptance {calls : List Call} : ∀ g ∈ acceptances P dep D w calls, g.1 ∈ calls := by
  intro g member
  obtain ⟨call, called, outcome, entered⟩ := (world P dep).of_mem_log member
  cases outcome with
  | claimed acc =>
      simp only [acceptedOn, Option.ite_none_right_eq_some, Option.some.injEq] at entered
      rw [← entered.2]
      exact called
  | refused f => cases entered
  | passed => cases entered

theorem Creates.live {who : Caller} (h : Creates P dep root ccid supply D who w w') :
    Live dep root ccid supply D w' [] (.initial root ccid supply) := by
  by_cases fresh : w D = Account.fresh
  · cases run : initializeDistribution P (w.live D) root ccid supply with
    | error e => simp [Creates, world, fresh, run] at h
    | ok out =>
        obtain ⟨data, stored, rfl⟩ := initializeDistribution_ok_iff.mp run
        simp only [Creates, world, fresh, run, if_true, List.headD_cons, Prod.mk.injEq,
          true_and] at h
        subst h
        constructor
        · rw [World.set_same]
        · rw [World.set_same]
          exact holds_initial stored
  · simp [Creates, world, fresh] at h

/-- What one call does to a distribution: nothing, or it records one claim. -/
theorem Live.step (live : Live dep root ccid supply D w log s) (call : Call) :
    (acceptedOn D call ((world P dep).step w call).1 = none ∧
      ((world P dep).step w call).2 D = w D ∧
      Live dep root ccid supply D ((world P dep).step w call).2 log s) ∨
    (∃ acc j data', acceptedOn D call ((world P dep).step w call).1 = some (call, acc) ∧
      AcceptedOn P dep D w ((world P dep).step w call).2 call acc s j data' ∧
      Live dep root ccid supply D ((world P dep).step w call).2 (log ++ [j.nullifier])
        (s.record j)) := by
  cases world_step_cases (P := P) live.owned live.holds.state call with
  | inl nothing =>
      obtain ⟨still, other⟩ := nothing
      refine .inl ⟨acceptedOn_none other, still, ?_⟩
      constructor
      · rw [still, live.owned]
      · rw [still]
        exact live.holds
  | inr done =>
      obtain ⟨acc, j, data', claimed, change⟩ := done
      refine .inr ⟨acc, j, data', ?_, change, ?_⟩
      · rw [claimed, acceptedOn_claimed change.distribution]
      · constructor
        · rw [change.written, live.owned]
        · rw [change.written]
          exact live.holds.accept change.accepted.allowed change.accepted.stored

/-- What each accepted claim of a run keeps up, between the accepted claims and the
    nullifiers they spent, holds at its end. -/
theorem run_live {R : List (Call × Acceptance) → List Bytes32 → Prop} {calls : List Call}
    (start : Live dep root ccid supply D w [] (.initial root ccid supply)) (nothing : R [] [])
    (each : ∀ w w' call acc s j data' accs log, call ∈ calls → Live dep root ccid supply D w log s →
      AcceptedOn P dep D w w' call acc s j data' → R accs log →
      R (accs ++ [(call, acc)]) (log ++ [j.nullifier])) :
    ∃ log s, Live dep root ccid supply D ((world P dep).run w calls) log s ∧
      R (acceptances P dep D w calls) log := by
  apply (world P dep).run_log_along
    (R := fun w accs => ∃ log s, Live dep root ccid supply D w log s ∧ R accs log) calls
  · rintro before call accs inside ⟨log, s, live, related⟩
    cases live.step (P := P) call with
    | inl still =>
        obtain ⟨none_, -, live'⟩ := still
        rw [none_, Option.toList_none, List.append_nil]
        exact ⟨log, s, live', related⟩
    | inr done =>
        obtain ⟨acc, j, data', some_, change, live'⟩ := done
        have called : call ∈ calls := inside.subset (List.mem_append_right _ (List.mem_singleton_self _))
        rw [some_]
        exact ⟨_, _, live', each _ _ _ _ _ _ _ _ _ called live change related⟩
  · exact ⟨_, _, start, nothing⟩

end Distribution

section Callers

variable {P : Platform} {dep : Deployment} {root : Bytes32} {ccid : ProgramId} {supply : U128}
  {D : AccountId} {w : World}

/-- A claim of nothing, with whatever nullifier. -/
def emptyJournal (H : Sha256) (root D : Bytes32) : ClaimJournal :=
  claimJournal H root D (Vector.replicate 32 0) 0 []

/-- On a new distribution anyone reported as its circuit gets a claim accepted,
    with no path and no entry. -/
theorem Live.forge (live : Live dep root ccid supply D w [] (.initial root ccid supply))
    (room : P.RoomFor 1) {caller : Caller} (posing : dep.reported caller = ccid) :
    ∃ acc, acc.caller = caller ∧
      ∃ call, acceptances P dep D w [call] = [(call, acc)] := by
  let j := emptyJournal P.sha256 root D
  have allowed : refusal P.sha256 (.initial root ccid supply) j D [] = none := by
    apply refusal_none_iff.mpr
    refine ⟨rfl, rfl, rfl, List.not_mem_nil, ?_⟩
    have nothing : (0 : U128) + j.allocation = 0 := rfl
    rw [DistributionState.initial, nothing]
    exact BitVec.le_def.mpr (Nat.zero_le _)
  have one : ((DistributionState.initial root ccid supply).record j).spentNullifiers.length = 1 := rfl
  obtain ⟨data', stored⟩ := storeState_ok_of_room (by rw [one]; omega) (one ▸ room)
  have accepted : Accepted P (dep.reported caller) D (w D).data (journalBytes j) [] _ j data' :=
    ⟨live.holds.state, posing, tryFromSlice_journalBytes j, allowed, stored⟩
  refine ⟨⟨D, caller, journalBytes j, []⟩, rfl, .airdrop caller D (.claim (journalBytes j) []), ?_⟩
  rw [acceptances, Machine.log_singleton, world_claim_accepted accepted]
  simp only [acceptedOn, if_true, Option.toList_some]

theorem Live.callers (live : Live dep root ccid supply D w [] (.initial root ccid supply))
    (calls : List Call) :
    ∀ g ∈ acceptances P dep D w calls, dep.reported g.2.caller = ccid := by
  obtain ⟨-, -, -, all⟩ := run_live (P := P)
    (R := fun accs _ => ∀ g ∈ accs, dep.reported g.2.caller = ccid) live nofun (by
      intro w w' call acc s j data' accs log called live change all g member
      cases List.mem_append.mp member with
      | inl old => exact all g old
      | inr new =>
          cases List.mem_singleton.mp new
          rw [change.accepted.caller_eq, live.holds.claimCircuitProgramId])
  exact all

end Callers

/-- No accepted claim on a distribution came from a top-level call, in any run,
    if and only if the identity registered for its circuit is not the one that
    top-level calls report. -/
theorem never_top_level_iff {P : Platform} {dep : Deployment} {root : Bytes32} {ccid : ProgramId}
    {supply : U128} {D : AccountId} {who : Caller} {w w' : World} (room : P.RoomFor 1)
    (created : Creates P dep root ccid supply D who w w') :
    (∀ calls, ∀ g ∈ acceptances P dep D w' calls, g.2.caller = .program ccid) ↔
      ccid ≠ dep.topLevelId := by
  constructor
  · rintro chained rfl
    have posing : dep.reported .topLevel = dep.topLevelId := rfl
    obtain ⟨acc, top, call, log⟩ := created.live.forge room posing
    have impossible := chained [call] (call, acc) (by rw [log]; exact List.mem_singleton_self _)
    rw [top] at impossible
    cases impossible
  · intro distinct calls g member
    have reported := created.live.callers calls g member
    cases origin : g.2.caller with
    | topLevel =>
        rw [origin] at reported
        exact absurd reported.symm distinct
    | program id =>
        rw [origin] at reported
        exact congrArg Caller.program reported

/-- A distribution whose circuit is a program that no top-level call reports. -/
theorem never_top_level_registered :
    let zeros : Bytes32 := Vector.replicate 32 0
    let dep : Deployment := ⟨Vector.replicate 8 1, Vector.replicate 8 2, Vector.replicate 8 0⟩
    let P := Platform.bounded (fun _ => zeros) 1000
    ∃ w', Creates P dep zeros dep.claimCircuitId 10 zeros .topLevel (fun _ => Account.fresh) w' ∧
      ∀ calls, ∀ g ∈ acceptances P dep zeros w' calls, g.2.caller = .program dep.claimCircuitId := by
  intro zeros dep P
  have created : Creates P dep zeros dep.claimCircuitId 10 zeros .topLevel (fun _ => Account.fresh)
      _ := .of_passed (by decide +kernel)
  exact ⟨_, created, (never_top_level_iff (Platform.bounded_roomFor (by omega)) created).mpr
    (by decide)⟩

/-- A distribution registered under the identity that top-level calls report: a
    top-level claim of 10, the whole supply, is accepted. -/
theorem top_level_claim_accepted :
    let zeros : Bytes32 := Vector.replicate 32 0
    let dep : Deployment := ⟨Vector.replicate 8 1, Vector.replicate 8 2, Vector.replicate 8 0⟩
    let P := Platform.bounded (fun _ => zeros) 1000
    let journal := journalBytes ⟨zeros, zeros, zeros, 10, zeros⟩
    let calls : List Call :=
      [.airdrop .topLevel zeros (.initializeDistribution zeros dep.topLevelId 10),
        .airdrop .topLevel zeros (.claim journal [])]
    (world P dep).replies (fun _ => Account.fresh) calls =
      [.passed, .claimed ⟨zeros, .topLevel, journal, []⟩] := by decide +kernel

end PrivateAirdrop

import PrivateAirdrop.EvidenceScript

/-! # What the script's success is evidence of

The script believes what `chain state` shows it. The number of nullifiers there is
that of the claims accepted on its distribution, whoever made them, so a line about a
claim that landed only says that one claim more did. A run that ends well has seen
as many as there are claimants, and by then nobody is left out.
-/

namespace PrivateAirdrop

open Library
open Library.Alphabet (characters)

namespace Evidence

open Script

section Looks

variable {dep : Deployment} {root : Bytes32} {ccid : ProgramId} {supply : U128} {D : AccountId}
  {w : World} {log : List Bytes32} {st : DistributionState}

theorem nullifierCount_live (live : Live dep root ccid supply D w log st) (owner : ProgramId) :
    nullifierCount (chainState (w D).data owner) = log.length := by
  have written := DistributionState.tryFromSlice_iff.mp live.holds.state
  have fits := DistributionState.toVec_lt written
  rw [nullifierCount_chainState, DistributionState.count_at written, Python.fromBytesLittle,
    byteRadix.total_write 4 _ (by simpa [byteRadix] using fits), live.holds.spentNullifiers]

theorem nullifierCount_fresh (fresh : w D = Account.fresh) (owner : ProgramId) :
    nullifierCount (chainState (w D).data owner) = 0 := by
  rw [nullifierCount_chainState, fresh]
  rfl

theorem owner_of_seesOwner {s : Settings} {id : ProgramId} (sees : s.seesOwner w = true)
    (adpid : parseProgramId s.adpid = .ok id) : (w s.distributor).programOwner = id :=
  owner_of_greps sees adpid

end Looks

/-- The one `initialize` that the script sends. -/
def Settings.creation (s : Settings) (dep : Deployment) (root : Bytes32) : Call :=
  creationOf dep s.distributor root 100000

def LogLine.landing : LogLine → Option Nat
  | .landed idx => some idx
  | .didNotLand _ => none

/-- The script is at this stage after it has seen `k` claims land. -/
def Stage.After (lines : List (List Char)) (k : Nat) : Stage → Prop
  | .start => k = 0
  | .initializing rest _ => k = 0 ∧ rest = lines
  | .claiming rest => rest = lines.drop k
  | .landing idx rest _ => idx = k ∧ rest = lines.drop (k + 1)
  | .finished => lines.length ≤ k
  | .failed => True

section Turns

variable {P : Platform} {dep : Deployment} {s : Settings} {w : World} {root : Bytes32} {n : Nat}
  {lines : List (List Char)}

theorem initializeArgs_eq {pid : ProgramId} (adpid : parseProgramId s.adpid = .ok pid)
    (ccpid : parseProgramId s.ccpid = .ok dep.claimCircuitId) :
    chainInitialize dep (s.initializeArgs (characters.hexEncode root.toList)) =
      .ok (if pid = dep.airdropId then [⟨s.creation dep root, none⟩] else []) :=
  chainInitialize_eq adpid ccpid rfl (parseHex32_ok_iff.mpr (characters.lower_hexEncode _))

/-- Everything a turn can do. -/
inductive Does (P : Platform) (dep : Deployment) (s : Settings) (w : World) :
    Stage → Turn Stage LogLine → Prop
  | fails (stage : Stage) : Does P dep s w stage (.to .failed)
  | initializes {stdout : List Char} {sent : List Sent}
      (tree : treeText P.sha256 s.tag s.claimsPerDist = some stdout)
      (command : chainInitialize dep (s.initializeArgs
        (((captured stdout).splitOn '\n').headD [])) = .ok sent) :
      Does P dep s w .start ⟨.initializing ((captured stdout).splitOn '\n').tail 60, sent, none⟩
  | goesOn (rest : List (List Char)) (looks : Nat) (seen : looks = 0 ∨ s.seesOwner w = true) :
      Does P dep s w (.initializing rest looks) (.to (.claiming rest))
  | looksAgain (rest : List (List Char)) (looks : Nat) :
      Does P dep s w (.initializing rest (looks + 1)) (.to (.initializing rest looks))
  | ends : Does P dep s w (.claiming []) (.to .finished)
  | claims {line : List Char} {rest : List (List Char)} {idx : Nat} {args : ChainClaimArgs}
      {t : Sent} (read : s.claimArgs line = some (idx, args))
      (sent : chainClaim P dep w s.claimerNote args = some t) :
      Does P dep s w (.claiming (line :: rest)) ⟨.landing idx rest 36, [t], none⟩
  | givesUp (idx : Nat) (rest : List (List Char)) :
      Does P dep s w (.landing idx rest 0) ⟨.failed, [], some (.didNotLand idx)⟩
  | lands (idx : Nat) (rest : List (List Char)) (looks : Nat)
      (count : nullifierCount (s.state w) = idx + 1) :
      Does P dep s w (.landing idx rest (looks + 1)) ⟨.claiming rest, [], some (.landed idx)⟩
  | waits (idx : Nat) (rest : List (List Char)) (looks : Nat) :
      Does P dep s w (.landing idx rest (looks + 1)) (.to (.landing idx rest looks))
  | stays : Does P dep s w .finished (.to .finished)

theorem turn_does (P : Platform) (dep : Deployment) (s : Settings) (w : World) (stage : Stage) :
    Does P dep s w stage (turn P dep s w stage) := by
  fun_cases turn P dep s w stage with
  | case1 none_ => simpa only [turn, none_] using .fails _
  | case2 stdout tree data e error => simpa only [turn, tree, error] using .fails _
  | case3 stdout tree data sent command => simpa only [turn, tree, command] using .initializes tree command
  | case4 rest => exact .goesOn rest 0 (.inl rfl)
  | case5 rest looks sees => simpa only [turn, if_pos sees] using .goesOn rest _ (.inr sees)
  | case6 rest looks blind => simpa only [turn, if_neg blind] using .looksAgain rest looks
  | case7 => exact .ends
  | case8 line rest none_ => simpa only [turn, none_] using .fails _
  | case9 line rest idx args read none_ => simpa only [turn, read, none_] using .fails _
  | case10 line rest idx args read t sent => simpa only [turn, read, sent] using .claims read sent
  | case11 idx rest => exact .givesUp idx rest
  | case12 idx rest looks count => simpa only [turn, if_pos count] using .lands idx rest looks count
  | case13 idx rest looks other => simpa only [turn, if_neg other] using .waits idx rest looks
  | case14 => exact .stays
  | case15 => exact .fails _

theorem Does.safe {stage : Stage} {done : Turn Stage LogLine} (does : Does P dep s w stage done)
    (ccpid : parseProgramId s.ccpid = .ok dep.claimCircuitId)
    (text : ∀ stdout, treeText P.sha256 s.tag s.claimsPerDist = some stdout →
      (captured stdout).splitOn '\n' = characters.hexEncode root.toList :: lines) :
    ∀ t ∈ done.sent, Safe dep s.distributor root 100000 t.call := by
  intro t member
  cases does with
  | initializes tree command =>
      rw [text _ tree] at command
      exact chainInitialize_safe command ccpid rfl
        (parseHex32_ok_iff.mpr (characters.lower_hexEncode _)) t member
  | claims read sent =>
      rw [List.mem_singleton.mp member]
      exact chainClaim_safe sent
  | fails => cases member
  | goesOn => cases member
  | looksAgain => cases member
  | ends => cases member
  | givesUp => cases member
  | lands => cases member
  | waits => cases member
  | stays => cases member

theorem Does.after {stage : Stage} {done : Turn Stage LogLine} {k : Nat} (does : Does P dep s w stage done)
    (text : ∀ stdout, treeText P.sha256 s.tag s.claimsPerDist = some stdout →
      (captured stdout).splitOn '\n' = characters.hexEncode root.toList :: lines)
    (numbered : ∀ i line, lines[i]? = some line → ∀ idx args, s.claimArgs line = some (idx, args) →
      idx = i)
    (after : stage.After lines k) :
    (done.logged.bind LogLine.landing = none ∧ done.stage.After lines k) ∨
    (done.logged = some (.landed k) ∧ done.stage.After lines (k + 1) ∧
      nullifierCount (s.state w) = k + 1) := by
  cases does with
  | fails => exact .inl ⟨rfl, trivial⟩
  | initializes tree command =>
      refine .inl ⟨rfl, after, ?_⟩
      rw [text _ tree]
      rfl
  | goesOn rest looks seen =>
      obtain ⟨rfl, rfl⟩ := after
      exact .inl ⟨rfl, rfl⟩
  | looksAgain rest looks => exact .inl ⟨rfl, after⟩
  | ends => exact .inl ⟨rfl, List.drop_eq_nil_iff.mp after.symm⟩
  | @claims line rest idx args t read sent =>
      have after : line :: rest = lines.drop k := after
      have here : lines[k]? = some line := by
        rw [← List.head?_drop, ← after]
        rfl
      refine .inl ⟨rfl, numbered k line here idx args read, ?_⟩
      rw [← List.drop_drop, ← after]
      rfl
  | givesUp idx rest => exact .inl ⟨rfl, trivial⟩
  | lands idx rest looks count =>
      obtain ⟨rfl, rfl⟩ := after
      exact .inr ⟨rfl, rfl, count⟩
  | waits idx rest looks => exact .inl ⟨rfl, after⟩
  | stays => exact .inl ⟨rfl, after⟩

/-- How many turns the script has left, at most. -/
def Stage.rank (n : Nat) : Stage → Nat
  | .start => 38 * n + 63
  | .initializing rest looks => 38 * rest.length + 2 + looks
  | .claiming rest => 38 * rest.length + 1
  | .landing _ rest looks => 38 * rest.length + 2 + looks
  | .finished => 0
  | .failed => 0

theorem Does.rank {stage : Stage} {done : Turn Stage LogLine} (does : Does P dep s w stage done)
    (lines : ∀ stdout, treeText P.sha256 s.tag s.claimsPerDist = some stdout →
      ((captured stdout).splitOn '\n').tail.length = n) :
    done.stage.rank n ≤ stage.rank n - 1 := by
  cases does with
  | initializes tree command =>
      have count := lines _ tree
      simp only [Stage.rank]
      omega
  | claims read sent =>
      simp only [Stage.rank, List.length_cons]
      omega
  | fails => exact Nat.zero_le _
  | goesOn => simp only [Turn.to, Stage.rank]; omega
  | looksAgain => simp only [Turn.to, Stage.rank]; omega
  | ends => exact Nat.le_refl _
  | givesUp => exact Nat.zero_le _
  | lands => simp only [Stage.rank]; omega
  | waits => simp only [Turn.to, Stage.rank]; omega
  | stays => exact Nat.le_refl _

theorem run_ends (lines : ∀ stdout, treeText P.sha256 s.tag s.claimsPerDist = some stdout →
      ((captured stdout).splitOn '\n').tail.length = s.claimsPerDist) (events : List Event)
    (turns : 38 * s.claimsPerDist + 63 ≤ events.countP Event.isScript) :
    ((run P dep s).run ⟨.start, [], w⟩ events).stage = .finished ∨
      ((run P dep s).run ⟨.start, [], w⟩ events).stage = .failed := by
  have none_ := @Script.run_ends _ _ P dep (turn P dep s) (Stage.rank s.claimsPerDist)
    (fun w stage => (turn_does P dep s w stage).rank lines) ⟨.start, [], w⟩ events turns
  generalize ((run P dep s).run ⟨.start, [], w⟩ events).stage = stage at none_ ⊢
  cases stage with
  | finished => exact .inl rfl
  | failed => exact .inr rfl
  | start => simp [Stage.rank] at none_
  | initializing => simp [Stage.rank] at none_
  | claiming => simp [Stage.rank] at none_
  | landing => simp [Stage.rank] at none_

end Turns

section Sound

variable {P : Platform} {dep : Deployment} {s : Settings} {d : Nat} {L : Perfect Entry d}
  {lines : List (List Char)}

theorem count_of_standing {w : World} {paid : List (Call × Acceptance)}
    (standing : Standing P dep s.distributor L 100000 w paid) :
    nullifierCount (s.state w) = paid.length := by
  cases standing with
  | drawn fresh nobody =>
      rw [nobody]
      exact nullifierCount_fresh fresh _
  | live requests st tally =>
      rw [Settings.state, nullifierCount_live tally.live, List.length_map, tally.backed.length_eq]

/-- The claims that the script has seen land are no more than were paid. -/
structure Seen (s : Settings) (lines : List (List Char)) (stage : Stage)
    (paid : List (Call × Acceptance)) (log : List LogLine) : Prop where
  landed : ∃ k ≤ paid.length, log.filterMap LogLine.landing = List.range k ∧ stage.After lines k
  built : Buildable s.claimsPerDist ∨ stage = .start ∨ stage = .failed

theorem Seen.turn {w : World} {stage : Stage} {paid : List (Call × Acceptance)} {log : List LogLine}
    (seen : Seen s lines stage paid log) (standing : Standing P dep s.distributor L 100000 w paid)
    (text : ∀ stdout, treeText P.sha256 s.tag s.claimsPerDist = some stdout →
      (captured stdout).splitOn '\n' =
        characters.hexEncode (merkleRoot P.sha256 L).toList :: lines)
    (numbered : ∀ i line, lines[i]? = some line → ∀ idx args, s.claimArgs line = some (idx, args) →
      idx = i) :
    Seen s lines (Evidence.turn P dep s w stage).stage paid
      (log ++ (Evidence.turn P dep s w stage).logged.toList) := by
  obtain ⟨⟨k, enough, landed, after⟩, built⟩ := seen
  have does := turn_does P dep s w stage
  have count := count_of_standing standing
  refine ⟨?_, ?_⟩
  · rw [List.filterMap_append, landed]
    rcases does.after text numbered after with ⟨none_, after'⟩ | ⟨some_, after', found⟩
    · refine ⟨k, enough, ?_, after'⟩
      cases line : (Evidence.turn P dep s w stage).logged with
      | none => exact List.append_nil _
      | some line_ =>
          rw [line, Option.bind_some] at none_
          rw [Option.toList_some, List.filterMap_cons_none none_]
          exact List.append_nil _
    · refine ⟨k + 1, by omega, ?_, after'⟩
      rw [some_, List.range_succ]
      rfl
  · by_cases yes : Buildable s.claimsPerDist
    · exact .inl yes
    · refine .inr (.inr ?_)
      rcases built with built | rfl | rfl
      · exact absurd built yes
      · cases tree : treeText P.sha256 s.tag s.claimsPerDist with
        | none =>
            simp only [Evidence.turn, tree]
            rfl
        | some stdout => exact absurd (buildable_of_treeText tree) yes
      · rfl

theorem keeps (ccpid : parseProgramId s.ccpid = .ok dep.claimCircuitId)
    (text : ∀ stdout, treeText P.sha256 s.tag s.claimsPerDist = some stdout →
      (captured stdout).splitOn '\n' =
        characters.hexEncode (merkleRoot P.sha256 L).toList :: lines)
    (numbered : ∀ i line, lines[i]? = some line → ∀ idx args, s.claimArgs line = some (idx, args) →
      idx = i) :
    Keeps P dep s.distributor L 100000 (turn P dep s) (Seen s lines) where
  sends w stage := (turn_does P dep s w stage).safe ccpid text
  turns _ _ _ _ standing seen := seen.turn standing text numbered
  grows stage paid more log seen := by
    obtain ⟨⟨k, enough, landed, after⟩, built⟩ := seen
    refine ⟨⟨k, ?_, landed, after⟩, built⟩
    rw [List.length_append]
    omega

end Sound

section Lines

variable {H : Sha256} {s : Settings} {d : Nat} {L : Perfect Entry d} {n : Nat}

theorem exists_lines (H : Sha256) (distTag : List Char) (n : Nat) :
    ∃ d, ∃ L : Perfect Entry d, (Buildable n → Tree H distTag n L) ∧
      ∀ stdout, treeText H distTag n = some stdout →
        (captured stdout).splitOn '\n' = characters.hexEncode (merkleRoot H L).toList ::
          (List.range n).map fun i => printLine (lineOf H distTag L i) := by
  by_cases built : Buildable n
  · obtain ⟨d, L, tree⟩ := built.tree H distTag
    exact ⟨d, L, fun _ => tree, fun stdout text => tree.lines text⟩
  · refine ⟨0, ⟨[claimant H distTag 0], rfl⟩, fun built' => absurd built' built, ?_⟩
    intro stdout text
    exact absurd (buildable_of_treeText text) built

theorem getElem?_lines {i : Nat} {line : List Char}
    (here : ((List.range n).map fun i => printLine (lineOf H s.tag L i))[i]? = some line) :
    i < n ∧ line = printLine (lineOf H s.tag L i) := by
  rw [List.getElem?_map, Option.map_eq_some_iff] at here
  obtain ⟨j, found, rfl⟩ := here
  obtain ⟨small, same⟩ := List.getElem?_eq_some_iff.mp found
  rw [List.getElem_range] at same
  rw [List.length_range] at small
  exact ⟨small, by rw [same]⟩

theorem claimArgs_numbered {i idx : Nat} {args : ChainClaimArgs}
    (read : s.claimArgs (printLine (lineOf H s.tag L i)) = some (idx, args)) : idx = i := by
  rw [Settings.claimArgs, readFields_printLine] at read
  simp only [lineOf, Decimal.value_toDigits, Option.bind_eq_bind, Option.bind_some,
    Option.bind_eq_some_iff] at read
  obtain ⟨allocation, -, leafIndex, -, same⟩ := read
  exact (Prod.mk.inj (Option.some.inj same)).1.symm

theorem claimants_sum {distTag : List Char} (bounded : 100 * n < 2 ^ 128) :
    ((claimants H distTag n).map fun e => e.2.toNat).sum = 50 * n * (n + 1) := by
  induction n with
  | zero => rfl
  | succ n ih =>
      have before := ih (by omega)
      have last : (claimant H distTag n).2.toNat = 100 * (n + 1) := by
        rw [claimant, BitVec.toNat_ofNat]
        exact Nat.mod_eq_of_lt bounded
      simp only [claimants, List.range_succ, List.map_append, List.map_singleton,
        List.sum_append, List.sum_singleton, last] at before ⊢
      rw [before]
      ring

/-- As many claims as there are claimants are the claims of all of them. -/
theorem perm_of_backed {D : AccountId} {distTag : List Char} (tree : Tree H distTag n L)
    {requests : List ClaimRequest} (nodup : (requests.map (·.nullifier H D)).Nodup)
    (entries : ∀ r ∈ requests, L.get r.leafIndex.toNat = r.entry) (enough : n ≤ requests.length) :
    (requests.map ClaimRequest.entry).Perm (claimants H distTag n) := by
  have accounts : (requests.map ClaimRequest.accountId).Nodup := by
    apply List.Nodup.of_map fun a => deriveNullifier H a D
    rw [List.map_map]
    exact nodup
  have distinct : (requests.map ClaimRequest.entry).Nodup := by
    apply List.Nodup.of_map Prod.fst
    rw [List.map_map]
    exact accounts
  have once : (requests.map ClaimRequest.entry).Subperm (claimants H distTag n) := by
    apply distinct.subperm
    intro e member
    obtain ⟨r, asked, rfl⟩ := List.mem_map.mp member
    rw [← entries r asked]
    exact tree.members _ (L.get_mem _)
  apply once.perm_of_length_le
  rwa [claimants_length, List.length_map]

end Lines

/-- Whatever others do to the chain meanwhile, short of the key of the distribution
    and of posing as the circuit, the script ends; at every moment it has logged at
    most as many landed claims as were accepted, in order; and if it ends well, every
    claimant has been paid once and nobody else anything, or two strings collide. -/
theorem evidence_run_sound {P : Platform} {dep : Deployment} {s : Settings} {w : World}
    (ccpid : parseProgramId s.ccpid = .ok dep.claimCircuitId)
    (fresh : w s.distributor = Account.fresh) (events : List Event)
    (others : ∀ call, .others call ∈ events → call.Truthful dep ∧ Keyless s.distributor call) :
    let c := (run P dep s).run ⟨.start, [], w⟩ events
    let replies := (run P dep s).replies ⟨.start, [], w⟩ events
    let paid := replies.filterMap (Reply.accepted s.distributor)
    let landed := (replies.filterMap Reply.line).filterMap LogLine.landing
    let n := s.claimsPerDist
    (∃ k ≤ paid.length, landed = List.range k) ∧
    (38 * n + 63 ≤ events.countP Event.isScript → c.stage = .finished ∨ c.stage = .failed) ∧
    (c.stage = .finished → ∃ d, ∃ L : Perfect Entry d, ∃ requests st, Tree P.sha256 s.tag n L ∧
      List.Forall₂ (Backed P.sha256 dep s.distributor L) paid requests ∧
      DistributionState.tryFromSlice (c.world s.distributor).data = some st ∧
      ((landed = List.range n ∧
          (requests.map ClaimRequest.entry).Perm (claimants P.sha256 s.tag n) ∧
          st.spentNullifiers.length = n ∧ st.claimed.toNat = 50 * n * (n + 1) ∧ n ≤ 44) ∨
        ∃ r ∈ requests, Collision P.sha256
          ((hashing P.sha256).treeInputs L ∪ r.inputs P.sha256 s.distributor))) := by
  intro c replies paid landed n
  obtain ⟨d, L, tree, text⟩ := exists_lines P.sha256 s.tag n
  have numbered : ∀ i line, ((List.range n).map fun i => printLine (lineOf P.sha256 s.tag L i))[i]? =
      some line → ∀ idx args, s.claimArgs line = some (idx, args) → idx = i := by
    intro i line here idx args read
    obtain ⟨-, rfl⟩ := getElem?_lines here
    exact claimArgs_numbered read
  have start : Seen s ((List.range n).map fun i => printLine (lineOf P.sha256 s.tag L i)) .start
      [] [] := ⟨⟨0, Nat.le_refl _, rfl, rfl⟩, .inr (.inl rfl)⟩
  have sound := run_sound (keeps ccpid text numbered) start fresh events others
  have lines : ∀ stdout, treeText P.sha256 s.tag n = some stdout →
      ((captured stdout).splitOn '\n').tail.length = n := by
    intro stdout built
    rw [text stdout built, List.tail_cons, List.length_map, List.length_range]
  obtain ⟨⟨k, enough, logged, after⟩, built_⟩ := sound.seen
  refine ⟨⟨k, enough, logged⟩, run_ends lines events, ?_⟩
  intro finished
  have built : Buildable n := by
    rcases built_ with built | start | failed
    · exact built
    · cases finished.symm.trans start
    · cases finished.symm.trans failed
  have seen : n ≤ k := by
    have all : Stage.After _ k c.stage := after
    rw [finished] at all
    simpa [Stage.After] using all
  cases sound.standing with
  | drawn drawn_ nobody =>
      rw [nobody, List.length_nil] at enough
      have positive := built.1
      omega
  | live requests st tally =>
      refine ⟨d, L, requests, st, tree built, tally.backed, tally.live.holds.state, ?_⟩
      by_cases clean : Clean P.sha256 s.distributor L requests
      · apply Or.inl
        have all := perm_of_backed (tree built) tally.live.holds.nodup (tally.entries clean)
          (tally.backed.length_eq ▸ (seen.trans enough))
        have count : st.spentNullifiers.length = n := by
          have lengths := all.length_eq
          rw [List.length_map, claimants_length] at lengths
          rw [tally.live.holds.spentNullifiers, List.length_map, lengths]
        have fits := DistributionState.toVec_lt
          (DistributionState.tryFromSlice_iff.mp tally.live.holds.state)
        have total : asked requests = 50 * n * (n + 1) := by
          rw [← claimants_sum (tree built).bounded, ← (all.map fun e => e.2.toNat).sum_eq, List.map_map]
          rfl
        rw [count] at fits
        have small : 50 * n * (n + 1) < 2 ^ 128 := by
          have square : n * (n + 1) ≤ 2 ^ 32 * 2 ^ 32 := Nat.mul_le_mul fits.le fits
          rw [Nat.mul_assoc]
          omega
        have within := tally.affordable requests.length
        rw [← List.map_take, List.take_length, ← asked_eq, total, Nat.mod_eq_of_lt small] at within
        have limit : 50 * n * (n + 1) ≤ 100000 := within
        have claimed := tally.claimed
        rw [total, Nat.mod_eq_of_lt small] at claimed
        have lengths := all.length_eq
        rw [List.length_map, claimants_length, ← tally.backed.length_eq] at lengths
        obtain rfl : k = n := by omega
        refine ⟨logged, all, count, claimed, ?_⟩
        by_contra many
        have square : 45 * 46 ≤ n * (n + 1) := Nat.mul_le_mul (by omega) (by omega)
        rw [Nat.mul_assoc] at limit
        omega
      · simp only [Clean, not_forall, not_not] at clean
        obtain ⟨r, member, collides⟩ := clean
        exact .inr ⟨r, member, collides⟩

/-- Two claimants, and somebody who claims with a journal of no circuit meanwhile. -/
theorem evidence_run_sound_two :
    let zeros : Bytes32 := Vector.replicate 32 0
    let dep : Deployment := ⟨Vector.replicate 8 1, Vector.replicate 8 2, Vector.replicate 8 0⟩
    let P := Platform.bounded headHash 2000
    let hex := fun pid : ProgramId => characters.hexEncode (pid.toList.flatMap U32.toLeBytes)
    let s : Settings := ⟨hex dep.airdropId, hex dep.claimCircuitId, 2, "alpha".toList, zeros, zeros⟩
    let events : List Event := [.script, .arrives 0, .script, .script, .arrives 0, .script,
      .others (.airdrop .topLevel zeros (.claim [] [])), .script, .arrives 0, .script, .script]
    let c := (run P dep s).run ⟨.start, [], fun _ => Account.fresh⟩ events
    c.stage = .finished ∧
      ∃ st, DistributionState.tryFromSlice (c.world s.distributor).data = some st := by
  intro zeros dep P hex s events c
  have finished :
      ((run P dep s).run ⟨.start, [], fun _ => Account.fresh⟩ events).stage = .finished := by
    decide +kernel
  have others : ∀ call, .others call ∈ events → call.Truthful dep ∧ Keyless s.distributor call := by
    intro call member
    obtain rfl : call = .airdrop .topLevel zeros (.claim [] []) := by simpa [events] using member
    have honest : dep.reported .topLevel ≠ dep.claimCircuitId := by decide
    exact ⟨honest, trivial⟩
  obtain ⟨-, -, ended⟩ := @evidence_run_sound P dep s (fun _ => Account.fresh)
    (parseProgramId_hexEncode _) rfl events others
  obtain ⟨-, -, -, st, -, -, state, -⟩ := ended finished
  exact ⟨finished, st, state⟩

end Evidence

end PrivateAirdrop

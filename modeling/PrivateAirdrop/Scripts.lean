import Mathlib.Data.List.Infix
import PrivateAirdrop.ChainCommands
import PrivateAirdrop.Monitoring
import PrivateAirdrop.Tally

/-! # Scripts on a chain that others use

A script acts in turns. In a turn it may look at the chain, send something and log a
line; what it sends arrives when it arrives, and others use the chain meanwhile. All
it has to go by is text, and what it finds there must be so. Whatever others do, short
of the key of its distribution and of posing as the circuit, what becomes of that
distribution is what its own `initialize` and the claims accepted since make of it.
-/

namespace PrivateAirdrop

open Library
open Library.Alphabet (characters)

namespace Script

/-- What a script does between two looks at the chain. -/
structure Turn (σ ℓ : Type) where
  stage : σ
  sent : List Sent
  logged : Option ℓ

def Turn.to {σ ℓ : Type} (stage : σ) : Turn σ ℓ := ⟨stage, [], none⟩

structure Config (σ : Type) where
  stage : σ
  inFlight : List Sent
  world : World

inductive Event where
  | script
  /-- A transaction in flight reaches the sequencer. -/
  | arrives (k : Nat)
  /-- Anybody else uses the chain. -/
  | others (call : Call)

def Event.isScript : Event → Bool
  | .script => true
  | .arrives _ => false
  | .others _ => false

inductive Reply (ℓ : Type) where
  | quiet
  | logged (line : ℓ)
  | applied (call : Call) (outcome : Outcome)

section Run

variable {σ ℓ : Type}

def Reply.line : Reply ℓ → Option ℓ
  | .logged line => some line
  | .applied _ _ => none
  | .quiet => none

def Reply.accepted (D : AccountId) : Reply ℓ → Option (Call × Acceptance)
  | .applied call outcome => acceptedOn D call outcome
  | .logged _ => none
  | .quiet => none

/-- A script, given by what it does in a turn, on a chain that others use as well. -/
def run (P : Platform) (dep : Deployment) (act : World → σ → Turn σ ℓ) :
    Machine (Config σ) Event (Reply ℓ) where
  step c
    | .script =>
      let done := act c.world c.stage
      (match done.logged with
        | none => .quiet
        | some line => .logged line,
        ⟨done.stage, c.inFlight ++ done.sent, c.world⟩)
    | .arrives k =>
      match c.inFlight[k]? with
      | none => (.quiet, c)
      | some t =>
        if t.Applies c.world then
          let done := (world P dep).step c.world t.call
          (.applied t.call done.1, ⟨c.stage, c.inFlight.eraseIdx k, done.2⟩)
        else (.quiet, ⟨c.stage, c.inFlight.eraseIdx k, c.world⟩)
    | .others call =>
      let done := (world P dep).step c.world call
      (.applied call done.1, { c with world := done.2 })

/-- `$(...)`: the output without the newlines at its end. -/
def captured (stdout : List Char) : List Char :=
  (stdout.reverse.dropWhile fun c => c = '\n').reverse

/-- `grep -q`, for a pattern in which every character stands for itself. -/
def greps (pattern text : List Char) : Bool :=
  (text.splitOn '\n').any fun line => pattern <:+: line

variable {P : Platform} {dep : Deployment} {act : World → σ → Turn σ ℓ} {D : AccountId}
  {w : World}

theorem run_step_stage (c : Config σ) (event : Event) :
    ((run P dep act).step c event).2.stage =
      if event.isScript then (act c.world c.stage).stage else c.stage := by
  cases event with
  | script => rfl
  | others call => rfl
  | arrives k =>
      simp only [run]
      split
      · rfl
      · split <;> rfl

theorem run_script (c : Config σ) : ((run P dep act).step c .script).2 =
    ⟨(act c.world c.stage).stage, c.inFlight ++ (act c.world c.stage).sent, c.world⟩ := rfl

/-- What every turn lowers is used up after so many turns, whatever others do. -/
theorem run_ends {rank : σ → Nat}
    (lowers : ∀ w stage, rank (act w stage).stage ≤ rank stage - 1) (c : Config σ)
    (events : List Event) (turns : rank c.stage ≤ events.countP Event.isScript) :
    rank ((run P dep act).run c events).stage = 0 := by
  let left : Config σ → Nat := fun c => rank c.stage
  have scripted : ∀ c event, Event.isScript event = true →
      left ((run P dep act).step c event).2 ≤ left c - 1 := by
    intro c event chosen
    simp only [left, run_step_stage, if_pos chosen]
    exact lowers _ _
  have keeps : ∀ c event, left ((run P dep act).step c event).2 ≤ left c := by
    intro c event
    by_cases chosen : event.isScript = true
    · exact Nat.le_trans (scripted c event chosen) (Nat.sub_le _ _)
    · simp only [left, run_step_stage, if_neg chosen, Nat.le_refl]
  have ranked := (run P dep act).run_rank_le scripted keeps c events
  show left _ = 0
  have first : left c = rank c.stage := rfl
  omega

/-- What a script may send, and what others may call. -/
def Safe (dep : Deployment) (D : AccountId) (root : Bytes32) (supply : U128) (call : Call) : Prop :=
  (call.Truthful dep ∧ Keyless D call) ∨ call = creationOf dep D root supply

/-- The chain, what is in flight and what the script has seen belong together. -/
structure Sound (P : Platform) (dep : Deployment) (D : AccountId) {d : Nat} (L : Perfect Entry d)
    (supply : U128) (Seen : σ → List (Call × Acceptance) → List ℓ → Prop) (c : Config σ)
    (replies : List (Reply ℓ)) : Prop where
  flight : ∀ t ∈ c.inFlight, Safe dep D (merkleRoot P.sha256 L) supply t.call
  standing : Standing P dep D L supply c.world (replies.filterMap (Reply.accepted D))
  seen : Seen c.stage (replies.filterMap (Reply.accepted D)) (replies.filterMap Reply.line)

/-- What a turn has to see to. -/
structure Keeps (P : Platform) (dep : Deployment) (D : AccountId) {d : Nat} (L : Perfect Entry d)
    (supply : U128) (act : World → σ → Turn σ ℓ)
    (Seen : σ → List (Call × Acceptance) → List ℓ → Prop) : Prop where
  sends : ∀ w stage, ∀ t ∈ (act w stage).sent, Safe dep D (merkleRoot P.sha256 L) supply t.call
  turns : ∀ w stage paid log, Standing P dep D L supply w paid → Seen stage paid log →
    Seen (act w stage).stage paid (log ++ (act w stage).logged.toList)
  grows : ∀ stage paid more log, Seen stage paid log → Seen stage (paid ++ more) log

variable {d : Nat} {L : Perfect Entry d} {supply : U128}
  {Seen : σ → List (Call × Acceptance) → List ℓ → Prop} {c : Config σ} {replies : List (Reply ℓ)}

theorem filterMap_concat {α β : Type} (f : α → Option β) (l : List α) (a : α) :
    (l ++ [a]).filterMap f = l.filterMap f ++ (f a).toList := by
  rw [List.filterMap_append]
  cases h : f a <;> simp [h]

theorem Sound.call (sound : Sound P dep D L supply Seen c replies)
    (keeps : Keeps P dep D L supply act Seen) {call : Call}
    (safe : Safe dep D (merkleRoot P.sha256 L) supply call) {inFlight : List Sent}
    (fewer : ∀ t ∈ inFlight, t ∈ c.inFlight) :
    Sound P dep D L supply Seen ⟨c.stage, inFlight, ((world P dep).step c.world call).2⟩
      (replies ++ [.applied call ((world P dep).step c.world call).1]) := by
  refine ⟨fun t member => sound.flight t (fewer t member), ?_, ?_⟩
  · rw [filterMap_concat]
    exact sound.standing.step safe
  · rw [filterMap_concat, filterMap_concat]
    have seen := keeps.grows _ _ (Reply.accepted D
      (.applied call ((world P dep).step c.world call).1 : Reply ℓ)).toList _ sound.seen
    rwa [← List.append_nil (replies.filterMap Reply.line)] at seen

theorem Sound.quiet (sound : Sound P dep D L supply Seen c replies) {inFlight : List Sent}
    (fewer : ∀ t ∈ inFlight, t ∈ c.inFlight) :
    Sound P dep D L supply Seen ⟨c.stage, inFlight, c.world⟩ (replies ++ [.quiet]) := by
  have nothing : ∀ {β : Type} (f : Reply ℓ → Option β), f .quiet = none →
      (replies ++ [Reply.quiet]).filterMap f = replies.filterMap f := by
    intro β f none_
    rw [filterMap_concat, none_, Option.toList_none, List.append_nil]
  refine ⟨fun t member => sound.flight t (fewer t member), ?_, ?_⟩
  · rw [nothing _ rfl]
    exact sound.standing
  · rw [nothing _ rfl, nothing _ rfl]
    exact sound.seen

theorem Sound.turn (sound : Sound P dep D L supply Seen c replies)
    (keeps : Keeps P dep D L supply act Seen) :
    Sound P dep D L supply Seen ((run P dep act).step c .script).2
      (replies ++ [((run P dep act).step c .script).1]) := by
  have unpaid : Reply.accepted D ((run P dep act).step c .script).1 = none := by
    simp only [run]
    split <;> rfl
  have line : Reply.line ((run P dep act).step c .script).1 = (act c.world c.stage).logged := by
    simp only [run]
    split <;> rename_i logged <;> rw [logged] <;> rfl
  refine ⟨?_, ?_, ?_⟩
  · intro t member
    rcases List.mem_append.mp member with old | new
    · exact sound.flight t old
    · exact keeps.sends _ _ t new
  · rw [filterMap_concat, unpaid, Option.toList_none, List.append_nil]
    exact sound.standing
  · rw [filterMap_concat, unpaid, Option.toList_none, List.append_nil, filterMap_concat, line]
    exact keeps.turns _ _ _ _ sound.standing sound.seen

theorem run_sound {stage : σ} (keeps : Keeps P dep D L supply act Seen) (start : Seen stage [] [])
    (fresh : w D = Account.fresh) (events : List Event)
    (others : ∀ call, .others call ∈ events → call.Truthful dep ∧ Keyless D call) :
    Sound P dep D L supply Seen ((run P dep act).run ⟨stage, [], w⟩ events)
      ((run P dep act).replies ⟨stage, [], w⟩ events) := by
  apply (run P dep act).run_replies_along events
  · intro before event replies inside sound
    generalize (run P dep act).run ⟨stage, [], w⟩ before = c at sound ⊢
    cases event with
    | script => exact sound.turn keeps
    | others call =>
        have called : .others call ∈ events := inside.subset (by simp)
        exact sound.call keeps (.inl (others call called)) fun t member => member
    | arrives k =>
        have fewer : ∀ t ∈ c.inFlight.eraseIdx k, t ∈ c.inFlight :=
          fun t member => List.mem_of_mem_eraseIdx member
        simp only [run]
        split
        · exact sound.quiet fun t member => member
        · rename_i t found
          split
          · exact sound.call keeps (sound.flight t (List.mem_of_getElem? found)) fewer
          · exact sound.quiet fewer
  · exact ⟨fun t member => absurd member List.not_mem_nil, .drawn fresh rfl, start⟩

/-- What was sent has arrived by the last look for it. -/
def Timely (P : Platform) (dep : Deployment) (act : World → σ → Turn σ ℓ) (lastLook : σ → Bool) :
    Config σ → List Event → Prop
  | _, [] => True
  | c, event :: events =>
    (event.isScript = true → lastLook c.stage = true → c.inFlight = []) ∧
      Timely P dep act lastLook ((run P dep act).step c event).2 events

theorem arrives_nil (stage : σ) (w : World) (k : Nat) :
    ((run P dep act).step ⟨stage, [], w⟩ (.arrives k)).2 = ⟨stage, [], w⟩ := by
  simp [run]

theorem arrives_succ (stage : σ) (t : Sent) (w : World) (k : Nat) :
    ((run P dep act).step ⟨stage, [t], w⟩ (.arrives (k + 1))).2 = ⟨stage, [t], w⟩ := by
  simp [run]

theorem arrives_zero (stage : σ) (t : Sent) {w : World} (applies : t.Applies w) :
    ((run P dep act).step ⟨stage, [t], w⟩ (.arrives 0)).2 =
      ⟨stage, [], ((world P dep).step w t.call).2⟩ := by
  simp [run, applies]

end Run

section Commands

variable {P : Platform} {dep : Deployment} {D claimerNote : AccountId} {w : World} {root : Bytes32}

theorem chainInitialize_eq {args : ChainInitializeArgs} {pid : ProgramId}
    (adpid : parseProgramId args.programId = .ok pid)
    (ccpid : parseProgramId args.claimCircuitProgramId = .ok dep.claimCircuitId)
    (key : args.signingKey = .ok D) (parsed : parseHex32 args.merkleRoot = .ok root) :
    chainInitialize dep args = .ok (if pid = dep.airdropId then
      [⟨creationOf dep D root args.totalSupply, none⟩] else []) := by
  have words := decode_instrInitialize ⟨root, dep.claimCircuitId, args.totalSupply⟩ []
  rw [List.append_nil] at words
  have command : chainInitializeCommand args =
      .ok (pid, D, instrInitialize root dep.claimCircuitId args.totalSupply) := by
    simp only [chainInitializeCommand, adpid, ccpid, key, parsed]
    rfl
  rw [chainInitialize, command]
  show Except.ok (sendSignedCall dep pid D _) = _
  rw [sendSignedCall, words]
  rfl

theorem chainInitialize_safe {args : ChainInitializeArgs} {sent : List Sent}
    (sends : chainInitialize dep args = .ok sent)
    (ccpid : parseProgramId args.claimCircuitProgramId = .ok dep.claimCircuitId)
    (key : args.signingKey = .ok D) (parsed : parseHex32 args.merkleRoot = .ok root) :
    ∀ t ∈ sent, Safe dep D root args.totalSupply t.call := by
  intro t member
  cases adpid : parseProgramId args.programId with
  | error e =>
      rw [chainInitialize, chainInitializeCommand, adpid] at sends
      cases sends
  | ok pid =>
      rw [chainInitialize_eq adpid ccpid key parsed] at sends
      cases sends
      split at member
      · rw [List.mem_singleton.mp member]
        exact .inr rfl
      · cases member

theorem chainClaim_safe {args : ChainClaimArgs} {t : Sent} {supply : U128}
    (sent : chainClaim P dep w claimerNote args = some t) : Safe dep D root supply t.call := by
  have call : ∃ did r, t.call = .submitClaim did claimerNote r := by
    unfold chainClaim sendClaimPpe at sent
    split at sent
    · cases sent
    · split at sent
      · cases sent
      · split at sent
        · cases sent
          exact ⟨_, _, rfl⟩
        · cases sent
        · cases sent
  obtain ⟨did, r, call⟩ := call
  rw [call]
  exact .inl ⟨trivial, trivial⟩

end Commands

section Looks

theorem splitOn_two_lines {first second : List Char} (first_ : '\n' ∉ first)
    (second_ : '\n' ∉ second) :
    (first ++ ['\n'] ++ (second ++ ['\n'])).splitOn '\n' = [first, second, []] := by
  rw [List.append_assoc, List.singleton_append, List.splitOn_append_cons_self_of_not_mem first_,
    List.splitOn_append_cons_self_of_not_mem second_, List.splitOn_nil]

theorem chainState_split (data : List UInt8) (owner : ProgramId) :
    (chainState data owner).splitOn '\n' =
      ["program_owner: ".toList ++ characters.hexEncode (owner.toList.flatMap U32.toLeBytes),
        "data (".toList ++ Nat.toDigits 10 data.length ++ " bytes): ".toList ++
          characters.hexEncode data, []] := by
  have hex : ∀ bytes, '\n' ∉ characters.hexEncode bytes :=
    fun bytes => characters.not_mem_hexEncode (by decide)
  unfold chainState
  apply splitOn_two_lines
  · simp [hex]
  · simp [hex, not_mem_toDigits]

/-- Only the label of the owner's line has a `p` in it, so an id is found nowhere else. -/
theorem owner_of_infix {data : List UInt8} {owner : ProgramId} {id line : List Char}
    (member : line ∈ (chainState data owner).splitOn '\n')
    (found : "program_owner: ".toList ++ id <:+: line) :
    id <+: characters.hexEncode (owner.toList.flatMap U32.toLeBytes) := by
  have label : "program_owner: ".toList = 'p' :: "rogram_owner: ".toList := by simp
  have hex : ∀ bytes, 'p' ∉ characters.hexEncode bytes :=
    fun bytes => characters.not_mem_hexEncode (by decide)
  have here : 'p' ∈ line := found.subset (by simp)
  rw [chainState_split] at member
  simp only [List.mem_cons, List.not_mem_nil, or_false] at member
  rcases member with rfl | rfl | rfl
  · obtain ⟨before, after, same⟩ := found
    cases before with
    | nil =>
        rw [List.nil_append, List.append_assoc] at same
        exact ⟨after, List.append_cancel_left same⟩
    | cons c before =>
        rw [label, List.cons_append, List.cons_append, List.cons_append, List.cons_append] at same
        have later := (List.cons.inj same).2
        have again : 'p' ∈ "rogram_owner: ".toList ++
            characters.hexEncode (owner.toList.flatMap U32.toLeBytes) := by
          rw [← later]
          simp
        simp [hex] at again
  · simp [hex, not_mem_toDigits] at here
  · cases here

theorem owner_of_greps {data : List UInt8} {owner id : ProgramId} {text : List Char}
    (sees : greps ("program_owner: ".toList ++ text) (chainState data owner) = true)
    (parsed : parseProgramId text = .ok id) : owner = id := by
  obtain ⟨line, member, found⟩ := List.any_eq_true.mp sees
  have start := owner_of_infix member (of_decide_eq_true found)
  have whole : text.length =
      (characters.hexEncode (owner.toList.flatMap U32.toLeBytes)).length := by
    rw [length_of_parseProgramId parsed]
    simp [List.length_flatMap]
  rw [start.eq_of_length whole, parseProgramId_hexEncode] at parsed
  exact Except.ok.inj parsed

end Looks

end Script

end PrivateAirdrop

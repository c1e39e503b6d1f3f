import PrivateAirdrop.Library.Ledger
import PrivateAirdrop.ClaimCircuit

/-! # Runs of claims on one distribution

`applyClaims` calls `apply_claim` again and again on one mutable state, and
`claims` calls the on-chain `claim` on one account, whose data a rejected call
leaves as it was. The first is compared with a ledger that adds without wrapping,
the second with the list of nullifiers its accepted claims carried.
-/

namespace PrivateAirdrop

open Library

def failed {ε α : Type} : Except ε α → Bool
  | .ok _ => false
  | .error _ => true

/-- One call of `apply_claim`. -/
structure Attempt where
  journal : ClaimJournal
  distributorId : Bytes32
  recipientNote : List UInt8

def applyClaims (H : Sha256) : Machine DistributionState Attempt (Except SpelError Unit) where
  step s c := exec (applyClaim H c.journal c.distributorId c.recipientNote) s

/-- The allocation of an accepted claim. -/
def paid (c : Attempt) : Except SpelError Unit → Option Nat
  | .ok _ => some c.journal.allocation.toNat
  | .error _ => none

section Mutation

variable {H : Sha256} {s : DistributionState} {c : Attempt}

theorem applyClaims_refused {e : SpelError}
    (h : refusal H s c.journal c.distributorId c.recipientNote = some e) :
    (applyClaims H).step s c = (.error e, s) := by
  simp only [applyClaims, exec_applyClaim, h]

theorem applyClaims_accepted
    (h : refusal H s c.journal c.distributorId c.recipientNote = none) :
    (applyClaims H).step s c = (.ok (), s.record c.journal) := by
  simp only [applyClaims, exec_applyClaim, h]

theorem applyClaims_silent (H : Sha256) : (applyClaims H).Silent failed := by
  intro s c rejected
  cases h : refusal H s c.journal c.distributorId c.recipientNote with
  | some e => rw [applyClaims_refused h]
  | none =>
      rw [applyClaims_accepted h] at rejected
      cases rejected

/-- A claim that passes every check only because its sum wrapped: the exact sum
    does not fit 128 bits, and what remains of it is within the supply. -/
structure Overflows (H : Sha256) (s : DistributionState) (c : Attempt) : Prop where
  distributor : c.journal.distributorId = c.distributorId
  root : c.journal.merkleRoot = s.merkleRoot
  note : H c.recipientNote = c.journal.recipientNoteHash
  fresh : c.journal.nullifier ∉ s.spentNullifiers
  wraps : 2 ^ 128 ≤ s.claimed.toNat + c.journal.allocation.toNat
  lands : s.claimed.toNat + c.journal.allocation.toNat ≤ 2 ^ 128 + s.totalSupply.toNat

theorem sum_within_iff {claimed allocation supply : U128} : claimed + allocation ≤ supply ↔
    claimed.toNat + allocation.toNat ≤ supply.toNat ∨
      (2 ^ 128 ≤ claimed.toNat + allocation.toNat ∧
        claimed.toNat + allocation.toNat ≤ 2 ^ 128 + supply.toNat) := by
  have below := claimed.isLt
  have below' := allocation.isLt
  have below'' := supply.isLt
  rw [BitVec.le_def, BitVec.toNat_add]
  omega

theorem Overflows.accepted (h : Overflows H s c) :
    refusal H s c.journal c.distributorId c.recipientNote = none :=
  refusal_none_iff.mpr
    ⟨h.distributor, h.root, h.note, h.fresh, sum_within_iff.mpr (.inr ⟨h.wraps, h.lands⟩)⟩

theorem Overflows.decreases (h : Overflows H s c) :
    ((applyClaims H).step s c).2.claimed < s.claimed := by
  have below := s.claimed.isLt
  have below' := c.journal.allocation.isLt
  have wraps := h.wraps
  rw [applyClaims_accepted h.accepted, BitVec.lt_def, DistributionState.record_claimed,
    BitVec.toNat_add]
  omega

end Mutation

/-- The state holds the figures of a ledger that adds exactly. -/
structure Books (s : DistributionState) (l : Ledger Bytes32) : Prop where
  cap : l.cap = s.totalSupply.toNat
  tickets : l.tickets = s.spentNullifiers
  total : l.total = s.claimed.toNat

theorem books_initial (root : Bytes32) (ccid : ProgramId) (supply : U128) :
    Books (.initial root ccid supply) (.empty Bytes32 supply.toNat) := ⟨rfl, rfl, rfl⟩

section Exact

variable {H : Sha256} {s : DistributionState} {l : Ledger Bytes32} {c : Attempt}

theorem Books.accepts_iff (books : Books s l) (safe : ¬ Overflows H s c) :
    refusal H s c.journal c.distributorId c.recipientNote = none ↔
      c.journal.distributorId = c.distributorId ∧ c.journal.merkleRoot = s.merkleRoot ∧
        H c.recipientNote = c.journal.recipientNoteHash ∧
        l.Admits c.journal.nullifier c.journal.allocation.toNat := by
  rw [refusal_none_iff, Ledger.Admits, books.tickets, books.total, books.cap, sum_within_iff]
  constructor
  · intro h
    obtain ⟨distributor, root, note, fresh, within⟩ := h
    refine ⟨distributor, root, note, fresh, ?_⟩
    cases within with
    | inl exact_ => exact exact_
    | inr wrapped =>
        exact absurd ⟨distributor, root, note, fresh, wrapped.1, wrapped.2⟩ safe
  · intro h
    obtain ⟨distributor, root, note, fresh, within⟩ := h
    exact ⟨distributor, root, note, fresh, .inl within⟩

theorem Books.record (books : Books s l) {j : ClaimJournal}
    (room : l.Admits j.nullifier j.allocation.toNat) :
    Books (s.record j) (l.pay j.nullifier j.allocation.toNat room) where
  cap := books.cap
  tickets := by rw [Ledger.pay_tickets, books.tickets, DistributionState.record_spentNullifiers]
  total := by
    have within : l.total + j.allocation.toNat ≤ l.cap := room.2
    have below := s.totalSupply.isLt
    rw [books.total, books.cap] at within
    rw [Ledger.pay_total, books.total, DistributionState.record_claimed, BitVec.toNat_add]
    omega

theorem Books.step (books : Books s l) (safe : ¬ Overflows H s c) :
    ∃ l', Books ((applyClaims H).step s c).2 l' ∧
      l'.amounts = l.amounts ++ (paid c ((applyClaims H).step s c).1).toList := by
  cases h : refusal H s c.journal c.distributorId c.recipientNote with
  | some e =>
      rw [applyClaims_refused h]
      exact ⟨l, books, (List.append_nil _).symm⟩
  | none =>
      rw [applyClaims_accepted h]
      obtain ⟨-, -, -, room⟩ := (books.accepts_iff safe).mp h
      exact ⟨_, books.record room, Ledger.pay_amounts room⟩

end Exact

/-- What the accepted claims of a run were allocated, added without wrapping. -/
def acceptedTotal (H : Sha256) (s : DistributionState) (calls : List Attempt) : Nat :=
  ((applyClaims H).log paid s calls).sum

/-- At every step of a run `claimed` is the exact sum of the accepted allocations,
    no more than the supply and no less than before. -/
structure Conserved (H : Sha256) (s : DistributionState) (calls : List Attempt) : Prop where
  exact_sum : ∀ before, before <+: calls →
    ((applyClaims H).run s before).claimed.toNat = acceptedTotal H s before
  within : ∀ before, before <+: calls → acceptedTotal H s before ≤ s.totalSupply.toNat
  grows : ∀ before c, before ++ [c] <+: calls →
    ((applyClaims H).run s before).claimed ≤ ((applyClaims H).run s (before ++ [c])).claimed

theorem run_books {H : Sha256} {s : DistributionState} {l : Ledger Bytes32} (books : Books s l)
    (none_ : l.amounts = []) {calls : List Attempt}
    (safe : ∀ before c, before ++ [c] <+: calls →
      ¬ Overflows H ((applyClaims H).run s before) c) :
    ∃ l', Books ((applyClaims H).run s calls) l' ∧
      l'.amounts = (applyClaims H).log paid s calls := by
  apply (applyClaims H).run_log_along (R := fun s log => ∃ l, Books s l ∧ l.amounts = log) calls
  · rintro before c log inside ⟨l', books', rfl⟩
    exact books'.step (safe before c inside)
  · exact ⟨l, books, none_⟩

@[simp] theorem applyClaims_totalSupply (H : Sha256) (s : DistributionState)
    (calls : List Attempt) : ((applyClaims H).run s calls).totalSupply = s.totalSupply := by
  apply (applyClaims H).run_invariant (I := fun t => t.totalSupply = s.totalSupply)
  · intro t c same
    cases h : refusal H t c.journal c.distributorId c.recipientNote with
    | some e => rw [applyClaims_refused h, same]
    | none => rw [applyClaims_accepted h, DistributionState.record_totalSupply, same]
  · rfl

/-- Supply is conserved in exactly the runs in which no accepted sum overflows. -/
theorem conserved_iff (H : Sha256) (root : Bytes32) (ccid : ProgramId) (supply : U128)
    (calls : List Attempt) :
    Conserved H (.initial root ccid supply) calls ↔
      ∀ before c, before ++ [c] <+: calls →
        ¬ Overflows H ((applyClaims H).run (.initial root ccid supply) before) c := by
  constructor
  · intro conserved before c inside overflows
    have grows := conserved.grows before c inside
    rw [Machine.run_append, Machine.run_singleton] at grows
    exact BitVec.not_le.mpr overflows.decreases grows
  · intro safe
    have accounts : ∀ before, before <+: calls →
        ((applyClaims H).run (.initial root ccid supply) before).claimed.toNat =
            acceptedTotal H (.initial root ccid supply) before ∧
          acceptedTotal H (.initial root ccid supply) before ≤ supply.toNat := by
      intro before inside
      obtain ⟨l, books, amounts⟩ := run_books (books_initial root ccid supply) rfl
        fun before' c within => safe before' c (within.trans inside)
      have total : l.total = acceptedTotal H (.initial root ccid supply) before :=
        congrArg List.sum amounts
      have cap := l.total_le_cap
      rw [books.cap, applyClaims_totalSupply, total] at cap
      exact ⟨books.total.symm.trans total, cap⟩
    refine ⟨fun before inside => (accounts before inside).1,
      fun before inside => (accounts before inside).2, ?_⟩
    intro before c inside
    obtain ⟨now, -⟩ := accounts before ((List.prefix_append ..).trans inside)
    obtain ⟨next, -⟩ := accounts (before ++ [c]) inside
    rw [BitVec.le_def, now, next, acceptedTotal, acceptedTotal, Machine.log_append, List.sum_append]
    exact Nat.le_add_right _ _

/-- A claim of 1 followed by one of `2 ^ 128 - 1`: the counter returns to 0. -/
theorem not_conserved_on_wrap :
    let zeros : Bytes32 := Vector.replicate 32 0
    let first : Attempt := ⟨⟨zeros, zeros, zeros, 1, zeros⟩, zeros, []⟩
    let second : Attempt :=
      ⟨⟨zeros, Vector.replicate 32 1, zeros, BitVec.allOnes 128, zeros⟩, zeros, []⟩
    ¬ Conserved (fun _ => zeros) (.initial zeros (Vector.replicate 8 0) 10) [first, second] := by
  intro zeros first second conserved
  have grows := conserved.grows [first] second (List.prefix_refl _)
  exact absurd grows (by decide)

/-- The call that claims a journal with a note on one distribution. -/
def attempt (D : Bytes32) (c : ClaimJournal × List UInt8) : Attempt := ⟨c.1, D, c.2⟩

/-- The first three checks, which no accepted claim changes. -/
def Matches (H : Sha256) (s : DistributionState) (D : Bytes32) (c : ClaimJournal × List UInt8) :
    Prop :=
  c.1.distributorId = D ∧ c.1.merkleRoot = s.merkleRoot ∧ H c.2 = c.1.recipientNoteHash

/-- What the exact ledger books for a claim. -/
def payment (c : ClaimJournal × List UInt8) : Bytes32 × Nat := (c.1.nullifier, c.1.allocation.toNat)

/-- A state from which claims were paid: the nullifiers are appended in their order,
    the exact sum is added, the configuration is kept. -/
structure PaidOut (s : DistributionState) (paid : List (Bytes32 × Nat)) (t : DistributionState) :
    Prop where
  merkleRoot : t.merkleRoot = s.merkleRoot
  claimCircuitProgramId : t.claimCircuitProgramId = s.claimCircuitProgramId
  totalSupply : t.totalSupply = s.totalSupply
  claimed : t.claimed.toNat = s.claimed.toNat + (paid.map Prod.snd).sum
  spentNullifiers : t.spentNullifiers = s.spentNullifiers ++ paid.map Prod.fst

section AnyOrder

variable {H : Sha256} {s : DistributionState} {D : Bytes32}

theorem attempt_accepted {c : ClaimJournal × List UInt8} (matching : Matches H s D c)
    (fresh : c.1.nullifier ∉ s.spentNullifiers)
    (within : s.claimed.toNat + c.1.allocation.toNat ≤ s.totalSupply.toNat) :
    (applyClaims H).step s (attempt D c) = (.ok (), s.record c.1) ∧
      (s.record c.1).claimed.toNat = s.claimed.toNat + c.1.allocation.toNat := by
  have supply := s.totalSupply.isLt
  obtain ⟨distributor, root, note⟩ := matching
  constructor
  · apply applyClaims_accepted
    exact refusal_none_iff.mpr ⟨distributor, root, note, fresh, sum_within_iff.mpr (.inl within)⟩
  · rw [DistributionState.record_claimed, BitVec.toNat_add]
    omega

theorem run_fits {claims : List (ClaimJournal × List UInt8)}
    (matching : ∀ c ∈ claims, Matches H s D c)
    (fits : Fits s.spentNullifiers s.claimed.toNat s.totalSupply.toNat (claims.map payment)) :
    (applyClaims H).replies s (claims.map (attempt D)) = claims.map (fun _ => .ok ()) ∧
      PaidOut s (claims.map payment) ((applyClaims H).run s (claims.map (attempt D))) := by
  induction claims generalizing s with
  | nil => exact ⟨rfl, rfl, rfl, rfl, rfl, (List.append_nil _).symm⟩
  | cons c claims ih =>
      obtain ⟨fresh, within, rest⟩ := fits.first
      obtain ⟨step, sum⟩ := attempt_accepted (matching c List.mem_cons_self) fresh within
      have later : ∀ c' ∈ claims, Matches H (s.record c.1) D c' :=
        fun c' member => matching c' (List.mem_cons_of_mem _ member)
      rw [← sum] at rest
      obtain ⟨replies, paid⟩ := ih later rest
      simp only [List.map_cons, Machine.replies, Machine.run, step]
      refine ⟨congrArg (List.cons _) replies, paid.merkleRoot, paid.claimCircuitProgramId,
        paid.totalSupply, ?_, ?_⟩
      · rw [paid.claimed, sum, List.map_cons, List.sum_cons, payment, Nat.add_assoc]
      · rw [paid.spentNullifiers, DistributionState.record_spentNullifiers, List.append_assoc]
        rfl

/-- Claims that all fit are accepted in every order, and any two orders end in the
    same configuration and the same exact sum, with the same nullifiers spent. -/
theorem claim_order_irrelevant {claims : List (ClaimJournal × List UInt8)}
    (matching : ∀ c ∈ claims,
      c.1.distributorId = D ∧ c.1.merkleRoot = s.merkleRoot ∧ H c.2 = c.1.recipientNoteHash)
    (distinct : (claims.map fun c => c.1.nullifier).Nodup)
    (fresh : ∀ c ∈ claims, c.1.nullifier ∉ s.spentNullifiers)
    (within : s.claimed.toNat + (claims.map fun c => c.1.allocation.toNat).sum ≤
      s.totalSupply.toNat)
    {first second : List (ClaimJournal × List UInt8)} (order₁ : first.Perm claims)
    (order₂ : second.Perm claims) :
    let final₁ := (applyClaims H).run s (first.map (attempt D))
    let final₂ := (applyClaims H).run s (second.map (attempt D))
    (applyClaims H).replies s (first.map (attempt D)) = first.map (fun _ => .ok ()) ∧
      final₁.merkleRoot = final₂.merkleRoot ∧
      final₁.claimCircuitProgramId = final₂.claimCircuitProgramId ∧
      final₁.totalSupply = final₂.totalSupply ∧
      final₁.claimed = final₂.claimed ∧
      final₁.claimed.toNat =
        s.claimed.toNat + (claims.map fun c => c.1.allocation.toNat).sum ∧
      final₁.spentNullifiers.Perm final₂.spentNullifiers ∧
      s.spentNullifiers <+: final₁.spentNullifiers ∧
      s.spentNullifiers <+: final₂.spentNullifiers := by
  have fits : Fits s.spentNullifiers s.claimed.toNat s.totalSupply.toNat (claims.map payment) := by
    refine ⟨?_, ?_, ?_⟩
    · rw [List.map_map]
      exact distinct
    · intro nullifier paid
      rw [List.map_map] at paid
      obtain ⟨c, member, rfl⟩ := List.mem_map.mp paid
      exact fresh c member
    · rw [List.map_map]
      exact within
  have run : ∀ {order : List (ClaimJournal × List UInt8)}, order.Perm claims →
      (applyClaims H).replies s (order.map (attempt D)) = order.map (fun _ => .ok ()) ∧
        PaidOut s (order.map payment) ((applyClaims H).run s (order.map (attempt D))) := by
    intro order same
    exact run_fits (fun c member => matching c (same.mem_iff.mp member))
      (fits.perm (same.map payment))
  have sum : ∀ {order : List (ClaimJournal × List UInt8)}, order.Perm claims →
      ((order.map payment).map Prod.snd).sum = (claims.map fun c => c.1.allocation.toNat).sum := by
    intro order same
    rw [List.map_map]
    exact (same.map _).sum_eq
  obtain ⟨accepted, paid₁⟩ := run order₁
  obtain ⟨-, paid₂⟩ := run order₂
  have claimed₁ := paid₁.claimed
  have claimed₂ := paid₂.claimed
  rw [sum order₁] at claimed₁
  rw [sum order₂] at claimed₂
  refine ⟨accepted, paid₁.merkleRoot.trans paid₂.merkleRoot.symm,
    paid₁.claimCircuitProgramId.trans paid₂.claimCircuitProgramId.symm,
    paid₁.totalSupply.trans paid₂.totalSupply.symm,
    BitVec.eq_of_toNat_eq (claimed₁.trans claimed₂.symm), claimed₁, ?_, ?_, ?_⟩
  · rw [paid₁.spentNullifiers, paid₂.spentNullifiers]
    exact (((order₁.trans order₂.symm).map payment).map Prod.fst).append_left _
  · rw [paid₁.spentNullifiers]
    exact List.prefix_append ..
  · rw [paid₂.spentNullifiers]
    exact List.prefix_append ..

end AnyOrder

/-- Two claims that use up the supply, in both orders. -/
theorem claim_order_irrelevant_two :
    let zeros : Bytes32 := Vector.replicate 32 0
    let H : Sha256 := fun _ => zeros
    let s := DistributionState.initial zeros (Vector.replicate 8 0) 10
    let c₁ : ClaimJournal × List UInt8 := (⟨zeros, zeros, zeros, 4, zeros⟩, [])
    let c₂ : ClaimJournal × List UInt8 := (⟨zeros, Vector.replicate 32 1, zeros, 6, zeros⟩, [1])
    let final₁ := (applyClaims H).run s ([c₁, c₂].map (attempt zeros))
    let final₂ := (applyClaims H).run s ([c₂, c₁].map (attempt zeros))
    final₁.claimed = final₂.claimed ∧
      final₁.spentNullifiers.Perm final₂.spentNullifiers := by
  intro zeros H s c₁ c₂ final₁ final₂
  obtain ⟨-, -, -, -, claimed, -, spent, -⟩ :=
    claim_order_irrelevant (H := H) (s := s) (D := zeros) (by decide) (by decide) (by decide)
      (by decide) (.refl [c₁, c₂]) (.swap c₁ c₂ [])
  exact ⟨claimed, spent⟩

/-- A call of `claim`, whoever makes it. -/
structure ClaimCall where
  callerProgramId : ProgramId
  journalBytes : List UInt8
  recipientNote : List UInt8

/-- A rejected call has no output, so the account stays as it was. -/
def claims (P : Platform) : Machine AccountWithMetadata ClaimCall (Except SpelError Unit) where
  step a c :=
    match claim P ⟨c.callerProgramId⟩ a c.journalBytes c.recipientNote with
    | .ok out => (.ok (), out.postStates.headD a)
    | .error e => (.error e, a)

/-- The nullifier of an accepted claim. -/
def spent (c : ClaimCall) : Except SpelError Unit → Option Bytes32
  | .ok _ => (ClaimJournal.tryFromSlice c.journalBytes).map ClaimJournal.nullifier
  | .error _ => none

section OnChain

variable {P : Platform} {a : AccountWithMetadata} {c : ClaimCall}

theorem claims_step_cases (P : Platform) (a : AccountWithMetadata) (c : ClaimCall) :
    (∃ e, (claims P).step a c = (.error e, a)) ∨
    (∃ s j data, Accepted P c.callerProgramId a.accountId a.account.data c.journalBytes
        c.recipientNote s j data ∧
      (claims P).step a c = (.ok (), a.withData data)) := by
  cases run : claim P ⟨c.callerProgramId⟩ a c.journalBytes c.recipientNote with
  | error e => exact .inl ⟨e, by simp only [claims, run]⟩
  | ok out =>
      obtain ⟨s, j, data, accepted, rfl⟩ := claim_ok_iff.mp run
      exact .inr ⟨s, j, data, accepted, by simp only [claims, run, List.headD_cons]⟩

theorem claims_silent (P : Platform) : (claims P).Silent failed := by
  intro a c rejected
  cases claims_step_cases P a c with
  | inl error =>
      obtain ⟨e, same⟩ := error
      rw [same]
  | inr accepted =>
      obtain ⟨s, j, data, -, same⟩ := accepted
      rw [same] at rejected
      cases rejected

end OnChain

/-- The data of a distribution account after the claims in the log: it decodes,
    to the configuration it was created with and the nullifiers in the log. -/
structure Holds (root : Bytes32) (ccid : ProgramId) (supply : U128) (data : List UInt8)
    (log : List Bytes32) (s : DistributionState) : Prop where
  state : DistributionState.tryFromSlice data = some s
  merkleRoot : s.merkleRoot = root
  claimCircuitProgramId : s.claimCircuitProgramId = ccid
  totalSupply : s.totalSupply = supply
  spentNullifiers : s.spentNullifiers = log
  nodup : log.Nodup

section Holding

variable {P : Platform} {root : Bytes32} {ccid : ProgramId} {supply : U128} {data : List UInt8}
  {log : List Bytes32} {s : DistributionState}

theorem holds_initial (h : storeState P (.initial root ccid supply) = .ok data) :
    Holds root ccid supply data [] (.initial root ccid supply) :=
  ⟨storeState_decodes h, rfl, rfl, rfl, rfl, List.nodup_nil⟩

theorem Holds.accept (h : Holds root ccid supply data log s) {j : ClaimJournal} {D : AccountId}
    {note data' : List UInt8} (allowed : refusal P.sha256 s j D note = none)
    (stored : storeState P (s.record j) = .ok data') :
    Holds root ccid supply data' (log ++ [j.nullifier]) (s.record j) where
  state := storeState_decodes stored
  merkleRoot := h.merkleRoot
  claimCircuitProgramId := h.claimCircuitProgramId
  totalSupply := h.totalSupply
  spentNullifiers := congrArg (· ++ [j.nullifier]) h.spentNullifiers
  nodup := by
    obtain ⟨-, -, -, fresh, -⟩ := refusal_none_iff.mp allowed
    rw [h.spentNullifiers] at fresh
    apply h.nodup.append (List.nodup_singleton _)
    intro n old new
    obtain rfl := List.mem_singleton.mp new
    exact fresh old

/-- One call of `claim` on an account: it is rejected and changes nothing, or
    appends exactly the nullifier it carried. -/
theorem Holds.claim {a : AccountWithMetadata} (h : Holds root ccid supply a.account.data log s)
    (c : ClaimCall) : ∃ s',
      Holds root ccid supply ((claims P).step a c).2.account.data
        (log ++ (spent c ((claims P).step a c).1).toList) s' := by
  cases claims_step_cases P a c with
  | inl error =>
      obtain ⟨e, same⟩ := error
      rw [same]
      exact ⟨s, by simpa only [spent, Option.toList_none, List.append_nil] using h⟩
  | inr done =>
      obtain ⟨s', j, data', accepted, same⟩ := done
      cases accepted.state.symm.trans h.state
      rw [same]
      simp only [spent, accepted.journal, Option.map_some, Option.toList_some,
        AccountWithMetadata.withData_data]
      exact ⟨_, h.accept accepted.allowed accepted.stored⟩

end Holding

/-- The nullifiers of the claims a run accepts, in order. -/
def acceptedNullifiers (P : Platform) (a : AccountWithMetadata) (calls : List ClaimCall) :
    List Bytes32 := (claims P).log spent a calls

theorem run_holds {P : Platform} {a : AccountWithMetadata} {root : Bytes32} {ccid : ProgramId}
    {supply : U128} (start : Holds root ccid supply a.account.data [] (.initial root ccid supply))
    (calls : List ClaimCall) :
    ∃ s, Holds root ccid supply ((claims P).run a calls).account.data
      (acceptedNullifiers P a calls) s := by
  apply (claims P).run_log_invariant
    (R := fun a log => ∃ s, Holds root ccid supply a.account.data log s)
  · rintro a c log ⟨s, h⟩
    exact h.claim c
  · exact ⟨_, start⟩

/-- From a successful `initialize` on, whatever is called: the account decodes to
    the configuration it was created with and to the accepted nullifiers in order,
    each accepted call appends its own, and no call fails for want of a state. -/
theorem claims_refine_ledger (P : Platform) (a : AccountWithMetadata) (root : Bytes32)
    (ccid : ProgramId) (supply : U128) (out : SpelOutput)
    (created : initializeDistribution P a root ccid supply = .ok out) (calls : List ClaimCall) :
    ∃ account, out.postStates = [account] ∧
      let now := (claims P).run account calls
      ∃ s, Holds root ccid supply now.account.data (acceptedNullifiers P account calls) s ∧
        (∀ c s', ((claims P).step now c).1 = .ok () →
          DistributionState.tryFromSlice ((claims P).step now c).2.account.data = some s' →
          ∃ j, ClaimJournal.tryFromSlice c.journalBytes = some j ∧
            s'.spentNullifiers = s.spentNullifiers ++ [j.nullifier]) ∧
        (∀ more, acceptedNullifiers P account calls <+:
          acceptedNullifiers P account (calls ++ more)) ∧
        (∀ ctx journalBytes note, claim P ctx now journalBytes note ≠
          .error (.custom errProofInvalid "state deserialise failed")) ∧
        ∀ note target id v i path n, submitClaim P.sha256 now note target id v i path n ≠
          .error (.custom errProofInvalid "distribution state deserialise failed") := by
  obtain ⟨data, stored, rfl⟩ := initializeDistribution_ok_iff.mp created
  refine ⟨_, rfl, ?_⟩
  intro now
  obtain ⟨s, holds⟩ := run_holds (P := P) (a := a.withData data) (holds_initial stored) calls
  refine ⟨s, holds, ?_, ?_, ?_, ?_⟩
  · intro c s' accepted decodes
    cases claims_step_cases P now c with
    | inl error =>
        obtain ⟨e, same⟩ := error
        rw [same] at accepted
        cases accepted
    | inr done =>
        obtain ⟨s₀, j, data', accepts, same⟩ := done
        cases accepts.state.symm.trans holds.state
        rw [same, AccountWithMetadata.withData_data, storeState_decodes accepts.stored] at decodes
        cases decodes
        exact ⟨j, accepts.journal, rfl⟩
  · intro more
    rw [acceptedNullifiers, acceptedNullifiers, Machine.log_append]
    exact List.prefix_append _ _
  · intro ctx journalBytes note
    exact claim_ne_deserialise_error P ctx now journalBytes note holds.state
  · intro note target id v i path n
    exact submitClaim_ne_deserialise_error P.sha256 now note target id v i path n holds.state

/-- A claim on a fresh account, and a replay of it. -/
theorem claims_refine_ledger_replay :
    let zeros : Bytes32 := Vector.replicate 32 0
    let caller : ProgramId := Vector.replicate 8 7
    let P := Platform.bounded (fun _ => zeros) 1000
    let account : AccountWithMetadata :=
      ⟨⟨caller, (DistributionState.initial zeros caller 10).header ++ [0, 0, 0, 0]⟩, true, zeros⟩
    let c : ClaimCall := ⟨caller, journalBytes ⟨zeros, zeros, zeros, 5, zeros⟩, []⟩
    ∃ s, Holds zeros caller 10 ((claims P).run account [c, c]).account.data [zeros] s := by
  intro zeros caller P account c
  have created : initializeDistribution P ⟨⟨caller, []⟩, true, zeros⟩ zeros caller 10 =
      .ok ⟨[account], []⟩ := by decide +kernel
  have log : acceptedNullifiers P account [c, c] = [zeros] := by decide +kernel
  obtain ⟨account', same, s, holds, -⟩ := claims_refine_ledger P _ zeros caller 10 _ created [c, c]
  obtain rfl : account = account' := (List.cons.inj same).1
  exact ⟨s, log ▸ holds⟩

/-- Rejected calls are invisible, to `apply_claim` on a mutable state and to `claim`
    on an account alike. For `apply_claim` it is the code that sees to it, by checking
    before it writes. For `claim` it is a rule of the runtime, written into `claims`:
    a call that returns an error has no output. -/
theorem rejected_invisible (H : Sha256) (P : Platform) :
    (applyClaims H).Invisible failed ∧ (claims P).Invisible failed :=
  ⟨(applyClaims_silent H).invisible, (claims_silent P).invisible⟩

end PrivateAirdrop

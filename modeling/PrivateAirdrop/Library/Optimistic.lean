import PrivateAirdrop.Library.Machine

/-! # Optimistic updates of one register

Clients read a live value, compute a next one and send both. What is in flight
may be duplicated, dropped, delayed and delivered in any order; a delivery takes
effect exactly when the live value is still the one that was read. If every
computed value is larger than the one it came from, by whatever measure, then a
value that was replaced never comes back.
-/

namespace Library

/-- A message in flight: the value read, what was asked of it and the value computed. -/
structure Transaction (σ ι : Type) where
  pre : σ
  request : ι
  post : σ
  deriving Repr, DecidableEq

structure Net (σ ι : Type) where
  live : σ
  flight : List (Transaction σ ι)

inductive NetEvent (ι : Type) where
  | send (request : ι)
  | duplicate (i : Nat)
  | drop (i : Nat)
  | deliver (i : Nat)

variable {σ ι : Type} [DecidableEq σ]

/-- The answer to an event is the transaction it applied, if it applied one. -/
def optimistic (compute : σ → ι → Option σ) :
    Machine (Net σ ι) (NetEvent ι) (Option (Transaction σ ι)) where
  step net
    | .send request =>
      match compute net.live request with
      | some post => (none, { net with flight := net.flight ++ [⟨net.live, request, post⟩] })
      | none => (none, net)
    | .duplicate i =>
      match net.flight[i]? with
      | some t => (none, { net with flight := net.flight ++ [t] })
      | none => (none, net)
    | .drop i => (none, { net with flight := net.flight.eraseIdx i })
    | .deliver i =>
      match net.flight[i]? with
      | some t =>
        if t.pre = net.live then (some t, ⟨t.post, net.flight.eraseIdx i⟩)
        else (none, { net with flight := net.flight.eraseIdx i })
      | none => (none, net)

/-- The transactions a run applies, in order. -/
def applied (compute : σ → ι → Option σ) (net : Net σ ι) (events : List (NetEvent ι)) :
    List (Transaction σ ι) := (optimistic compute).log (fun _ t => t) net events

section Steps

variable {compute : σ → ι → Option σ}

/-- What is in flight was computed from what it was read from. -/
def Net.Computed (compute : σ → ι → Option σ) (net : Net σ ι) : Prop :=
  ∀ t ∈ net.flight, compute t.pre t.request = some t.post

theorem optimistic_step_cases (compute : σ → ι → Option σ) (net : Net σ ι) (e : NetEvent ι) :
    (((optimistic compute).step net e).1 = none ∧
      ((optimistic compute).step net e).2.live = net.live ∧
      ∀ t ∈ ((optimistic compute).step net e).2.flight,
        t ∈ net.flight ∨ (t.pre = net.live ∧ compute t.pre t.request = some t.post)) ∨
    (∃ t ∈ net.flight, t.pre = net.live ∧ ((optimistic compute).step net e).1 = some t ∧
      ((optimistic compute).step net e).2.live = t.post ∧
      ∀ u ∈ ((optimistic compute).step net e).2.flight, u ∈ net.flight) := by
  cases e with
  | send request =>
      apply Or.inl
      cases run : compute net.live request with
      | none =>
          simp only [optimistic, run]
          exact ⟨trivial, trivial, fun t => Or.inl⟩
      | some post =>
          simp only [optimistic, run]
          refine ⟨trivial, trivial, ?_⟩
          intro t member
          cases List.mem_append.mp member with
          | inl old => exact .inl old
          | inr new =>
              obtain rfl := List.mem_singleton.mp new
              exact .inr ⟨rfl, run⟩
  | duplicate i =>
      apply Or.inl
      cases found : net.flight[i]? with
      | none =>
          simp only [optimistic, found]
          exact ⟨trivial, trivial, fun t => Or.inl⟩
      | some t =>
          simp only [optimistic, found]
          refine ⟨trivial, trivial, ?_⟩
          intro u member
          cases List.mem_append.mp member with
          | inl old => exact .inl old
          | inr copy =>
              obtain rfl := List.mem_singleton.mp copy
              exact .inl (List.mem_of_getElem? found)
  | drop i => exact .inl ⟨rfl, rfl, fun t member => .inl (List.mem_of_mem_eraseIdx member)⟩
  | deliver i =>
      cases found : net.flight[i]? with
      | none =>
          apply Or.inl
          simp only [optimistic, found]
          exact ⟨trivial, trivial, fun t => Or.inl⟩
      | some t =>
          by_cases current : t.pre = net.live
          · apply Or.inr
            simp only [optimistic, found, current, if_true]
            exact ⟨t, List.mem_of_getElem? found, current, rfl, rfl,
              fun u => List.mem_of_mem_eraseIdx⟩
          · apply Or.inl
            simp only [optimistic, found, current, if_false]
            exact ⟨trivial, trivial, fun u member => .inl (List.mem_of_mem_eraseIdx member)⟩

theorem Net.Computed.step {net : Net σ ι} (computed : net.Computed compute) (e : NetEvent ι) :
    ((optimistic compute).step net e).2.Computed compute := by
  intro t member
  cases optimistic_step_cases compute net e with
  | inl quiet =>
      cases quiet.2.2 t member with
      | inl old => exact computed t old
      | inr new => exact new.2
  | inr effect =>
      obtain ⟨-, -, -, -, -, sub⟩ := effect
      exact computed t (sub t member)

end Steps

/-- The transactions take the first value to the last one by one, each computed
    from exactly what the one before it left. -/
def Follows (compute : σ → ι → Option σ) : σ → List (Transaction σ ι) → σ → Prop
  | x, [], y => x = y
  | x, t :: ts, y => t.pre = x ∧ compute x t.request = some t.post ∧ Follows compute t.post ts y

section History

variable {compute : σ → ι → Option σ}

omit [DecidableEq σ] in
theorem Follows.append {x y z : σ} {ts us : List (Transaction σ ι)} (h : Follows compute x ts y)
    (next : Follows compute y us z) : Follows compute x (ts ++ us) z := by
  induction ts generalizing x with
  | nil =>
      obtain rfl : x = y := h
      exact next
  | cons t ts ih => exact ⟨h.1, h.2.1, ih h.2.2⟩

/-- Whatever the network does, the live value is what the applied requests compute
    one after the other. -/
theorem run_follows {net : Net σ ι} (computed : net.Computed compute) (es : List (NetEvent ι)) :
    Follows compute net.live (applied compute net es) ((optimistic compute).run net es).live := by
  have both : Follows compute net.live (applied compute net es)
        ((optimistic compute).run net es).live ∧
      ((optimistic compute).run net es).Computed compute := by
    apply (optimistic compute).run_log_invariant
      (R := fun now ts => Follows compute net.live ts now.live ∧ now.Computed compute)
    · rintro now e ts ⟨history, computed⟩
      refine ⟨?_, computed.step e⟩
      cases optimistic_step_cases compute now e with
      | inl quiet =>
          obtain ⟨silent, still, -⟩ := quiet
          rw [silent, still, Option.toList_none, List.append_nil]
          exact history
      | inr effect =>
          obtain ⟨t, sent, read, applies, next, -⟩ := effect
          rw [applies, next]
          have made := computed t sent
          rw [read] at made
          exact history.append ⟨read, made, rfl⟩
    · exact ⟨rfl, computed⟩
  exact both.1

end History

section Growth

variable {compute : σ → ι → Option σ} {size : σ → Nat}

omit [DecidableEq σ] in
theorem Follows.reads_nodup (grows : ∀ x r y, compute x r = some y → size x < size y) {x y : σ}
    {ts : List (Transaction σ ι)} (h : Follows compute x ts y) :
    (∀ t ∈ ts, size x ≤ size t.pre) ∧ (ts.map Transaction.pre).Nodup := by
  induction ts generalizing x with
  | nil => exact ⟨nofun, List.nodup_nil⟩
  | cons t ts ih =>
      obtain ⟨rfl, made, rest⟩ := h
      obtain ⟨above, distinct⟩ := ih rest
      have larger := grows _ _ _ made
      constructor
      · intro u member
        cases List.mem_cons.mp member with
        | inl here => exact Nat.le_of_eq (congrArg (size ·.pre) here.symm)
        | inr later => exact Nat.le_trans (Nat.le_of_lt larger) (above u later)
      · apply List.nodup_cons.mpr
        refine ⟨?_, distinct⟩
        intro again
        obtain ⟨u, later, same⟩ := List.mem_map.mp again
        have reached := above u later
        rw [same] at reached
        omega

/-- What is in flight read the live value, or one that is smaller. -/
def Net.Behind (size : σ → Nat) (net : Net σ ι) : Prop :=
  ∀ t ∈ net.flight, t.pre = net.live ∨ size t.pre < size net.live

section Run

variable (grows : ∀ x r y, compute x r = some y → size x < size y) {net : Net σ ι}

include grows

theorem live_step (computed : net.Computed compute) (e : NetEvent ι) :
    ((optimistic compute).step net e).2.live = net.live ∨
      size net.live < size ((optimistic compute).step net e).2.live := by
  cases optimistic_step_cases compute net e with
  | inl quiet => exact .inl quiet.2.1
  | inr effect =>
      obtain ⟨t, sent, read, -, next, -⟩ := effect
      apply Or.inr
      rw [next, ← read]
      exact grows _ _ _ (computed t sent)

theorem Net.Behind.step (behind : net.Behind size) (computed : net.Computed compute)
    (e : NetEvent ι) : ((optimistic compute).step net e).2.Behind size := by
  intro t member
  cases optimistic_step_cases compute net e with
  | inl quiet =>
      rw [quiet.2.1]
      cases quiet.2.2 t member with
      | inl old => exact behind t old
      | inr new => exact .inl new.1
  | inr effect =>
      obtain ⟨u, sent, read, -, next, sub⟩ := effect
      have larger := grows _ _ _ (computed u sent)
      rw [read] at larger
      apply Or.inr
      rw [next]
      cases behind t (sub t member) with
      | inl current => rw [current]; exact larger
      | inr smaller => exact Nat.lt_trans smaller larger

theorem live_run (computed : net.Computed compute) (es : List (NetEvent ι)) :
    ((optimistic compute).run net es).live = net.live ∨
      size net.live < size ((optimistic compute).run net es).live := by
  induction es generalizing net with
  | nil => exact .inl rfl
  | cons e es ih =>
      have later := ih (computed.step e)
      cases live_step grows computed e with
      | inl same =>
          rw [same] at later
          exact later
      | inr larger =>
          apply Or.inr
          cases later with
          | inl same => exact Nat.lt_of_lt_of_eq larger (congrArg size same.symm)
          | inr larger' => exact Nat.lt_trans larger larger'

theorem run_computed_behind (computed : net.Computed compute) (behind : net.Behind size)
    (es : List (NetEvent ι)) :
    ((optimistic compute).run net es).Computed compute ∧
      ((optimistic compute).run net es).Behind size := by
  apply (optimistic compute).run_invariant
    (I := fun net : Net σ ι => net.Computed compute ∧ net.Behind size)
  · rintro net e ⟨computed, behind⟩
    exact ⟨computed.step e, behind.step grows computed e⟩
  · exact ⟨computed, behind⟩

/-- A live value that was replaced never comes back. -/
theorem live_never_returns (computed : net.Computed compute) (es fs : List (NetEvent ι))
    (replaced : ((optimistic compute).run net es).live ≠ net.live) :
    ((optimistic compute).run net (es ++ fs)).live ≠ net.live := by
  have computed' : ((optimistic compute).run net es).Computed compute :=
    (optimistic compute).run_invariant (fun _ e h => h.step e) computed es
  have grown := (live_run grows computed es).resolve_left replaced
  rw [Machine.run_append]
  intro back
  have size_back := congrArg size back
  cases live_run grows computed' fs with
  | inl same => exact replaced (same.symm.trans back)
  | inr larger => omega

/-- A transaction that read a value since replaced never takes effect. -/
theorem superseded_never_applies (computed : net.Computed compute) (behind : net.Behind size)
    {t : Transaction σ ι} (sent : t ∈ net.flight) (superseded : t.pre ≠ net.live)
    (es : List (NetEvent ι)) : t.pre ≠ ((optimistic compute).run net es).live := by
  have smaller := (behind t sent).resolve_left superseded
  intro same
  have size_same := congrArg size same
  cases live_run grows computed es with
  | inl still => exact superseded (same.trans still)
  | inr larger => omega

end Run

end Growth

end Library

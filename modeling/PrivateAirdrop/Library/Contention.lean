import PrivateAirdrop.Library.Optimistic

/-! # Rounds of contending clients

In a round some of the clients that still want something send, all from the one
live value, and the network delivers what they sent in any order. If values only
grow, the first delivery takes effect and the others do not; whoever lost may try
again. As long as everyone left can still compute, every round serves one client.
-/

namespace Library

variable {σ ι : Type}

/-- An order to deliver `n` messages in: the place of each among those still left. -/
def Delivers : Nat → List Nat → Prop
  | 0, [] => True
  | n + 1, k :: ks => k < n + 1 ∧ Delivers n ks
  | _, _ => False

/-- Who sends, and in what order it is delivered. -/
structure Round (ι : Type) where
  senders : List ι
  order : List Nat

namespace Round

variable (r : Round ι)

def events : List (NetEvent ι) := r.senders.map .send ++ r.order.map .deliver

def first : Option ι := r.senders[r.order.headD 0]?

end Round

/-- Rounds in which clients take part that were not served before: the requests
    there are, the rounds, and the requests left. -/
inductive Rounds : List ι → List (Round ι) → List ι → Prop where
  | done (pending : List ι) : Rounds pending [] pending
  | next {pending rest left : List ι} {r : Round ι} {rounds : List (Round ι)} {served : ι}
      (complete : Delivers r.senders.length r.order) (wanted : ∀ i ∈ r.senders, i ∈ pending)
      (first : r.first = some served) (others : pending.Perm (served :: rest))
      (later : Rounds rest rounds left) : Rounds pending (r :: rounds) left

theorem Rounds.length_eq {pending left : List ι} {rounds : List (Round ι)}
    (h : Rounds pending rounds left) : rounds.length + left.length = pending.length := by
  induction h with
  | done pending => exact Nat.zero_add _
  | next _ _ _ others _ ih =>
      have count := others.length_eq
      simp only [List.length_cons] at count ⊢
      omega

variable [DecidableEq σ] {compute : σ → ι → Option σ}

theorem run_sends {live : σ} {senders : List ι}
    (able : ∀ i ∈ senders, ∃ y, compute live i = some y) (flight : List (Transaction σ ι)) :
    ∃ sent : List (Transaction σ ι), sent.map Transaction.request = senders ∧
      (∀ t ∈ sent, t.pre = live ∧ compute live t.request = some t.post) ∧
      (optimistic compute).run ⟨live, flight⟩ (senders.map .send) = ⟨live, flight ++ sent⟩ ∧
      applied compute ⟨live, flight⟩ (senders.map .send) = [] := by
  induction senders generalizing flight with
  | nil => exact ⟨[], rfl, nofun, by rw [List.append_nil]; rfl, rfl⟩
  | cons i senders ih =>
      obtain ⟨y, computed⟩ := able i List.mem_cons_self
      have step : (optimistic compute).step ⟨live, flight⟩ (.send i) =
          (none, ⟨live, flight ++ [⟨live, i, y⟩]⟩) := by simp only [optimistic, computed]
      obtain ⟨sent, requests, each, run, none_⟩ :=
        ih (fun j later => able j (List.mem_cons_of_mem _ later)) (flight ++ [⟨live, i, y⟩])
      refine ⟨⟨live, i, y⟩ :: sent, congrArg (List.cons i) requests, ?_, ?_, ?_⟩
      · rintro t (_ | ⟨_, later⟩)
        · exact ⟨rfl, computed⟩
        · exact each t later
      · rw [List.map_cons, Machine.run, step, run, List.append_assoc]
        rfl
      · rw [applied] at none_ ⊢
        rw [List.map_cons, Machine.log, step, none_]
        rfl

theorem run_superseded {live : σ} {order : List Nat} {flight : List (Transaction σ ι)}
    (superseded : ∀ t ∈ flight, t.pre ≠ live) (complete : Delivers flight.length order) :
    (optimistic compute).run ⟨live, flight⟩ (order.map .deliver) = ⟨live, []⟩ ∧
      applied compute ⟨live, flight⟩ (order.map .deliver) = [] := by
  induction order generalizing flight with
  | nil =>
      cases flight with
      | nil => exact ⟨rfl, rfl⟩
      | cons t flight => cases complete
  | cons k order ih =>
      cases count : flight.length with
      | zero =>
          rw [count] at complete
          cases complete
      | succ n =>
          rw [count] at complete
          obtain ⟨inside, rest⟩ := complete
          have inside' : k < flight.length := by omega
          have found : flight[k]? = some flight[k] := List.getElem?_eq_getElem inside'
          have other := superseded _ (List.mem_of_getElem? found)
          have step : (optimistic compute).step ⟨live, flight⟩ (.deliver k) =
              (none, ⟨live, flight.eraseIdx k⟩) := by simp only [optimistic, found, other, if_false]
          have size : (flight.eraseIdx k).length = n := by
            rw [List.length_eraseIdx_of_lt (by omega)]
            omega
          obtain ⟨run, none_⟩ := ih (fun t member => superseded t (List.mem_of_mem_eraseIdx member))
            (size ▸ rest)
          rw [applied] at none_ ⊢
          rw [List.map_cons, Machine.run, Machine.log, step, none_]
          exact ⟨run, rfl⟩

section Growing

variable {size : σ → Nat} (grows : ∀ x i y, compute x i = some y → size x < size y)

include grows

/-- A round serves the client that is delivered first, and nobody else. -/
theorem run_round {live : σ} {r : Round ι} {served : ι}
    (able : ∀ i ∈ r.senders, ∃ y, compute live i = some y)
    (complete : Delivers r.senders.length r.order) (first : r.first = some served) :
    ∃ y, compute live served = some y ∧
      (optimistic compute).run ⟨live, []⟩ r.events = ⟨y, []⟩ ∧
      applied compute ⟨live, []⟩ r.events = [⟨live, served, y⟩] := by
  obtain ⟨sent, requests, each, run, none_⟩ := run_sends able []
  rw [List.nil_append] at run
  cases order_eq : r.order with
  | nil =>
      cases senders_eq : r.senders with
      | nil => simp [Round.first, senders_eq] at first
      | cons i senders => simp [senders_eq, order_eq, Delivers] at complete
  | cons k order =>
      have count : sent.length = r.senders.length := by rw [← requests, List.length_map]
      cases n_eq : r.senders.length with
      | zero => simp [n_eq, order_eq, Delivers] at complete
      | succ n =>
          rw [n_eq, order_eq] at complete
          obtain ⟨inside, rest⟩ := complete
          rw [Round.first, order_eq, List.headD_cons, ← requests, List.getElem?_map] at first
          obtain ⟨t, found, rfl⟩ := Option.map_eq_some_iff.mp first
          obtain ⟨read, computed⟩ := each t (List.mem_of_getElem? found)
          have larger := grows _ _ _ computed
          have step : (optimistic compute).step ⟨live, sent⟩ (.deliver k) =
              (some t, ⟨t.post, sent.eraseIdx k⟩) := by
            simp only [optimistic, found, read, if_true]
          have superseded : ∀ u ∈ sent.eraseIdx k, u.pre ≠ t.post := by
            intro u member same
            rw [(each u (List.mem_of_mem_eraseIdx member)).1] at same
            rw [same] at larger
            omega
          have left : (sent.eraseIdx k).length = n := by
            rw [List.length_eraseIdx_of_lt (by omega)]
            omega
          have lost : (optimistic compute).run ⟨t.post, sent.eraseIdx k⟩ (order.map .deliver) =
                ⟨t.post, []⟩ ∧
              applied compute ⟨t.post, sent.eraseIdx k⟩ (order.map .deliver) = [] :=
            run_superseded superseded (left ▸ rest)
          obtain ⟨run', none_'⟩ := lost
          have made : t = ⟨live, t.request, t.post⟩ := by rw [← read]
          refine ⟨t.post, computed, ?_, ?_⟩
          · rw [Round.events, order_eq, Machine.run_append, run, List.map_cons, Machine.run, step, run']
          · rw [applied] at none_ none_' ⊢
            rw [Round.events, order_eq, Machine.log_append, none_, run, List.map_cons, Machine.log,
              step, none_', ← made]
            rfl

/-- Every round serves one client, as long as what holds of the live value and the
    requests left lets each of them compute. -/
theorem run_rounds {I : σ → List ι → Prop}
    (able : ∀ x pending, I x pending → ∀ i ∈ pending, ∃ y, compute x i = some y)
    (keeps : ∀ x pending i rest y, I x pending → pending.Perm (i :: rest) → compute x i = some y →
      I y rest)
    {live : σ} {pending left : List ι} {rounds : List (Round ι)} (start : I live pending)
    (h : Rounds pending rounds left) :
    let events := rounds.flatMap Round.events
    ∃ y, (optimistic compute).run ⟨live, []⟩ events = ⟨y, []⟩ ∧ I y left ∧
      (applied compute ⟨live, []⟩ events).length = rounds.length ∧
      pending.Perm ((applied compute ⟨live, []⟩ events).map Transaction.request ++ left) := by
  induction h generalizing live with
  | done pending => exact ⟨live, rfl, start, rfl, List.Perm.refl _⟩
  | @next pending rest left r rounds served complete wanted first others later ih =>
      obtain ⟨x, computed, run, one⟩ := run_round grows
        (fun i sender => able live pending start i (wanted i sender)) complete first
      obtain ⟨y, run', final, count, served_⟩ := ih (keeps _ _ _ _ _ start others computed)
      rw [applied] at one count served_
      refine ⟨y, ?_, final, ?_, ?_⟩
      · rw [List.flatMap_cons, Machine.run_append, run, run']
      · rw [applied, List.flatMap_cons, Machine.log_append, one, run, List.length_append, count]
        exact Nat.add_comm ..
      · rw [applied, List.flatMap_cons, Machine.log_append, one, run]
        exact others.trans (served_.cons served)

end Growing

end Library

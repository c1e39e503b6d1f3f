import PrivateAirdrop.Library.Machine

/-! # What accepted inputs reveal

A program takes an input in a state and may refuse it. It reveals only a view of
its inputs when those that are accepted in one state and share their view have
one outcome there. A program whose outcome can be computed from the state and the
view is of this kind, and of a whole history it reveals only the views. Whoever
can redo each step of a machine from what its answered input shows can redo runs.
-/

namespace Library

variable {σ ι ο ν : Type}

/-- Inputs with one view that are accepted in one state have one outcome. -/
def RevealsOnly (run : σ → ι → Option ο) (view : ι → ν) : Prop :=
  ∀ {s i j x y}, run s i = some x → run s j = some y → view i = view j → x = y

theorem RevealsOnly.of_effect {run : σ → ι → Option ο} {view : ι → ν}
    (effect : σ → ν → Option ο)
    (computes : ∀ {s i x}, run s i = some x → effect s (view i) = some x) :
    RevealsOnly run view := by
  intro s i j x y first second same
  have public_ := computes first
  rw [same] at public_
  exact Option.some.inj (public_.symm.trans (computes second))

/-- Histories that are accepted throughout and share their views end in one state. -/
theorem RevealsOnly.history {run : σ → ι → Option σ} {view : ι → ν} (h : RevealsOnly run view)
    {s x y : σ} {is js : List ι} (first : is.foldlM run s = some x)
    (second : js.foldlM run s = some y) (same : is.map view = js.map view) : x = y := by
  induction is generalizing s js with
  | nil =>
      obtain rfl := List.map_eq_nil_iff.mp same.symm
      exact Option.some.inj (first.symm.trans second)
  | cons i is ih =>
      obtain ⟨j, js, rfl, head, tail⟩ := List.map_eq_cons_iff.mp same.symm
      rw [List.foldlM_cons] at first second
      obtain ⟨t, step, rest⟩ := Option.bind_eq_some_iff.mp first
      obtain ⟨t', step', rest'⟩ := Option.bind_eq_some_iff.mp second
      obtain rfl := h step step' head.symm
      exact ih rest rest' tail.symm

namespace Machine

variable {ρ κ τ : Type} (M : Machine σ ι ρ)

theorem run_redone (O : Machine σ ν τ) {entry : ι → ρ → Option ν}
    (redone : ∀ s i, O.run s (entry i (M.step s i).1).toList = (M.step s i).2)
    (s : σ) (is : List ι) : O.run s (M.log entry s is) = M.run s is := by
  induction is generalizing s with
  | nil => rfl
  | cons i is ih => rw [log, run_append, redone, ih, run]

/-- A machine that does the same on the translated inputs of a run goes through the
    same states. -/
theorem run_translated (N : Machine σ κ τ) {input : ι → κ} {answer : ρ → τ} {is : List ι}
    (same : ∀ s, ∀ i ∈ is, N.step s (input i) = (answer (M.step s i).1, (M.step s i).2)) (s : σ) :
    N.run s (is.map input) = M.run s is ∧
      N.replies s (is.map input) = (M.replies s is).map answer := by
  induction is generalizing s with
  | nil => exact ⟨rfl, rfl⟩
  | cons i is ih =>
      have later := ih fun s j inside => same s j (List.mem_cons_of_mem i inside)
      simp only [List.map_cons, run, replies, same s i List.mem_cons_self]
      exact ⟨(later _).1, congrArg (List.cons _) (later _).2⟩

theorem log_translated (N : Machine σ κ τ) {input : ι → κ} {answer : ρ → τ} {is : List ι}
    (same : ∀ s, ∀ i ∈ is, N.step s (input i) = (answer (M.step s i).1, (M.step s i).2))
    {γ δ : Type} {entry : ι → ρ → Option γ} {entry' : κ → τ → Option δ} {shown : γ → δ}
    (shows : ∀ i r, entry' (input i) (answer r) = (entry i r).map shown) (s : σ) :
    N.log entry' s (is.map input) = (M.log entry s is).map shown := by
  induction is generalizing s with
  | nil => rfl
  | cons i is ih =>
      have later := ih fun s j inside => same s j (List.mem_cons_of_mem i inside)
      simp only [List.map_cons, log, same s i List.mem_cons_self, shows, later, List.map_append]
      cases entry i (M.step s i).1 <;> rfl

end Machine

end Library

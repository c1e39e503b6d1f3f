import Mathlib.Data.List.Forall2
import Mathlib.Data.List.Induction
import Mathlib.Control.Monad.Basic

/-! # Machines that answer every input

A machine takes inputs one at a time, answers each and moves to a next state.
A log collects what chosen answers contribute, in the order of the run; its
induction rule relates the state reached to the log written so far. When the
answers that refuse an input leave the state alone, the refused inputs can be
cut out of any run.
-/

namespace Library

structure Machine (σ ι ρ : Type) where
  step : σ → ι → ρ × σ

namespace Machine

variable {σ ι ρ γ : Type} (M : Machine σ ι ρ)

def run : σ → List ι → σ
  | s, [] => s
  | s, i :: is => run (M.step s i).2 is

def replies : σ → List ι → List ρ
  | _, [] => []
  | s, i :: is => (M.step s i).1 :: replies (M.step s i).2 is

/-- What the answered inputs of a run contribute. -/
def log (entry : ι → ρ → Option γ) : σ → List ι → List γ
  | _, [] => []
  | s, i :: is => (entry i (M.step s i).1).toList ++ log entry (M.step s i).2 is

@[simp] theorem run_nil (s : σ) : M.run s [] = s := rfl

@[simp] theorem log_nil (entry : ι → ρ → Option γ) (s : σ) : M.log entry s [] = [] := rfl

@[simp] theorem run_append (s : σ) (is js : List ι) :
    M.run s (is ++ js) = M.run (M.run s is) js := by
  induction is generalizing s with
  | nil => rfl
  | cons i is ih => exact ih _

@[simp] theorem replies_append (s : σ) (is js : List ι) :
    M.replies s (is ++ js) = M.replies s is ++ M.replies (M.run s is) js := by
  induction is generalizing s with
  | nil => rfl
  | cons i is ih => exact congrArg (List.cons _) (ih _)

@[simp] theorem log_append (entry : ι → ρ → Option γ) (s : σ) (is js : List ι) :
    M.log entry s (is ++ js) = M.log entry s is ++ M.log entry (M.run s is) js := by
  induction is generalizing s with
  | nil => rfl
  | cons i is ih => simp only [List.cons_append, log, run, ih, List.append_assoc]

theorem run_singleton (s : σ) (i : ι) : M.run s [i] = (M.step s i).2 := rfl

theorem log_singleton (entry : ι → ρ → Option γ) (s : σ) (i : ι) :
    M.log entry s [i] = (entry i (M.step s i).1).toList := List.append_nil _

/-- What every step preserves, every run preserves. -/
theorem run_invariant {I : σ → Prop} (keeps : ∀ s i, I s → I (M.step s i).2)
    {s : σ} (start : I s) (is : List ι) : I (M.run s is) := by
  induction is generalizing s with
  | nil => exact start
  | cons i is ih => exact ih (keeps s i start)

/-- A relation between the state and the log that the steps of one run keep up
    holds at the end of it. -/
theorem run_log_along {entry : ι → ρ → Option γ} {R : σ → List γ → Prop} {s : σ} (is : List ι)
    (keeps : ∀ before i l, before ++ [i] <+: is → R (M.run s before) l →
      R (M.step (M.run s before) i).2 (l ++ (entry i (M.step (M.run s before) i).1).toList))
    (start : R s []) : R (M.run s is) (M.log entry s is) := by
  induction is using List.reverseRecOn with
  | nil => exact start
  | append_singleton is i ih =>
      rw [run_append, log_append, run_singleton, log_singleton]
      apply keeps is i _ (List.prefix_refl _)
      apply ih
      intro before j l inside
      exact keeps before j l (inside.trans (List.prefix_append is [i]))

theorem run_log_invariant {entry : ι → ρ → Option γ} {R : σ → List γ → Prop}
    (keeps : ∀ s i l, R s l → R (M.step s i).2 (l ++ (entry i (M.step s i).1).toList))
    {s : σ} (start : R s []) (is : List ι) : R (M.run s is) (M.log entry s is) :=
  M.run_log_along is (fun _ _ _ _ => keeps _ _ _) start

theorem log_all (s : σ) (is : List ι) : M.log (fun _ r => some r) s is = M.replies s is := by
  induction is generalizing s with
  | nil => rfl
  | cons i is ih => exact congrArg (List.cons _) (ih _)

theorem run_replies_along {R : σ → List ρ → Prop} {s : σ} (is : List ι)
    (keeps : ∀ before i l, before ++ [i] <+: is → R (M.run s before) l →
      R (M.step (M.run s before) i).2 (l ++ [(M.step (M.run s before) i).1]))
    (start : R s []) : R (M.run s is) (M.replies s is) := by
  rw [← M.log_all]
  exact M.run_log_along is keeps start

theorem of_mem_log {entry : ι → ρ → Option γ} {s : σ} {is : List ι} {g : γ}
    (member : g ∈ M.log entry s is) : ∃ i ∈ is, ∃ r, entry i r = some g := by
  induction is generalizing s with
  | nil => cases member
  | cons i is ih =>
      rcases List.mem_append.mp member with now | later
      · exact ⟨i, List.mem_cons_self, _, Option.mem_toList.mp now⟩
      · obtain ⟨j, inside, r, entered⟩ := ih later
        exact ⟨j, List.mem_cons_of_mem _ inside, r, entered⟩

/-- A rank that chosen inputs lower, down to zero, and no input raises. -/
theorem run_rank_le {rank : σ → Nat} {chosen : ι → Bool}
    (lowers : ∀ s i, chosen i = true → rank (M.step s i).2 ≤ rank s - 1)
    (keeps : ∀ s i, rank (M.step s i).2 ≤ rank s) (s : σ) (is : List ι) :
    rank (M.run s is) ≤ rank s - is.countP chosen := by
  induction is generalizing s with
  | nil => exact Nat.le_refl _
  | cons i is ih =>
      have later := ih (M.step s i).2
      have here := keeps s i
      rw [run, List.countP_cons]
      split
      · rename_i h
        have less := lowers s i h
        omega
      · omega

/-- The inputs of a run that are not refused. -/
def kept (refused : ρ → Bool) : σ → List ι → List ι
  | _, [] => []
  | s, i :: is =>
    if refused (M.step s i).1 then kept refused (M.step s i).2 is
    else i :: kept refused (M.step s i).2 is

/-- Refusals leave the state as it was. -/
def Silent (refused : ρ → Bool) : Prop :=
  ∀ s i, refused (M.step s i).1 = true → (M.step s i).2 = s

variable {M}

theorem run_kept {refused : ρ → Bool} (silent : M.Silent refused) (s : σ) (is : List ι) :
    M.run s (M.kept refused s is) = M.run s is := by
  induction is generalizing s with
  | nil => rfl
  | cons i is ih =>
      by_cases h : refused (M.step s i).1 = true
      · simp only [kept, h, if_true, run, silent s i h, ih]
      · simp only [kept, h, if_false, run, ih, Bool.false_eq_true]

theorem replies_kept {refused : ρ → Bool} (silent : M.Silent refused) (s : σ) (is : List ι) :
    M.replies s (M.kept refused s is) = (M.replies s is).filter fun r => !refused r := by
  induction is generalizing s with
  | nil => rfl
  | cons i is ih =>
      by_cases h : refused (M.step s i).1 = true
      · simp [kept, h, replies, silent s i h, ih]
      · simp [kept, h, replies, ih]

/-- Refused inputs leave no trace: not in the state, not in any other answer. -/
structure Invisible (M : Machine σ ι ρ) (refused : ρ → Bool) : Prop where
  silent : M.Silent refused
  run_kept : ∀ s is, M.run s (M.kept refused s is) = M.run s is
  replies_kept : ∀ s is,
    M.replies s (M.kept refused s is) = (M.replies s is).filter fun r => !refused r
  run_cut : ∀ s before i after, refused (M.step (M.run s before) i).1 = true →
    M.run s (before ++ i :: after) = M.run s (before ++ after)
  replies_cut : ∀ s before i after, refused (M.step (M.run s before) i).1 = true →
    M.replies (M.run s (before ++ [i])) after = M.replies (M.run s before) after

theorem Silent.invisible {refused : ρ → Bool} (silent : M.Silent refused) : M.Invisible refused where
  silent := silent
  run_kept := M.run_kept silent
  replies_kept := M.replies_kept silent
  run_cut := by
    intro s before i after h
    have still : (M.step (M.run s before) i).2 = M.run s before := silent _ _ h
    simp only [run_append, run, still]
  replies_cut := by
    intro s before i after h
    have still : (M.step (M.run s before) i).2 = M.run s before := silent _ _ h
    simp only [run_append, run, still]

end Machine

/-! ## Machines from programs that mutate a state

`ExceptT ε (StateM σ)` keeps the state reached when an error is thrown, as an
in-place mutation behind a result does.
-/

section Mutation

variable {σ ε α β : Type}

/-- Run a program on a state: its result, and the state it leaves behind. -/
def exec (m : ExceptT ε (StateM σ) α) (s : σ) : Except ε α × σ := m.run.run s

@[simp] theorem exec_throw (e : ε) (s : σ) :
    exec (throw e : ExceptT ε (StateM σ) α) s = (.error e, s) := rfl

@[simp] theorem exec_modify (g : σ → σ) (s : σ) :
    exec (modify g : ExceptT ε (StateM σ) PUnit) s = (.ok (), g s) := rfl

@[simp] theorem exec_get_bind (f : σ → ExceptT ε (StateM σ) β) (s : σ) :
    exec (get >>= f) s = exec (f s) s := rfl

@[simp] theorem exec_throw_bind (e : ε) (f : α → ExceptT ε (StateM σ) β) (s : σ) :
    exec (throw e >>= f) s = (.error e, s) := rfl

@[simp] theorem exec_modify_bind (g : σ → σ) (f : PUnit → ExceptT ε (StateM σ) β) (s : σ) :
    exec (modify g >>= f) s = exec (f ()) (g s) := rfl

@[simp] theorem throw_eq_error (e : ε) : (throw e : Except ε α) = .error e := rfl

@[simp] theorem error_bind (e : ε) (f : α → Except ε β) :
    ((.error e : Except ε α) >>= f) = .error e := rfl

theorem bind_eq_ok {x : Except ε α} {f : α → Except ε β} {b : β} :
    (x >>= f) = .ok b ↔ ∃ a, x = .ok a ∧ f a = .ok b := by
  cases x with
  | error e => simp [bind, Except.bind]
  | ok a => simp [bind, Except.bind]

theorem ite_eq_ok {p : Prop} [Decidable p] {e : ε} {a b : α} :
    (if p then .ok a else .error e : Except ε α) = .ok b ↔ p ∧ a = b := by
  split <;> simp [*]

theorem mapM_eq_ok_iff {f : α → Except ε β} {l : List α} {bs : List β} :
    l.mapM f = .ok bs ↔ List.Forall₂ (fun a b => f a = .ok b) l bs := by
  induction l generalizing bs with
  | nil => simp [pure, Except.pure, eq_comm]
  | cons a l ih =>
      simp only [List.mapM_cons, bind_eq_ok, ih, pure, Except.pure, Except.ok.injEq,
        List.forall₂_cons_left_iff]
      constructor
      · intro h
        obtain ⟨b, first, bs', rest, same⟩ := h
        exact ⟨b, bs', first, rest, same.symm⟩
      · intro h
        obtain ⟨b, bs', first, rest, same⟩ := h
        exact ⟨b, first, bs', rest, same.symm⟩

end Mutation

theorem exists_of_forall₂ {α β : Type} {R : α → β → Prop} {l : List α} {m : List β} {b : β}
    (matched : List.Forall₂ R l m) (member : b ∈ m) : ∃ a ∈ l, R a b := by
  induction matched with
  | nil => cases member
  | cons first _ ih =>
      cases member with
      | head => exact ⟨_, List.mem_cons_self, first⟩
      | tail _ later =>
          obtain ⟨a, inside, related⟩ := ih later
          exact ⟨a, List.mem_cons_of_mem _ inside, related⟩

end Library

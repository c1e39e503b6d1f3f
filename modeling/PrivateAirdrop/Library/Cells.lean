import Mathlib.Logic.Function.Basic
import PrivateAirdrop.Library.Machine

/-! # Machines of many cells

A family of machines runs side by side, and every input is addressed to one of
them. What a cell goes through is then a run of its own machine on the inputs
addressed to it, and inputs to different cells may change places.
-/

namespace Library

namespace Machine

variable {σ ι ρ : Type} (M : Machine σ ι ρ)

/-- The inputs of a run, each with its answer. -/
def transcript : σ → List ι → List (ι × ρ)
  | _, [] => []
  | s, i :: is => (i, (M.step s i).1) :: transcript (M.step s i).2 is

end Machine

variable {κ σ ι ρ : Type} [DecidableEq κ]

/-- Every input is a step of the machine of the cell it is addressed to. -/
def cells (addr : ι → κ) (cell : κ → Machine σ ι ρ) : Machine (κ → σ) ι ρ where
  step s i :=
    let done := (cell (addr i)).step (s (addr i)) i
    (done.1, Function.update s (addr i) done.2)

/-- The inputs to one cell, in order. -/
def inputsTo (addr : ι → κ) (k : κ) (is : List ι) : List ι := is.filter fun i => addr i = k

/-- Two orders of inputs that no cell can tell apart. -/
def SameByCell (addr : ι → κ) (is js : List ι) : Prop :=
  ∀ k, inputsTo addr k is = inputsTo addr k js

section Cells

variable {addr : ι → κ} {cell : κ → Machine σ ι ρ}

@[simp] theorem inputsTo_nil (k : κ) : inputsTo addr k [] = [] := rfl

theorem inputsTo_cons (k : κ) (i : ι) (is : List ι) :
    inputsTo addr k (i :: is) = if addr i = k then i :: inputsTo addr k is else inputsTo addr k is := by
  by_cases here : addr i = k
  · rw [inputsTo, List.filter_cons_of_pos (by simpa using here), if_pos here]
    rfl
  · rw [inputsTo, List.filter_cons_of_neg (by simpa using here), if_neg here]
    rfl

theorem cells_run_apply (s : κ → σ) (is : List ι) (k : κ) :
    (cells addr cell).run s is k = (cell k).run (s k) (inputsTo addr k is) := by
  induction is generalizing s with
  | nil => rfl
  | cons i is ih =>
      rw [Machine.run, ih, inputsTo_cons]
      by_cases here : addr i = k
      · subst here
        rw [if_pos rfl, Machine.run]
        simp only [cells, Function.update_self]
      · rw [if_neg here]
        simp only [cells, Function.update_of_ne (Ne.symm here)]

theorem cells_transcript (s : κ → σ) (is : List ι) (k : κ) :
    ((cells addr cell).transcript s is).filter (fun entry => addr entry.1 = k) =
      (cell k).transcript (s k) (inputsTo addr k is) := by
  induction is generalizing s with
  | nil => rfl
  | cons i is ih =>
      rw [Machine.transcript, inputsTo_cons]
      by_cases here : addr i = k
      · subst here
        rw [List.filter_cons_of_pos (by simp), ih, if_pos rfl, Machine.transcript]
        simp only [cells, Function.update_self]
      · rw [List.filter_cons_of_neg (by simpa using here), ih, if_neg here]
        simp only [cells, Function.update_of_ne (Ne.symm here)]

theorem cells_run_congr {is js : List ι} (same : SameByCell addr is js) (s : κ → σ) :
    (cells addr cell).run s is = (cells addr cell).run s js := by
  funext k
  rw [cells_run_apply, cells_run_apply, same k]

theorem cells_transcript_congr {is js : List ι} (same : SameByCell addr is js) (s : κ → σ) (k : κ) :
    ((cells addr cell).transcript s is).filter (fun entry => addr entry.1 = k) =
      ((cells addr cell).transcript s js).filter (fun entry => addr entry.1 = k) := by
  rw [cells_transcript, cells_transcript, same k]

end Cells

end Library

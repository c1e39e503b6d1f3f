import Mathlib.Data.List.Nodup
import Mathlib.Algebra.BigOperators.Group.List.Basic
import Mathlib.Algebra.Ring.Nat

/-! # Capped ledgers of one-time tickets

Each entry spends a ticket and pays out an amount. A ledger never pays more than
its cap and never spends a ticket twice, and no other value of the type exists.
Amounts are natural numbers: nothing here wraps.
-/

namespace Library

structure Ledger (κ : Type) where
  cap : Nat
  entries : List (κ × Nat)
  nodup : (entries.map Prod.fst).Nodup
  within : (entries.map Prod.snd).sum ≤ cap

namespace Ledger

variable {κ : Type}

def tickets (l : Ledger κ) : List κ := l.entries.map Prod.fst

def amounts (l : Ledger κ) : List Nat := l.entries.map Prod.snd

def total (l : Ledger κ) : Nat := l.amounts.sum

def empty (κ : Type) (cap : Nat) : Ledger κ where
  cap
  entries := []
  nodup := List.nodup_nil
  within := Nat.zero_le _

@[simp] theorem empty_tickets (cap : Nat) : (empty κ cap).tickets = [] := rfl

@[simp] theorem empty_amounts (cap : Nat) : (empty κ cap).amounts = [] := rfl

@[simp] theorem empty_total (cap : Nat) : (empty κ cap).total = 0 := rfl

/-- A payment the ledger has room for. -/
def Admits (l : Ledger κ) (ticket : κ) (amount : Nat) : Prop :=
  ticket ∉ l.tickets ∧ l.total + amount ≤ l.cap

def pay (l : Ledger κ) (ticket : κ) (amount : Nat) (room : l.Admits ticket amount) : Ledger κ where
  cap := l.cap
  entries := l.entries ++ [(ticket, amount)]
  nodup := by
    rw [List.map_append]
    apply l.nodup.append (List.nodup_singleton _)
    intro t old new
    obtain rfl := List.mem_singleton.mp new
    exact room.1 old
  within := by
    rw [List.map_append, List.sum_append]
    exact room.2

variable {l : Ledger κ} {ticket : κ} {amount : Nat} (room : l.Admits ticket amount)

@[simp] theorem pay_cap : (l.pay ticket amount room).cap = l.cap := rfl

@[simp] theorem pay_tickets : (l.pay ticket amount room).tickets = l.tickets ++ [ticket] :=
  List.map_append

@[simp] theorem pay_amounts : (l.pay ticket amount room).amounts = l.amounts ++ [amount] :=
  List.map_append

@[simp] theorem pay_total : (l.pay ticket amount room).total = l.total + amount := by
  rw [total, pay_amounts, List.sum_append]
  rfl

theorem total_le_cap (l : Ledger κ) : l.total ≤ l.cap := l.within

end Ledger

/-- Payments that all fit beside what was spent and paid already: no ticket twice,
    none spent before, and room for the whole sum. -/
structure Fits {κ : Type} (spent : List κ) (total cap : Nat) (payments : List (κ × Nat)) :
    Prop where
  nodup : (payments.map Prod.fst).Nodup
  fresh : ∀ ticket ∈ payments.map Prod.fst, ticket ∉ spent
  within : total + (payments.map Prod.snd).sum ≤ cap

namespace Fits

variable {κ : Type} {spent : List κ} {total cap : Nat}

theorem perm {payments order : List (κ × Nat)} (h : Fits spent total cap payments)
    (same : order.Perm payments) : Fits spent total cap order where
  nodup := (same.map Prod.fst).nodup_iff.mpr h.nodup
  fresh ticket paid := h.fresh ticket ((same.map Prod.fst).mem_iff.mp paid)
  within := by
    rw [(same.map Prod.snd).sum_eq]
    exact h.within

theorem first {ticket : κ} {amount : Nat} {rest : List (κ × Nat)}
    (h : Fits spent total cap ((ticket, amount) :: rest)) :
    ticket ∉ spent ∧ total + amount ≤ cap ∧ Fits (spent ++ [ticket]) (total + amount) cap rest := by
  have within := h.within
  obtain ⟨later, nodup⟩ := List.nodup_cons.mp h.nodup
  simp only [List.map_cons, List.sum_cons] at within
  refine ⟨h.fresh ticket List.mem_cons_self, by omega, nodup, ?_, by omega⟩
  intro t paid known
  cases List.mem_append.mp known with
  | inl old => exact h.fresh t (List.mem_cons_of_mem _ paid) old
  | inr new =>
      obtain rfl := List.mem_singleton.mp new
      exact later paid

end Fits

end Library

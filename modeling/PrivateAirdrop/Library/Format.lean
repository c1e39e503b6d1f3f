import Mathlib.Data.List.Basic
import Mathlib.Data.Vector.Basic
import Mathlib.Tactic.Ring

/-! # Self-delimiting formats

A format writes values as tokens and reads them back from the front of a longer
token list. Its two laws make it a partial bijection: reading undoes writing
whatever follows, and only what the writer produces is ever read. Writing is
partial because a length prefix has a width; reading is partial because most
token lists are not the writing of anything.
-/

namespace Library

structure Format (τ α : Type) where
  encode : α → Option (List τ)
  decode : List τ → Option (α × List τ)
  reads : ∀ {a ts}, encode a = some ts → ∀ rest, decode (ts ++ rest) = some (a, rest)
  written : ∀ {ts a rest}, decode ts = some (a, rest) →
    ∃ pre, encode a = some pre ∧ ts = pre ++ rest

namespace Format

variable {τ α β : Type}

/-- Read a whole token list: a value, and nothing left over. -/
def decodeAll (F : Format τ α) (ts : List τ) : Option α :=
  match F.decode ts with
  | some (a, []) => some a
  | _ => none

theorem decodeAll_iff (F : Format τ α) {ts : List τ} {a : α} :
    F.decodeAll ts = some a ↔ F.encode a = some ts := by
  constructor
  · intro h
    unfold decodeAll at h
    split at h
    · rename_i b found
      cases h
      obtain ⟨pre, writes, same⟩ := F.written found
      rw [writes, same, List.append_nil]
    · cases h
  · intro h
    have found := F.reads h []
    rw [List.append_nil] at found
    simp only [decodeAll, found]

theorem encode_injective (F : Format τ α) {a b : α} {ts : List τ}
    (ha : F.encode a = some ts) (hb : F.encode b = some ts) : a = b :=
  Option.some.inj (((F.decodeAll_iff).mpr ha).symm.trans ((F.decodeAll_iff).mpr hb))

/-- No writing continues another one: what is written can be told from what follows it. -/
theorem encode_prefix_free (F : Format τ α) {a b : α} {ts us rest : List τ}
    (ha : F.encode a = some ts) (hb : F.encode b = some us) (continues : us = ts ++ rest) :
    a = b ∧ rest = [] := by
  have found := F.reads hb []
  rw [List.append_nil, continues, F.reads ha rest] at found
  exact Prod.mk.inj (Option.some.inj found)

/-- One token, as it is. -/
def token : Format τ τ where
  encode t := some [t]
  decode
    | [] => none
    | t :: ts => some (t, ts)
  reads := by
    intro a ts h rest
    cases h
    rfl
  written := by
    intro ts a rest h
    cases ts with
    | nil => cases h
    | cons t ts =>
        obtain ⟨rfl, rfl⟩ := Prod.mk.inj (Option.some.inj h)
        exact ⟨[t], rfl, rfl⟩

@[simp] theorem token_encode (t : τ) : (token : Format τ τ).encode t = some [t] := rfl

/-- One fixed token, which stands for nothing but itself. -/
def exactly [DecidableEq τ] (t : τ) : Format τ Unit where
  encode _ := some [t]
  decode
    | [] => none
    | u :: us => if u = t then some ((), us) else none
  reads := by
    intro a ts h rest
    cases h
    exact if_pos rfl
  written := by
    intro ts a rest h
    cases ts with
    | nil => cases h
    | cons u us =>
        obtain ⟨rfl, same⟩ := Option.ite_none_right_eq_some.mp h
        obtain ⟨rfl, rfl⟩ := Prod.mk.inj (Option.some.inj same)
        exact ⟨[u], rfl, rfl⟩

@[simp] theorem exactly_encode [DecidableEq τ] (t : τ) :
    (exactly t).encode () = some [t] := rfl

/-- Present the values of a format as another type. `back` may refuse what the
    underlying format reads, but must invert `into` on everything it accepts. -/
def via (F : Format τ α) (into : β → α) (back : α → Option β)
    (there : ∀ b, back (into b) = some b)
    (again : ∀ {a b ts}, F.encode a = some ts → back a = some b → into b = a) : Format τ β where
  encode b := F.encode (into b)
  decode ts := (F.decode ts).bind fun p => (back p.1).map fun b => (b, p.2)
  reads := by
    intro b ts h rest
    simp only [F.reads h rest, Option.bind_some, there, Option.map_some]
  written := by
    intro ts b rest h
    obtain ⟨⟨a, left⟩, found, h⟩ := Option.bind_eq_some_iff.mp h
    obtain ⟨c, hc, same⟩ := Option.map_eq_some_iff.mp h
    obtain ⟨rfl, rfl⟩ := Prod.mk.inj same
    obtain ⟨pre, writes, split⟩ := F.written found
    exact ⟨pre, by rw [again writes hc, writes], split⟩

/-- One value after the other. -/
def pair (F : Format τ α) (G : Format τ β) : Format τ (α × β) where
  encode p := (F.encode p.1).bind fun xs => (G.encode p.2).map fun ys => xs ++ ys
  decode ts := (F.decode ts).bind fun p => (G.decode p.2).map fun q => ((p.1, q.1), q.2)
  reads := by
    intro p ts h rest
    obtain ⟨xs, hx, h⟩ := Option.bind_eq_some_iff.mp h
    obtain ⟨ys, hy, rfl⟩ := Option.map_eq_some_iff.mp h
    simp only [List.append_assoc, F.reads hx, Option.bind_some, G.reads hy, Option.map_some]
  written := by
    intro ts p rest h
    obtain ⟨⟨a, mid⟩, hf, h⟩ := Option.bind_eq_some_iff.mp h
    obtain ⟨⟨b, left⟩, hg, same⟩ := Option.map_eq_some_iff.mp h
    obtain ⟨rfl, rfl⟩ := Prod.mk.inj same
    obtain ⟨xs, hx, rfl⟩ := F.written hf
    obtain ⟨ys, hy, rfl⟩ := G.written hg
    exact ⟨xs ++ ys, by simp only [hx, hy, Option.bind_some, Option.map_some],
      (List.append_assoc xs ys _).symm⟩

theorem pair_encode (F : Format τ α) (G : Format τ β) {a : α} {b : β} {xs ys : List τ}
    (hx : F.encode a = some xs) (hy : G.encode b = some ys) :
    (F.pair G).encode (a, b) = some (xs ++ ys) := by
  simp only [pair, hx, hy, Option.bind_some, Option.map_some]

theorem pair_encode_iff (F : Format τ α) (G : Format τ β) {p : α × β} {ts : List τ} :
    (F.pair G).encode p = some ts ↔
      ∃ xs ys, F.encode p.1 = some xs ∧ G.encode p.2 = some ys ∧ ts = xs ++ ys := by
  simp only [pair, Option.bind_eq_some_iff, Option.map_eq_some_iff, @eq_comm _ ts]
  grind

def encodeItems (F : Format τ α) : List α → Option (List τ)
  | [] => some []
  | a :: as => (F.encode a).bind fun xs => (F.encodeItems as).map fun ys => xs ++ ys

def decodeItems (F : Format τ α) : Nat → List τ → Option (List α × List τ)
  | 0, ts => some ([], ts)
  | n + 1, ts => (F.decode ts).bind fun p =>
      (F.decodeItems n p.2).map fun q => (p.1 :: q.1, q.2)

theorem decodeItems_encodeItems (F : Format τ α) {as : List α} {ts : List τ}
    (h : F.encodeItems as = some ts) (rest : List τ) :
    F.decodeItems as.length (ts ++ rest) = some (as, rest) := by
  induction as generalizing ts with
  | nil =>
      cases h
      rfl
  | cons a as ih =>
      obtain ⟨xs, hx, h⟩ := Option.bind_eq_some_iff.mp h
      obtain ⟨ys, hy, rfl⟩ := Option.map_eq_some_iff.mp h
      simp only [List.length_cons, decodeItems, List.append_assoc, F.reads hx, Option.bind_some,
        ih hy, Option.map_some]

theorem decodeItems_written (F : Format τ α) {n : Nat} {ts : List τ} {as : List α} {rest : List τ}
    (h : F.decodeItems n ts = some (as, rest)) :
    as.length = n ∧ ∃ pre, F.encodeItems as = some pre ∧ ts = pre ++ rest := by
  induction n generalizing ts as with
  | zero =>
      obtain ⟨rfl, rfl⟩ := Prod.mk.inj (Option.some.inj h)
      exact ⟨rfl, [], rfl, rfl⟩
  | succ n ih =>
      obtain ⟨⟨a, mid⟩, hf, h⟩ := Option.bind_eq_some_iff.mp h
      obtain ⟨⟨bs, left⟩, hg, same⟩ := Option.map_eq_some_iff.mp h
      obtain ⟨rfl, rfl⟩ := Prod.mk.inj same
      obtain ⟨xs, hx, rfl⟩ := F.written hf
      obtain ⟨count, ys, hy, rfl⟩ := ih hg
      exact ⟨congrArg Nat.succ count, xs ++ ys,
        by simp only [encodeItems, hx, hy, Option.bind_some, Option.map_some],
        (List.append_assoc xs ys _).symm⟩

@[simp] theorem encodeItems_token (ts : List τ) : (token : Format τ τ).encodeItems ts = some ts := by
  induction ts with
  | nil => rfl
  | cons t ts ih => simp only [encodeItems, token_encode, ih, Option.bind_some, Option.map_some,
      List.singleton_append]

theorem encodeItems_of_total (F : Format τ α) {f : α → List τ} (total : ∀ a, F.encode a = some (f a))
    (as : List α) : F.encodeItems as = some (as.flatMap f) := by
  induction as with
  | nil => rfl
  | cons a as ih => simp only [encodeItems, total, ih, Option.bind_some, Option.map_some,
      List.flatMap_cons]

/-- Exactly `n` values, with no length written. -/
def array (F : Format τ α) (n : Nat) : Format τ (Vector α n) where
  encode v := F.encodeItems v.toList
  decode ts :=
    match F.decodeItems n ts with
    | some (as, rest) => if h : as.length = n then some (⟨as.toArray, by simpa using h⟩, rest) else none
    | none => none
  reads := by
    intro v ts h rest
    have found := F.decodeItems_encodeItems h rest
    rw [Vector.length_toList] at found
    simp only [found, Vector.length_toList, dif_pos]
    rfl
  written := by
    intro ts v rest h
    split at h
    · rename_i as left found
      obtain ⟨count, pre, writes, split⟩ := F.decodeItems_written found
      rw [dif_pos count] at h
      obtain ⟨rfl, rfl⟩ := Prod.mk.inj (Option.some.inj h)
      exact ⟨pre, by simpa using writes, split⟩
    · cases h

/-- A length, then as many values. -/
def prefixed (L : Format τ Nat) (F : Format τ α) : Format τ (List α) where
  encode as := (L.encode as.length).bind fun xs => (F.encodeItems as).map fun ys => xs ++ ys
  decode ts := (L.decode ts).bind fun p => F.decodeItems p.1 p.2
  reads := by
    intro as ts h rest
    obtain ⟨xs, hx, h⟩ := Option.bind_eq_some_iff.mp h
    obtain ⟨ys, hy, rfl⟩ := Option.map_eq_some_iff.mp h
    simp only [List.append_assoc, L.reads hx, Option.bind_some, F.decodeItems_encodeItems hy]
  written := by
    intro ts as rest h
    obtain ⟨⟨n, mid⟩, hl, items⟩ := Option.bind_eq_some_iff.mp h
    obtain ⟨xs, hx, rfl⟩ := L.written hl
    obtain ⟨rfl, ys, hy, rfl⟩ := F.decodeItems_written items
    exact ⟨xs ++ ys, by simp only [hx, hy, Option.bind_some, Option.map_some],
      (List.append_assoc xs ys _).symm⟩

theorem prefixed_encode (L : Format τ Nat) (F : Format τ α) {as : List α} {xs ys : List τ}
    (hx : L.encode as.length = some xs) (hy : F.encodeItems as = some ys) :
    (prefixed L F).encode as = some (xs ++ ys) := by
  simp only [prefixed, hx, hy, Option.bind_some, Option.map_some]

/-- Every value takes exactly `n` tokens, and any `n` tokens are a value. -/
structure Fixed (F : Format τ α) (n : Nat) : Prop where
  width : ∀ {a ts}, F.encode a = some ts → ts.length = n
  accepts : ∀ ts, n ≤ ts.length → ∃ a rest, F.decode ts = some (a, rest)

namespace Fixed

variable {F : Format τ α} {G : Format τ β} {m n : Nat}

theorem takes (h : F.Fixed n) {a : α} {ts rest : List τ} (found : F.decode ts = some (a, rest)) :
    ts.length = n + rest.length := by
  obtain ⟨pre, writes, rfl⟩ := F.written found
  rw [List.length_append, h.width writes]

theorem decodeAll_iff (h : F.Fixed n) {ts : List τ} :
    (∃ a, F.decodeAll ts = some a) ↔ ts.length = n := by
  constructor
  · intro found
    obtain ⟨a, read⟩ := found
    exact h.width ((F.decodeAll_iff).mp read)
  · intro count
    obtain ⟨a, rest, found⟩ := h.accepts ts (Nat.le_of_eq count.symm)
    have left := h.takes found
    obtain rfl : rest = [] := List.length_eq_zero_iff.mp (by omega)
    exact ⟨a, by simp only [decodeAll, found]⟩

theorem token : (Format.token : Format τ τ).Fixed 1 where
  width := by
    intro a ts h
    cases h
    rfl
  accepts := by
    intro ts long
    cases ts with
    | nil => cases long
    | cons t ts => exact ⟨t, ts, rfl⟩

theorem pair (hF : F.Fixed m) (hG : G.Fixed n) : (F.pair G).Fixed (m + n) where
  width := by
    intro p ts h
    obtain ⟨xs, hx, h⟩ := Option.bind_eq_some_iff.mp h
    obtain ⟨ys, hy, rfl⟩ := Option.map_eq_some_iff.mp h
    rw [List.length_append, hF.width hx, hG.width hy]
  accepts := by
    intro ts long
    obtain ⟨a, mid, found⟩ := hF.accepts ts (by omega)
    have left := hF.takes found
    obtain ⟨b, rest, found'⟩ := hG.accepts mid (by omega)
    exact ⟨(a, b), rest, by simp only [Format.pair, found, found', Option.bind_some, Option.map_some]⟩

theorem presented {G : Format τ β} {into : β → α} (h : F.Fixed n)
    (writes : ∀ b, G.encode b = F.encode (into b))
    (reads : ∀ {ts a rest}, F.decode ts = some (a, rest) → ∃ b, G.decode ts = some (b, rest)) :
    G.Fixed n where
  width := by
    intro b ts written
    rw [writes] at written
    exact h.width written
  accepts := by
    intro ts long
    obtain ⟨a, rest, found⟩ := h.accepts ts long
    obtain ⟨b, found'⟩ := reads found
    exact ⟨b, rest, found'⟩

theorem encodeItems_length (h : F.Fixed n) {as : List α} {ts : List τ}
    (writes : F.encodeItems as = some ts) : ts.length = as.length * n := by
  induction as generalizing ts with
  | nil =>
      cases writes
      rw [List.length_nil, List.length_nil, Nat.zero_mul]
  | cons a as ih =>
      obtain ⟨xs, hx, writes⟩ := Option.bind_eq_some_iff.mp writes
      obtain ⟨ys, hy, rfl⟩ := Option.map_eq_some_iff.mp writes
      rw [List.length_append, h.width hx, ih hy, List.length_cons, Nat.succ_mul, Nat.add_comm]

theorem decodeItems_accepts (h : F.Fixed n) {k : Nat} (ts : List τ) (long : k * n ≤ ts.length) :
    ∃ as rest, F.decodeItems k ts = some (as, rest) := by
  induction k generalizing ts with
  | zero => exact ⟨[], ts, rfl⟩
  | succ k ih =>
      rw [Nat.succ_mul] at long
      obtain ⟨a, mid, found⟩ := h.accepts ts (by omega)
      have left := h.takes found
      obtain ⟨as, rest, found'⟩ := ih mid (by omega)
      exact ⟨a :: as, rest, by simp only [decodeItems, found, found', Option.bind_some,
        Option.map_some]⟩

theorem array (h : F.Fixed n) (k : Nat) : (F.array k).Fixed (k * n) where
  width := by
    intro v ts writes
    rw [h.encodeItems_length writes, Vector.length_toList]
  accepts := by
    intro ts long
    obtain ⟨as, rest, found⟩ := h.decodeItems_accepts ts long
    obtain ⟨count, -⟩ := F.decodeItems_written found
    exact ⟨⟨as.toArray, by simpa using count⟩, rest, by simp only [Format.array, found, dif_pos count]⟩

end Fixed

end Format

/-- Tokens that stand for the digits of a base. -/
structure Radix (τ : Type) where
  base : Nat
  digit : Nat → τ
  value : τ → Nat
  value_lt : ∀ t, value t < base
  value_digit : ∀ n, value (digit n) = n % base
  digit_value : ∀ t, digit (value t) = t

namespace Radix

variable {τ : Type} (R : Radix τ)

theorem base_pos (t : τ) : 0 < R.base := Nat.zero_lt_of_lt (R.value_lt t)

def write : Nat → Nat → List τ
  | 0, _ => []
  | k + 1, n => R.digit n :: write k (n / R.base)

def read : Nat → List τ → Option (Nat × List τ)
  | 0, ts => some (0, ts)
  | _ + 1, [] => none
  | k + 1, t :: ts => (read k ts).map fun p => (R.value t + R.base * p.1, p.2)

@[simp] theorem write_length (k n : Nat) : (R.write k n).length = k := by
  induction k generalizing n with
  | zero => rfl
  | succ k ih => simp only [write, List.length_cons, ih]

theorem write_eq_map (k n : Nat) :
    R.write k n = (List.range k).map fun i => R.digit (n / R.base ^ i) := by
  induction k generalizing n with
  | zero => rfl
  | succ k ih =>
      rw [write, ih, List.range_succ_eq_map, List.map_cons, List.map_map, pow_zero, Nat.div_one]
      simp only [Function.comp_def, Nat.succ_eq_add_one, Nat.div_div_eq_div_mul, pow_succ']

/-- The number that digits stand for, however many they are. -/
def total (ts : List τ) : Nat := ts.foldr (fun t n => R.value t + R.base * n) 0

theorem total_write (k n : Nat) (small : n < R.base ^ k) : R.total (R.write k n) = n := by
  induction k generalizing n with
  | zero =>
      obtain rfl : n = 0 := by simpa using small
      rfl
  | succ k ih =>
      have quotient : n / R.base < R.base ^ k :=
        Nat.div_lt_of_lt_mul (by rwa [pow_succ'] at small)
      have later := ih _ quotient
      rw [total] at later
      rw [write, total, List.foldr_cons, later, R.value_digit, Nat.mod_add_div]

theorem read_write (k n : Nat) (small : n < R.base ^ k) (rest : List τ) :
    R.read k (R.write k n ++ rest) = some (n, rest) := by
  induction k generalizing n with
  | zero =>
      obtain rfl : n = 0 := by simpa using small
      rfl
  | succ k ih =>
      have quotient : n / R.base < R.base ^ k :=
        Nat.div_lt_of_lt_mul (by rwa [pow_succ'] at small)
      simp only [write, List.cons_append, read, ih _ quotient, Option.map_some, R.value_digit,
        Nat.mod_add_div]

theorem read_written (k : Nat) {ts : List τ} {n : Nat} {rest : List τ}
    (h : R.read k ts = some (n, rest)) : n < R.base ^ k ∧ ts = R.write k n ++ rest := by
  induction k generalizing ts n with
  | zero =>
      obtain ⟨rfl, rfl⟩ := Prod.mk.inj (Option.some.inj h)
      exact ⟨by simp, rfl⟩
  | succ k ih =>
      cases ts with
      | nil => cases h
      | cons t ts =>
          obtain ⟨⟨q, left⟩, found, same⟩ := Option.map_eq_some_iff.mp h
          obtain ⟨rfl, rfl⟩ := Prod.mk.inj same
          obtain ⟨small, rfl⟩ := ih found
          have low := R.value_lt t
          have positive := R.base_pos t
          refine ⟨?_, ?_⟩
          · calc R.value t + R.base * q < R.base * (q + 1) := by rw [Nat.mul_succ]; omega
              _ ≤ R.base * R.base ^ k := Nat.mul_le_mul_left _ small
              _ = R.base ^ (k + 1) := (pow_succ' ..).symm
          · have quotient : (R.value t + R.base * q) / R.base = q := by
              rw [Nat.add_mul_div_left _ _ positive, Nat.div_eq_of_lt low, Nat.zero_add]
            have first : R.digit (R.value t + R.base * q) = t := by
              rw [← R.digit_value (R.digit _), R.value_digit, Nat.add_mul_mod_self_left,
                Nat.mod_eq_of_lt low, R.digit_value]
            simp only [write, first, quotient, List.cons_append]

/-- A number below `base ^ k`, as `k` digits with the least significant first. -/
def little (k : Nat) : Format τ Nat where
  encode n := if n < R.base ^ k then some (R.write k n) else none
  decode := R.read k
  reads := by
    intro n ts h rest
    split at h
    · rename_i small
      cases h
      exact R.read_write k n small rest
    · cases h
  written := by
    intro ts n rest h
    obtain ⟨small, split⟩ := R.read_written k h
    exact ⟨R.write k n, if_pos small, split⟩

theorem little_encode {k n : Nat} (small : n < R.base ^ k) :
    (R.little k).encode n = some (R.write k n) := if_pos small

theorem read_accepts {k : Nat} (ts : List τ) (long : k ≤ ts.length) :
    ∃ n rest, R.read k ts = some (n, rest) := by
  induction k generalizing ts with
  | zero => exact ⟨0, ts, rfl⟩
  | succ k ih =>
      cases ts with
      | nil => cases long
      | cons t ts =>
          obtain ⟨n, rest, found⟩ := ih ts (Nat.le_of_succ_le_succ long)
          exact ⟨R.value t + R.base * n, rest, by rw [read, found, Option.map_some]⟩

theorem little_fixed (k : Nat) : (R.little k).Fixed k where
  width := by
    intro n ts h
    obtain ⟨-, writes⟩ := Option.ite_none_right_eq_some.mp h
    cases writes
    exact R.write_length k n
  accepts := R.read_accepts

theorem little_encode_iff {k n : Nat} {ts : List τ} :
    (R.little k).encode n = some ts ↔ n < R.base ^ k ∧ ts = R.write k n := by
  simp only [little, Option.ite_none_right_eq_some, Option.some.injEq, @eq_comm _ ts]

end Radix

end Library

import Mathlib.Data.Set.Function
import Mathlib.Data.Nat.Bitwise
import Mathlib.Tactic.Ring

/-! # Perfect hash trees and the walks that open them

Trees are built level by level, from a list of `2 ^ d` items. A walk climbs from
a claimed item with one sibling per level, the parity of a halving index saying
on which side the sibling stands. Neither the length nor the siblings of a walk
are trusted: what it reaches is compared with the root and nothing else.

No hash is assumed to be injective. Every soundness statement ends in a
`Collision` among the inputs actually hashed, as its last alternative.
-/

namespace Library

/-- Two distinct members of `inputs` with one digest. -/
def Collision {σ δ : Type} (hash : σ → δ) (inputs : Set σ) : Prop :=
  ∃ x ∈ inputs, ∃ y ∈ inputs, x ≠ y ∧ hash x = hash y

theorem Collision.mono {σ δ : Type} {hash : σ → δ} {small large : Set σ}
    (h : Collision hash small) (sub : small ⊆ large) : Collision hash large := by
  obtain ⟨x, hx, y, hy, different, same⟩ := h
  exact ⟨x, sub hx, y, sub hy, different, same⟩

theorem not_collision_iff {σ δ : Type} {hash : σ → δ} {inputs : Set σ} :
    ¬ Collision hash inputs ↔ Set.InjOn hash inputs := by
  constructor
  · intro free x hx y hy same
    by_contra different
    exact free ⟨x, hx, y, hy, different, same⟩
  · rintro injective ⟨x, hx, y, hy, different, same⟩
    exact different (injective hx hy same)

/-- The `2 ^ d` items of a perfect tree of depth `d`, in order. -/
structure Perfect (δ : Type) (d : Nat) where
  items : List δ
  length_items : items.length = 2 ^ d

namespace Perfect

variable {δ ε : Type} {d : Nat}

/-- The item at a position, read modulo the number of items. -/
def get (t : Perfect δ d) (i : Nat) : δ :=
  t.items.get ⟨i % 2 ^ d, by rw [t.length_items]; exact Nat.mod_lt _ (Nat.two_pow_pos d)⟩

theorem get_mem (t : Perfect δ d) (i : Nat) : t.get i ∈ t.items := List.get_mem _ _

theorem getElem?_eq (t : Perfect δ d) (i : Nat) : t.items[i % 2 ^ d]? = some (t.get i) :=
  List.getElem?_eq_getElem _

theorem get_eq_iff (t : Perfect δ d) {i : Nat} {x : δ} :
    t.get i = x ↔ t.items[i % 2 ^ d]? = some x := by
  rw [getElem?_eq, Option.some.injEq]

@[simp] theorem get_mod (t : Perfect δ d) (i : Nat) : t.get (i % 2 ^ d) = t.get i := by
  simp only [get, Nat.mod_mod]

theorem exists_get_of_mem (t : Perfect δ d) {x : δ} (h : x ∈ t.items) :
    ∃ i < 2 ^ d, t.get i = x := by
  obtain ⟨i, inside, same⟩ := List.getElem_of_mem h
  rw [t.length_items] at inside
  refine ⟨i, inside, t.get_eq_iff.mpr ?_⟩
  rw [Nat.mod_eq_of_lt inside, ← same, List.getElem?_eq_getElem]

def map (f : δ → ε) (t : Perfect δ d) : Perfect ε d :=
  ⟨t.items.map f, by rw [List.length_map, t.length_items]⟩

@[simp] theorem map_get (f : δ → ε) (t : Perfect δ d) (i : Nat) : (t.map f).get i = f (t.get i) := by
  simp only [get, map, List.get_eq_getElem, List.getElem_map]

/-! ## Levels -/

def pairUp (node : δ → δ → δ) : List δ → List δ
  | a :: b :: rest => node a b :: pairUp node rest
  | _ => []

theorem pairUp_length (node : δ → δ → δ) (l : List δ) : (pairUp node l).length = l.length / 2 := by
  fun_induction pairUp node l with
  | case1 a b rest ih => simp only [List.length_cons, ih]; omega
  | case2 l short =>
      match l, short with
      | [], _ => simp
      | [a], _ => simp
      | a :: b :: rest, short => exact absurd rfl (short a b rest)

theorem pairUp_getElem? (node : δ → δ → δ) (l : List δ) (i : Nat) {a b : δ}
    (ha : l[2 * i]? = some a) (hb : l[2 * i + 1]? = some b) :
    (pairUp node l)[i]? = some (node a b) := by
  fun_induction pairUp node l generalizing i with
  | case1 x y rest ih =>
      cases i with
      | zero =>
          cases ha
          cases hb
          rfl
      | succ i => exact ih i (by simpa [Nat.mul_succ] using ha) (by simpa [Nat.mul_succ] using hb)
  | case2 l short =>
      match l, short with
      | [], _ => cases ha
      | [x], _ => simp at hb
      | x :: y :: rest, short => exact absurd rfl (short x y rest)

def up (node : δ → δ → δ) (t : Perfect δ (d + 1)) : Perfect δ d :=
  ⟨pairUp node t.items, by rw [pairUp_length, t.length_items, pow_succ]; omega⟩

theorem up_get (node : δ → δ → δ) (t : Perfect δ (d + 1)) (i : Nat) :
    (t.up node).get i = node (t.get (2 * i)) (t.get (2 * i + 1)) := by
  have even : 2 * i % 2 ^ (d + 1) = 2 * (i % 2 ^ d) := by
    rw [pow_succ', Nat.mul_mod_mul_left]
  have odd : (2 * i + 1) % 2 ^ (d + 1) = 2 * (i % 2 ^ d) + 1 := by
    have below := Nat.mod_lt i (Nat.two_pow_pos d)
    rw [Nat.add_mod, even, Nat.mod_eq_of_lt (a := 1) (Nat.one_lt_two_pow (Nat.succ_ne_zero d))]
    exact Nat.mod_eq_of_lt (by rw [pow_succ]; omega)
  refine (get_eq_iff _).mpr (pairUp_getElem? node t.items _ ?_ ?_)
  · rw [← even, getElem?_eq]
  · rw [← odd, getElem?_eq]

def root (node : δ → δ → δ) : {d : Nat} → Perfect δ d → δ
  | 0, t => t.get 0
  | _ + 1, t => root node (t.up node)

/-- The siblings met on the way from a position to the root, lowest first. -/
def siblings (node : δ → δ → δ) : {d : Nat} → Perfect δ d → Nat → List δ
  | 0, _, _ => []
  | _ + 1, t, i => t.get (i ^^^ 1) :: siblings node (t.up node) (i / 2)

@[simp] theorem siblings_length (node : δ → δ → δ) (t : Perfect δ d) (i : Nat) :
    (t.siblings node i).length = d := by
  induction d generalizing i with
  | zero => rfl
  | succ d ih => simp only [siblings, List.length_cons, ih]

/-- All levels of a tree, from its items to its root. -/
def levels (node : δ → δ → δ) : {d : Nat} → Perfect δ d → List (List δ)
  | 0, t => [t.items]
  | _ + 1, t => t.items :: levels node (t.up node)

theorem levels_ne_nil (node : δ → δ → δ) (t : Perfect δ d) : t.levels node ≠ [] := by
  cases d with
  | zero => exact List.cons_ne_nil _ _
  | succ d => exact List.cons_ne_nil _ _

theorem items_of_depth_zero (t : Perfect δ 0) : t.items = [t.get 0] := by
  obtain ⟨x, one⟩ := List.length_eq_one_iff.mp t.length_items
  have first := t.getElem?_eq 0
  rw [pow_zero, Nat.mod_one, one, List.getElem?_cons_zero] at first
  rw [one, Option.some.inj first]

theorem levels_getLast? (node : δ → δ → δ) (t : Perfect δ d) :
    (t.levels node).getLast? = some [t.root node] := by
  induction d with
  | zero => exact congrArg some t.items_of_depth_zero
  | succ d ih => rw [levels, List.getLast?_cons, ih, root, Option.getD_some]

theorem levels_dropLast (node : δ → δ → δ) (t : Perfect δ (d + 1)) :
    (t.levels node).dropLast = t.items :: ((t.up node).levels node).dropLast :=
  List.dropLast_cons_of_ne_nil (levels_ne_nil node _)

theorem getElem?_of_lt (t : Perfect δ d) {i : Nat} (inside : i < 2 ^ d) :
    t.items[i]? = some (t.get i) := by
  have same := t.getElem?_eq i
  rwa [Nat.mod_eq_of_lt inside] at same

end Perfect

/-! ## Walks -/

section Walks

variable {δ ε : Type}

/-- Join an item with its sibling, in the order the parity of its index asks for. -/
def step (node : δ → δ → ε) (x : δ) (i : Nat) (s : δ) : ε :=
  if i % 2 = 0 then node x s else node s x

def walk (node : δ → δ → δ) : δ → Nat → List δ → δ
  | x, _, [] => x
  | x, i, s :: p => walk node (step node x i s) (i / 2) p

theorem walk_append (node : δ → δ → δ) (x : δ) (i : Nat) (p q : List δ) :
    walk node x i (p ++ q) = walk node (walk node x i p) (i / 2 ^ p.length) q := by
  induction p generalizing x i with
  | nil => simp [walk]
  | cons s p ih =>
      simp only [List.cons_append, walk, ih, List.length_cons, Nat.div_div_eq_div_mul, pow_succ']

/-- An item and its sibling, put in order, are the two items of one pair. -/
theorem step_sibling {d : Nat} (f : δ → δ → ε) (t : Perfect δ d) (i : Nat) :
    step f (t.get i) i (t.get (i ^^^ 1)) = f (t.get (2 * (i / 2))) (t.get (2 * (i / 2) + 1)) := by
  unfold step
  split
  · rename_i even
    have whole : 2 * (i / 2) = i := by omega
    rw [Nat.xor_one_of_even (Nat.even_iff.mpr even), whole]
  · rename_i odd
    have whole : 2 * (i / 2) + 1 = i := by omega
    have before : 2 * (i / 2) = i - 1 := by omega
    rw [Nat.xor_one_of_odd (Nat.odd_iff.mpr (by omega)), whole, before]

theorem step_get {d : Nat} (node : δ → δ → δ) (t : Perfect δ (d + 1)) (i : Nat) :
    step node (t.get i) i (t.get (i ^^^ 1)) = (t.up node).get (i / 2) := by
  rw [step_sibling, Perfect.up_get]

/-- The siblings of a position lead its item to the root. -/
theorem walk_siblings {d : Nat} (node : δ → δ → δ) (t : Perfect δ d) (i : Nat) :
    walk node (t.get i) i (t.siblings node i) = t.root node := by
  induction d generalizing i with
  | zero =>
      rw [← t.get_mod, pow_zero, Nat.mod_one]
      rfl
  | succ d ih => simp only [Perfect.siblings, walk, step_get, ih, Perfect.root]

end Walks

/-! ## Domain-separated hashing -/

/-- A hash whose inputs for items and for inner nodes never coincide. -/
structure Hashing (ι σ δ : Type) where
  hash : σ → δ
  leaf : ι → σ
  node : δ → δ → σ
  leaf_injective : ∀ {a b}, leaf a = leaf b → a = b
  node_injective : ∀ {a b c d}, node a b = node c d → a = c ∧ b = d
  leaf_ne_node : ∀ a b c, leaf a ≠ node b c

namespace Hashing

variable {ι σ δ : Type} (S : Hashing ι σ δ)

def combine (a b : δ) : δ := S.hash (S.node a b)

/-- What is hashed in building the inner nodes of a tree. -/
def nodeInputs : {d : Nat} → Perfect δ d → Set σ
  | 0, _ => ∅
  | _ + 1, t => {s | ∃ i, s = S.node (t.get (2 * i)) (t.get (2 * i + 1))} ∪
      nodeInputs (t.up S.combine)

/-- What is hashed in a walk. -/
def walkInputs : δ → Nat → List δ → Set σ
  | _, _, [] => ∅
  | x, i, s :: p => {step S.node x i s} ∪ walkInputs (step S.combine x i s) (i / 2) p

variable {S}

theorem step_combine (x : δ) (i : Nat) (s : δ) :
    step S.combine x i s = S.hash (step S.node x i s) := by
  unfold step
  split <;> rfl

theorem walkInputs_append (x : δ) (i : Nat) (p q : List δ) :
    S.walkInputs x i (p ++ q) =
      S.walkInputs x i p ∪ S.walkInputs (walk S.combine x i p) (i / 2 ^ p.length) q := by
  induction p generalizing x i with
  | nil => simp [walk, walkInputs]
  | cons s p ih =>
      simp only [List.cons_append, walk, walkInputs, ih, List.length_cons, Nat.div_div_eq_div_mul,
        pow_succ', Set.union_assoc]

theorem walk_ends_in_node {x : δ} {i : Nat} {p : List δ} (h : p ≠ []) :
    ∃ a b, S.node a b ∈ S.walkInputs x i p ∧ walk S.combine x i p = S.combine a b := by
  induction p generalizing x i with
  | nil => exact absurd rfl h
  | cons s p ih =>
      by_cases last : p = []
      · subst last
        by_cases even : i % 2 = 0
        · exact ⟨x, s, by simp [walkInputs, step, even], by simp [walk, step, even]⟩
        · exact ⟨s, x, by simp [walkInputs, step, even], by simp [walk, step, even]⟩
      · obtain ⟨a, b, hashed, ends⟩ := ih (x := step S.combine x i s) (i := i / 2) last
        exact ⟨a, b, Or.inr hashed, ends⟩

theorem up_get_hashed {d : Nat} (t : Perfect δ (d + 1)) (i : Nat) :
    ∃ a b, S.node a b ∈ S.nodeInputs t ∧ (t.up S.combine).get i = S.combine a b :=
  ⟨_, _, Or.inl ⟨i, rfl⟩, Perfect.up_get S.combine t i⟩

/-- A walk as long as the tree is deep that reaches the root started at the
    item of its index and used that item's siblings. -/
theorem walk_exact {d : Nat} (t : Perfect δ d) {x : δ} {i : Nat} {p : List δ}
    (exact_ : p.length = d) (reaches : walk S.combine x i p = t.root S.combine) :
    (x = t.get i ∧ p = t.siblings S.combine i) ∨
      Collision S.hash (S.nodeInputs t ∪ S.walkInputs x i p) := by
  induction d generalizing x i p with
  | zero =>
      obtain rfl := List.eq_nil_of_length_eq_zero exact_
      refine .inl ⟨?_, rfl⟩
      rw [← t.get_mod, pow_zero, Nat.mod_one]
      exact reaches
  | succ d ih =>
      cases p with
      | nil => cases exact_
      | cons s p =>
          have shorter : p.length = d := Nat.succ.inj exact_
          cases ih (t.up S.combine) shorter reaches with
          | inl joins =>
              -- The walk joins the tree one level up: compare the two inputs that made that item.
              obtain ⟨above, rest⟩ := joins
              rw [step_combine, ← step_get, step_combine] at above
              by_cases same : step S.node x i s = step S.node (t.get i) i (t.get (i ^^^ 1))
              · have both : x = t.get i ∧ s = t.get (i ^^^ 1) := by
                  unfold step at same
                  split at same
                  · exact S.node_injective same
                  · exact (S.node_injective same).symm
                exact .inl ⟨both.1, by rw [both.2, rest, Perfect.siblings]⟩
              · have built := step_sibling S.node t i
                exact .inr ⟨_, .inr (.inl rfl), _, .inl (.inl ⟨i / 2, built⟩), same, above⟩
          | inr collides =>
              apply Or.inr
              apply collides.mono
              exact Set.union_subset_union Set.subset_union_right Set.subset_union_right

/-- A walk shorter than the tree is deep that reaches the root started at the
    digest of an inner node. -/
theorem walk_short {d : Nat} (t : Perfect δ d) {x : δ} {i : Nat} {p : List δ}
    (short : p.length < d) (reaches : walk S.combine x i p = t.root S.combine) :
    (∃ a b, S.node a b ∈ S.nodeInputs t ∧ x = S.combine a b) ∨
      Collision S.hash (S.nodeInputs t ∪ S.walkInputs x i p) := by
  induction d with
  | zero => omega
  | succ d ih =>
      have lower : S.nodeInputs (t.up S.combine) ⊆ S.nodeInputs t := Set.subset_union_right
      by_cases level : p.length = d
      · cases walk_exact (t.up S.combine) level reaches with
        | inl start =>
            obtain ⟨a, b, hashed, same⟩ := up_get_hashed (S := S) t i
            exact .inl ⟨a, b, hashed, start.1.trans same⟩
        | inr collides => exact .inr (collides.mono (Set.union_subset_union_left _ lower))
      · cases ih (t.up S.combine) (by omega) reaches with
        | inl inner =>
            obtain ⟨a, b, hashed, same⟩ := inner
            exact .inl ⟨a, b, lower hashed, same⟩
        | inr collides => exact .inr (collides.mono (Set.union_subset_union_left _ lower))

/-- A walk longer than the tree is deep that reaches the root passed through an
    item of the tree as the digest of a node it hashed itself. -/
theorem walk_long {d : Nat} (t : Perfect δ d) {x : δ} {i : Nat} {p : List δ}
    (long : d < p.length) (reaches : walk S.combine x i p = t.root S.combine) :
    (∃ j a b, S.node a b ∈ S.walkInputs x i p ∧ t.get j = S.combine a b) ∨
      Collision S.hash (S.nodeInputs t ∪ S.walkInputs x i p) := by
  let below := p.take (p.length - d)
  let climb := p.drop (p.length - d)
  have split : p = below ++ climb := (List.take_append_drop ..).symm
  have level : climb.length = d := by simp only [climb, List.length_drop]; omega
  have nonempty : below ≠ [] := by
    intro none_
    have count := congrArg List.length none_
    simp only [below, List.length_take, List.length_nil] at count
    omega
  rw [split, walk_append] at reaches
  obtain ⟨a, b, hashed, same⟩ := walk_ends_in_node (S := S) (x := x) (i := i) nonempty
  rw [split, walkInputs_append]
  cases walk_exact t level reaches with
  | inl start => exact .inl ⟨_, a, b, .inl hashed, start.1.symm.trans same⟩
  | inr collides =>
      exact .inr (collides.mono (Set.union_subset_union_right _ Set.subset_union_right))

/-! ## Trees over committed entries -/

variable (S)

/-- The leaf digests of a tree of entries. -/
def leaves {d : Nat} (L : Perfect ι d) : Perfect δ d := L.map fun a => S.hash (S.leaf a)

/-- Everything hashed in building the tree of a list of entries. -/
def treeInputs {d : Nat} (L : Perfect ι d) : Set σ :=
  {s | ∃ i, s = S.leaf (L.get i)} ∪ S.nodeInputs (S.leaves L)

/-- Everything hashed in opening a tree at a claimed entry. -/
def openInputs (a : ι) (i : Nat) (p : List δ) : Set σ :=
  {S.leaf a} ∪ S.walkInputs (S.hash (S.leaf a)) i p

variable {S}

theorem walkInputs_siblings {d : Nat} (t : Perfect δ d) (i : Nat) :
    S.walkInputs (t.get i) i (t.siblings S.combine i) ⊆ S.nodeInputs t := by
  induction d generalizing i with
  | zero => exact Set.empty_subset _
  | succ d ih =>
      simp only [Perfect.siblings, walkInputs, step_get]
      apply Set.union_subset
      · rintro x rfl
        exact .inl ⟨i / 2, step_sibling S.node t i⟩
      · exact (ih (t.up S.combine) (i / 2)).trans Set.subset_union_right

theorem openInputs_siblings {d : Nat} (L : Perfect ι d) (i : Nat) :
    S.openInputs (L.get i) i ((S.leaves L).siblings S.combine i) ⊆ S.treeInputs L := by
  apply Set.union_subset_union
  · rintro x rfl
    exact ⟨i, rfl⟩
  · have climbs := walkInputs_siblings (S := S) (S.leaves L) i
    rwa [leaves, Perfect.map_get] at climbs

/-- An accepted opening is the opening of an entry of the tree, at that entry's
    position and with that position's siblings. -/
theorem opening_sound {d : Nat} (L : Perfect ι d) {a : ι} {i : Nat} {p : List δ}
    (accepted : walk S.combine (S.hash (S.leaf a)) i p = (S.leaves L).root S.combine) :
    (p.length = d ∧ L.get i = a ∧ p = (S.leaves L).siblings S.combine i) ∨
      Collision S.hash (S.treeInputs L ∪ S.openInputs a i p) := by
  have tree : S.nodeInputs (S.leaves L) ⊆ S.treeInputs L := Set.subset_union_right
  have climbs : S.walkInputs (S.hash (S.leaf a)) i p ⊆ S.openInputs a i p := Set.subset_union_right
  have all := Set.union_subset_union tree climbs
  rcases lt_trichotomy p.length d with short | level | long
  · cases walk_short _ short accepted with
    | inl inner =>
        obtain ⟨b, c, hashed, same⟩ := inner
        exact .inr ⟨_, .inr (.inl rfl), _, .inl (tree hashed), S.leaf_ne_node a b c, same⟩
    | inr collides => exact .inr (collides.mono all)
  · cases walk_exact _ level accepted with
    | inl joins =>
        obtain ⟨start, same⟩ := joins
        by_cases entry : S.leaf (L.get i) = S.leaf a
        · exact .inl ⟨level, S.leaf_injective entry, same⟩
        · rw [leaves, Perfect.map_get] at start
          exact .inr ⟨_, .inl (.inl ⟨i, rfl⟩), _, .inr (.inl rfl), entry, start.symm⟩
    | inr collides => exact .inr (collides.mono all)
  · cases walk_long _ long accepted with
    | inl passes =>
        obtain ⟨j, b, c, hashed, same⟩ := passes
        rw [leaves, Perfect.map_get] at same
        exact .inr ⟨_, .inl (.inl ⟨j, rfl⟩), _, .inr (climbs hashed), S.leaf_ne_node _ b c, same⟩
    | inr collides => exact .inr (collides.mono all)

/-- Over leaf digests of unknown origin, a walk no longer than the tree is deep
    can only open a digest that was committed. -/
theorem opening_committed {d : Nat} (t : Perfect δ d) {a : ι} {i : Nat} {p : List δ}
    (within : p.length ≤ d) (accepted : walk S.combine (S.hash (S.leaf a)) i p = t.root S.combine) :
    S.hash (S.leaf a) ∈ t.items ∨ Collision S.hash (S.nodeInputs t ∪ S.openInputs a i p) := by
  have climbs : S.walkInputs (S.hash (S.leaf a)) i p ⊆ S.openInputs a i p := Set.subset_union_right
  cases Nat.lt_or_eq_of_le within with
  | inl short =>
      cases walk_short t short accepted with
      | inl inner =>
          obtain ⟨b, c, hashed, same⟩ := inner
          exact .inr ⟨_, .inr (.inl rfl), _, .inl hashed, S.leaf_ne_node a b c, same⟩
      | inr collides => exact .inr (collides.mono (Set.union_subset_union_right _ climbs))
  | inr level =>
      cases walk_exact t level accepted with
      | inl start => exact .inl (start.1 ▸ t.get_mem i)
      | inr collides => exact .inr (collides.mono (Set.union_subset_union_right _ climbs))

/-! ## Towers

A sequence of digests in which each is the digest of the node over two copies of
the one before it: whole trees and arbitrarily long walks can be made of it.
-/

section Towers

variable (x : Nat → δ) {m : Nat} (tower : ∀ j < m, S.combine (x j) (x j) = x (j + 1))

/-- The nodes over two copies of one digest, up to a height. -/
def towerInputs (S : Hashing ι σ δ) (m : Nat) : Set σ := {s | ∃ j < m, s = S.node (x j) (x j)}

def climb : Nat → Nat → List δ
  | _, 0 => []
  | k, n + 1 => x k :: climb (k + 1) n

@[simp] theorem climb_length (k n : Nat) : (climb x k n).length = n := by
  induction n generalizing k with
  | zero => rfl
  | succ n ih => simp only [climb, List.length_cons, ih]

variable {x}

include tower

theorem walk_climb {k n : Nat} (i : Nat) (within : k + n ≤ m) :
    walk S.combine (x k) i (climb x k n) = x (k + n) := by
  induction n generalizing k i with
  | zero => rfl
  | succ n ih =>
      have next : step S.combine (x k) i (x k) = x (k + 1) := by
        unfold step
        rw [ite_self]
        exact tower k (by omega)
      rw [climb, walk, next, ih _ (by omega)]
      congr 1
      omega

theorem walkInputs_climb {k n : Nat} (i : Nat) (within : k + n ≤ m) :
    S.walkInputs (x k) i (climb x k n) ⊆ towerInputs x S m := by
  induction n generalizing k i with
  | zero => exact Set.empty_subset _
  | succ n ih =>
      have next : step S.combine (x k) i (x k) = x (k + 1) := by
        unfold step
        rw [ite_self]
        exact tower k (by omega)
      rw [climb, walkInputs, next]
      apply Set.union_subset
      · rintro s rfl
        exact ⟨k, by omega, ite_self _⟩
      · exact ih _ (by omega)

theorem uniform_up {d k : Nat} {t : Perfect δ (d + 1)} (all : ∀ i, t.get i = x k) (below : k < m)
    (i : Nat) : (t.up S.combine).get i = x (k + 1) := by
  rw [Perfect.up_get, all, all, tower k below]

theorem uniform_root {d k : Nat} {t : Perfect δ d} (all : ∀ i, t.get i = x k) (within : k + d ≤ m) :
    t.root S.combine = x (k + d) := by
  induction d generalizing k with
  | zero => exact all 0
  | succ d ih =>
      rw [Perfect.root, ih (uniform_up tower all (by omega)) (by omega)]
      congr 1
      omega

theorem uniform_nodeInputs {d k : Nat} {t : Perfect δ d} (all : ∀ i, t.get i = x k)
    (within : k + d ≤ m) : S.nodeInputs t ⊆ towerInputs x S m := by
  induction d generalizing k with
  | zero => exact Set.empty_subset _
  | succ d ih =>
      apply Set.union_subset
      · rintro s ⟨i, rfl⟩
        exact ⟨k, by omega, by rw [all, all]⟩
      · exact ih (uniform_up tower all (by omega)) (by omega)

end Towers

end Hashing

end Library

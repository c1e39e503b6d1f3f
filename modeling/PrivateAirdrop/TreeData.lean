import PrivateAirdrop.ClaimCircuit

/-! # The tree builder

`tree_data` of the script that runs claims on the test network: it hashes the
claimants to leaves, repeats the last leaf up to sixteen, pairs level by level and
reads every claimant's siblings off the levels. It indexes lists, and an index out
of range ends it: `none` below is its `IndexError`.
-/

namespace PrivateAirdrop

open Library

namespace TreeData

def leaf (H : Sha256) (acct : Bytes32) (alloc : U128) : Bytes32 :=
  H ([0x00] ++ acct.toList ++ U128.toLeBytes alloc)

def node (H : Sha256) (l r : Bytes32) : Bytes32 := H ([0x01] ++ l.toList ++ r.toList)

/-- `while len(leaves) < 16: leaves.append(leaves[-1])`. -/
def padLeaves (leaves : List Bytes32) : Option (List Bytes32) :=
  if leaves.length < 16 then
    match leaves.getLast? with
    | none => none
    | some last => padLeaves (leaves ++ [last])
  else some leaves
termination_by 16 - leaves.length
decreasing_by simp only [List.length_append, List.length_singleton]; omega

/-- `[node(cur[i], cur[i+1]) for i in range(0, len(cur), 2)]`. -/
def pairLevel (H : Sha256) (cur : List Bytes32) : Option (List Bytes32) :=
  (List.range' 0 ((cur.length + 1) / 2) 2).mapM fun i => do
    let l ← cur[i]?
    let r ← cur[i + 1]?
    return node H l r

theorem pairLevel_eq (H : Sha256) (cur : List Bytes32) : pairLevel H cur =
    if cur.length % 2 = 0 then some (Perfect.pairUp (node H) cur) else none := by
  fun_induction Perfect.pairUp (node H) cur with
  | case1 l r rest ih =>
      have more : ((l :: r :: rest).length + 1) / 2 = (rest.length + 1) / 2 + 1 := by
        simp only [List.length_cons]
        omega
      have parity : (l :: r :: rest).length % 2 = rest.length % 2 := by
        simp only [List.length_cons]
        omega
      have shift : List.range' (0 + 2) ((rest.length + 1) / 2) 2 =
          (List.range' 0 ((rest.length + 1) / 2) 2).map (2 + ·) :=
        (List.map_add_range' 0 _ 2).symm
      have later : ∀ i, (l :: r :: rest)[2 + i]? = rest[i]? ∧
          (l :: r :: rest)[2 + i + 1]? = rest[i + 1]? := by
        intro i
        rw [Nat.add_comm 2 i]
        exact ⟨rfl, rfl⟩
      rw [pairLevel] at ih
      rw [pairLevel, more, List.range'_succ, List.mapM_cons, shift, List.mapM_map, parity]
      simp only [Function.comp_def, later, ih]
      split <;> rfl
  | case2 cur short =>
      cases cur with
      | nil => rfl
      | cons l rest =>
          cases rest with
          | nil => simp [pairLevel]
          | cons r rest => exact absurd rfl (short l r rest)

theorem pairLevel_length {H : Sha256} {cur next : List Bytes32}
    (h : pairLevel H cur = some next) : next.length = cur.length / 2 := by
  rw [pairLevel_eq] at h
  split at h
  · cases h
    exact Perfect.pairUp_length _ _
  · cases h

/-- `while len(levels[-1]) > 1: ...`, from the level the loop has reached. -/
def levelsFrom (H : Sha256) (cur : List Bytes32) : Option (List (List Bytes32)) :=
  if cur.length > 1 then
    match _paired : pairLevel H cur with
    | none => none
    | some next => (levelsFrom H next).map fun above => cur :: above
  else some [cur]
termination_by cur.length
decreasing_by rw [pairLevel_length _paired]; omega

/-- `for lvl in levels[:-1]: sib = idx ^ 1; path.append(lvl[sib]); idx >>= 1`. -/
def pathFrom : List (List Bytes32) → Nat → Option (List Bytes32)
  | [], _ => some []
  | lvl :: rest, idx => do
    let sib ← lvl[idx ^^^ 1]?
    let path ← pathFrom rest (idx >>> 1)
    return sib :: path

variable {H : Sha256}

theorem leaf_eq (H : Sha256) (acct : Bytes32) (alloc : U128) :
    leaf H acct alloc = leafHash H acct alloc := rfl

theorem node_eq (H : Sha256) : node H = (hashing H).combine := rfl

theorem padLeaves_eq {leaves : List Bytes32} (some_ : leaves ≠ []) :
    ∃ padding, padLeaves leaves = some (leaves ++ padding) ∧
      (leaves ++ padding).length = max 16 leaves.length := by
  fun_induction padLeaves leaves with
  | case1 leaves short last => exact absurd (List.getLast?_eq_none_iff.mp last) some_
  | case2 leaves short last found ih =>
      obtain ⟨padding, padded, count⟩ := ih (by simp)
      rw [List.append_assoc] at padded count
      refine ⟨last :: padding, padded, ?_⟩
      simp only [List.length_append, List.length_cons, List.length_nil] at count ⊢
      omega
  | case3 leaves long =>
      refine ⟨[], by rw [List.append_nil], ?_⟩
      rw [List.append_nil]
      omega

/-- On a list of `2 ^ d` leaves the builder computes the levels of their tree. -/
theorem levelsFrom_perfect (H : Sha256) {d : Nat} (t : Perfect Bytes32 d) :
    levelsFrom H t.items = some (t.levels (node H)) := by
  induction d with
  | zero =>
      have one : ¬ t.items.length > 1 := by rw [t.length_items]; decide
      rw [levelsFrom, if_neg one]
      rfl
  | succ d ih =>
      have double : 2 ^ (d + 1) = 2 * 2 ^ d := pow_succ' 2 d
      have positive := Nat.two_pow_pos d
      have many : t.items.length > 1 := by rw [t.length_items]; omega
      have even : t.items.length % 2 = 0 := by rw [t.length_items]; omega
      have paired : pairLevel H t.items = some (t.up (node H)).items := by
        rw [pairLevel_eq, if_pos even]
        rfl
      rw [levelsFrom, if_pos many]
      split
      · rename_i failed
        cases failed.symm.trans paired
      · rename_i next found
        cases found.symm.trans paired
        rw [ih, Option.map_some]
        rfl

theorem length_of_levelsFrom {leaves : List Bytes32} {levels : List (List Bytes32)}
    (some_ : leaves ≠ []) (built : levelsFrom H leaves = some levels) :
    ∃ d, leaves.length = 2 ^ d := by
  fun_induction levelsFrom H leaves generalizing levels with
  | case1 cur many failed => cases built
  | case2 cur many next paired ih =>
      obtain ⟨above, later, -⟩ := Option.map_eq_some_iff.mp built
      have half := pairLevel_length paired
      have nonempty : next ≠ [] := by
        rintro rfl
        simp only [List.length_nil] at half
        omega
      obtain ⟨d, count⟩ := ih nonempty later
      rw [pairLevel_eq] at paired
      split at paired
      · rename_i even
        exact ⟨d + 1, by rw [pow_succ', ← count, half]; omega⟩
      · cases paired
  | case3 cur few =>
      have positive := List.length_pos_iff.mpr some_
      exact ⟨0, by rw [pow_zero]; omega⟩

theorem pathFrom_levels (H : Sha256) {d : Nat} (t : Perfect Bytes32 d) {i : Nat}
    (inside : i < 2 ^ d) :
    pathFrom (t.levels (node H)).dropLast i = some (t.siblings (node H) i) := by
  induction d generalizing i with
  | zero => rfl
  | succ d ih =>
      have sibling : i ^^^ 1 < 2 ^ (d + 1) :=
        Nat.xor_lt_two_pow inside (Nat.one_lt_two_pow (Nat.succ_ne_zero d))
      have half : i >>> 1 = i / 2 := Nat.shiftRight_one i
      have above : i / 2 < 2 ^ d := by
        rw [pow_succ'] at inside
        omega
      rw [Perfect.levels_dropLast, pathFrom, t.getElem?_of_lt sibling, half, ih (t.up (node H)) above]
      rfl

theorem path_walks (H : Sha256) {d : Nat} (t : Perfect Bytes32 d) {i : Nat}
    (small : i < 2 ^ 32) :
    merkleWalk H (t.get i) (UInt32.ofNat i) (t.siblings (node H) i) = t.root (node H) := by
  have index : (UInt32.ofNat i).toNat = i := UInt32.toNat_ofNat_of_lt' small
  rw [merkleWalk_eq, index, ← node_eq, walk_siblings]

end TreeData

/-- A line printed for a claimant. -/
structure ClaimantLine where
  index : Nat
  accountId : Bytes32
  allocation : U128
  path : List Bytes32

structure TreeOutput where
  root : Bytes32
  lines : List ClaimantLine

def claimantLine (levels : List (List Bytes32)) (numbered : Entry × Nat) : Option ClaimantLine := do
  let path ← TreeData.pathFrom levels.dropLast numbered.2
  return ⟨numbered.2, numbered.1.1, numbered.1.2, path⟩

open TreeData in
def treeData (H : Sha256) (claimants : List Entry) : Option TreeOutput := do
  let leaves := claimants.map fun c => leaf H c.1 c.2
  let leaves ← padLeaves leaves
  let levels ← levelsFrom H leaves
  let top ← levels.getLast?
  let root ← top[0]?
  let lines ← claimants.zipIdx.mapM (claimantLine levels)
  return ⟨root, lines⟩

theorem mapM_some {α β : Type} {f : α → Option β} {g : α → β} {l : List α}
    (all : ∀ a ∈ l, f a = some (g a)) : l.mapM f = some (l.map g) := by
  induction l with
  | nil => rfl
  | cons a l ih =>
      rw [List.mapM_cons, all a List.mem_cons_self,
        ih fun b member => all b (List.mem_cons_of_mem _ member)]
      rfl

section Specification

open TreeData

variable {H : Sha256} {claimants : List Entry}

theorem treeData_eq {d : Nat} {t : Perfect Bytes32 d}
    (padded : padLeaves (claimants.map fun c => leaf H c.1 c.2) = some t.items)
    (count : claimants.length ≤ 2 ^ d) :
    treeData H claimants = some ⟨t.root (node H),
      claimants.zipIdx.map fun n => ⟨n.2, n.1.1, n.1.2, t.siblings (node H) n.2⟩⟩ := by
  have lines : claimants.zipIdx.mapM (claimantLine (t.levels (node H))) =
      some (claimants.zipIdx.map fun n => ⟨n.2, n.1.1, n.1.2, t.siblings (node H) n.2⟩) := by
    apply mapM_some
    intro n member
    have inside : n.2 < 2 ^ d := by
      have numbered := List.snd_lt_of_mem_zipIdx member
      omega
    rw [claimantLine, pathFrom_levels H t inside]
    rfl
  simp only [treeData, padded, levelsFrom_perfect, Perfect.levels_getLast?, Option.bind_eq_bind,
    Option.bind_some, List.getElem?_cons_zero, lines]
  rfl

theorem padded_perfect {leaves : List Bytes32} (some_ : leaves ≠ [])
    (size : leaves.length ≤ 16 ∨ ∃ d, leaves.length = 2 ^ d) :
    ∃ d, ∃ t : Perfect Bytes32 d, ∃ padding, padLeaves leaves = some t.items ∧
      t.items = leaves ++ padding := by
  obtain ⟨padding, padded, count⟩ := padLeaves_eq some_
  have power : ∃ d, (leaves ++ padding).length = 2 ^ d := by
    cases size with
    | inl few => exact ⟨4, by rw [count]; omega⟩
    | inr exact_ =>
        obtain ⟨d, same⟩ := exact_
        by_cases few : leaves.length ≤ 16
        · exact ⟨4, by rw [count]; omega⟩
        · exact ⟨d, by rw [count]; omega⟩
  obtain ⟨d, same⟩ := power
  exact ⟨d, ⟨_, same⟩, padding, padded, rfl⟩

theorem treeData_of_size (H : Sha256) (some_ : claimants ≠ [])
    (size : claimants.length ≤ 16 ∨ ∃ d, claimants.length = 2 ^ d) :
    ∃ d, ∃ t : Perfect Bytes32 d,
      treeData H claimants = some ⟨t.root (node H),
        claimants.zipIdx.map fun n => ⟨n.2, n.1.1, n.1.2, t.siblings (node H) n.2⟩⟩ ∧
      ∀ i c, claimants[i]? = some c → t.get i = leafHash H c.1 c.2 := by
  have nonempty : claimants.map (fun c => leaf H c.1 c.2) ≠ [] := by simpa using some_
  have length : (claimants.map fun c => leaf H c.1 c.2).length = claimants.length :=
    List.length_map _
  obtain ⟨d, t, padding, padded, items⟩ := padded_perfect nonempty (by rwa [length])
  have count : claimants.length ≤ 2 ^ d := by
    rw [← t.length_items, items, List.length_append, length]
    exact Nat.le_add_right _ _
  refine ⟨d, t, treeData_eq padded count, ?_⟩
  intro i c claims
  obtain ⟨inside, -⟩ := List.getElem?_eq_some_iff.mp claims
  have leaf_ := t.getElem?_of_lt (i := i) (by omega)
  rw [items, List.getElem?_append_left (by omega), List.getElem?_map, claims] at leaf_
  rw [← leaf_eq]
  exact (Option.some.inj leaf_).symm

theorem size_of_treeData {out : TreeOutput} (some_ : claimants ≠ [])
    (built : treeData H claimants = some out) :
    claimants.length ≤ 16 ∨ ∃ d, claimants.length = 2 ^ d := by
  have nonempty : claimants.map (fun c => leaf H c.1 c.2) ≠ [] := by simpa using some_
  obtain ⟨padding, padded, count⟩ := padLeaves_eq nonempty
  rw [List.length_map] at count
  simp only [treeData, padded, Option.bind_eq_bind, Option.bind_some] at built
  obtain ⟨levels, climbed, -⟩ := Option.bind_eq_some_iff.mp built
  obtain ⟨d, power⟩ := length_of_levelsFrom (by simp [some_]) climbed
  rw [count] at power
  by_cases few : claimants.length ≤ 16
  · exact .inl few
  · exact .inr ⟨d, by omega⟩

/-- The builder completes for exactly the sizes that never reach an odd level, and
    every line it prints is a claim that walks to the root it prints; so does every
    path it reads off the levels of a list of `2 ^ d` leaves. -/
theorem treeData_walks (H : Sha256) {claimants : List Entry} (some_ : claimants ≠ []) :
    ((∃ out, treeData H claimants = some out) ↔
        claimants.length ≤ 16 ∨ ∃ d, claimants.length = 2 ^ d) ∧
      (∀ out, treeData H claimants = some out → out.lines.length = claimants.length ∧
        ∀ i line, out.lines[i]? = some line →
          line.index = i ∧ claimants[i]? = some (line.accountId, line.allocation) ∧
          (i < 2 ^ 32 → merkleWalk H (leafHash H line.accountId line.allocation)
            (UInt32.ofNat i) line.path = out.root)) ∧
      ∀ d ≤ 32, ∀ leaves : List Bytes32, leaves.length = 2 ^ d →
        ∃ levels root, levelsFrom H leaves = some levels ∧ levels.getLast? = some [root] ∧
          ∀ i leaf, leaves[i]? = some leaf → ∃ path,
            pathFrom levels.dropLast i = some path ∧
              merkleWalk H leaf (UInt32.ofNat i) path = root := by
  refine ⟨⟨?_, ?_⟩, ?_, ?_⟩
  · intro done
    obtain ⟨out, built⟩ := done
    exact size_of_treeData some_ built
  · intro size
    obtain ⟨d, t, built, -⟩ := treeData_of_size H some_ size
    exact ⟨_, built⟩
  · intro out done
    obtain ⟨d, t, built, leaves⟩ := treeData_of_size H some_ (size_of_treeData some_ done)
    cases built.symm.trans done
    refine ⟨by rw [List.length_map, List.length_zipIdx], ?_⟩
    intro i line printed
    rw [List.getElem?_map, List.getElem?_zipIdx] at printed
    cases claims : claimants[i]? with
    | none => simp [claims] at printed
    | some c =>
        simp only [claims, Option.map_some, Nat.zero_add, Option.some.injEq] at printed
        subst printed
        refine ⟨rfl, rfl, ?_⟩
        intro small
        rw [← leaves i c claims]
        exact path_walks H t small
  · intro d depth leaves count
    let t : Perfect Bytes32 d := ⟨leaves, count⟩
    refine ⟨_, _, levelsFrom_perfect H t, t.levels_getLast? (node H), ?_⟩
    intro i leaf position
    obtain ⟨inside, -⟩ := List.getElem?_eq_some_iff.mp position
    rw [count] at inside
    have small : i < 2 ^ 32 := Nat.lt_of_lt_of_le inside (Nat.pow_le_pow_right (by decide) depth)
    have item : t.get i = leaf := Option.some.inj ((t.getElem?_of_lt inside).symm.trans position)
    refine ⟨_, pathFrom_levels H t inside, ?_⟩
    rw [← item]
    exact path_walks H t small

/-- Three claimants, padded to sixteen. -/
theorem treeData_walks_three :
    let zeros : Bytes32 := Vector.replicate 32 0
    let claimants : List Entry := [(zeros, 5), (zeros, 7), (Vector.replicate 32 1, 5)]
    ∃ out, treeData lengthHash claimants = some out ∧ out.lines.length = 3 := by
  intro zeros claimants
  obtain ⟨completes, lines, -⟩ := treeData_walks lengthHash (List.cons_ne_nil _ _ : claimants ≠ [])
  obtain ⟨out, built⟩ := completes.mpr (.inl (by decide))
  exact ⟨out, built, (lines out built).1⟩

end Specification

end PrivateAirdrop

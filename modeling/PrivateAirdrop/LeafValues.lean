import Mathlib.Data.List.Perm.Subperm
import PrivateAirdrop.ClaimCircuit

/-! # Leaf values from claimants

Claimants hand in leaf values they computed themselves, so a tree may be built
over values that are no leaf hashes at all. The circuit compares nothing but the
root: it does not know how deep the tree is. What it accepts then depends on how
long a path may be.
-/

namespace PrivateAirdrop

open Library

/-- What a claimant opens a root with. -/
structure Opening where
  entry : Entry
  leafIndex : UInt32
  merklePath : List Bytes32

namespace Opening

variable (H : Sha256) (o : Opening)

def leaf : Bytes32 := leafHash H o.entry.1 o.entry.2

/-- The check of `submit_claim` and of the guest. -/
def Accepted (root : Bytes32) : Prop := merkleWalk H (o.leaf H) o.leafIndex o.merklePath = root

/-- Everything hashed in the opening. -/
def inputs : Set (List UInt8) := (hashing H).openInputs o.entry o.leafIndex.toNat o.merklePath

end Opening

/-- Short of a collision, openings with paths of the given lengths open committed
    leaf values only, and no more pairs than there are of them. -/
structure CommittedOnly (d : Nat) (lengths : Set Nat) : Prop where
  committed : ∀ (H : Sha256) (t : Perfect Bytes32 d) (o : Opening),
    o.merklePath.length ∈ lengths → o.Accepted H (t.root (nodeHash H)) →
    o.leaf H ∈ t.items ∨ Collision H ((hashing H).nodeInputs t ∪ o.inputs H)
  count : ∀ (H : Sha256) (t : Perfect Bytes32 d) (os : List Opening), (os.map Opening.entry).Nodup →
    (∀ o ∈ os, o.merklePath.length ∈ lengths ∧ o.Accepted H (t.root (nodeHash H))) →
    os.length ≤ 2 ^ d ∨
      Collision H ((hashing H).nodeInputs t ∪ {s | ∃ o ∈ os, s ∈ o.inputs H})

section Short

variable {H : Sha256} {d : Nat} {t : Perfect Bytes32 d}

theorem Opening.Accepted.committed {o : Opening} (short : o.merklePath.length ≤ d)
    (accepted : o.Accepted H (t.root (nodeHash H))) :
    o.leaf H ∈ t.items ∨ Collision H ((hashing H).nodeInputs t ∪ o.inputs H) := by
  rw [Accepted, merkleWalk_eq] at accepted
  exact Hashing.opening_committed t short accepted

theorem leaves_nodup {os : List Opening} {inputs : Set (List UInt8)}
    (distinct : (os.map Opening.entry).Nodup) (injective : Set.InjOn H inputs)
    (hashed : ∀ o ∈ os, o.inputs H ⊆ inputs) : (os.map fun o => o.leaf H).Nodup := by
  have leaves : (os.map Opening.entry).map (fun e => leafHash H e.1 e.2) =
      os.map fun o => o.leaf H := by rw [List.map_map]; rfl
  rw [← leaves]
  apply List.Nodup.map_on _ distinct
  intro e he e' he' same
  obtain ⟨o, member, rfl⟩ := List.mem_map.mp he
  obtain ⟨o', member', rfl⟩ := List.mem_map.mp he'
  have first : (hashing H).leaf o.entry ∈ inputs := hashed o member (.inl rfl)
  have second : (hashing H).leaf o'.entry ∈ inputs := hashed o' member' (.inl rfl)
  exact (hashing H).leaf_injective (injective first second same)

theorem committedOnly_of_short {lengths : Set Nat} (short : ∀ m ∈ lengths, m ≤ d) :
    CommittedOnly d lengths where
  committed := fun _ _ _ allowed accepted => accepted.committed (short _ allowed)
  count := by
    intro H t os distinct each
    let inputs : Set (List UInt8) := (hashing H).nodeInputs t ∪ {s | ∃ o ∈ os, s ∈ o.inputs H}
    by_cases collides : Collision H inputs
    · exact .inr collides
    · have injective := not_collision_iff.mp collides
      have hashed : ∀ o ∈ os, o.inputs H ⊆ inputs := fun o member s hs => .inr ⟨o, member, hs⟩
      have nodup := leaves_nodup distinct injective hashed
      have listed : (os.map fun o => o.leaf H) ⊆ t.items := by
        intro leaf member
        obtain ⟨o, there, rfl⟩ := List.mem_map.mp member
        obtain ⟨allowed, accepted⟩ := each o there
        apply (accepted.committed (short _ allowed)).resolve_right
        intro found
        apply collides
        exact found.mono (Set.union_subset Set.subset_union_left (hashed o there))
      have bound := (nodup.subperm listed).length_le
      rw [List.length_map, t.length_items] at bound
      exact .inl bound

end Short

/-- Whatever the hash, a leaf value that is the node over a leaf hash and a sibling
    opens the pair below it, with a path one longer than the tree is deep. -/
theorem planted_node_opens {H : Sha256} {d : Nat} {t : Perfect Bytes32 d} {e : Entry}
    {sibling : Bytes32} {j : Nat} (small : 2 * j < 2 ^ 32)
    (planted : t.get j = nodeHash H (leafHash H e.1 e.2) sibling) :
    Opening.Accepted H ⟨e, UInt32.ofNat (2 * j), sibling :: t.siblings (nodeHash H) j⟩
      (t.root (nodeHash H)) := by
  have index : (UInt32.ofNat (2 * j)).toNat = 2 * j := by
    rw [UInt32.toNat_ofNat']
    exact Nat.mod_eq_of_lt small
  have joined : step (nodeHash H) (leafHash H e.1 e.2) (2 * j) sibling = t.get j := by
    unfold step
    rw [if_pos (Nat.mul_mod_right 2 j), planted]
  have half : 2 * j / 2 = j := by omega
  rw [Opening.Accepted, merkleWalk_eq, hashing_combine, index, walk, Opening.leaf, joined, half]
  exact walk_siblings (nodeHash H) t j

/-! A hash that counts levels: a leaf is 0 and a node is one more than its left child.
The leaf value `m - d` then stands for a tree of depth `m - d` below it. -/

/-- A digest that spells a number. -/
def digest (k : Nat) : Bytes32 := ⟨(byteRadix.write 32 k).toArray, by simp⟩

/-- The hash whose nodes count how high they stand. -/
def levelHash : Sha256
  | [] => digest 0
  | tag :: rest =>
    if tag = 1 then
      match byteRadix.read 32 rest with
      | some (k, _) => digest (k + 1)
      | none => digest 0
    else digest 0

theorem digest_injective {j k : Nat} (hj : j < 2 ^ 32) (hk : k < 2 ^ 32)
    (same : digest j = digest k) : j = k := by
  have small : 2 ^ 32 ≤ byteRadix.base ^ 32 := by decide
  have bytes : byteRadix.write 32 j = byteRadix.write 32 k := by
    have lists := congrArg Vector.toList same
    simpa [digest] using lists
  have reads_j := byteRadix.read_write 32 j (hj.trans_le small) []
  have reads_k := byteRadix.read_write 32 k (hk.trans_le small) []
  rw [bytes, reads_k] at reads_j
  exact ((Prod.mk.inj (Option.some.inj reads_j)).1).symm

theorem levelHash_node {k : Nat} (hk : k < 2 ^ 32) (r : Bytes32) :
    nodeHash levelHash (digest k) r = digest (k + 1) := by
  have small : 2 ^ 32 ≤ byteRadix.base ^ 32 := by decide
  have reads := byteRadix.read_write 32 k (hk.trans_le small) r.toList
  have spelled : (digest k).toList = byteRadix.write 32 k := by simp [digest]
  rw [nodeHash_eq, nodePreimage, levelHash, spelled, if_pos rfl, reads]

theorem levelHash_tower {m : Nat} (hm : m < 2 ^ 32) :
    ∀ j < m, (hashing levelHash).combine (digest j) (digest j) = digest (j + 1) :=
  fun _ hj => levelHash_node (hj.trans hm) _

theorem levelHash_injOn {m : Nat} (hm : m < 2 ^ 32) (e : Entry) :
    Set.InjOn levelHash (Hashing.towerInputs digest (hashing levelHash) m ∪ {leafPreimage e.1 e.2}) := by
  have node : ∀ j < m, levelHash ((hashing levelHash).node (digest j) (digest j)) = digest (j + 1) :=
    levelHash_tower hm
  have apart : ∀ j < m, digest (j + 1) ≠ digest 0 := by
    intro j hj same
    have zero := digest_injective (by omega) (by omega) same
    omega
  rintro x (⟨j, hj, rfl⟩ | rfl) y (⟨k, hk, rfl⟩ | rfl) same
  · rw [node j hj, node k hk] at same
    have successors := digest_injective (by omega) (by omega) same
    obtain rfl : j = k := by omega
    rfl
  · rw [node j hj] at same
    exact absurd same (apart j hj)
  · rw [node k hk] at same
    exact absurd same.symm (apart k hk)
  · rfl

/-- The leaf hash of `e`, opened through a tree that does not hold it. -/
def towerOpening (e : Entry) (m : Nat) : Opening := ⟨e, 0, Hashing.climb digest 0 m⟩

/-- Over leaves that all spell `k > 0`, a path of length `k + d` opens a leaf hash
    that was not committed, and nothing collides. -/
theorem towerOpening_accepted {d k : Nat} (some_ : 0 < k) (small : k + d < 2 ^ 32)
    {t : Perfect Bytes32 d} (all : ∀ i, t.get i = digest k) (e : Entry) :
    (towerOpening e (k + d)).Accepted levelHash (t.root (nodeHash levelHash)) ∧
      (towerOpening e (k + d)).leaf levelHash ∉ t.items ∧
      ¬ Collision levelHash
        ((hashing levelHash).nodeInputs t ∪ (towerOpening e (k + d)).inputs levelHash) := by
  have tower := levelHash_tower small
  have zero : 0 + (k + d) ≤ k + d := by omega
  refine ⟨?_, ?_, ?_⟩
  · have top := Hashing.uniform_root tower all (Nat.le_refl _)
    have walked := Hashing.walk_climb tower 0 zero
    rw [Nat.zero_add] at walked
    rw [Opening.Accepted, merkleWalk_eq]
    exact walked.trans top.symm
  · intro committed
    obtain ⟨i, -, same⟩ := t.exists_get_of_mem committed
    have spelled : digest k = digest 0 := (all i).symm.trans same
    have none_ := digest_injective (by omega) (by omega) spelled
    omega
  · apply not_collision_iff.mpr
    apply (levelHash_injOn small e).mono
    apply Set.union_subset
    · exact (Hashing.uniform_nodeInputs tower all (Nat.le_refl _)).trans Set.subset_union_left
    · apply Set.union_subset Set.subset_union_right
      exact (Hashing.walkInputs_climb tower 0 zero).trans Set.subset_union_left

/-- The circuit opens committed leaf values only, for whatever hash and leaf
    values, exactly when no path it accepts is longer than the tree is deep. -/
theorem committedOnly_iff (d : Nat) (lengths : Set Nat) (counted : ∀ m ∈ lengths, m < 2 ^ 32) :
    CommittedOnly d lengths ↔ ∀ m ∈ lengths, m ≤ d := by
  constructor
  · intro sound m allowed
    by_contra long
    obtain ⟨k, rfl⟩ : ∃ k, m = k + d := ⟨m - d, by omega⟩
    let t : Perfect Bytes32 d := ⟨List.replicate (2 ^ d) (digest k), List.length_replicate ..⟩
    have all : ∀ i, t.get i = digest k := fun i => List.eq_of_mem_replicate (t.get_mem i)
    let e : Entry := (Vector.replicate 32 0, 0)
    obtain ⟨accepted, absent, free⟩ := towerOpening_accepted (by omega) (counted _ allowed) all e
    have asked : (towerOpening e (k + d)).merklePath.length ∈ lengths := by
      rw [towerOpening, Hashing.climb_length]
      exact allowed
    cases sound.committed levelHash t _ asked accepted with
    | inl found => exact absent found
    | inr collides => exact free collides
  · exact committedOnly_of_short

/-- Paths of the depth of the tree or shorter, for a tree of two leaves. -/
theorem committedOnly_two_leaves : CommittedOnly 1 {m | m ≤ 1} :=
  (committedOnly_iff 1 {m | m ≤ 1} (fun m h => Nat.lt_of_le_of_lt h (by omega))).mpr fun _ h => h

/-- One leaf value, one sibling: a pair whose leaf hash was never committed is
    accepted, without a collision. -/
theorem uncommitted_pair_accepted :
    let t : Perfect Bytes32 0 := ⟨[digest 1], rfl⟩
    let o : Opening := ⟨(Vector.replicate 32 0, 5), 0, [digest 0]⟩
    o.Accepted levelHash (t.root (nodeHash levelHash)) ∧ o.leaf levelHash ∉ t.items ∧
      ¬ Collision levelHash ((hashing levelHash).nodeInputs t ∪ o.inputs levelHash) := by
  intro t o
  have all : ∀ i, t.get i = digest 1 := fun i => List.mem_singleton.mp (t.get_mem i)
  exact towerOpening_accepted (k := 1) (d := 0) (by omega) (by omega) all _

end PrivateAirdrop

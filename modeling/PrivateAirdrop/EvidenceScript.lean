import Mathlib.Tactic.IntervalCases
import PrivateAirdrop.Scripts
import PrivateAirdrop.TreeData

/-! # The script that collects evidence

`run_distribution` of the script that runs claims on the test network: it builds a
tree of demo claimants, initialises a distribution for it and claims for one of them
after the other, each as soon as it sees the nullifier of the one before. What it has
to go by is text: the lines of the tree builder, cut at bars, and what `chain state`
prints. Others use the chain meanwhile, and a transaction arrives when it arrives.
-/

namespace PrivateAirdrop

open Library
open Library.Alphabet (characters)

namespace Evidence

open Script

def accountName (distTag : List Char) (i : Nat) : List UInt8 :=
  utf8 ("lp0003-demo-claimant/".toList ++ distTag ++ '/' :: Nat.toDigits 10 i)

def claimant (H : Sha256) (distTag : List Char) (i : Nat) : Entry :=
  (H (accountName distTag i), BitVec.ofNat 128 (100 * (i + 1)))

def claimants (H : Sha256) (distTag : List Char) (n : Nat) : List Entry :=
  (List.range n).map (claimant H distTag)

/-- `f"{i}|{acct.hex()}|{alloc}|{','.join(path)}"`. -/
def printLine (line : ClaimantLine) : List Char :=
  Nat.toDigits 10 line.index ++ '|' :: (characters.hexEncode line.accountId.toList ++
    '|' :: (Nat.toDigits 10 line.allocation.toNat ++
      '|' :: [','].intercalate (line.path.map fun sib => characters.hexEncode sib.toList)))

def printTree (out : TreeOutput) : List Char :=
  characters.hexEncode out.root.toList ++ '\n' :: out.lines.flatMap fun line => printLine line ++ ['\n']

/-- `tree_data`. An allocation past 16 bytes is the `OverflowError` of `to_bytes`. -/
def treeText (H : Sha256) (distTag : List Char) (n : Nat) : Option (List Char) :=
  if 100 * n < 2 ^ 128 then (treeData H (claimants H distTag n)).map printTree else none

/-- `IFS='|' read -r` into one variable more than `n`; the last takes all that is left. -/
def readFields : Nat → List Char → List (List Char)
  | 0, line => [line]
  | n + 1, line =>
    line.takeWhile (· ≠ '|') :: readFields n ((line.dropWhile (· ≠ '|')).drop 1)

/-- `printf '%02x'`. -/
def printf02x (n : Nat) : List Char :=
  let digits := Nat.toDigits 16 n
  List.replicate (2 - digits.length) '0' ++ digits

/-- `ca11ab1e$(printf '%02x' "$idx")$(echo "$tag" | head -c 2 | xxd -p)`. -/
def recipientNote (tag : List Char) (idx : Nat) : List Char :=
  "ca11ab1e".toList ++ printf02x idx ++ characters.hexEncode ((utf8 (tag ++ ['\n'])).take 2)

/-- The variables of the script, the number of claimants, and the accounts of the
    keys that its commands draw. -/
structure Settings where
  adpid : List Char
  ccpid : List Char
  claimsPerDist : Nat
  tag : List Char
  distributor : AccountId
  claimerNote : AccountId

def Settings.did (s : Settings) : List Char := characters.hexEncode s.distributor.toList

inductive Stage where
  | start
  /-- Waiting for the owner of the account, with so many looks left. -/
  | initializing (lines : List (List Char)) (looks : Nat)
  | claiming (lines : List (List Char))
  /-- Waiting for the nullifier of a claim, with so many looks left. -/
  | landing (idx : Nat) (lines : List (List Char)) (looks : Nat)
  | finished
  | failed
  deriving Repr, DecidableEq

/-- The log lines about a claim that was sent. -/
inductive LogLine where
  | landed (idx : Nat)
  | didNotLand (idx : Nat)
  deriving Repr, DecidableEq

/-- `chain state` for the distributor account. -/
def Settings.state (s : Settings) (w : World) : List Char :=
  chainState (w s.distributor).data (w s.distributor).programOwner

/-- `grep -q "program_owner: $ADPID"`. -/
def Settings.seesOwner (s : Settings) (w : World) : Bool :=
  greps ("program_owner: ".toList ++ s.adpid) (s.state w)

def Settings.initializeArgs (s : Settings) (root : List Char) : ChainInitializeArgs where
  programId := s.adpid
  claimCircuitProgramId := s.ccpid
  signingKey := .ok s.distributor
  merkleRoot := root
  totalSupply := 100000

/-- The claim of a line, with the number it has there. -/
def Settings.claimArgs (s : Settings) (line : List Char) : Option (Nat × ChainClaimArgs) :=
  match readFields 3 line with
  | [idx, acct, alloc, path] => do
    let i ← Decimal.value idx
    let allocation ← parseU128 alloc
    let leafIndex ← parseU32 idx
    return (i, {
      programId := s.adpid
      distributorId := s.did
      accountId := acct
      allocation := allocation
      leafIndex := leafIndex
      merklePath := path
      recipientNote := recipientNote s.tag i })
  | _ => none

/-- One step of `run_distribution` in a world. Wherever a command fails, so does the
    script: it runs under `set -e`. -/
def turn (P : Platform) (dep : Deployment) (s : Settings) (w : World) : Stage → Turn Stage LogLine
  | .start =>
    match treeText P.sha256 s.tag s.claimsPerDist with
    | none => .to .failed
    | some stdout =>
      let data := (captured stdout).splitOn '\n'
      match chainInitialize dep (s.initializeArgs (data.headD [])) with
      | .error _ => .to .failed
      | .ok sent => ⟨.initializing data.tail 60, sent, none⟩
  | .initializing lines 0 => .to (.claiming lines)
  | .initializing lines (looks + 1) =>
    if s.seesOwner w then .to (.claiming lines) else .to (.initializing lines looks)
  | .claiming [] => .to .finished
  | .claiming (line :: lines) =>
    match s.claimArgs line with
    | none => .to .failed
    | some (idx, args) =>
      match chainClaim P dep w s.claimerNote args with
      | none => .to .failed
      | some t => ⟨.landing idx lines 36, [t], none⟩
  | .landing idx _ 0 => ⟨.failed, [], some (.didNotLand idx)⟩
  | .landing idx lines (looks + 1) =>
    if nullifierCount (s.state w) = idx + 1 then ⟨.claiming lines, [], some (.landed idx)⟩
    else .to (.landing idx lines looks)
  | .finished => .to .finished
  | .failed => .to .failed

/-- The script on a chain that others use as well. -/
abbrev run (P : Platform) (dep : Deployment) (s : Settings) :
    Machine (Config Stage) Event (Reply LogLine) :=
  Script.run P dep (turn P dep s)

section Reading

theorem split_captured {lines : List (List Char)} (some_ : lines ≠ [])
    (clean : ∀ line ∈ lines, line ≠ [] ∧ '\n' ∉ line) :
    (captured (lines.flatMap fun line => line ++ ['\n'])).splitOn '\n' = lines := by
  obtain ⟨before, last, rfl⟩ := (List.eq_nil_or_concat lines).resolve_left some_
  rw [List.concat_eq_append] at clean ⊢
  obtain ⟨solid, final⟩ := clean last (List.mem_append_right _ (List.mem_singleton_self _))
  have ending : captured ((before ++ [last]).flatMap fun line => line ++ ['\n']) =
      (before.flatMap fun line => line ++ ['\n']) ++ last := by
    have inside : ∀ c ∈ last.reverse, decide (c = '\n') = false := by
      intro c member
      apply decide_eq_false
      rintro rfl
      exact final (List.mem_reverse.mp member)
    have newline : ∀ c ∈ ['\n'], decide (c = '\n') = true := by simp
    have drop := dropWhile_padded (before.flatMap fun line => line ++ ['\n']).reverse newline inside
      (by simpa using solid)
    simp only [List.flatMap_append, List.flatMap_singleton, captured, List.reverse_append,
      List.append_assoc]
    simpa using congrArg List.reverse drop
  rw [ending]
  clear ending solid
  induction before with
  | nil => simpa using List.splitOn_eq_singleton final
  | cons line before ih =>
      have first := (clean line List.mem_cons_self).2
      have later := ih (by simp) fun l member => clean l (List.mem_cons_of_mem _ member)
      simp only [List.flatMap_cons, List.append_assoc, List.cons_append, List.nil_append] at later ⊢
      rw [List.splitOn_append_cons_self_of_not_mem first, later]

theorem readFields_succ {n : Nat} {field rest : List Char} (clean : '|' ∉ field) :
    readFields (n + 1) (field ++ '|' :: rest) = field :: readFields n rest := by
  have inside : ∀ c ∈ field, decide (c ≠ '|') = true := by
    intro c member
    exact decide_eq_true fun same => clean (same ▸ member)
  simp only [readFields, List.takeWhile_append_of_pos inside, List.dropWhile_append_of_pos inside]
  simp

theorem readFields_printLine (line : ClaimantLine) :
    readFields 3 (printLine line) = [Nat.toDigits 10 line.index,
      characters.hexEncode line.accountId.toList, Nat.toDigits 10 line.allocation.toNat,
      [','].intercalate (line.path.map fun sib => characters.hexEncode sib.toList)] := by
  have number : ∀ n, '|' ∉ Nat.toDigits 10 n := fun n => not_mem_toDigits n rfl
  have hex : '|' ∉ characters.hexEncode line.accountId.toList :=
    characters.not_mem_hexEncode (by decide)
  rw [printLine, readFields_succ (number _), readFields_succ hex, readFields_succ (number _)]
  rfl

end Reading

section Tree

variable {H : Sha256} {distTag : List Char} {n : Nat}

theorem padLeaves_map {f : Entry → Bytes32} {entries : List Entry} (some_ : entries ≠ []) :
    ∃ padding, TreeData.padLeaves (entries.map f) = some ((entries ++ padding).map f) ∧
      (entries ++ padding).length = max 16 entries.length ∧ ∀ e ∈ padding, e ∈ entries := by
  generalize leaves_ : entries.map f = leaves
  fun_induction TreeData.padLeaves leaves generalizing entries with
  | case1 leaves short last =>
      rw [← leaves_, List.getLast?_eq_none_iff, List.map_eq_nil_iff] at last
      exact absurd last some_
  | case2 leaves short last found ih =>
      rw [← leaves_, List.getLast?_map, Option.map_eq_some_iff] at found
      obtain ⟨e, final, rfl⟩ := found
      have member := List.mem_of_getLast? final
      obtain ⟨padding, padded, count, inside⟩ := @ih (entries ++ [e]) (by simp)
        (by rw [List.map_append, leaves_, List.map_singleton])
      rw [List.append_assoc] at padded count
      refine ⟨e :: padding, padded, ?_, ?_⟩
      · rw [← leaves_, List.length_map] at short
        simp only [List.length_append, List.length_cons, List.length_nil] at count ⊢
        omega
      · intro e' later
        rcases List.mem_cons.mp later with rfl | later
        · exact member
        · rcases List.mem_append.mp (inside e' later) with old | new
          · exact old
          · rw [List.mem_singleton.mp new]
            exact member
  | case3 leaves long =>
      rw [← leaves_, List.length_map] at long
      refine ⟨[], by rw [List.append_nil, leaves_], ?_, by simp⟩
      rw [List.append_nil]
      omega

/-- The line of a claimant, with its path in a list of entries. -/
def lineOf (H : Sha256) (distTag : List Char) {d : Nat} (L : Perfect Entry d) (i : Nat) :
    ClaimantLine :=
  ⟨i, (claimant H distTag i).1, (claimant H distTag i).2, merklePath H L i⟩

/-- The entries that the tree of `n` claimants commits to, and the text it is printed as. -/
structure Tree (H : Sha256) (distTag : List Char) (n : Nat) {d : Nat} (L : Perfect Entry d) :
    Prop where
  positive : 0 < n
  bounded : 100 * n < 2 ^ 128
  size : 2 ^ d = max 16 n
  members : ∀ e ∈ L.items, e ∈ claimants H distTag n
  placed : ∀ i < n, L.get i = claimant H distTag i
  text : treeText H distTag n =
    some (printTree ⟨merkleRoot H L, (List.range n).map (lineOf H distTag L)⟩)

theorem claimants_length : (claimants H distTag n).length = n := by
  rw [claimants, List.length_map, List.length_range]

theorem claimants_getElem? {i : Nat} (small : i < n) :
    (claimants H distTag n)[i]? = some (claimant H distTag i) := by
  rw [claimants, List.getElem?_map, List.getElem?_range small, Option.map_some]

theorem claimants_zipIdx : (claimants H distTag n).zipIdx =
    (List.range n).map fun i => (claimant H distTag i, i) := by
  apply List.ext_getElem?
  intro i
  rw [List.getElem?_zipIdx, claimants, List.getElem?_map, List.getElem?_map]
  by_cases small : i < n
  · simp [List.getElem?_range small]
  · simp [List.getElem?_eq_none (l := List.range n) (by simpa using small)]

/-- The numbers of claimants that the tree builder completes for. -/
def Buildable (n : Nat) : Prop :=
  0 < n ∧ (n ≤ 16 ∨ ∃ d, n = 2 ^ d) ∧ 100 * n < 2 ^ 128

theorem Buildable.tree (buildable : Buildable n) (H : Sha256) (distTag : List Char) :
    ∃ d, ∃ L : Perfect Entry d, Tree H distTag n L := by
  obtain ⟨positive, size, bounded⟩ := buildable
  have some_ : claimants H distTag n ≠ [] := by
    rw [← List.length_pos_iff, claimants_length]
    exact positive
  obtain ⟨padding, padded, count, inside⟩ := @padLeaves_map
    (fun e => TreeData.leaf H e.1 e.2) _ some_
  rw [claimants_length] at count
  have power : ∃ d, 2 ^ d = max 16 n := by
    by_cases few : n ≤ 16
    · exact ⟨4, by omega⟩
    · obtain ⟨d, same⟩ := size.resolve_left few
      exact ⟨d, by omega⟩
  obtain ⟨d, same⟩ := power
  let L : Perfect Entry d := ⟨claimants H distTag n ++ padding, count.trans same.symm⟩
  refine ⟨d, L, positive, bounded, same, ?_, ?_, ?_⟩
  · intro e member
    rcases List.mem_append.mp member with claims | pads
    · exact claims
    · exact inside e pads
  · intro i small
    have below : i < 2 ^ d := by omega
    have item := L.getElem?_of_lt below
    rw [List.getElem?_append_left (by rw [claimants_length]; exact small),
      claimants_getElem? small] at item
    exact (Option.some.inj item).symm
  · have built := @treeData_eq H (claimants H distTag n) d
      (L.map fun e : Entry => TreeData.leaf H e.1 e.2) padded (by rw [claimants_length]; omega)
    rw [treeText, if_pos bounded, built, claimants_zipIdx, List.map_map]
    rfl

theorem buildable_of_treeText {stdout : List Char} (built : treeText H distTag n = some stdout) :
    Buildable n := by
  unfold treeText at built
  split at built
  · rename_i bounded
    obtain ⟨out, data, -⟩ := Option.map_eq_some_iff.mp built
    by_cases positive : 0 < n
    · have some_ : claimants H distTag n ≠ [] := by
        rw [← List.length_pos_iff, claimants_length]
        exact positive
      have size := size_of_treeData some_ data
      rw [claimants_length] at size
      exact ⟨positive, size, bounded⟩
    · obtain rfl : n = 0 := by omega
      simp [claimants, treeData, TreeData.padLeaves] at data
  · cases built

theorem Tree.lines {d : Nat} {L : Perfect Entry d} (tree : Tree H distTag n L)
    {stdout : List Char} (built : treeText H distTag n = some stdout) :
    (captured stdout).splitOn '\n' = characters.hexEncode (merkleRoot H L).toList ::
      (List.range n).map fun i => printLine (lineOf H distTag L i) := by
  cases tree.text.symm.trans built
  have joined : printTree ⟨merkleRoot H L, (List.range n).map (lineOf H distTag L)⟩ =
      (characters.hexEncode (merkleRoot H L).toList ::
        (List.range n).map fun i => printLine (lineOf H distTag L i)).flatMap
          fun line => line ++ ['\n'] := by
    simp [printTree, List.flatMap_map]
  rw [joined]
  apply split_captured (by simp)
  intro line member
  have hex : ∀ bytes, '\n' ∉ characters.hexEncode bytes :=
    fun bytes => characters.not_mem_hexEncode (by decide)
  rcases List.mem_cons.mp member with rfl | later
  · refine ⟨?_, hex _⟩
    rw [← List.length_pos_iff, characters.hexEncode_length]
    simp
  · obtain ⟨i, -, rfl⟩ := List.mem_map.mp later
    have number : ∀ n, '\n' ∉ Nat.toDigits 10 n := fun n => not_mem_toDigits n rfl
    have path : '\n' ∉ [','].intercalate
        ((merklePath H L i).map fun sib => characters.hexEncode sib.toList) := by
      apply not_mem_intercalate (by decide)
      intro item inside
      obtain ⟨sib, -, rfl⟩ := List.mem_map.mp inside
      exact hex _
    refine ⟨by simp [printLine], ?_⟩
    simp [printLine, lineOf, number, hex, path]

theorem Tree.depth {d : Nat} {L : Perfect Entry d} (tree : Tree H distTag n L) :
    4 ≤ d ∧ d < 128 := by
  have size := tree.size
  have bounded := tree.bounded
  constructor
  · by_contra shallow
    have small : 2 ^ d < 2 ^ 4 := Nat.pow_lt_pow_right (by decide) (by omega)
    omega
  · by_contra deep
    have large : 2 ^ 128 ≤ 2 ^ d := Nat.pow_le_pow_right (by decide) (by omega)
    omega

end Tree

section Claim

/-- The bytes of the note that goes with a claim, as long as its number is a byte. -/
def noteBytes (tag : List Char) (idx : Nat) : List UInt8 :=
  [0xca, 0x11, 0xab, 0x1e, UInt8.ofNat idx] ++ (utf8 (tag ++ ['\n'])).take 2

theorem noteBytes_length (tag : List Char) (idx : Nat) : (noteBytes tag idx).length ≤ 7 := by
  simp only [noteBytes, List.length_append, List.length_take, List.length_cons, List.length_nil]
  omega

theorem digitChar_eq {d : Nat} (small : d < 16) : Nat.digitChar d = characters.hexDigit d := by
  interval_cases d <;> rfl

theorem printf02x_eq {n : Nat} (small : n < 256) :
    printf02x n = characters.hexEncode [UInt8.ofNat n] := by
  have byte : (UInt8.ofNat n).toNat = n := UInt8.toNat_ofNat_of_lt' small
  have low : n % 16 < 16 := Nat.mod_lt n (by decide)
  simp only [printf02x, Alphabet.hexEncode, List.flatMap_singleton, byte]
  by_cases one : n < 16
  · have high : n / 16 = 0 := Nat.div_eq_of_lt one
    rw [Nat.toDigits_of_lt_base one, digitChar_eq one, high, Nat.mod_eq_of_lt one]
    rfl
  · have high : n / 16 < 16 := by omega
    rw [Nat.toDigits_of_base_le (by decide) (by omega), Nat.toDigits_of_lt_base high,
      digitChar_eq high, digitChar_eq low]
    rfl

theorem recipientNote_eq (tag : List Char) {idx : Nat} (small : idx < 256) :
    recipientNote tag idx = characters.hexEncode (noteBytes tag idx) := by
  have start : "ca11ab1e".toList = characters.hexEncode [0xca, 0x11, 0xab, 0x1e] := by
    decide +kernel
  have parts : noteBytes tag idx = [0xca, 0x11, 0xab, 0x1e] ++ [UInt8.ofNat idx] ++
      (utf8 (tag ++ ['\n'])).take 2 := rfl
  unfold recipientNote
  rw [printf02x_eq small, parts, characters.hexEncode_append, characters.hexEncode_append, start]

variable {s : Settings} {H : Sha256} {dep : Deployment} {n d i : Nat} {L : Perfect Entry d}

/-- A claimant of the script, with the note it is given. -/
def Settings.claimantOf (s : Settings) (H : Sha256) (i : Nat) : Claimant where
  entry := claimant H s.tag i
  position := i
  recipientNote := noteBytes s.tag i
  note_fits := by
    have short := noteBytes_length s.tag i
    omega
  claimerNote := s.claimerNote

/-- What the script makes of the line of a claimant. -/
def Settings.argsOf (s : Settings) (H : Sha256) {d : Nat} (L : Perfect Entry d) (i : Nat) :
    ChainClaimArgs where
  programId := s.adpid
  distributorId := s.did
  accountId := characters.hexEncode (claimant H s.tag i).1.toList
  allocation := (claimant H s.tag i).2
  leafIndex := UInt32.ofNat i
  merklePath := [','].intercalate ((merklePath H L i).map fun sib => characters.hexEncode sib.toList)
  recipientNote := recipientNote s.tag i

theorem Settings.claimArgs_line (small : i < 2 ^ 32) :
    s.claimArgs (printLine (lineOf H s.tag L i)) = some (i, s.argsOf H L i) := by
  rw [claimArgs, readFields_printLine]
  simp only [lineOf, Decimal.value_toDigits, parseU128_toDigits, parseU32_toDigits small]
  rfl

theorem Settings.asks (tree : Tree H s.tag n L) (adpid : parseProgramId s.adpid = .ok dep.airdropId)
    (small : i < 256) : (s.argsOf H L i).Asks s.distributor
      ((s.claimantOf H i).request H dep ((hashing H).leaves L)) where
  programId := adpid
  distributorId := parseHex32_ok_iff.mpr (characters.lower_hexEncode _)
  accountId := parseHex32_ok_iff.mpr (characters.lower_hexEncode _)
  allocation := rfl
  leafIndex := rfl
  merklePath := by
    apply Renders.parsed
    · refine ⟨_, ?_, rfl⟩
      rw [List.forall₂_map_right_iff]
      apply List.forall₂_same.mpr
      intro sib member
      exact ⟨[], _, [], by simp, by simp, by simp, characters.lower_hexEncode _⟩
    · rw [← List.length_pos_iff]
      have depth := tree.depth
      simp only [Claimant.request, Perfect.siblings_length]
      omega
  recipientNote := by
    apply fromHex_ok_iff.mpr
    show (recipientNote s.tag i).map characters.lower = _
    rw [recipientNote_eq s.tag small]
    exact characters.lower_hexEncode _

theorem Settings.argsOf_short (tree : Tree H s.tag n L) (small : i < 256) :
    (s.argsOf H L i).Short where
  merklePath := by
    have text : (s.argsOf H L i).merklePath.length ≤
        (64 + 1) * ((merklePath H L i).map fun sib => characters.hexEncode sib.toList).length := by
      apply length_intercalate_le
      intro item member
      obtain ⟨sib, -, rfl⟩ := List.mem_map.mp member
      simp
    have depth := tree.depth
    rw [List.length_map, PrivateAirdrop.merklePath, Perfect.siblings_length] at text
    omega
  recipientNote := by
    have short := noteBytes_length s.tag i
    show (Evidence.recipientNote s.tag i).length < 2 ^ 32
    rw [recipientNote_eq s.tag small, characters.hexEncode_length]
    omega

end Claim

end Evidence

end PrivateAirdrop

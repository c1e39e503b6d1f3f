import Mathlib.Logic.Function.Basic
import PrivateAirdrop.Library.Machine
import PrivateAirdrop.Library.Region
import PrivateAirdrop.Primitives

/-! # Packaging a guest for deployment

`package_r0bf.py` takes a deployable file apart at the offsets its length field
gives and puts another user program in. A file that passes its checks is an image
with a user region, and what the script emits is the image with the region replaced.
An empty region passes as well: the check on it then reads the kernel.
-/

namespace PrivateAirdrop

open Library

namespace Packaging

def r0bfMagic : List UInt8 := [0x52, 0x30, 0x42, 0x46]
def elfMagic : List UInt8 := [0x7f, 0x45, 0x4c, 0x46]

inductive Failure where
  | usage
  | fileNotFound (path : String)
  | assertion (message : String)
  | structError
  deriving Repr, DecidableEq

/-- `b[lo:hi]`. -/
def slice (lo hi : Nat) (b : List UInt8) : List UInt8 := (b.take hi).drop lo

def assert (p : Prop) [Decidable p] (message : String) : Except Failure Unit :=
  if p then .ok () else .error (.assertion message)

/-- `struct.unpack_from("<I", b, offset)[0]`. -/
def unpackFrom (b : List UInt8) (offset : Nat) : Except Failure Nat :=
  if offset + 4 ≤ b.length then .ok (byteRadix.total (slice offset (offset + 4) b))
  else .error .structError

/-- `struct.pack("<I", n)`. -/
def packU32 (n : Nat) : Except Failure (List UInt8) :=
  if n < 2 ^ 32 then .ok (byteRadix.write 4 n) else .error .structError

def userOff : Nat := 32
def lenFieldOff : Nat := 28

/-- What is left of a run when it writes its output. -/
structure Packaged where
  newbin : List UInt8
  kernel : List UInt8

/-- `main`, between the reads and the write. -/
def package (ref user : List UInt8) : Except Failure Packaged := do
  assert (ref.take 4 = r0bfMagic) "reference is not an R0BF binary"
  let refUserLen ← unpackFrom ref lenFieldOff
  let kernelOff := userOff + refUserLen
  let header := ref.take lenFieldOff
  let kernel := ref.drop kernelOff
  assert (slice userOff (userOff + 4) ref = elfMagic) "reference user region not ELF"
  assert (kernel.take 4 = elfMagic) "reference kernel region not ELF"
  assert (user.take 4 = elfMagic) "user file is not an ELF"
  let lenField ← packU32 refUserLen
  let recon := header ++ lenField ++ slice userOff kernelOff ref ++ kernel
  assert (recon = ref) "self-test failed: reference not reproduced byte-for-byte"
  let userLen ← packU32 user.length
  return { newbin := header ++ userLen ++ user ++ kernel, kernel := kernel }

/-- The bytes the script emits. -/
def pack (ref user : List UInt8) : Except Failure (List UInt8) :=
  (package ref user).map Packaged.newbin

abbrev Files := String → Option (List UInt8)

def readFile (files : Files) (path : String) : Except Failure (List UInt8) :=
  match files path with
  | some content => .ok content
  | none => .error (.fileNotFound path)

/-- The files after a run, and the line it prints. -/
def main (argv : List String) (files : Files) : Except Failure (Files × String) :=
  match argv with
  | [_, refPath, userPath, outPath] => do
    let ref ← readFile files refPath
    let user ← readFile files userPath
    let done ← package ref user
    let written := s!"wrote {outPath} ({done.newbin.length} bytes); "
    let sizes := s!"user_elf={user.length} kernel={done.kernel.length}"
    return (Function.update files outPath (some done.newbin), written ++ sizes)
  | _ => .error .usage

/-- The value of the length field. -/
def userLen (ref : List UInt8) : Nat :=
  byteRadix.total (slice lenFieldOff (lenFieldOff + 4) ref)

def userRegion (ref : List UInt8) : List UInt8 := slice userOff (userOff + userLen ref) ref

def kernelRegion (ref : List UInt8) : List UInt8 := ref.drop (userOff + userLen ref)

/-- The checks of the script on its reference, each in the words of the script. -/
structure PassesChecks (ref : List UInt8) : Prop where
  magic : ref.take 4 = r0bfMagic
  unpacks : lenFieldOff + 4 ≤ ref.length
  user_elf : slice userOff (userOff + 4) ref = elfMagic
  kernel_elf : (kernelRegion ref).take 4 = elfMagic
  self_test : ref.take lenFieldOff ++ byteRadix.write 4 (userLen ref) ++ userRegion ref ++
    kernelRegion ref = ref

/-- The three regions at the offsets of the script. -/
abbrev Parts := Region byteRadix 28 4

namespace Parts

variable (parts : Parts)

theorem userLen_bytes : userLen parts.bytes = parts.region.length := by
  rw [userLen, slice, List.drop_take]
  exact parts.total_field

theorem userRegion_bytes : userRegion parts.bytes = parts.region := by
  rw [userRegion, slice, List.drop_take, userLen_bytes, Nat.add_sub_cancel_left]
  exact parts.region_at

theorem kernelRegion_bytes : kernelRegion parts.bytes = parts.rest := by
  rw [kernelRegion, userLen_bytes]
  exact parts.rest_at

theorem header_bytes : parts.bytes.take lenFieldOff = parts.header := parts.header_at

theorem magic_bytes : parts.bytes.take 4 = parts.header.take 4 := by
  rw [← parts.header_bytes, List.take_take]
  rfl

theorem elf_bytes :
    slice userOff (userOff + 4) parts.bytes = (parts.region ++ parts.rest).take 4 := by
  rw [slice, List.drop_take]
  exact congrArg (List.take 4) parts.after_field

theorem joined : parts.header ++ byteRadix.write 4 parts.region.length ++ parts.region ++
    parts.rest = parts.bytes := by
  rw [Region.bytes, List.append_assoc, List.append_assoc]

end Parts

/-- A deployable file: the length field delimits the user region, and an ELF starts
    where the region does and where the kernel does. -/
structure Image extends Region byteRadix 28 4 where
  magic : header.take 4 = r0bfMagic
  user_elf : (region ++ rest).take 4 = elfMagic
  kernel_elf : rest.take 4 = elfMagic

/-- A user program that can be packaged. -/
structure UserElf where
  bytes : List UInt8
  elf : bytes.take 4 = elfMagic
  short : bytes.length < 2 ^ 32

theorem length_of_elf {b : List UInt8} (elf : b.take 4 = elfMagic) : 4 ≤ b.length := by
  have count := congrArg List.length elf
  simp only [List.length_take, elfMagic, List.length_cons, List.length_nil] at count
  omega

theorem UserElf.take_append (user : UserElf) (rest : List UInt8) :
    (user.bytes ++ rest).take 4 = elfMagic := by
  rw [List.take_append_of_le_length (length_of_elf user.elf), user.elf]

namespace Image

variable (image : Image)

def bytes : List UInt8 := image.toRegion.bytes

def withUser (user : UserElf) : Image where
  toRegion := image.toRegion.withRegion user.bytes user.short
  magic := image.magic
  user_elf := user.take_append image.rest
  kernel_elf := image.kernel_elf

theorem passesChecks : PassesChecks image.bytes where
  magic := (Parts.magic_bytes _).trans image.magic
  unpacks := by
    have length := image.toRegion.bytes_length
    rw [bytes, length, lenFieldOff]
    omega
  user_elf := (Parts.elf_bytes _).trans image.user_elf
  kernel_elf := by rw [bytes, Parts.kernelRegion_bytes, image.kernel_elf]
  self_test := by
    rw [bytes, Parts.header_bytes, Parts.userLen_bytes, Parts.userRegion_bytes,
      Parts.kernelRegion_bytes, Parts.joined]

theorem header_withUser (user : UserElf) :
    (image.withUser user).bytes.take lenFieldOff = image.bytes.take lenFieldOff := by
  rw [bytes, bytes, Parts.header_bytes, Parts.header_bytes]
  exact image.toRegion.withRegion_header user.short

theorem kernelRegion_withUser (user : UserElf) :
    kernelRegion (image.withUser user).bytes = kernelRegion image.bytes := by
  rw [bytes, bytes, Parts.kernelRegion_bytes, Parts.kernelRegion_bytes]
  exact image.toRegion.withRegion_rest user.short

end Image

/-- What passes the checks is an image: the kernel starts before the file ends, so
    the file is as long as its length field says. -/
theorem PassesChecks.image {ref : List UInt8} (checked : PassesChecks ref) :
    ∃ image : Image, image.bytes = ref := by
  have inside : 28 + 4 + userLen ref ≤ ref.length := by
    have kernel := length_of_elf checked.kernel_elf
    rw [kernelRegion, userOff, List.length_drop] at kernel
    omega
  rw [userLen, slice, List.drop_take] at inside
  obtain ⟨parts, rfl⟩ : ∃ parts : Parts, parts.bytes = ref := Region.exists_of_length inside
  refine ⟨⟨parts, ?_, ?_, ?_⟩, rfl⟩
  · rw [← parts.magic_bytes, checked.magic]
  · rw [← parts.elf_bytes, checked.user_elf]
  · rw [← parts.kernelRegion_bytes, checked.kernel_elf]

theorem package_checked {ref : List UInt8} (checked : PassesChecks ref) (user : List UInt8) :
    package ref user = (do
      assert (user.take 4 = elfMagic) "user file is not an ELF"
      let userLen ← packU32 user.length
      return {
        newbin := ref.take lenFieldOff ++ userLen ++ user ++ kernelRegion ref
        kernel := kernelRegion ref }) := by
  have unpacked : unpackFrom ref lenFieldOff = .ok (userLen ref) := if_pos checked.unpacks
  have packed : packU32 (userLen ref) = .ok (byteRadix.write 4 (userLen ref)) := by
    obtain ⟨image, rfl⟩ := checked.image
    rw [Image.bytes, Parts.userLen_bytes]
    exact if_pos image.fits
  have kernel := checked.kernel_elf
  have recon := checked.self_test
  rw [userRegion] at recon
  rw [kernelRegion] at kernel recon
  simp only [package, assert, unpacked, packed, if_pos checked.magic, if_pos checked.user_elf,
    if_pos kernel, if_pos recon, bind, Except.bind]
  rfl

/-- A run gets to its output exactly when the reference passes its checks and the user
    program is an ELF whose length fits the field. -/
theorem package_ok_iff {ref user : List UInt8} : (∃ done, package ref user = .ok done) ↔
    PassesChecks ref ∧ user.take 4 = elfMagic ∧ user.length < 2 ^ 32 := by
  constructor
  · intro h
    simp only [package, assert, unpackFrom, packU32, bind_eq_ok, ite_eq_ok] at h
    obtain ⟨_, _, ⟨magic, -⟩, _, ⟨unpacks, rfl⟩, _, ⟨userElf, -⟩, _, ⟨kernelElf, -⟩, _, ⟨elf, -⟩,
      _, ⟨-, rfl⟩, _, ⟨selfTest, -⟩, _, ⟨short, -⟩, -⟩ := h
    exact ⟨⟨magic, unpacks, userElf, kernelElf, selfTest⟩, elf, short⟩
  · intro h
    obtain ⟨checked, elf, short⟩ := h
    rw [package_checked checked, assert, packU32, if_pos elf, if_pos short]
    exact ⟨_, rfl⟩

theorem pack_image (image : Image) (user : UserElf) :
    pack image.bytes user.bytes = .ok (image.withUser user).bytes := by
  have packed : packU32 user.bytes.length = .ok (byteRadix.write 4 user.bytes.length) :=
    if_pos user.short
  rw [pack, package_checked image.passesChecks, assert, if_pos user.elf, packed]
  refine congrArg Except.ok ?_
  show image.bytes.take lenFieldOff ++ byteRadix.write 4 user.bytes.length ++ user.bytes ++
    kernelRegion image.bytes = _
  rw [Image.bytes, Parts.header_bytes, Parts.kernelRegion_bytes]
  exact Parts.joined (image.withUser user).toRegion

theorem pack_withUser (image : Image) (user : UserElf) (later : List UInt8) :
    pack (image.withUser user).bytes later = pack image.bytes later := by
  rw [pack, pack, package_checked (image.withUser user).passesChecks,
    package_checked image.passesChecks, image.header_withUser, image.kernelRegion_withUser]

/-- Packaging is lawful on every reference that passes the checks: the output passes
    them too, its length field delimits the user program and the rest is as it was;
    the last user program wins; the program that is there gives the reference back. -/
theorem pack_splices {ref : List UInt8} (checked : PassesChecks ref) :
    (∀ user : List UInt8, user.take 4 = elfMagic → user.length < 2 ^ 32 →
      ∃ out, pack ref user = .ok out ∧ PassesChecks out ∧
        userLen out = user.length ∧ userRegion out = user ∧
        out.take 28 = ref.take 28 ∧ kernelRegion out = kernelRegion ref ∧
        ∀ later, pack out later = pack ref later) ∧
      ((userRegion ref).take 4 = elfMagic → pack ref (userRegion ref) = .ok ref) := by
  obtain ⟨image, rfl⟩ := checked.image
  constructor
  · intro user elf short
    let program : UserElf := ⟨user, elf, short⟩
    let spliced := image.withUser program
    exact ⟨spliced.bytes, pack_image image program, spliced.passesChecks,
      Parts.userLen_bytes spliced.toRegion, Parts.userRegion_bytes spliced.toRegion,
      image.header_withUser program, image.kernelRegion_withUser program,
      pack_withUser image program⟩
  · intro elf
    have own : userRegion image.bytes = image.region := Parts.userRegion_bytes image.toRegion
    rw [own] at elf ⊢
    refine (pack_image image ⟨image.region, elf, image.fits⟩).trans ?_
    exact congrArg (Except.ok ∘ Region.bytes) image.toRegion.withRegion_region

/-- A user program of seven bytes in place of one of five, and the five put back. -/
theorem pack_splices_five_bytes :
    let ref := r0bfMagic ++ List.replicate 24 0 ++ [5, 0, 0, 0] ++ (elfMagic ++ [1]) ++
      (elfMagic ++ [2, 3])
    (∃ out, pack ref (elfMagic ++ [9, 9, 9]) = .ok out ∧ userLen out = 7 ∧
      kernelRegion out = elfMagic ++ [2, 3]) ∧ pack ref (elfMagic ++ [1]) = .ok ref := by
  intro ref
  have checked : PassesChecks ref := by constructor <;> decide +kernel
  have laws := pack_splices checked
  constructor
  · obtain ⟨out, packed, -, length, -, -, kernel, -⟩ := laws.1 (elfMagic ++ [9, 9, 9])
      (by decide +kernel) (by decide +kernel)
    exact ⟨out, packed, length, kernel.trans (by decide +kernel)⟩
  · have own : userRegion ref = elfMagic ++ [1] := by decide +kernel
    exact own ▸ laws.2 (by rw [own]; rfl)

/-- A run that ends well writes what is packaged to its output path and nothing else. -/
theorem main_writes {argv : List String} {files files' : Files} {printed : String}
    (run : main argv files = .ok (files', printed)) :
    ∃ name refPath userPath outPath ref user out,
      argv = [name, refPath, userPath, outPath] ∧ files refPath = some ref ∧
      files userPath = some user ∧ pack ref user = .ok out ∧
      files' = Function.update files outPath (some out) := by
  have read : ∀ path content, readFile files path = .ok content → files path = some content := by
    intro path content found
    unfold readFile at found
    split at found
    · rename_i there
      rw [there, Except.ok.inj found]
    · cases found
  unfold main at run
  split at run
  · rename_i name refPath userPath outPath
    simp only [bind_eq_ok] at run
    obtain ⟨ref, readRef, user, readUser, done, packaged, same⟩ := run
    obtain ⟨rfl, -⟩ := Prod.mk.inj (Except.ok.inj same)
    refine ⟨name, refPath, userPath, outPath, ref, user, done.newbin, rfl, read _ _ readRef,
      read _ _ readUser, ?_, rfl⟩
    rw [pack, packaged]
    rfl
  · cases run

end Packaging

end PrivateAirdrop

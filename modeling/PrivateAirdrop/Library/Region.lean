import PrivateAirdrop.Library.Format

/-! # A region inside a file

A header of a fixed width, the length of a region, the region, and a rest without a
length of its own. The parts are found again at their offsets. Replacing the region
leaves the header and the rest, and the region that is there changes nothing.
-/

namespace Library

/-- The parts of a file; the length of the region fits the field for it. -/
@[ext] structure Region {τ : Type} (R : Radix τ) (h k : Nat) where
  header : List τ
  region : List τ
  rest : List τ
  header_length : header.length = h
  fits : region.length < R.base ^ k

namespace Region

variable {τ : Type} {R : Radix τ} {h k : Nat} (f : Region R h k)

def bytes : List τ := f.header ++ (R.write k f.region.length ++ (f.region ++ f.rest))

def withRegion (region : List τ) (fits : region.length < R.base ^ k) : Region R h k :=
  { f with region := region, fits := fits }

@[simp] theorem withRegion_header {region : List τ} (fits : region.length < R.base ^ k) :
    (f.withRegion region fits).header = f.header := rfl

@[simp] theorem withRegion_rest {region : List τ} (fits : region.length < R.base ^ k) :
    (f.withRegion region fits).rest = f.rest := rfl

theorem withRegion_region : f.withRegion f.region f.fits = f := rfl

theorem bytes_length : f.bytes.length = h + k + f.region.length + f.rest.length := by
  simp only [bytes, List.length_append, f.header_length, Radix.write_length]
  omega

theorem header_at : f.bytes.take h = f.header := List.take_left' f.header_length

theorem after_header : f.bytes.drop h = R.write k f.region.length ++ (f.region ++ f.rest) :=
  List.drop_left' f.header_length

theorem field_at : (f.bytes.drop h).take k = R.write k f.region.length := by
  rw [after_header, List.take_left' (R.write_length ..)]

theorem total_field : R.total ((f.bytes.drop h).take k) = f.region.length := by
  rw [field_at, R.total_write _ _ f.fits]

theorem after_field : f.bytes.drop (h + k) = f.region ++ f.rest := by
  rw [← List.drop_drop, after_header, List.drop_left' (R.write_length ..)]

theorem region_at : (f.bytes.drop (h + k)).take f.region.length = f.region := by
  rw [after_field, List.take_left]

theorem rest_at : f.bytes.drop (h + k + f.region.length) = f.rest := by
  rw [← List.drop_drop, after_field, List.drop_left]

theorem exists_of_length {ts : List τ} (long : h + k + R.total ((ts.drop h).take k) ≤ ts.length) :
    ∃ f : Region R h k, f.bytes = ts := by
  have field : k ≤ (ts.drop h).length := by
    rw [List.length_drop]
    omega
  obtain ⟨n, rest, found⟩ := R.read_accepts _ field
  obtain ⟨small, cut⟩ := R.read_written k found
  rw [cut, List.take_left' (R.write_length ..), R.total_write _ _ small] at long
  have width : (ts.take h).length = h := List.length_take_of_le (by omega)
  have left : (ts.drop h).length = k + rest.length := by
    rw [cut, List.length_append, R.write_length]
  have count : (rest.take n).length = n := by
    rw [List.length_drop] at left
    exact List.length_take_of_le (by omega)
  refine ⟨⟨ts.take h, rest.take n, rest.drop n, width, by rwa [count]⟩, ?_⟩
  simp only [bytes, count]
  rw [List.take_append_drop, ← cut, List.take_append_drop]

end Region

end Library

import RadixDb.Lib.Bytes

/-!
# Records of fixed-width numbers

A record is a list of fields, each a width and a number, written one after the other. **Reading at
the offset of a field gives its number** (`readWord_fields`), whatever follows the record.
-/

set_option autoImplicit false

namespace Bytes

open List

/-- The number in `width` bytes at an offset. -/
def readWord (width : ℕ) (bytes : Bytes) (offset : ℕ) : ℕ :=
  leNat ((bytes.drop offset).take width)

/-- A record, given by the widths and numbers of its fields. -/
def fields (record : List (ℕ × ℕ)) : Bytes := record.flatMap fun f => leBytes f.1 f.2

/-- Where field `i` starts. -/
def fieldOffset (record : List (ℕ × ℕ)) (i : ℕ) : ℕ := ((record.take i).map Prod.fst).sum

variable {record : List (ℕ × ℕ)} {i width n : ℕ}

@[simp] theorem length_fields (record : List (ℕ × ℕ)) :
    (fields record).length = (record.map Prod.fst).sum := by
  induction record with
  | nil => rfl
  | cons f record ih =>
    rw [fields, flatMap_cons, length_append, length_leBytes, map_cons, sum_cons]
    exact congrArg (f.1 + ·) ih

theorem take_drop_fields (rest : Bytes) (hi : record[i]? = some (width, n)) :
    ((fields record ++ rest).drop (fieldOffset record i)).take width = leBytes width n := by
  obtain ⟨hlt, hget⟩ := List.getElem?_eq_some_iff.mp hi
  have hsplit : fields record =
      fields (record.take i) ++ (leBytes width n ++ fields (record.drop (i + 1))) := by
    conv_lhs => rw [← take_append_drop i record, drop_eq_getElem_cons hlt, hget]
    simp [fields, flatMap_append]
  have hoffset : fieldOffset record i = (fields (record.take i)).length := (length_fields _).symm
  rw [hsplit, hoffset, append_assoc, drop_left, append_assoc, take_left' (length_leBytes width n)]

section

variable {bytes : Bytes} (h : bytes = fields record)

include h

/-- **Reading a field.** -/
theorem readWord_fields (rest : Bytes) (i : ℕ) {width n : ℕ} (hi : record[i]? = some (width, n))
    (hn : n < 256 ^ width) : readWord width (bytes ++ rest) (fieldOffset record i) = n := by
  rw [h, readWord, take_drop_fields rest hi, leNat_leBytes_of_lt hn]

theorem readWord_record (i : ℕ) {width n : ℕ} (hi : record[i]? = some (width, n))
    (hn : n < 256 ^ width) : readWord width bytes (fieldOffset record i) = n := by
  have hread := readWord_fields h [] i hi hn
  rwa [append_nil] at hread

end

end Bytes

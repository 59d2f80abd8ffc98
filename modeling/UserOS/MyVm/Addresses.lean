import Mathlib.Tactic.Positivity
import UserOS.MyVm.Layout

/-!
# Encoding and decoding of addresses

The page size is a macro that is meant to be changed. For every power of two from 4 to `2 ^ 30` the
widths that `calculate_entries_bits` derives cover the address, and `extract_bits` takes apart what
`form_virtual_address` puts together.

* `Layout.Decodes`: the two functions are inverse to each other.
* `decodes`: this holds for every page size.
* `next_page_steps`: repeated calls of `get_next_page` visit the pages in order.
-/

namespace UserOS.MyVm

/-! ## The widths -/

variable {k d t va n : ℕ} {L : Layout}

theorem calculateEntriesBits_offsetBits : (calculateEntriesBits (2 ^ k)).offsetBits = k :=
  Nat.log2_two_pow

/-- The widths add up to the 32 bits of an address, whether the table index is cut or not. -/
theorem calculateEntriesBits_widths (hk : 2 ≤ k) (hk' : k ≤ 30) :
    (calculateEntriesBits (2 ^ k)).pageDirBits + (calculateEntriesBits (2 ^ k)).pageTableBits +
      (calculateEntriesBits (2 ^ k)).offsetBits = 32 ∧
    (calculateEntriesBits (2 ^ k)).pageTableEntries =
      2 ^ (calculateEntriesBits (2 ^ k)).pageTableBits := by
  have hentries : 2 ^ k / pteSize = 2 ^ (k - 2) := by
    rw [show pteSize = 2 ^ 2 from rfl, Nat.pow_div hk (by decide)]
  unfold calculateEntriesBits addressBits levels
  simp only [hentries, Nat.log2_two_pow]
  by_cases hcut : k - 2 > 32 - k
  · have hmore : 2 ^ (k - 2) > 2 ^ ((32 - k) / 2) :=
      Nat.pow_lt_pow_right (by decide) (by omega)
    rw [if_pos hcut]
    dsimp only
    rw [if_pos hmore]
    exact ⟨by omega, rfl⟩
  · rw [if_neg hcut]
    dsimp only
    exact ⟨by omega, rfl⟩

/-! ## The fields -/

/-- The page directory index that `translate` extracts. -/
def Layout.dirField (L : Layout) (va : ℕ) : ℕ := extractBits va 1 L.pageDirBits

/-- The page table index that `translate` extracts. -/
def Layout.tableField (L : Layout) (va : ℕ) : ℕ :=
  extractBits va (L.pageDirBits + 1) L.pageTableBits

/-- The offset that `put_value` and `get_value` extract. -/
def Layout.offsetField (L : Layout) (va : ℕ) : ℕ :=
  extractBits va (L.pageTableBits * (levels - 1) + L.pageDirBits + 1) L.offsetBits

/-- In the layout of the build these are the indices of `translate`. -/
theorem layout_fields : layout.dirField = dirIndex ∧ layout.tableField = tableIndex ∧
    layout.offsetField = pageOffset := ⟨rfl, rfl, rfl⟩

section Fields

variable (h : L.pageDirBits + L.pageTableBits + L.offsetBits = 32) (ho : 0 < L.offsetBits)

include h ho

theorem dirField_eq : L.dirField va =
    va / 2 ^ (L.pageTableBits + L.offsetBits) % 2 ^ L.pageDirBits := by
  unfold Layout.dirField
  rw [extractBits_eq (by omega) (by decide) (by omega)]
  congr 3
  omega

theorem tableField_eq : L.tableField va = va / 2 ^ L.offsetBits % 2 ^ L.pageTableBits := by
  unfold Layout.tableField
  rw [extractBits_eq (by omega) (by omega) (by omega)]
  congr 3
  omega

end Fields

theorem offsetField_eq (h : L.pageDirBits + L.pageTableBits + L.offsetBits = 32)
    (ho : L.offsetBits < 32) : L.offsetField va = va % 2 ^ L.offsetBits := by
  unfold Layout.offsetField levels
  rw [extractBits_eq ho (by omega) (by omega)]
  rw [show 33 - L.offsetBits - (L.pageTableBits * (2 - 1) + L.pageDirBits + 1) = 0 by omega,
    Nat.pow_zero, Nat.div_one]

/-- The two indices are the number of the page. -/
theorem fields_page (h : L.pageDirBits + L.pageTableBits + L.offsetBits = 32)
    (ho : 0 < L.offsetBits) (hva : va < 2 ^ 32) :
    L.dirField va * 2 ^ L.pageTableBits + L.tableField va = va / 2 ^ L.offsetBits := by
  have hdir : va / 2 ^ L.offsetBits / 2 ^ L.pageTableBits < 2 ^ L.pageDirBits := by
    rw [Nat.div_div_eq_div_mul, Nat.div_lt_iff_lt_mul (by positivity), ← Nat.pow_add,
      ← Nat.pow_add, show L.pageDirBits + (L.offsetBits + L.pageTableBits) = 32 by omega]
    exact hva
  rw [dirField_eq h ho, tableField_eq h ho, Nat.add_comm L.pageTableBits, Nat.pow_add,
    ← Nat.div_div_eq_div_mul, Nat.mod_eq_of_lt hdir]
  exact Nat.div_add_mod' _ _

/-- What is formed from two indices is the address of that page. -/
theorem form_eq (h : L.pageDirBits + L.pageTableBits + L.offsetBits = 32)
    (hd : d < 2 ^ L.pageDirBits) (ht : t < 2 ^ L.pageTableBits) :
    formVirtualAddress L d t = (d * 2 ^ L.pageTableBits + t) * 2 ^ L.offsetBits := by
  rw [formVirtualAddress_eq (by omega), Nat.mod_eq_of_lt hd, Nat.mod_eq_of_lt ht]

/-- `form_virtual_address` and the calls of `extract_bits` in `translate` are inverse to each other,
up to the offset, and the indices number the pages in order. -/
structure Layout.Decodes (L : Layout) : Prop where
  widths : L.pageDirBits + L.pageTableBits + L.offsetBits = 32
  entries : L.pageTableEntries = 2 ^ L.pageTableBits
  decode : ∀ d < 2 ^ L.pageDirBits, ∀ t < 2 ^ L.pageTableBits,
    L.dirField (formVirtualAddress L d t) = d ∧ L.tableField (formVirtualAddress L d t) = t ∧
      L.offsetField (formVirtualAddress L d t) = 0
  encode : ∀ va < 2 ^ 32, formVirtualAddress L (L.dirField va) (L.tableField va) =
    va >>> L.offsetBits <<< L.offsetBits
  index : ∀ va < 2 ^ 32,
    L.dirField va * L.pageTableEntries + L.tableField va = va >>> L.offsetBits

/-- **Addresses decode** for every page size. -/
theorem decodes (hk : 2 ≤ k) (hk' : k ≤ 30) : (calculateEntriesBits (2 ^ k)).Decodes := by
  obtain ⟨hwidths, hentries⟩ := calculateEntriesBits_widths hk hk'
  have hoffset := calculateEntriesBits_offsetBits (k := k)
  generalize calculateEntriesBits (2 ^ k) = L at hwidths hentries hoffset
  have ho : 0 < L.offsetBits := by omega
  refine ⟨hwidths, hentries, fun d hd t ht => ?_, fun va hva => ?_, fun va hva => ?_⟩
  · have hpage : (d * 2 ^ L.pageTableBits + t) * 2 ^ L.offsetBits / 2 ^ L.offsetBits =
        d * 2 ^ L.pageTableBits + t := Nat.mul_div_cancel _ (by positivity)
    rw [form_eq hwidths hd ht, dirField_eq hwidths ho, tableField_eq hwidths ho,
      offsetField_eq hwidths (by omega), Nat.add_comm L.pageTableBits, Nat.pow_add,
      ← Nat.div_div_eq_div_mul, hpage, Nat.mul_mod_left, Nat.add_comm, Nat.add_mul_mod_self_right,
      Nat.mod_eq_of_lt ht, Nat.add_mul_div_right _ _ (by positivity), Nat.div_eq_of_lt ht,
      Nat.zero_add, Nat.mod_eq_of_lt hd]
    exact ⟨rfl, rfl, rfl⟩
  · have hd : L.dirField va < 2 ^ L.pageDirBits := by
      rw [dirField_eq hwidths ho]
      exact Nat.mod_lt _ (by positivity)
    have ht : L.tableField va < 2 ^ L.pageTableBits := by
      rw [tableField_eq hwidths ho]
      exact Nat.mod_lt _ (by positivity)
    rw [form_eq hwidths hd ht, fields_page hwidths ho hva, Nat.shiftLeft_eq,
      Nat.shiftRight_eq_div_pow]
  · rw [hentries, fields_page hwidths ho hva, Nat.shiftRight_eq_div_pow]

/-- Pages of 16 megabytes, where the table index is cut. -/
theorem decodes_large : (calculateEntriesBits (2 ^ 24)).Decodes := decodes (by decide) (by decide)

/-! ## Stepping through pages -/

/-- The steps from a page on, as long as there are pages. -/
theorem iterate_getNextPage (hva : va < 2 ^ 32) (hn : pageNumber va + n < 65536) :
    getNextPage^[n] va < 2 ^ 32 ∧ pageNumber (getNextPage^[n] va) = pageNumber va + n := by
  induction n with
  | zero => exact ⟨hva, rfl⟩
  | succ n ih =>
    obtain ⟨hlt, hpage⟩ := ih (by omega)
    rw [Function.iterate_succ_apply']
    exact ⟨getNextPage_lt hlt, by rw [getNextPage_page (by omega), hpage, Nat.add_assoc]⟩

/-- **Stepping through pages.** The steps from an address on visit the pages that follow, one after
the other, up to the last one, and from there the result is null. -/
theorem next_page_steps (hva : va < 2 ^ 32) :
    (∀ n, va >>> layout.offsetBits + n < layout.pageDirEntries * layout.pageTableEntries →
      ∀ i ≤ n, getNextPage^[i] va < 2 ^ 32 ∧
        getNextPage^[i] va >>> layout.offsetBits = va >>> layout.offsetBits + i) ∧
    (va >>> layout.offsetBits + 1 = layout.pageDirEntries * layout.pageTableEntries →
      getNextPage va = 0) := by
  have hpage : ∀ a, a >>> layout.offsetBits = pageNumber a := fun a => by
    rw [layout_eq]
    exact Nat.shiftRight_eq_div_pow a 16
  have hpages : layout.pageDirEntries * layout.pageTableEntries = 65536 := by
    rw [layout_eq]
    rfl
  simp only [hpage, hpages]
  constructor
  · intro n hn i hi
    exact iterate_getNextPage hva (by omega)
  · intro hlast
    exact getNextPage_last hva (by omega)

/-- Two steps from the middle of the last page of the first page table. -/
theorem next_page_steps_table : getNextPage^[2] (16383 * 65536 + 5) = 16385 * 65536 ∧
    getNextPage^[2] (16383 * 65536 + 5) >>> layout.offsetBits =
      (16383 * 65536 + 5) >>> layout.offsetBits + 2 :=
  ⟨by decide, ((@next_page_steps (16383 * 65536 + 5) (by decide)).1 2 (by decide) 2 le_rfl).2⟩

end UserOS.MyVm

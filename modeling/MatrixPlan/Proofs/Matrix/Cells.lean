import MatrixPlan.Proofs.Matrix.Words
import MatrixPlan.Proofs.Matrix.Zeros
/-!
# Cells — boolean matrices are what their set cells say

The words of a matrix have no bit but those of its set cells (`Packed`), and its count is the number of these
(`WellFormed`).  So whole words can be or-ed and counted.  Empty matrices and those of dense matrices are well-formed.
-/
namespace MatrixPlan
namespace BitMatrix

/-- The bit at a row and a place in it, in range or in the padding of the row. -/
def bit (m : BitMatrix) (r j : Nat) : Bool := bitIn m.words.toList (r * (m.rowWords.toNat * wordBits) + j)

/-- The cells in range that are set. -/
def setCells (m : BitMatrix) : Finset (Nat × Nat) :=
  (Finset.range m.rows.toNat ×ˢ Finset.range m.cols.toNat).filter fun p => m.get p.1 p.2

/-- **The words of all rows, and no bit in the padding of a row.** -/
structure Packed (m : BitMatrix) : Prop where
  rowWords : m.rowWords.toNat = wordsPerRow m.cols
  size : m.words.size = wordCount m.rows m.cols
  padding : ∀ r < m.rows.toNat, ∀ j, m.cols.toNat ≤ j → j < wordsPerRow m.cols * wordBits → m.bit r j = false

/-- **What all matrices keep.** -/
structure WellFormed (m : BitMatrix) : Prop extends Packed m where
  nnz : m.nnz.toNat = m.setCells.card

/-- **The words of all cells and the slices of all rows are there**, and a word can number them. -/
structure InBounds (m : BitMatrix) : Prop where
  size : m.words.size < 2 ^ 64
  word : ∀ r < m.rows.toNat, ∀ j < m.cols.toNat, r * m.rowWords.toNat + j / wordBits < m.words.size
  row : ∀ r < m.rows.toNat, (r + 1) * m.rowWords.toNat ≤ m.words.size

/-- **The matrix of the non-zero cells of a dense one.** -/
structure IsPattern (d : Dense) (m : BitMatrix) : Prop extends WellFormed m where
  rows : m.rows = d.rows
  cols : m.cols = d.cols
  get : ∀ i j, m.get i j = true ↔ ∃ v, d.get? i j = some v ∧ Dense.isNonzero v = true

variable {m : BitMatrix} {r j : Nat}

theorem cols_le (cols : UInt64) : cols.toNat ≤ wordsPerRow cols * wordBits := by
  have := Nat.div_add_mod (cols.toNat + (wordBits - 1)) wordBits
  unfold wordsPerRow wordBits at *
  omega

theorem wordsPerRow_le (cols : UInt64) : wordsPerRow cols ≤ cols.toNat := by
  unfold wordsPerRow wordBits
  omega

theorem toNat_rowWords (cols : UInt64) : (UInt64.ofNat (wordsPerRow cols)).toNat = wordsPerRow cols :=
  UInt64.toNat_ofNat_of_lt' (Nat.lt_of_le_of_lt (wordsPerRow_le cols) cols.toNat_lt)

theorem get_eq (m : BitMatrix) (r j : Nat) :
    m.get r j = (decide (r < m.rows.toNat ∧ j < m.cols.toNat) && m.bit r j) := by
  unfold get bit
  rw [bitIn_add, List.getD_eq_getElem?_getD, Array.getElem?_toList]
  by_cases h : r < m.rows.toNat ∧ j < m.cols.toNat
  · rw [if_pos h, decide_eq_true h, Bool.true_and]
    cases m.words[r * m.rowWords.toNat + j / wordBits]? <;> simp
  · rw [if_neg h, decide_eq_false h, Bool.false_and]

theorem get_of_lt (hr : r < m.rows.toNat) (hj : j < m.cols.toNat) : m.get r j = m.bit r j := by
  rw [get_eq, decide_eq_true ⟨hr, hj⟩, Bool.true_and]

theorem inRange_of_get (h : m.get r j = true) : r < m.rows.toNat ∧ j < m.cols.toNat := by
  rw [get_eq, Bool.and_eq_true] at h
  exact of_decide_eq_true h.1

theorem mem_setCells {p : Nat × Nat} : p ∈ m.setCells ↔ m.get p.1 p.2 = true := by
  rw [setCells, Finset.mem_filter, Finset.mem_product, Finset.mem_range, Finset.mem_range]
  exact ⟨fun h => h.2, fun h => ⟨inRange_of_get h, h⟩⟩

theorem card_setCells (m : BitMatrix) :
    m.setCells.card = ∑ r ∈ Finset.range m.rows.toNat, Nat.count (fun j => m.get r j = true) m.cols.toNat := by
  rw [setCells, Finset.card_filter, Finset.sum_product]
  refine Finset.sum_congr rfl fun r _ => ?_
  rw [Nat.count_eq_card_filter_range, Finset.card_filter]

/-- There are no more set cells than cells. -/
theorem card_setCells_le (m : BitMatrix) : m.setCells.card ≤ m.rows.toNat * m.cols.toNat := by
  refine (Finset.card_filter_le _ _).trans ?_
  rw [Finset.card_product, Finset.card_range, Finset.card_range]

/-- **Less than `2 ^ 58` words have less set cells than a word can count.** -/
theorem card_setCells_lt (h : wordCount m.rows m.cols < 2 ^ 58) : m.setCells.card < 2 ^ 64 := calc
  m.setCells.card ≤ m.rows.toNat * m.cols.toNat := m.card_setCells_le
  _ ≤ m.rows.toNat * (wordsPerRow m.cols * wordBits) := Nat.mul_le_mul_left _ (cols_le m.cols)
  _ = wordCount m.rows m.cols * wordBits := (Nat.mul_assoc _ _ _).symm
  _ < 2 ^ 58 * wordBits := Nat.mul_lt_mul_of_pos_right h (by decide)
  _ = 2 ^ 64 := by decide

theorem setCells_eq_empty (h : ∀ r j, m.get r j = false) : m.setCells = ∅ :=
  Finset.eq_empty_of_forall_notMem fun p hp => by simpa [h] using mem_setCells.1 hp

namespace Packed

theorem get_eq_bit (hm : m.Packed) (hr : r < m.rows.toNat) (hj : j < wordsPerRow m.cols * wordBits) :
    m.get r j = m.bit r j := by
  by_cases h : j < m.cols.toNat
  · exact get_of_lt hr h
  · rw [get_eq, hm.padding r hr j (Nat.le_of_not_lt h) hj, Bool.and_false]

theorem slice_le (hm : m.Packed) (hr : r < m.rows.toNat) : (r + 1) * m.rowWords.toNat ≤ m.words.size := by
  rw [hm.rowWords, hm.size]
  exact Nat.mul_le_mul_right _ hr

theorem inBounds (hm : m.Packed) (hsize : wordCount m.rows m.cols < 2 ^ 64) : m.InBounds where
  size := by rwa [hm.size]
  word r hr j hj := by
    have hq : j / wordBits < m.rowWords.toNat := by
      rw [hm.rowWords]
      exact div_wordBits_lt (Nat.lt_of_lt_of_le hj (cols_le m.cols))
    have hslice := hm.slice_le hr
    rw [Nat.succ_mul] at hslice
    omega
  row _ hr := hm.slice_le hr

theorem length_row (hm : m.Packed) (hr : r < m.rows.toNat) : (m.row r).length = wordsPerRow m.cols := by
  rw [row, Array.length_toList, Array.size_extract, Nat.min_eq_left (hm.slice_le hr), Nat.succ_mul,
    Nat.add_sub_cancel_left, hm.rowWords]

theorem bitIn_row (hm : m.Packed) (hr : r < m.rows.toNat) (hj : j < wordsPerRow m.cols * wordBits) :
    bitIn (m.row r) j = m.get r j := by
  have hq : j / wordBits < m.rowWords.toNat := hm.rowWords ▸ div_wordBits_lt hj
  have hlt : j / wordBits < (r + 1) * m.rowWords.toNat - r * m.rowWords.toNat := by
    rwa [Nat.succ_mul, Nat.add_sub_cancel_left]
  rw [hm.get_eq_bit hr hj, bit, bitIn_add, bitIn, row, List.getD_eq_getElem?_getD, List.getD_eq_getElem?_getD,
    Array.toList_extract, List.extract_eq_take_drop, List.getElem?_take_of_lt hlt, List.getElem?_drop]

/-- There are as many set cells as set bits. -/
theorem card_setCells (hm : m.Packed) : m.setCells.card = (m.words.toList.map popCount).sum := by
  rw [BitMatrix.card_setCells, sum_popCount, Array.length_toList, hm.size, wordCount, Nat.mul_assoc, count_mul]
  refine Finset.sum_congr rfl fun r hr => ?_
  have hr := Finset.mem_range.1 hr
  have hbits : ∀ j, bitIn m.words.toList (r * (wordsPerRow m.cols * wordBits) + j) = m.bit r j := fun j => by
    rw [bit, hm.rowWords]
  simp only [hbits]
  rw [count_of_false_above (cols_le m.cols) (hm.padding r hr)]
  exact count_congr fun j hj => get_of_lt hr hj

end Packed

/-- **A matrix with the count zero has no set cell.** -/
theorem WellFormed.get_of_nnz_eq_zero (hm : m.WellFormed) (h : m.nnz = 0) (r j : Nat) : m.get r j = false := by
  have hnone : m.setCells = ∅ := by
    rw [← Finset.card_eq_zero, ← hm.nnz, h]
    rfl
  rw [← Bool.not_eq_true]
  intro hget
  have hmem : (r, j) ∈ m.setCells := mem_setCells.2 hget
  rw [hnone] at hmem
  exact Finset.notMem_empty _ hmem

section empty

variable (rows cols : UInt64)

theorem bit_empty (r j : Nat) : (empty rows cols).bit r j = false := by
  rw [bit, empty, Array.toList_replicate]
  exact bitIn_replicate _ _

theorem get_empty (r j : Nat) : (empty rows cols).get r j = false := by
  rw [get_eq, bit_empty, Bool.and_false]

theorem wellFormed_empty : (empty rows cols).WellFormed where
  rowWords := toNat_rowWords cols
  size := Array.size_replicate
  padding r _ j _ _ := bit_empty rows cols r j
  nnz := by
    rw [setCells_eq_empty (get_empty rows cols)]
    rfl

end empty

section ofDense

variable (d : Dense)

def rowCells (r : Nat) : List Float := (d.values.toList.drop (r * d.cols.toNat)).take d.cols.toNat

theorem getElem?_rowCells (r j : Nat) :
    (rowCells d r)[j]? = if j < d.cols.toNat then d.values[r * d.cols.toNat + j]? else none := by
  rw [rowCells, List.getElem?_take, List.getElem?_drop, Array.getElem?_toList]

theorem length_rowCells {r : Nat} (hr : r < d.rows.toNat) : (rowCells d r).length = d.cols.toNat := by
  have hle : (r + 1) * d.cols.toNat ≤ d.values.size := d.size_eq_mul ▸ Nat.mul_le_mul_right _ hr
  rw [Nat.succ_mul] at hle
  rw [rowCells, List.length_take, List.length_drop, Array.length_toList]
  omega

/-- **The slices of a matrix with columns are its rows.** -/
theorem rowSlices_eq (hcols : 0 < d.cols.toNat) : d.rowSlices = (List.range d.rows.toNat).map (rowCells d) := by
  have hlen : d.values.toList.length = d.rows.toNat * d.cols.toNat := d.size_eq_mul
  have hwidth : d.cols.toNat - 1 + 1 = d.cols.toNat := Nat.sub_add_cancel hcols
  refine List.ext_getElem? fun r => ?_
  rw [Dense.rowSlices, getElem?_chunks, hwidth, hlen, List.getElem?_map]
  by_cases hr : r < d.rows.toNat
  · rw [if_pos (Nat.mul_lt_mul_of_pos_right hr hcols), List.getElem?_range hr, Option.map_some, rowCells]
  · rw [if_neg (Nat.not_lt.2 (Nat.mul_le_mul_right _ (Nat.not_lt.1 hr))),
      List.getElem?_eq_none (by simpa using hr), Option.map_none]

/-- The words, row by row; a matrix without columns has rows, but lists none. -/
theorem words_ofDense :
    (ofDense d).words.toList = (List.range d.rows.toNat).flatMap fun r => packRow (rowCells d r) := by
  change d.rowSlices.flatMap packRow = _
  rcases Nat.eq_zero_or_pos d.cols.toNat with hcols | hcols
  · have hlen : d.values.toList.length = 0 := by rw [Array.length_toList, d.size_eq_mul, hcols, Nat.mul_zero]
    have hnil : d.values.toList = [] := List.length_eq_zero_iff.1 hlen
    have hpack : packRow [] = [] := by rw [packRow, chunks, List.map_nil]
    simp [Dense.rowSlices, rowCells, hnil, hcols, chunks, hpack]
  · rw [rowSlices_eq d hcols, List.flatMap_map]

theorem size_ofDense : (ofDense d).words.size = wordCount d.rows d.cols := by
  rw [← Array.length_toList, words_ofDense]
  refine length_flatMap_range fun r hr => ?_
  rw [length_packRow, length_rowCells d hr]
  rfl

theorem bit_ofDense {r j : Nat} (hr : r < d.rows.toNat) (hj : j < wordsPerRow d.cols * wordBits) :
    (ofDense d).bit r j = (rowCells d r)[j]?.any Dense.isNonzero := by
  have hlen : ∀ r < d.rows.toNat, (packRow (rowCells d r)).length = wordsPerRow d.cols := fun r hr => by
    rw [length_packRow, length_rowCells d hr]
    rfl
  rw [bit, words_ofDense, show (ofDense d).rowWords.toNat = wordsPerRow d.cols from toNat_rowWords d.cols,
    bitIn_flatMap_range hlen hr hj, bitIn_packRow]

theorem get_ofDense {r j : Nat} (hr : r < d.rows.toNat) (hj : j < d.cols.toNat) :
    (ofDense d).get r j = d.values[r * d.cols.toNat + j]?.any Dense.isNonzero := by
  have hget : (ofDense d).get r j = (ofDense d).bit r j := get_of_lt hr hj
  rw [hget, bit_ofDense d hr (Nat.lt_of_lt_of_le hj (cols_le d.cols)), getElem?_rowCells, if_pos hj]

theorem packed_ofDense : (ofDense d).Packed where
  rowWords := toNat_rowWords d.cols
  size := size_ofDense d
  padding r hr j hcols hj := by
    rw [bit_ofDense d hr hj, getElem?_rowCells, if_neg (show ¬ j < d.cols.toNat from Nat.not_lt.2 hcols)]
    rfl

/-- **The count of a dense matrix is that of the set cells.** -/
theorem nnz_ofDense : (ofDense d).nnz.toNat = (ofDense d).setCells.card := by
  have hlt := d.size_lt
  have hle : d.values.toList.countP Dense.isNonzero ≤ d.values.size := List.countP_le_length
  have hlen : d.values.toList.length = d.rows.toNat * d.cols.toNat := d.size_eq_mul
  have hnnz : (ofDense d).nnz.toNat = d.values.toList.countP Dense.isNonzero :=
    UInt64.toNat_ofNat_of_lt' (by change _ < 2 ^ 64; omega)
  rw [hnnz, countP_eq_count, hlen, count_mul, card_setCells]
  refine Finset.sum_congr rfl fun r hr => count_congr fun j hj => ?_
  rw [get_ofDense d (Finset.mem_range.1 hr) hj, Array.getElem?_toList]

/-- A dense matrix has no more words than cells. -/
theorem wordCount_ofDense : wordCount d.rows d.cols < 2 ^ 64 := by
  have hlt := d.size_lt
  rw [d.size_eq_mul] at hlt
  have hle : wordCount d.rows d.cols ≤ d.rows.toNat * d.cols.toNat := Nat.mul_le_mul_left _ (wordsPerRow_le d.cols)
  omega

/-- **The matrix of a dense one has its non-zero cells.** -/
theorem isPattern_ofDense : IsPattern d (ofDense d) where
  toPacked := packed_ofDense d
  nnz := nnz_ofDense d
  rows := rfl
  cols := rfl
  get i j := by
    unfold Dense.get?
    by_cases h : i < d.rows.toNat ∧ j < d.cols.toNat
    · rw [get_ofDense d h.1 h.2, if_pos h]
      exact Option.any_eq_true _ _
    · rw [if_neg h]
      exact iff_of_false (fun hget => h (inRange_of_get hget)) (by rintro ⟨v, hv, -⟩; cases hv)

end ofDense

end BitMatrix
end MatrixPlan

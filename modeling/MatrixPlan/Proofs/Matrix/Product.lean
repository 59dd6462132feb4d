import MatrixPlan.Proofs.Matrix.Cells
/-!
# Product — products of boolean matrices are exact

A product has the cells that a set cell of the left and one of the right matrix reach together.  That a factor with the
count zero has no set cell, so that the product is empty, is known of well-formed matrices, and products are well-formed
again: so it is known of all that can be had (`Obtained`).
-/
namespace MatrixPlan
namespace BitMatrix

/-- **The matrices that can be had**: empty ones, those of dense matrices, and products, as far as memory holds their
words and a word holds their count. -/
inductive Obtained : BitMatrix → Prop where
  | empty (rows cols : UInt64) (hsize : wordCount rows cols < 2 ^ 64) : Obtained (.empty rows cols)
  | ofDense (m : Dense) : Obtained (.ofDense m)
  /-- A product.  That a word holds the count leaves out only results of `2 ^ 58` words and more (`card_setCells_lt`). -/
  | product {a b c : BitMatrix} (ha : Obtained a) (hb : Obtained b) (h : a.product b = .ok c)
      (hsize : wordCount c.rows c.cols < 2 ^ 64) (hcount : c.setCells.card < 2 ^ 64) : Obtained c

/-- **The boolean product of two matrices**, as a matrix without padding bits; its count is that of the set cells, as a
word. -/
structure IsProduct (a b c : BitMatrix) : Prop extends Packed c where
  rows : c.rows = a.rows
  cols : c.cols = b.cols
  get : ∀ i j, c.get i j = true ↔ ∃ k, a.get i k = true ∧ b.get k j = true
  nnz : c.nnz = UInt64.ofNat c.setCells.card

variable {a b c : BitMatrix} {r j : Nat}

theorem length_productRow (hb : b.Packed) (h : a.cols = b.rows) (r : Nat) :
    (productRow a b r).length = wordsPerRow b.cols :=
  length_foldl_orRow (a.get r) (fun _ hk => hb.length_row (h ▸ List.mem_range.1 hk)) List.length_replicate

/-- **A row of the product has the bits that some set cell of `a` and some set cell of `b` reach together.** -/
theorem bitIn_productRow (hb : b.Packed) (h : a.cols = b.rows) (r : Nat) (hj : j < wordsPerRow b.cols * wordBits) :
    bitIn (productRow a b r) j = true ↔ ∃ k, a.get r k = true ∧ b.get k j = true := by
  have hrow : ∀ k ∈ List.range a.cols.toNat, (b.row k).length = wordsPerRow b.cols :=
    fun k hk => hb.length_row (h ▸ List.mem_range.1 hk)
  rw [productRow, bitIn_foldl_orRow (a.get r) hrow List.length_replicate, bitIn_replicate, Bool.false_or, List.any_eq_true]
  constructor
  · rintro ⟨k, hk, hbits⟩
    rw [Bool.and_eq_true, hb.bitIn_row (h ▸ List.mem_range.1 hk) hj] at hbits
    exact ⟨k, hbits⟩
  · rintro ⟨k, ha, hbit⟩
    have hk := (inRange_of_get ha).2
    refine ⟨k, List.mem_range.2 hk, ?_⟩
    rw [Bool.and_eq_true, hb.bitIn_row (h ▸ hk) hj]
    exact ⟨ha, hbit⟩

/-- A product whose factors both have set cells. -/
def full (a b : BitMatrix) : BitMatrix :=
  let words := (List.range a.rows.toNat).flatMap (productRow a b)
  { rows := a.rows, cols := b.cols, rowWords := UInt64.ofNat (wordsPerRow b.cols), words := words.toArray,
    nnz := UInt64.ofNat (words.map popCount).sum }

theorem bit_full (hb : b.Packed) (h : a.cols = b.rows) (hr : r < a.rows.toNat) (hj : j < wordsPerRow b.cols * wordBits) :
    (full a b).bit r j = true ↔ ∃ k, a.get r k = true ∧ b.get k j = true := by
  have hlen : ∀ r < a.rows.toNat, (productRow a b r).length = wordsPerRow b.cols := fun r _ => length_productRow hb h r
  rw [← bitIn_productRow hb h r hj, bit, show (full a b).rowWords.toNat = wordsPerRow b.cols from toNat_rowWords b.cols]
  exact iff_of_eq (congrArg (· = true) (bitIn_flatMap_range hlen hr hj))

theorem packed_full (hb : b.Packed) (h : a.cols = b.rows) : (full a b).Packed where
  rowWords := toNat_rowWords b.cols
  size := length_flatMap_range fun r _ => length_productRow hb h r
  padding r hr j hcols hj := by
    rw [← Bool.not_eq_true, bit_full hb h hr hj]
    rintro ⟨k, -, hbit⟩
    exact Nat.not_lt.2 hcols (inRange_of_get hbit).2

theorem isProduct_full (hb : b.Packed) (h : a.cols = b.rows) : IsProduct a b (full a b) where
  toPacked := packed_full hb h
  rows := rfl
  cols := rfl
  get i j := by
    constructor
    · intro hget
      have hin : i < (full a b).rows.toNat ∧ j < (full a b).cols.toNat := inRange_of_get hget
      rw [get_of_lt hin.1 hin.2] at hget
      exact (bit_full hb h hin.1 (Nat.lt_of_lt_of_le hin.2 (cols_le b.cols))).1 hget
    · rintro ⟨k, ha, hb'⟩
      have hi := (inRange_of_get ha).1
      have hj := (inRange_of_get hb').2
      have hget : (full a b).get i j = (full a b).bit i j := get_of_lt hi hj
      rw [hget, bit_full hb h hi (Nat.lt_of_lt_of_le hj (cols_le b.cols))]
      exact ⟨k, ha, hb'⟩
  nnz := by
    rw [(packed_full hb h).card_setCells]
    rfl

/-- The product with a matrix without set cells. -/
theorem isProduct_empty (h : (∀ i k, a.get i k = false) ∨ ∀ k j, b.get k j = false) :
    IsProduct a b (empty a.rows b.cols) where
  toPacked := (wellFormed_empty a.rows b.cols).toPacked
  rows := rfl
  cols := rfl
  get i j := by
    rw [get_empty]
    refine iff_of_false Bool.false_ne_true ?_
    rintro ⟨k, ha, hb⟩
    rcases h with h | h
    · rw [h] at ha
      cases ha
    · rw [h] at hb
      cases hb
  nnz := by
    rw [setCells_eq_empty (get_empty a.rows b.cols)]
    rfl

theorem product_eq_full (h : a.cols = b.rows) (hnnz : ¬ (a.nnz = 0 ∨ b.nnz = 0)) : a.product b = .ok (full a b) := by
  unfold product
  rw [if_neg (not_not.2 h), if_neg hnnz]
  rfl

theorem product_eq_empty (h : a.cols = b.rows) (hnnz : a.nnz = 0 ∨ b.nnz = 0) :
    a.product b = .ok (empty a.rows b.cols) := by
  unfold product
  rw [if_neg (not_not.2 h), if_pos hnnz]

theorem product_of_ne (h : a.cols ≠ b.rows) :
    a.product b = .error (.incompatible .product (.innerExtents a.cols b.rows)) := by
  unfold product
  rw [if_pos h]

/-- **The product of well-formed matrices that fit together** is their boolean product. -/
theorem product_of_eq (ha : a.WellFormed) (hb : b.WellFormed) (h : a.cols = b.rows) :
    ∃ c, a.product b = .ok c ∧ IsProduct a b c := by
  by_cases hnnz : a.nnz = 0 ∨ b.nnz = 0
  · have hnone := hnnz.imp ha.get_of_nnz_eq_zero hb.get_of_nnz_eq_zero
    exact ⟨_, product_eq_empty h hnnz, isProduct_empty hnone⟩
  · exact ⟨_, product_eq_full h hnnz, isProduct_full hb.toPacked h⟩

/-- The metadata of a product of dense matrices that fit together is that of their boolean product. -/
theorem productMetadata_of_eq {d d' : Dense} (h : d.cols = d'.rows) :
    ∃ c, productMetadata d d' = .ok c.metadata ∧ IsProduct (ofDense d) (ofDense d') c := by
  obtain ⟨c, hc, hprod⟩ := product_of_eq (isPattern_ofDense d).toWellFormed (isPattern_ofDense d').toWellFormed h
  exact ⟨c, by rw [productMetadata, hc, Except.map], hprod⟩

theorem productMetadata_of_ne {d d' : Dense} (h : d.cols ≠ d'.rows) :
    productMetadata d d' = .error (.incompatible .product (.innerExtents d.cols d'.rows)) := by
  rw [productMetadata, product_of_ne h, Except.map]
  rfl

/-- **All matrices that can be had are well-formed.** -/
theorem Obtained.wellFormed (h : Obtained c) : c.WellFormed := by
  induction h with
  | empty rows cols _ => exact wellFormed_empty rows cols
  | ofDense m => exact (isPattern_ofDense m).toWellFormed
  | @product a b c ha hb hc _ hcount iha ihb =>
    -- the factors have their counts, so the one of the product is exact up to what a word holds
    by_cases h : a.cols = b.rows
    · obtain ⟨c', hc', hprod⟩ := product_of_eq iha ihb h
      cases hc.symm.trans hc'
      refine ⟨hprod.toPacked, ?_⟩
      rw [hprod.nnz]
      exact UInt64.toNat_ofNat_of_lt' hcount
    · rw [product_of_ne h] at hc
      cases hc

theorem Obtained.inBounds (h : Obtained c) : c.InBounds := by
  refine h.wellFormed.inBounds ?_
  cases h with
  | empty rows cols hsize => exact hsize
  | ofDense m => exact wordCount_ofDense m
  | product ha hb h hsize hcount => exact hsize

/-- **Boolean products are exact.**  Of matrices that can be had, the product fails when and only when the inner extents
differ; else it is the boolean product, whose rows are as wide as those of the right matrix, and all words that are read
or written are there.  The matrix of a dense one has its non-zero cells, which are all but those with one of the two
zeros. -/
theorem Obtained.product_exact (ha : Obtained a) (hb : Obtained b) :
    (a.product b = .error (.incompatible .product (.innerExtents a.cols b.rows)) ↔ a.cols ≠ b.rows) ∧
    (a.cols = b.rows → ∃ c, a.product b = .ok c ∧ IsProduct a b c ∧ c.rowWords = b.rowWords ∧
      a.InBounds ∧ b.InBounds ∧ (wordCount c.rows c.cols < 2 ^ 64 → c.InBounds)) ∧
    (∀ d, IsPattern d (.ofDense d) ∧ InBounds (.ofDense d)) ∧
    ∀ x, (Dense.isNonzero x = true ↔ x.toBits ≠ 0 ∧ x.toBits ≠ 0x8000000000000000) ∧
      (x.isNaN = true → Dense.isNonzero x = true) := by
  have hfits : a.cols = b.rows → ∃ c, a.product b = .ok c ∧ IsProduct a b c := product_of_eq ha.wellFormed hb.wellFormed
  refine ⟨⟨fun herror heq => ?_, product_of_ne⟩, fun heq => ?_, fun d => ⟨isPattern_ofDense d, (ofDense d).inBounds⟩,
    fun x => ⟨Dense.isNonzero_iff x, Dense.isNonzero_of_isNaN⟩⟩
  · obtain ⟨c, hc, -⟩ := hfits heq
    cases hc.symm.trans herror
  · obtain ⟨c, hc, hprod⟩ := hfits heq
    refine ⟨c, hc, hprod, UInt64.toNat_inj.1 ?_, ha.inBounds, hb.inBounds, hprod.inBounds⟩
    rw [hprod.rowWords, hb.wellFormed.rowWords, hprod.cols]

/-- One, zeros of both signs, and no number. -/
def mixed : Dense where
  rows := 2
  cols := 2
  values := #[1.0, 0.0, -0.0, 0.0 / 0.0]
  size_eq := rfl
  size_lt := by decide

/-- What is no number is a set cell, minus zero is none. -/
theorem product_exact_mixed : Obtained (ofDense mixed) ∧
    ∃ c, (ofDense mixed).product (ofDense mixed) = .ok c ∧ c.get 1 1 = true ∧ c.get 1 0 = false := by
  have hmixed : Obtained (ofDense mixed) := .ofDense mixed
  obtain ⟨-, hok, hdense, -⟩ := Obtained.product_exact hmixed hmixed
  have hpattern := (hdense mixed).1
  obtain ⟨c, hc, hprod, -⟩ := hok rfl
  have hnan : (ofDense mixed).get 1 1 = true := (hpattern.get 1 1).2 ⟨_, rfl, rfl⟩
  have hminus : (ofDense mixed).get 1 0 = false := by
    rw [← Bool.not_eq_true, hpattern.get]
    rintro ⟨v, hv, hnonzero⟩
    cases hv
    cases hnonzero
  refine ⟨hmixed, c, hc, (hprod.get 1 1).2 ⟨1, hnan, hnan⟩, ?_⟩
  rw [← Bool.not_eq_true, hprod.get]
  rintro ⟨k, hleft, hright⟩
  have hk : k < 2 := (inRange_of_get hleft).2
  obtain rfl | rfl : k = 0 ∨ k = 1 := by omega
  · rw [hminus] at hleft
    cases hleft
  · rw [hminus] at hright
    cases hright

end BitMatrix
end MatrixPlan

import MatrixPlan.Proofs.Matrix.Product
/-!
# Canonical — boolean matrices are told apart by their cells

Nothing of a matrix is left open by its extents and its cells: its words have no other bits, and its count is that of the
set cells.  So two ways to one boolean matrix end in the same words, and products are associative as structures.
-/
namespace MatrixPlan
namespace BitMatrix

variable {a b c x y : BitMatrix} {ws ws' : List UInt64}

theorem word_ext {w w' : UInt64} (h : ∀ i < wordBits, w.toNat.testBit i = w'.toNat.testBit i) : w = w' := by
  refine UInt64.toNat_inj.1 (Nat.eq_of_testBit_eq fun i => ?_)
  by_cases hi : i < wordBits
  · exact h i hi
  · have hpow : 2 ^ 64 ≤ 2 ^ i := Nat.pow_le_pow_right (by decide) (Nat.le_of_not_lt hi)
    rw [Nat.testBit_lt_two_pow (w.toNat_lt.trans_le hpow), Nat.testBit_lt_two_pow (w'.toNat_lt.trans_le hpow)]

/-- **Words of one number are told apart by their bits.** -/
theorem words_ext (hlen : ws.length = ws'.length) (h : ∀ j < ws.length * wordBits, bitIn ws j = bitIn ws' j) :
    ws = ws' := by
  refine List.ext_getElem hlen fun q hq hq' => word_ext fun i hi => ?_
  have hj : q * wordBits + i < ws.length * wordBits := calc
    q * wordBits + i < (q + 1) * wordBits := by rw [Nat.succ_mul]; omega
    _ ≤ ws.length * wordBits := Nat.mul_le_mul_right _ hq
  have hdiv : (q * wordBits + i) / wordBits = q := by
    rw [Nat.add_comm, Nat.add_mul_div_right _ _ (by decide), Nat.div_eq_of_lt hi, Nat.zero_add]
  have hbit := h _ hj
  rw [bitIn, bitIn, hdiv, Nat.mul_add_mod', Nat.mod_eq_of_lt hi, List.getD_eq_getElem?_getD, List.getD_eq_getElem?_getD,
    List.getElem?_eq_getElem hq, List.getElem?_eq_getElem hq'] at hbit
  exact hbit

/-- The bits of the words are those of the rows, one row after another. -/
theorem Packed.bitIn_words (ha : a.Packed) (hb : b.Packed) (hrows : a.rows = b.rows) (hcols : a.cols = b.cols)
    (hget : ∀ i j, a.get i j = b.get i j) {j : Nat} (hj : j < wordCount a.rows a.cols * wordBits) :
    bitIn a.words.toList j = bitIn b.words.toList j := by
  rw [wordCount, Nat.mul_assoc] at hj
  generalize hwidth : wordsPerRow a.cols * wordBits = width at hj
  have hpos : 0 < width := Nat.pos_of_ne_zero fun hzero => by
    rw [hzero, Nat.mul_zero] at hj
    exact Nat.not_lt_zero j hj
  have hr : j / width < a.rows.toNat := Nat.div_lt_of_lt_mul (by rwa [Nat.mul_comm])
  have hk : j % width < width := Nat.mod_lt j hpos
  have hsplit : j / width * width + j % width = j := Nat.div_add_mod' j width
  have hleft := ha.get_eq_bit hr (hwidth ▸ hk)
  have hright := hb.get_eq_bit (hrows ▸ hr) (hcols ▸ hwidth ▸ hk)
  rw [bit, ha.rowWords, hwidth, hsplit] at hleft
  rw [bit, hb.rowWords, ← hcols, hwidth, hsplit] at hright
  rw [← hleft, ← hright, hget]

/-- **A packed matrix has the words of its cells.** -/
theorem Packed.words_eq (ha : a.Packed) (hb : b.Packed) (hrows : a.rows = b.rows) (hcols : a.cols = b.cols)
    (hget : ∀ i j, a.get i j = b.get i j) : a.words = b.words := by
  have hsize : a.words.size = b.words.size := by rw [ha.size, hb.size, hrows, hcols]
  refine Array.toList_inj.1 (words_ext hsize fun j hj => ?_)
  rw [Array.length_toList, ha.size] at hj
  exact ha.bitIn_words hb hrows hcols hget hj

theorem setCells_congr (hrows : a.rows = b.rows) (hcols : a.cols = b.cols) (hget : ∀ i j, a.get i j = b.get i j) :
    a.setCells = b.setCells := by
  unfold setCells
  simp only [hrows, hcols, hget]

/-- **Matrices are told apart by their extents and cells**, if their counts are those of the set cells as words. -/
theorem Packed.ext_get (ha : a.Packed) (hb : b.Packed) (hna : a.nnz = UInt64.ofNat a.setCells.card)
    (hnb : b.nnz = UInt64.ofNat b.setCells.card) (hrows : a.rows = b.rows) (hcols : a.cols = b.cols)
    (hget : ∀ i j, a.get i j = b.get i j) : a = b := by
  have hwords := ha.words_eq hb hrows hcols hget
  have hnnz : a.nnz = b.nnz := by rw [hna, hnb, setCells_congr hrows hcols hget]
  have hrowWords : a.rowWords = b.rowWords := UInt64.toNat_inj.1 (by rw [ha.rowWords, hb.rowWords, hcols])
  cases a
  cases b
  cases hrows
  cases hcols
  cases hwords
  cases hnnz
  cases hrowWords
  rfl

theorem WellFormed.nnz_eq (ha : a.WellFormed) : a.nnz = UInt64.ofNat a.setCells.card := by
  rw [← ha.nnz, UInt64.ofNat_toNat]

/-- The cells in range are enough: no other is set. -/
theorem WellFormed.ext_get (ha : a.WellFormed) (hb : b.WellFormed) (hrows : a.rows = b.rows) (hcols : a.cols = b.cols)
    (hget : ∀ i < a.rows.toNat, ∀ j < a.cols.toNat, a.get i j = b.get i j) : a = b := by
  refine ha.toPacked.ext_get hb.toPacked ha.nnz_eq hb.nnz_eq hrows hcols fun i j => ?_
  by_cases h : i < a.rows.toNat ∧ j < a.cols.toNat
  · exact hget i h.1 j h.2
  · rw [get_eq, get_eq, ← hrows, ← hcols, decide_eq_false h, Bool.false_and, Bool.false_and]

/-! ## Products of three -/

/-- **A word holds the count of a product.**  This leaves out only products of `2 ^ 58` words and more
(`countFits_of_words`). -/
def CountFits (a b : BitMatrix) : Prop := ∀ c, a.product b = .ok c → c.setCells.card < 2 ^ 64

theorem countFits_of_words (ha : a.WellFormed) (hb : b.WellFormed) (h : a.cols = b.rows)
    (hwords : wordCount a.rows b.cols < 2 ^ 58) : CountFits a b := by
  intro c hc
  obtain ⟨c', hc', hprod⟩ := product_of_eq ha hb h
  cases hc.symm.trans hc'
  exact card_setCells_lt (by rwa [hprod.rows, hprod.cols])

/-- A product whose count a word holds is well-formed. -/
theorem exists_wellFormed_product (ha : a.WellFormed) (hb : b.WellFormed) (h : a.cols = b.rows) (hfits : CountFits a b) :
    ∃ c, a.product b = .ok c ∧ IsProduct a b c ∧ c.WellFormed := by
  obtain ⟨c, hc, hprod⟩ := product_of_eq ha hb h
  refine ⟨c, hc, hprod, hprod.toPacked, ?_⟩
  rw [hprod.nnz]
  exact UInt64.toNat_ofNat_of_lt' (hfits c hc)

/-- **Boolean products are associative**: both ways reach a cell through one set cell of each of the three. -/
theorem IsProduct.assoc {ab bc left right : BitMatrix} (hab : IsProduct a b ab) (hbc : IsProduct b c bc)
    (hleft : IsProduct ab c left) (hright : IsProduct a bc right) : left = right := by
  refine hleft.toPacked.ext_get hright.toPacked hleft.nnz hright.nnz ?_ ?_ fun i j => Bool.eq_iff_iff.2 ?_
  · rw [hleft.rows, hab.rows, hright.rows]
  · rw [hleft.cols, hright.cols, hbc.cols]
  · rw [hleft.get, hright.get]
    constructor
    · rintro ⟨l, hl, hc⟩
      obtain ⟨k, ha, hb⟩ := (hab.get i l).1 hl
      exact ⟨k, ha, (hbc.get k j).2 ⟨l, hb, hc⟩⟩
    · rintro ⟨k, ha, hk⟩
      obtain ⟨l, hb, hc⟩ := (hbc.get k j).1 hk
      exact ⟨l, (hab.get i l).2 ⟨k, ha, hb⟩, hc⟩

/-- Whether a cell of a dense matrix is non-zero; none is out of range. -/
def nonzeroAt (d : Dense) (i j : Nat) : Bool := (d.get? i j).any Dense.isNonzero

theorem ofDense_get_eq (d : Dense) (i j : Nat) : (ofDense d).get i j = nonzeroAt d i j := by
  rw [Bool.eq_iff_iff, (isPattern_ofDense d).get, nonzeroAt, Option.any_eq_true]

/-- **Boolean matrices are canonical.**  Of the matrices that can be had, two are the same structure, with all their words
and their count, exactly if they have the same extents and the same cells.  So a product of three that fit together is the
same whichever product is taken first, as long as words hold the counts of these; and dense matrices of the same extents
that are zero in the same cells have one boolean matrix. -/
theorem Obtained.canonical :
    (∀ a b, Obtained a → Obtained b →
      (a = b ↔ a.rows = b.rows ∧ a.cols = b.cols ∧ ∀ i < a.rows.toNat, ∀ j < a.cols.toNat, a.get i j = b.get i j)) ∧
    (∀ a b c, Obtained a → Obtained b → Obtained c → a.cols = b.rows → b.cols = c.rows → CountFits a b → CountFits b c →
      ∃ p, (a.product b).bind (·.product c) = .ok p ∧ (b.product c).bind a.product = .ok p) ∧
    ∀ d d' : Dense, d.rows = d'.rows → d.cols = d'.cols → (∀ i j, nonzeroAt d i j = nonzeroAt d' i j) →
      BitMatrix.ofDense d = BitMatrix.ofDense d' := by
  refine ⟨fun a b ha hb => ⟨?_, ?_⟩, fun a b c ha hb hc h h' hfits hfits' => ?_, fun d d' hrows hcols hzeros => ?_⟩
  · rintro rfl
    exact ⟨rfl, rfl, fun _ _ _ _ => rfl⟩
  · rintro ⟨hrows, hcols, hget⟩
    exact ha.wellFormed.ext_get hb.wellFormed hrows hcols hget
  · obtain ⟨ab, hab, hprod, hwf⟩ := exists_wellFormed_product ha.wellFormed hb.wellFormed h hfits
    obtain ⟨bc, hbc, hprod', hwf'⟩ := exists_wellFormed_product hb.wellFormed hc.wellFormed h' hfits'
    obtain ⟨left, hleft, hassoc⟩ := product_of_eq hwf hc.wellFormed (hprod.cols.trans h')
    obtain ⟨right, hright, hassoc'⟩ := product_of_eq ha.wellFormed hwf' (h.trans hprod'.rows.symm)
    refine ⟨left, ?_, ?_⟩
    · rw [hab]
      exact hleft
    · rw [hbc, hprod.assoc hprod' hassoc hassoc']
      exact hright
  · refine (isPattern_ofDense d).toWellFormed.ext_get (isPattern_ofDense d').toWellFormed hrows hcols fun i _ j _ => ?_
    rw [ofDense_get_eq, ofDense_get_eq, hzeros]

/-- Other numbers in the cells of `mixed`, and zeros of the other signs. -/
def remixed : Dense where
  rows := 2
  cols := 2
  values := #[2.0, -0.0, 0.0, 1.0]
  size_eq := rfl
  size_lt := by decide

theorem nonzeroAt_remixed (i j : Nat) : nonzeroAt mixed i j = nonzeroAt remixed i j := by
  have hin : ∀ i < 2, ∀ j < 2, nonzeroAt mixed i j = nonzeroAt remixed i j := by decide +kernel
  by_cases h : i < 2 ∧ j < 2
  · exact hin i h.1 j h.2
  · have hout : mixed.get? i j = none ∧ remixed.get? i j = none := ⟨if_neg h, if_neg h⟩
    rw [nonzeroAt, nonzeroAt, hout.1, hout.2]

/-- What is no number is as good as one; a matrix without set cells is another; and three factors can be put together
either way. -/
theorem canonical_mixed : Obtained (ofDense mixed) ∧ ofDense mixed = ofDense remixed ∧ ofDense mixed ≠ empty 2 2 ∧
    ∃ p, ((ofDense mixed).product (ofDense mixed)).bind (·.product (ofDense remixed)) = .ok p ∧
      ((ofDense mixed).product (ofDense remixed)).bind (ofDense mixed).product = .ok p := by
  obtain ⟨hext, hassoc, hdense⟩ := Obtained.canonical
  have hmixed : Obtained (ofDense mixed) := .ofDense mixed
  have hremixed : Obtained (ofDense remixed) := .ofDense remixed
  have hfits := countFits_of_words hmixed.wellFormed hmixed.wellFormed rfl (by decide)
  have hfits' := countFits_of_words hmixed.wellFormed hremixed.wellFormed rfl (by decide)
  refine ⟨hmixed, hdense mixed remixed rfl rfl nonzeroAt_remixed, fun heq => ?_,
    hassoc _ _ _ hmixed hmixed hremixed rfl rfl hfits hfits'⟩
  obtain ⟨-, -, hget⟩ := (hext _ _ hmixed (.empty 2 2 (by decide))).1 heq
  have hone : (ofDense mixed).get 0 0 = false := (hget 0 (by decide) 0 (by decide)).trans (get_empty 2 2 0 0)
  rw [ofDense_get_eq] at hone
  exact absurd hone (by decide +kernel)

end BitMatrix
end MatrixPlan

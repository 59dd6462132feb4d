import Mathlib.Data.Nat.Count
import Mathlib.Algebra.BigOperators.Group.Finset.Basic
import Mathlib.Algebra.BigOperators.Intervals
import MatrixPlan.Matrix.Bits
/-!
# Words — bits in rows of words

Words in a row are read as one row of bits (`bitIn`).  Packing, or-ing and counting are what they should be on the bits,
and a list put together from parts of one length has the bits of its parts.
-/
namespace MatrixPlan

section chunks

variable {α : Type}

theorem getElem?_chunks (n : Nat) (xs : List α) (i : Nat) :
    (chunks n xs)[i]? =
      if i * (n + 1) < xs.length then some ((xs.drop (i * (n + 1))).take (n + 1)) else none := by
  fun_induction chunks n xs generalizing i with
  | case1 => simp
  | case2 x xs ih =>
    cases i with
    | zero => simp
    | succ i =>
      rw [List.getElem?_cons_succ, ih]
      have hlt : i * (n + 1) < (xs.drop n).length ↔ (i + 1) * (n + 1) < (x :: xs).length := by
        rw [List.length_drop, List.length_cons, Nat.succ_mul]
        omega
      have hdrop : (x :: xs).drop ((i + 1) * (n + 1)) = (xs.drop n).drop (i * (n + 1)) := by
        rw [Nat.succ_mul, ← Nat.add_assoc, List.drop_succ_cons, List.drop_drop, Nat.add_comm]
      simp only [hlt, hdrop]

theorem length_chunks (n : Nat) (xs : List α) : (chunks n xs).length = (xs.length + n) / (n + 1) := by
  fun_induction chunks n xs with
  | case1 => simp [Nat.div_eq_of_lt (Nat.lt_succ_self n)]
  | case2 x xs ih =>
    rw [List.length_cons, ih, List.length_drop, List.length_cons, ← Nat.add_div_right _ (Nat.succ_pos n)]
    by_cases hn : n ≤ xs.length
    · rw [Nat.sub_add_cancel hn, Nat.succ_eq_add_one, Nat.add_right_comm]
      rfl
    · -- a single piece, which is not full
      have hlen : xs.length - n = 0 := by omega
      rw [hlen, Nat.div_eq_of_lt_le (k := 1) (by omega) (by omega), Nat.div_eq_of_lt_le (k := 1) (by omega) (by omega)]

theorem length_flatMap_range {f : Nat → List α} {w n : Nat} (hf : ∀ i < n, (f i).length = w) :
    ((List.range n).flatMap f).length = n * w := by
  induction n with
  | zero => simp
  | succ n ih =>
    rw [List.range_succ, List.flatMap_append, List.length_append, ih fun i hi => hf i (Nat.lt_succ_of_lt hi),
      List.flatMap_singleton, hf n (Nat.lt_succ_self n), Nat.succ_mul]

/-- A list in pieces of one length is what the pieces are, one after another. -/
theorem getElem?_flatMap_range {f : Nat → List α} {w n : Nat} (hf : ∀ i < n, (f i).length = w) {i t : Nat}
    (hi : i < n) (ht : t < w) : ((List.range n).flatMap f)[i * w + t]? = (f i)[t]? := by
  induction n with
  | zero => cases hi
  | succ n ih =>
    have hlen := length_flatMap_range fun i hi => hf i (Nat.lt_succ_of_lt hi)
    rw [List.range_succ, List.flatMap_append, List.flatMap_singleton]
    rcases Nat.lt_succ_iff_lt_or_eq.1 hi with hi | rfl
    · have hlt : i * w + t < n * w := calc
        i * w + t < (i + 1) * w := by rw [Nat.succ_mul]; omega
        _ ≤ n * w := Nat.mul_le_mul_right w hi
      rw [List.getElem?_append_left (by rwa [hlen]), ih (fun i hi => hf i (Nat.lt_succ_of_lt hi)) hi]
    · rw [List.getElem?_append_right (by rw [hlen]; omega), hlen, Nat.add_sub_cancel_left]

end chunks

section count

variable {p q : Nat → Bool}

theorem countP_range (p : Nat → Bool) (n : Nat) : (List.range n).countP p = Nat.count (fun i => p i = true) n := by
  induction n with
  | zero => simp
  | succ n ih =>
    rw [List.range_succ, List.countP_append, ih, Nat.count_succ, List.countP_singleton]

theorem countP_eq_count {α : Type} (p : α → Bool) (xs : List α) :
    xs.countP p = Nat.count (fun i => xs[i]?.any p = true) xs.length := by
  induction xs with
  | nil => simp
  | cons x xs ih =>
    rw [List.countP_cons, ih, List.length_cons, Nat.count_succ']
    simp

theorem count_congr {n : Nat} (h : ∀ i < n, p i = q i) :
    Nat.count (fun i => p i = true) n = Nat.count (fun i => q i = true) n := by
  rw [Nat.count_eq_card_filter_range, Nat.count_eq_card_filter_range]
  exact congrArg _ (Finset.filter_congr fun i hi => by rw [h i (Finset.mem_range.1 hi)])

/-- A count is the sum of the counts of parts of one length. -/
theorem count_mul (p : Nat → Bool) (n w : Nat) :
    Nat.count (fun i => p i = true) (n * w) = ∑ i ∈ Finset.range n, Nat.count (fun j => p (i * w + j) = true) w := by
  induction n with
  | zero => simp
  | succ n ih => rw [Nat.succ_mul, Nat.count_add, ih, Finset.sum_range_succ]

theorem count_of_false_above {m n : Nat} (hmn : m ≤ n) (h : ∀ i, m ≤ i → i < n → p i = false) :
    Nat.count (fun i => p i = true) n = Nat.count (fun i => p i = true) m := by
  obtain ⟨k, rfl⟩ := Nat.exists_eq_add_of_le hmn
  have hnone : Nat.count (fun i => p (m + i) = true) k = 0 :=
    Nat.count_iff_forall_not.2 fun i hi => by simp [h (m + i) (by omega) (by omega)]
  rw [Nat.count_add, hnone, Nat.add_zero]

end count

namespace BitMatrix

/-- Whether the bit at a place of a row of words is set. -/
def bitIn (ws : List UInt64) (j : Nat) : Bool := (ws.getD (j / wordBits) 0).toNat.testBit (j % wordBits)

theorem testBit_ofBits (bs : List Bool) (i : Nat) : (ofBits bs).testBit i = bs.getD i false := by
  induction bs generalizing i with
  | nil => simp [ofBits]
  | cons b bs ih =>
    cases i with
    | zero => cases b <;> simp [ofBits, Nat.testBit_zero]
    | succ i =>
      have hdiv : (b.toNat + 2 * ofBits bs) / 2 = ofBits bs := by
        have := b.toNat_le
        omega
      rw [ofBits, Nat.testBit_succ, hdiv, ih]
      rfl

theorem ofBits_lt (bs : List Bool) : ofBits bs < 2 ^ bs.length := by
  induction bs with
  | nil => simp [ofBits]
  | cons b bs ih =>
    have := b.toNat_le
    rw [ofBits, List.length_cons, Nat.pow_succ]
    omega

theorem length_packRow (cells : List Float) : (packRow cells).length = (cells.length + (wordBits - 1)) / wordBits := by
  rw [packRow, List.length_map, length_chunks]
  rfl

/-- **A packed row has the bits of its non-zero cells.** -/
theorem bitIn_packRow (cells : List Float) (j : Nat) : bitIn (packRow cells) j = cells[j]?.any Dense.isNonzero := by
  -- the piece of the word, and the cell in it
  have hj : j / wordBits * (wordBits - 1 + 1) + j % wordBits = j := Nat.div_add_mod' j wordBits
  have hmod : j % wordBits < wordBits - 1 + 1 := Nat.mod_lt j (by decide)
  unfold bitIn packRow
  rw [List.getD_eq_getElem?_getD, List.getElem?_map, getElem?_chunks]
  by_cases h : j / wordBits * (wordBits - 1 + 1) < cells.length
  · have hlt : ofBits (((cells.drop (j / wordBits * (wordBits - 1 + 1))).take (wordBits - 1 + 1)).map Dense.isNonzero)
        < 2 ^ 64 :=
      Nat.lt_of_lt_of_le (ofBits_lt _) (Nat.pow_le_pow_right (by decide) (by simp [wordBits]))
    rw [if_pos h, Option.map_some, Option.getD_some, UInt64.toNat_ofNat_of_lt' hlt, testBit_ofBits,
      List.getD_eq_getElem?_getD, List.getElem?_map, List.getElem?_take_of_lt hmod, List.getElem?_drop, hj]
    cases cells[j]? <;> rfl
  · have hnone : cells[j]? = none := List.getElem?_eq_none (by omega)
    rw [if_neg h, hnone]
    simp

theorem bitIn_orRow {a b : List UInt64} (h : a.length = b.length) (j : Nat) :
    bitIn (orRow a b) j = (bitIn a j || bitIn b j) := by
  unfold bitIn orRow
  by_cases hj : j / wordBits < a.length
  · have hj' : j / wordBits < b.length := h ▸ hj
    simp [List.getD_eq_getElem?_getD, hj, hj']
  · have hj' : ¬ j / wordBits < b.length := h ▸ hj
    simp [List.getD_eq_getElem?_getD, hj, hj']

theorem bitIn_replicate (n j : Nat) : bitIn (List.replicate n 0) j = false := by
  unfold bitIn
  rw [List.getD_eq_getElem?_getD, List.getElem?_replicate]
  split <;> simp

/-- The bit at a place of a row, in words that are rows of one length. -/
theorem bitIn_add (ws : List UInt64) (w i j : Nat) :
    bitIn ws (i * (w * wordBits) + j) = (ws.getD (i * w + j / wordBits) 0).toNat.testBit (j % wordBits) := by
  have hdiv : (i * (w * wordBits) + j) / wordBits = i * w + j / wordBits := by
    rw [← Nat.mul_assoc, Nat.add_comm, Nat.add_mul_div_right _ _ (by decide), Nat.add_comm]
  have hmod : (i * (w * wordBits) + j) % wordBits = j % wordBits := by
    rw [← Nat.mul_assoc, Nat.add_comm, Nat.add_mul_mod_self_right]
  rw [bitIn, hdiv, hmod]

theorem div_wordBits_lt {w j : Nat} (hj : j < w * wordBits) : j / wordBits < w :=
  Nat.div_lt_of_lt_mul (by rwa [Nat.mul_comm])

theorem bitIn_flatMap_range {f : Nat → List UInt64} {w n : Nat} (hf : ∀ i < n, (f i).length = w) {i j : Nat}
    (hi : i < n) (hj : j < w * wordBits) : bitIn ((List.range n).flatMap f) (i * (w * wordBits) + j) = bitIn (f i) j := by
  rw [bitIn_add, List.getD_eq_getElem?_getD, getElem?_flatMap_range hf hi (div_wordBits_lt hj),
    ← List.getD_eq_getElem?_getD]
  rfl

theorem length_orRow {a b : List UInt64} (h : a.length = b.length) : (orRow a b).length = b.length := by
  simp [orRow, h]

section foldl

variable {w : Nat} {row : Nat → List UInt64} {ks : List Nat} {acc : List UInt64}

theorem length_foldl_orRow (p : Nat → Bool) (hrow : ∀ k ∈ ks, (row k).length = w) (hacc : acc.length = w) :
    (ks.foldl (fun acc k => if p k then orRow acc (row k) else acc) acc).length = w := by
  induction ks generalizing acc with
  | nil => exact hacc
  | cons k ks ih =>
    have hk := hrow k List.mem_cons_self
    refine ih (fun k hk => hrow k (List.mem_cons_of_mem _ hk)) ?_
    dsimp only
    split
    · rw [length_orRow (hacc.trans hk.symm), hk]
    · exact hacc

/-- **Rows that are or-ed have the bits of all of them.** -/
theorem bitIn_foldl_orRow (p : Nat → Bool) (hrow : ∀ k ∈ ks, (row k).length = w) (hacc : acc.length = w) (j : Nat) :
    bitIn (ks.foldl (fun acc k => if p k then orRow acc (row k) else acc) acc) j =
      (bitIn acc j || ks.any fun k => p k && bitIn (row k) j) := by
  induction ks generalizing acc with
  | nil => simp
  | cons k ks ih =>
    have hk := hrow k List.mem_cons_self
    have hks : ∀ k ∈ ks, (row k).length = w := fun k hk => hrow k (List.mem_cons_of_mem _ hk)
    rw [List.foldl_cons, List.any_cons]
    cases hp : p k with
    | false => simp [ih hks hacc]
    | true =>
      have hlen : acc.length = (row k).length := hacc.trans hk.symm
      simp [ih hks ((length_orRow hlen).trans hk), bitIn_orRow hlen, Bool.or_assoc]

end foldl

/-- **The set bits of words are as many as their population counts say.** -/
theorem sum_popCount (ws : List UInt64) :
    (ws.map popCount).sum = Nat.count (fun j => bitIn ws j = true) (ws.length * wordBits) := by
  induction ws with
  | nil => simp
  | cons w ws ih =>
    have hhead : Nat.count (fun j => bitIn (w :: ws) j = true) wordBits = popCount w := by
      rw [popCount, countP_range]
      exact count_congr fun j hj => by rw [bitIn, Nat.div_eq_of_lt hj, Nat.mod_eq_of_lt hj]; rfl
    have htail : ∀ j, bitIn (w :: ws) (wordBits + j) = bitIn ws j := fun j => by
      rw [bitIn, Nat.add_div_left j (by decide), Nat.add_mod_left]
      rfl
    rw [List.map_cons, List.sum_cons, ih, List.length_cons, Nat.succ_mul, Nat.add_comm (ws.length * wordBits),
      Nat.count_add, hhead]
    simp only [htail]

end BitMatrix
end MatrixPlan

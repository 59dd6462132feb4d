import MatrixPlan.Number.Natural
import MatrixPlan.Text.Hex
/-!
# Hex — numbers in base sixteen are read back

The digits that `hex` writes have as many places as they are told to, and `ofHex?` reads them as the number they write.
-/
namespace MatrixPlan
namespace Text

theorem length_hex (width n : Nat) : (hex width n).length = width := by
  induction width generalizing n with
  | zero => rfl
  | succ width ih => rw [hex, List.length_append, ih, List.length_singleton]

theorem exists_hexDigit {width n : Nat} {c : Char} (hc : c ∈ hex width n) : ∃ d, c = hexDigit d := by
  induction width generalizing n with
  | zero => cases hc
  | succ width ih =>
    rcases List.mem_append.1 hc with hc | hc
    · exact ih hc
    · exact ⟨n, List.mem_singleton.1 hc⟩

theorem hexValue?_hexDigit (n : Nat) : hexValue? (hexDigit n) = some (n % 16) := by
  have hall : ∀ d < 16, hexValue? d.digitChar = some d := by decide
  exact hall _ (Nat.mod_lt n (by decide))

theorem ofHex?_append (m : Nat) (cs ds : List Char) : ofHex? m (cs ++ ds) = (ofHex? m cs).bind fun n => ofHex? n ds := by
  induction cs generalizing m with
  | nil => rfl
  | cons c cs ih =>
    rw [List.cons_append, ofHex?, ofHex?]
    cases hexValue? c with
    | none => rfl
    | some d => exact ih _

/-- **A number is read back from its digits**, behind the digits of another one. -/
theorem ofHex?_hex {width n : Nat} (m : Nat) (h : n < 16 ^ width) : ofHex? m (hex width n) = some (16 ^ width * m + n) := by
  induction width generalizing n with
  | zero =>
    have hn : n = 0 := by simpa using h
    rw [hn, hex, ofHex?, Nat.pow_zero, Nat.one_mul, Nat.add_zero]
  | succ width ih =>
    have hlt : n / 16 < 16 ^ width := by
      rw [Nat.pow_succ] at h
      omega
    rw [hex, ofHex?_append, ih hlt, Option.bind_some, ofHex?, hexValue?_hexDigit]
    dsimp only [ofHex?]
    congr 1
    rw [Nat.pow_succ, Nat.mul_right_comm]
    omega

end Text
end MatrixPlan

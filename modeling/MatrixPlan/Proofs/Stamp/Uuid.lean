import MatrixPlan.Proofs.Text.Hex
import MatrixPlan.Stamp.Uuid
/-!
# Uuid — identifiers are read back from their texts

The groups of an identifier are put together again as they were cut, and its digits are read as its bits.
-/
namespace MatrixPlan
namespace Uuid

/-- **A text that was cut into groups is put together again.** -/
theorem unhyphenate?_hyphenate (ns : List Nat) (cs : List Char) (hne : ns ≠ []) (h : cs.length = ns.sum) :
    unhyphenate? ns (hyphenate ns cs) = some cs := by
  induction ns generalizing cs with
  | nil => exact absurd rfl hne
  | cons n ns ih =>
    cases ns with
    | nil => exact if_pos h
    | cons m ns =>
      have hn : (cs.take n).length = n := by
        rw [List.sum_cons] at h
        rw [List.length_take]
        omega
      have hrest : (cs.drop n).length = (m :: ns).sum := by
        rw [List.sum_cons] at h
        rw [List.length_drop]
        omega
      have hdrop : (cs.take n ++ '-' :: hyphenate (m :: ns) (cs.drop n)).drop n = '-' :: hyphenate (m :: ns) (cs.drop n) :=
        List.drop_left' hn
      rw [hyphenate, unhyphenate?, hdrop]
      · simp only [ih _ (List.cons_ne_nil m ns) hrest, Option.map_some, List.take_left' hn, List.take_append_drop]
      · exact List.cons_ne_nil m ns
      · exact List.cons_ne_nil m ns

theorem ofDigits?_hex (u : Uuid) : ofDigits? (Text.hex 32 u.bits.toNat) = some u := by
  have hread := Text.ofHex?_hex 0 (show u.bits.toNat < 16 ^ 32 from u.bits.isLt)
  rw [Nat.mul_zero, Nat.zero_add] at hread
  rw [ofDigits?, if_pos (Text.length_hex _ _), hread, Option.map_some, BitVec.ofNat_toNat, BitVec.setWidth_eq]

theorem length_chars (u : Uuid) : u.chars.length = 36 := by
  simp [chars, hyphenate, groups, Text.length_hex]

/-- The text of an identifier starts with a digit, so neither with a brace nor with a name. -/
theorem exists_head (u : Uuid) : ∃ d cs, u.chars = Text.hexDigit d :: cs := by
  have hne : (Text.hex 32 u.bits.toNat).take 8 ≠ [] := by
    rw [← List.length_pos_iff, List.length_take, Text.length_hex]
    decide
  obtain ⟨c, cs, htake⟩ := List.exists_cons_of_ne_nil hne
  have hmem : c ∈ Text.hex 32 u.bits.toNat := List.mem_of_mem_take (htake ▸ List.mem_cons_self)
  obtain ⟨d, rfl⟩ := Text.exists_hexDigit hmem
  refine ⟨d, cs ++ '-' :: hyphenate [4, 4, 4, 12] ((Text.hex 32 u.bits.toNat).drop 8), ?_⟩
  change (Text.hex 32 u.bits.toNat).take 8 ++ '-' :: hyphenate [4, 4, 4, 12] _ = _
  rw [htake, List.cons_append]

theorem hexDigit_ne (d : Nat) : Text.hexDigit d ≠ '{' ∧ (Text.hexDigit d).toLower ≠ 'u' := by
  have hall : ∀ d < 16, d.digitChar ≠ '{' ∧ d.digitChar.toLower ≠ 'u' := by decide
  exact hall _ (Nat.mod_lt d (by decide))

/-- **An identifier is read back from its text.** -/
theorem ofText?_text (u : Uuid) : ofText? u.text = some u := by
  have hlen := u.length_chars
  have hgroups : ofGroups? u.chars = some u := by
    rw [ofGroups?, chars, unhyphenate?_hyphenate groups _ (by decide) (Text.length_hex 32 _), Option.bind_some,
      ofDigits?_hex]
  rw [ofText?, text, String.toList_ofList]
  obtain ⟨d, cs, htext⟩ := u.exists_head
  obtain ⟨hbrace, hname⟩ := hexDigit_ne d
  rw [htext] at hlen hgroups ⊢
  rw [ofChars?.eq_2 _ fun rest heq => hbrace (List.cons.inj heq).1, if_neg fun hmark => hname ?_, if_neg (by omega)]
  · exact hgroups
  · exact (List.cons.inj hmark).1

end Uuid
end MatrixPlan

/-!
# Cut — texts that are told apart by where they end

Of a text that is put in front of another one, the end is found again when the first has characters of one class alone
and the second does not start with such a character.  If the end of each item of a list is found again, so is that of the
list, with a separator between the items and a closing character after them.
-/
namespace MatrixPlan
namespace Text

variable {p : Char → Bool} {xs xs' rest rest' : List Char}

/-- Whether a text goes on with a character of a class. -/
def Continues (p : Char → Bool) (cs : List Char) : Prop := ∃ c, cs.head? = some c ∧ p c = true

theorem takeWhile_append_of_stop (hxs : ∀ c ∈ xs, p c = true) (hrest : ¬ Continues p rest) :
    (xs ++ rest).takeWhile p = xs := by
  rw [List.takeWhile_append_of_pos hxs]
  cases rest with
  | nil => rw [List.takeWhile_nil, List.append_nil]
  | cons c cs =>
    have hc : ¬ p c = true := fun hc => hrest ⟨c, rfl, hc⟩
    rw [List.takeWhile_cons_of_neg hc, List.append_nil]

theorem not_continues_cons {c : Char} {cs : List Char} (hc : p c = false) : ¬ Continues p (c :: cs) := by
  rintro ⟨c', h, hc'⟩
  cases h
  rw [hc] at hc'
  cases hc'

/-- **The end of a text is found again** where its class of characters ends. -/
theorem cut (hxs : ∀ c ∈ xs, p c = true) (hxs' : ∀ c ∈ xs', p c = true) (hrest : ¬ Continues p rest)
    (hrest' : ¬ Continues p rest') (h : xs ++ rest = xs' ++ rest') : xs = xs' ∧ rest = rest' := by
  have heq : xs = xs' := by
    rw [← takeWhile_append_of_stop hxs hrest, h, takeWhile_append_of_stop hxs' hrest']
  exact ⟨heq, List.append_cancel_left (heq ▸ h)⟩

/-- The end of a text is found again at a character of another class. -/
theorem cut_at {c : Char} (hxs : ∀ c ∈ xs, p c = true) (hxs' : ∀ c ∈ xs', p c = true) (hc : p c = false)
    (h : xs ++ c :: rest = xs' ++ c :: rest') : xs = xs' ∧ rest = rest' := by
  obtain ⟨heq, hrest⟩ := cut hxs hxs' (not_continues_cons hc) (not_continues_cons hc) h
  exact ⟨heq, (List.cons.inj hrest).2⟩

theorem not_continues_mono {q : Char → Bool} (hqp : ∀ c, q c = true → p c = true) (h : ¬ Continues p rest) :
    ¬ Continues q rest := fun ⟨c, hhead, hc⟩ => h ⟨c, hhead, hqp c hc⟩

theorem intercalate_cons_eq {α : Type} (sep x : List α) (xs : List (List α)) :
    sep.intercalate (x :: xs) = x ++ xs.flatMap (sep ++ ·) := by
  induction xs generalizing x with
  | nil => simp
  | cons y ys ih => rw [List.intercalate_cons_cons, ih, List.flatMap_cons, List.append_assoc, List.append_assoc]

theorem intercalate_append_self {α : Type} (sep x : List α) (xs : List (List α)) :
    sep.intercalate (x :: xs) ++ sep = (x :: xs).flatMap (· ++ sep) := by
  induction xs generalizing x with
  | nil => simp
  | cons y ys ih =>
    rw [List.intercalate_cons_cons, List.append_assoc, ih]
    rfl

/-- **The items of a list are told apart** by their texts, in front of what does not go on with a class of characters. -/
def Cuts {α : Type} (f : α → List Char) (p : Char → Bool) (items : α → Prop) : Prop :=
  ∀ ⦃a b rest rest'⦄, items a → items b → ¬ Continues p rest → ¬ Continues p rest' →
    f a ++ rest = f b ++ rest' → a = b ∧ rest = rest'

theorem Cuts.at {α : Type} {f : α → List Char} {items : α → Prop} (hcuts : Cuts f p items) {a b : α} {c : Char}
    (ha : items a) (hb : items b) (hc : p c = false) (h : f a ++ c :: rest = f b ++ c :: rest') :
    a = b ∧ rest = rest' := by
  obtain ⟨heq, hrest⟩ := hcuts ha hb (not_continues_cons hc) (not_continues_cons hc) h
  exact ⟨heq, (List.cons.inj hrest).2⟩

section

variable {α : Type} {f : α → List Char} {items : α → Prop} {separator close : Char} {blank : List Char}
  (hcuts : Cuts f p items) (hstart : ∀ a, items a → ∃ c cs, f a = c :: cs ∧ c ≠ close)
  (hseparator : p separator = false) (hclose : p close = false) (hne : separator ≠ close)
include hcuts hseparator hclose hne

theorem tail_cut {xs ys : List α} (hxs : ∀ a ∈ xs, items a) (hys : ∀ a ∈ ys, items a)
    (h : xs.flatMap (fun a => separator :: blank ++ f a) ++ close :: rest =
      ys.flatMap (fun a => separator :: blank ++ f a) ++ close :: rest') : xs = ys ∧ rest = rest' := by
  -- what follows an item starts with a separator or with the closing character
  have hstop : ∀ (zs : List α) (r : List Char),
      ¬ Continues p (zs.flatMap (fun a => separator :: blank ++ f a) ++ close :: r) := by
    intro zs r
    cases zs with
    | nil => exact not_continues_cons hclose
    | cons z zs => exact not_continues_cons hseparator
  induction xs generalizing ys with
  | nil => cases ys with
    | nil =>
      cases h
      exact ⟨rfl, rfl⟩
    | cons y ys =>
      cases h
      exact absurd rfl hne
  | cons x xs ih => cases ys with
    | nil =>
      cases h
      exact absurd rfl hne
    | cons y ys =>
      simp only [List.flatMap_cons, List.cons_append, List.append_assoc, List.cons.injEq, true_and] at h
      have hcut := List.append_cancel_left h
      obtain ⟨rfl, hrest⟩ := hcuts (hxs x List.mem_cons_self) (hys y List.mem_cons_self)
        (hstop xs rest) (hstop ys rest') hcut
      obtain ⟨rfl, rfl⟩ := ih (fun a ha => hxs a (List.mem_cons_of_mem x ha))
        (fun a ha => hys a (List.mem_cons_of_mem x ha)) hrest
      exact ⟨rfl, rfl⟩

include hstart

/-- **A list of items is told apart by its text.** -/
theorem intercalate_cut {xs ys : List α} (hxs : ∀ a ∈ xs, items a) (hys : ∀ a ∈ ys, items a)
    (h : (separator :: blank).intercalate (xs.map f) ++ close :: rest =
      (separator :: blank).intercalate (ys.map f) ++ close :: rest') : xs = ys ∧ rest = rest' := by
  cases xs with
  | nil => cases ys with
    | nil =>
      cases h
      exact ⟨rfl, rfl⟩
    | cons y ys =>
      obtain ⟨c, cs, hy, hc⟩ := hstart y (hys y List.mem_cons_self)
      rw [List.map_cons, intercalate_cons_eq, hy] at h
      cases h
      exact absurd rfl hc
  | cons x xs => cases ys with
    | nil =>
      obtain ⟨c, cs, hx, hc⟩ := hstart x (hxs x List.mem_cons_self)
      rw [List.map_cons, intercalate_cons_eq, hx] at h
      cases h
      exact absurd rfl hc
    | cons y ys =>
      rw [List.map_cons, List.map_cons, intercalate_cons_eq, intercalate_cons_eq, List.flatMap_map, List.flatMap_map] at h
      have htail : (x :: xs).flatMap (fun a => separator :: blank ++ f a) ++ close :: rest =
          (y :: ys).flatMap (fun a => separator :: blank ++ f a) ++ close :: rest' := by
        rw [List.flatMap_cons, List.flatMap_cons, List.append_assoc, List.append_assoc, List.append_assoc,
          List.append_assoc, ← List.append_assoc (f x), ← List.append_assoc (f y), h]
      exact tail_cut hcuts hseparator hclose hne hxs hys htail

end

end Text
end MatrixPlan

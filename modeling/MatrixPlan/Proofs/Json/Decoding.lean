import Mathlib.Data.List.Nodup
import Mathlib.Logic.Function.Basic
import MatrixPlan.Json.Decode
import MatrixPlan.Proofs.Json.Reading
/-!
# Decoding — counts, lists and records are decoded from what they are encoded as

Counts and integers are decoded over their full ranges.  A record that is written with some of its fields, in their order,
is decoded to these fields, and the others are absent.
-/
namespace MatrixPlan
namespace Json

open FloatLayout (numeral)

/-! ## Counts and integers -/

theorem head?_numeral (n : Nat) (h : (numeral n).head? = some '0') : n = 0 := by
  induction n using Nat.strongRecOn with
  | ind n ih =>
    by_cases hn : n < 10
    · rw [numeral, Nat.toDigits_of_lt_base hn, List.head?_cons, Option.some_inj] at h
      exact (by decide : ∀ d < 10, d.digitChar = '0' → d = 0) n hn h
    · rw [numeral, Nat.toDigits_of_base_le (by decide) (by omega), List.head?_append_of_ne_nil _ Nat.toDigits_ne_nil] at h
      have := ih (n / 10) (by omega) h
      omega

theorem wholePart_numeral (n : Nat) : WholePart (numeral n) where
  nonempty := Nat.toDigits_ne_nil
  digits _ := Nat.isDigit_of_mem_toDigits (by decide) (by decide)
  leading h := by
    rw [head?_numeral n h]
    rfl

theorem ofDigits_numeral (n : Nat) : Decimal.ofDigits (numeral n) = n := Nat.ofDigitChars_ten_toDigits

theorem natural?_numeral (n : Nat) : natural? (numeral n) = some n := by
  rw [natural?, if_pos ⟨Nat.toDigits_ne_nil, List.all_eq_true.2 (wholePart_numeral n).digits⟩, ofDigits_numeral]

theorem numberText_numeral (n : Nat) : NumberText (numeral n) := by
  have h := NumberText.positive (wholePart_numeral n) .none .none
  rwa [List.append_nil, List.append_nil] at h

theorem numberText_minus_numeral (n : Nat) : NumberText ('-' :: numeral n) := by
  have h := NumberText.negative (wholePart_numeral n) .none .none
  rwa [List.append_nil, List.append_nil] at h

theorem writable_ofCount (n : UInt64) : (ofCount n).Writable := numberText_numeral _

/-- **A count is decoded**, whatever its size. -/
theorem toCount?_ofCount (n : UInt64) : toCount? (ofCount n) = some n := by
  have hlt := n.toNat_lt
  rw [ofCount, toCount?, natural?_numeral, Option.bind_some, if_pos (by unfold maxCount; omega), UInt64.ofNat_toNat]

theorem writable_ofInt (n : Int64) : (ofInt n).Writable := by
  unfold ofInt
  split
  · exact numberText_minus_numeral _
  · exact numberText_numeral _

/-- **An integer is decoded**, whatever its size and sign. -/
theorem toInt?_ofInt (n : Int64) : toInt? (ofInt n) = some n := by
  have hle := n.le_toInt
  have hlt := n.toInt_lt
  unfold ofInt
  split
  · rename_i hneg
    rw [toInt?, natural?_numeral, Option.bind_some, if_pos (by omega)]
    have habs : -(n.toInt.natAbs : Int) = n.toInt := by omega
    rw [habs, Int64.ofInt_toInt]
  · rename_i hneg
    rw [toInt?.eq_2, natural?_numeral, Option.bind_some, if_pos (by omega)]
    · have habs : (n.toInt.natAbs : Int) = n.toInt := by omega
      rw [habs, Int64.ofInt_toInt]
    · intro text hminus
      have hdigit : '-'.isDigit = true := (wholePart_numeral n.toInt.natAbs).digits '-' (hminus ▸ List.mem_cons_self)
      cases hdigit

/-! ## Lists -/

variable {α : Type} {decode : Json → Option α} {encode : α → Json}

theorem itemsWritable_iff {vs : List Json} : ItemsWritable vs ↔ ∀ v ∈ vs, v.Writable := by
  induction vs with
  | nil => simp [ItemsWritable]
  | cons v vs ih => rw [ItemsWritable, ih, List.forall_mem_cons]

/-- **A list is decoded** if its items are. -/
theorem toList?_map {xs : List α} (h : ∀ x ∈ xs, decode (encode x) = some x) :
    toList? decode (.array (xs.map encode)) = some xs := by
  rw [toList?]
  induction xs with
  | nil => rfl
  | cons x xs ih =>
    rw [List.forall_mem_cons] at h
    rw [List.map_cons, List.mapM_cons, h.1, ih h.2]
    rfl

/-- A list with an item that is not decoded is not decoded. -/
theorem toList?_eq_none {vs : List Json} {v : Json} (hv : v ∈ vs) (h : decode v = none) :
    toList? decode (.array vs) = none := by
  rw [toList?]
  induction vs with
  | nil => cases hv
  | cons w vs ih =>
    rw [List.mapM_cons]
    rcases List.mem_cons.1 hv with rfl | hv
    · rw [h]
      rfl
    · rw [ih hv]
      cases decode w <;> rfl

/-! ## Records -/

theorem writable_ofMembers {ms : List (String × Json)} : (ofMembers ms).Writable ↔ ∀ m ∈ ms, m.2.Writable := by
  rw [ofMembers, Writable]
  induction ms with
  | nil => simp [MembersWritable]
  | cons m ms ih => rw [List.map_cons, MembersWritable, ih, List.forall_mem_cons, Option.isSome_some, eq_self, true_and]

/-- **The members of a record**: of its fields, those that have a value. -/
def present (fields : List (String × Option Json)) : List (String × Json) :=
  fields.filterMap fun f => f.2.map fun v => (f.1, v)

theorem present_none (name : String) (fields : List (String × Option Json)) :
    present ((name, none) :: fields) = present fields := rfl

theorem present_some (name : String) (v : Json) (fields : List (String × Option Json)) :
    present ((name, some v) :: fields) = (name, v) :: present fields := rfl

theorem idxOf?_append {names : List String} {name : String} (hname : name ∉ names) (rest : List String) :
    (names ++ name :: rest).idxOf? name = some names.length := by
  rw [List.idxOf?_eq_some_iff]
  refine ⟨by simp, by simp, fun j hj heq => hname ?_⟩
  rw [List.getElem_append_left hj] at heq
  rw [← heq]
  exact List.getElem_mem hj

/-- The fields that come are put in their places behind those that are there. -/
theorem sortFields?_present (done rest : List (String × Option Json)) (hnodup : ((done ++ rest).map Prod.fst).Nodup) :
    sortFields? ((done ++ rest).map Prod.fst) ((present rest).map fun m => (some m.1, m.2))
      (done.map Prod.snd ++ rest.map fun _ => none) = some ((done ++ rest).map Prod.snd) := by
  induction rest generalizing done with
  | nil => simp [present, sortFields?]
  | cons f rest ih =>
    have hsplit : done ++ f :: rest = done ++ [f] ++ rest := by rw [List.append_assoc, List.singleton_append]
    have hrest := ih (done ++ [f]) (hsplit ▸ hnodup)
    obtain ⟨name, value⟩ := f
    rw [← hsplit] at hrest
    rw [← hrest]
    cases value with
    | none => simp [present_none]
    | some v =>
      have hname : name ∉ done.map Prod.fst := by
        intro hmem
        rw [List.map_append, List.nodup_append] at hnodup
        exact hnodup.2.2 name hmem name (by simp) rfl
      have hplace : ((done ++ (name, some v) :: rest).map Prod.fst).idxOf? name = some done.length := by
        rw [List.map_append, List.map_cons, idxOf?_append hname, List.length_map]
      rw [present_some, List.map_cons, sortFields?, hplace]
      simp

/-- **A record is decoded to its fields**, those that were not written being absent. -/
theorem fields?_present (fields : List (String × Option Json)) (hnodup : (fields.map Prod.fst).Nodup) (least : Nat) :
    (ofMembers (present fields)).fields? (fields.map Prod.fst) least = some (fields.map Prod.snd) := by
  have h := sortFields?_present [] fields hnodup
  rw [List.nil_append, List.map_nil, List.nil_append] at h
  rw [ofMembers, fields?, List.map_map]
  exact h

theorem required_eq_some_iff {o : Option Json} {x : α} :
    required decode o = some x ↔ ∃ v, o = some v ∧ decode v = some x := by
  cases o <;> simp [required]

/-- **The members that a record takes**: each has a key, no field comes twice, and what belongs to no field is well
formed. -/
structure Sortable (names : List String) (ms : List (Json.Text × Json)) : Prop where
  keyed : ∀ m ∈ ms, m.1 ≠ none
  once : ms.Pairwise fun m m' => ∀ name ∈ names, m.1 = some name → m'.1 ≠ some name
  whole : ∀ m ∈ ms, (∀ name ∈ names, m.1 ≠ some name) → m.2.isWhole = true

variable {names : List String} {ms : List (Json.Text × Json)} {key : String} {v : Json} {fields : List (Option Json)}

theorem Sortable.nil : Sortable names [] := ⟨by simp, .nil, by simp⟩

theorem Sortable.cons_iff : Sortable names ((some key, v) :: ms) ↔ Sortable names ms ∧
    if key ∈ names then ∀ m ∈ ms, m.1 ≠ some key else v.isWhole = true := by
  constructor
  · rintro ⟨hkeyed, honce, hwhole⟩
    rw [List.forall_mem_cons] at hkeyed hwhole
    rw [List.pairwise_cons] at honce
    refine ⟨⟨hkeyed.2, honce.2, hwhole.2⟩, ?_⟩
    split
    · rename_i hkey
      exact fun m hm => honce.1 m hm key hkey rfl
    · rename_i hkey
      exact hwhole.1 fun name hname heq => hkey (Option.some.inj heq ▸ hname)
  · rintro ⟨⟨hkeyed, honce, hwhole⟩, hhead⟩
    refine ⟨List.forall_mem_cons.2 ⟨Option.some_ne_none key, hkeyed⟩,
      List.pairwise_cons.2 ⟨fun m hm name hname heq => ?_, honce⟩, List.forall_mem_cons.2 ⟨fun hnone => ?_, hwhole⟩⟩
    · cases heq
      rw [if_pos hname] at hhead
      exact hhead m hm
    · rwa [if_neg fun hkey => hnone key hkey rfl] at hhead

theorem set_map_update (hnodup : names.Nodup) {i : Nat} (hi : names.idxOf? key = some i) (f : String → Option Json) :
    (names.map f).set i (some v) = names.map (Function.update f key (some v)) := by
  obtain ⟨hlt, hkey, -⟩ := List.idxOf?_eq_some_iff.1 hi
  refine List.ext_getElem (by simp) fun j hj hj' => ?_
  rw [List.length_map] at hj'
  rw [List.getElem_set, List.getElem_map, List.getElem_map]
  by_cases hij : i = j
  · subst hij
    rw [if_pos rfl, hkey, Function.update_self]
  · have hne : names[j] ≠ key := fun heq => hij ((hnodup.getElem_inj_iff).1 (hkey.trans heq.symm))
    rw [if_neg hij, Function.update_of_ne hne]

theorem lookup_cons_or (hnew : ∀ m ∈ ms, m.1 ≠ some key) (f : String → Option Json) :
    (names.map fun name => (ms.lookup (some name)).or (Function.update f key (some v) name)) =
      names.map fun name => (((some key, v) :: ms).lookup (some name)).or (f name) := by
  refine List.map_congr_left fun name _ => ?_
  rw [List.lookup_cons]
  by_cases hname : name = key
  · have hnone : ms.lookup (some key) = none := List.lookup_eq_none_iff.2 fun m hm => bne_iff_ne.2 (hnew m hm).symm
    rw [hname, hnone, Function.update_self, beq_self_eq_true]
    rfl
  · have hne : (some name == some key) = false := beq_eq_false_iff_ne.2 fun heq => hname (Option.some.inj heq)
    rw [hne, Function.update_of_ne hname]

/-- **Members are sorted into the fields they are for**, if a record takes them and no field has been found before. -/
theorem sortFields?_eq_some_iff (hnodup : names.Nodup) (f : String → Option Json) :
    sortFields? names ms (names.map f) = some fields ↔ Sortable names ms ∧
      (∀ m ∈ ms, ∀ name ∈ names, m.1 = some name → f name = none) ∧
      fields = names.map fun name => (ms.lookup (some name)).or (f name) := by
  induction ms generalizing f with
  | nil =>
    simp [sortFields?, Sortable.nil, eq_comm]
  | cons m ms ih =>
    obtain ⟨text, v⟩ := m
    cases text with
    | none => exact iff_of_false (by simp [sortFields?]) fun h => h.1.keyed _ List.mem_cons_self rfl
    | some key =>
      rw [Sortable.cons_iff, List.forall_mem_cons]
      by_cases hkey : key ∈ names
      · obtain ⟨i, hi⟩ := Option.ne_none_iff_exists'.1 fun hnone => List.idxOf?_eq_none_iff.1 hnone hkey
        have hat : (names.map f)[i]? = some (f key) := by
          obtain ⟨hlt, hname, -⟩ := List.idxOf?_eq_some_iff.1 hi
          rw [List.getElem?_map, List.getElem?_eq_getElem hlt, hname, Option.map_some]
        rw [sortFields?, hi]
        dsimp only
        rw [hat, if_pos hkey]
        cases hf : f key with
        | some w =>
          refine iff_of_false (by simp) fun h => ?_
          cases hf.symm.trans (h.2.1.1 key hkey rfl)
        | none =>
          dsimp only
          rw [set_map_update hnodup hi, ih]
          constructor
          · rintro ⟨hsort, hfree, rfl⟩
            have hnew : ∀ m ∈ ms, m.1 ≠ some key := fun m hm heq => by
              have hupdate := hfree m hm key hkey heq
              rw [Function.update_self] at hupdate
              cases hupdate
            refine ⟨⟨hsort, hnew⟩, ⟨fun name _ heq => ?_, fun m hm name hname heq => ?_⟩, ?_⟩
            · cases heq
              exact hf
            · have hne : name ≠ key := fun h => hnew m hm (heq.trans (congrArg some h))
              have hupdate := hfree m hm name hname heq
              rwa [Function.update_of_ne hne] at hupdate
            · exact lookup_cons_or hnew f
          · rintro ⟨⟨hsort, hnew⟩, ⟨-, hfree⟩, rfl⟩
            refine ⟨hsort, fun m hm name hname heq => ?_, ?_⟩
            · have hne : name ≠ key := fun h => hnew m hm (heq.trans (congrArg some h))
              rw [Function.update_of_ne hne]
              exact hfree m hm name hname heq
            · exact (lookup_cons_or hnew f).symm
      · have hnone : names.idxOf? key = none := List.idxOf?_eq_none_iff.2 hkey
        have hother : ∀ name ∈ names, (some name == some key) = false := fun name hname =>
          beq_eq_false_iff_ne.2 fun heq => hkey (Option.some.inj heq ▸ hname)
        have hfields : (names.map fun name => (((some key, v) :: ms).lookup (some name)).or (f name)) =
            names.map fun name => (ms.lookup (some name)).or (f name) :=
          List.map_congr_left fun name hname => by rw [List.lookup_cons, hother name hname]
        have hhead : ∀ name ∈ names, (some key, v).1 = some name → f name = none := fun name hname heq =>
          absurd (Option.some.inj heq ▸ hname) hkey
        rw [sortFields?, hnone, if_neg hkey, hfields]
        dsimp only
        split
        · rename_i hwhole
          rw [ih]
          simp only [hwhole, and_true]
          exact ⟨fun ⟨hsort, hfree, heq⟩ => ⟨hsort, ⟨hhead, hfree⟩, heq⟩,
            fun ⟨hsort, ⟨_, hfree⟩, heq⟩ => ⟨hsort, hfree, heq⟩⟩
        · rename_i hwhole
          exact iff_of_false (by simp) fun h => hwhole h.1.2

/-- **An object is decoded to the members that its fields name**, if a record takes its members. -/
theorem fields?_object_iff (hnodup : names.Nodup) {least : Nat} : (object ms).fields? names least = some fields ↔
    Sortable names ms ∧ fields = names.map fun name => ms.lookup (some name) := by
  rw [fields?, sortFields?_eq_some_iff hnodup fun _ => none]
  simp

theorem fields?_array_iff {vs : List Json} : (array vs).fields? names names.length = some fields ↔
    vs.length = names.length ∧ fields = vs.map some := by
  rw [fields?]
  by_cases hlen : vs.length = names.length
  · simp [hlen, eq_comm]
  · rw [if_neg (by omega)]
    exact iff_of_false (by simp) fun h => hlen h.1

end Json
end MatrixPlan

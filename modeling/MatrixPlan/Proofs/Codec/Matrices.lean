import MatrixPlan.Proofs.Codec.Values
import MatrixPlan.Proofs.Matrix.Canonical
/-!
# Matrices — a dense matrix has the cells that its extents ask for

A matrix is made of a list of values, of a column, or from a JSON text of its own or of a reply around it.  Each way
compares the number of values with the extents (`Checks`).  The product that it compares with saturates, and is the exact
one for every list that fits in memory.  So the cells of a matrix can be asked for one by one, row by row or all in a list,
whatever its extents are, and are the same (`Consistent`).
-/
namespace MatrixPlan

open Json (Sortable)

/-- **A way to a matrix checks the number of its values**: as many as the extents ask for become the cells of the matrix,
and any other number is refused. -/
structure Checks {ε α : Type} (rows cols : UInt64) (values : List Float) (accept : Dense → α)
    (reject : ValidationError → ε) (outcome : Except ε α) : Prop where
  accepts : values.length = rows.toNat * cols.toNat →
    ∃ m : Dense, m.rows = rows ∧ m.cols = cols ∧ m.values.toList = values ∧ outcome = .ok (accept m)
  rejects : values.length ≠ rows.toNat * cols.toNat →
    outcome = .error (reject (.denseValueCount rows cols (satMul rows cols) (UInt64.ofNat values.length)))

namespace Checks

variable {ε ε' α α' : Type} {rows cols : UInt64} {values : List Float} {accept : Dense → α}
  {reject : ValidationError → ε} {outcome : Except ε α}

theorem map (h : Checks rows cols values accept reject outcome) (f : α → α') :
    Checks rows cols values (fun m => f (accept m)) reject (outcome.map f) where
  accepts hlen := by
    obtain ⟨m, hr, hc, hvalues, rfl⟩ := h.accepts hlen
    exact ⟨m, hr, hc, hvalues, rfl⟩
  rejects hlen := by
    rw [h.rejects hlen]
    rfl

theorem mapError (h : Checks rows cols values accept reject outcome) (f : ε → ε') :
    Checks rows cols values accept (fun e => f (reject e)) (outcome.mapError f) where
  accepts hlen := by
    obtain ⟨m, hr, hc, hvalues, rfl⟩ := h.accepts hlen
    exact ⟨m, hr, hc, hvalues, rfl⟩
  rejects hlen := by
    rw [h.rejects hlen]
    rfl

end Checks

namespace Dense

/-- **The forms of a matrix in JSON**: an object with its three members, in any order and with others between them, or
an array of the three. -/
inductive Form (rows cols : UInt64) (values : List Float) : Json → Prop where
  | object {members : List (Json.Text × Json)} {r c vs : Json} (sortable : Sortable ["rows", "cols", "values"] members)
      (hr : members.lookup (some "rows") = some r) (hc : members.lookup (some "cols") = some c)
      (hvs : members.lookup (some "values") = some vs) (hrows : r.toCount? = some rows) (hcols : c.toCount? = some cols)
      (hvalues : vs.toList? Json.toFloat? = some values) : Form rows cols values (.object members)
  | array {r c vs : Json} (hrows : r.toCount? = some rows) (hcols : c.toCount? = some cols)
      (hvalues : vs.toList? Json.toFloat? = some values) : Form rows cols values (.array [r, c, vs])

/-- **The forms of a reply with a matrix**: a tagged value whose content is a matrix. -/
def ReplyForm (rows cols : UInt64) (values : List Float) (v : Json) : Prop :=
  ∃ tag content, v.tagged? "type" "value" = some ⟨tag, some content, true⟩ ∧ tag.choice? = some "matrix" ∧
    Form rows cols values content

/-- **The ways to look at a matrix agree.**  There are as many values as cells; a cell is there exactly if it is in range;
the word that numbers it is computed without overflow and numbers its value; the slices of the rows are the values in pieces,
and hold the cells of each row; and the non-zero cells are counted. -/
structure Consistent (m : Dense) : Prop where
  count : m.values.size = m.rows.toNat * m.cols.toNat
  get : ∀ r c, (m.get? r c).isSome = true ↔ r < m.rows.toNat ∧ c < m.cols.toNat
  index : ∀ r c : UInt64, r < m.rows → c < m.cols → (r * m.cols).toNat = r.toNat * m.cols.toNat ∧
    (r * m.cols + c).toNat = r.toNat * m.cols.toNat + c.toNat ∧
    m.get? r.toNat c.toNat = m.values[(r * m.cols + c).toNat]?
  flatten : m.rowSlices.flatten = m.values.toList
  slices : 1 ≤ m.cols → m.rowSlices.length = m.rows.toNat ∧ ∀ r c, m.rowSlices[r]?.bind (·[c]?) = m.get? r c
  nnz : m.nnz.toNat = ((Finset.range m.rows.toNat ×ˢ Finset.range m.cols.toNat).filter fun p =>
    (m.get? p.1 p.2).any isNonzero).card

variable {rows cols : UInt64} {values : List Float} {v : Json}

/-! ## Forms -/

theorem partsOfJson?_eq_some {fields : List (Option Json)} (hfields : v.fields? ["rows", "cols", "values"] 3 = some fields) :
    partsOfJson? v = some (rows, cols, values) ↔ ∃ r c vs, fields = [some r, some c, some vs] ∧
      r.toCount? = some rows ∧ c.toCount? = some cols ∧ vs.toList? Json.toFloat? = some values := by
  rw [partsOfJson?, hfields]
  constructor
  · intro h
    split at h
    · rename_i heq
      cases heq
      obtain ⟨_, hrows, h⟩ := Option.bind_eq_some_iff.1 h
      obtain ⟨_, hcols, h⟩ := Option.bind_eq_some_iff.1 h
      obtain ⟨_, hvalues, h⟩ := Option.bind_eq_some_iff.1 h
      cases h
      obtain ⟨r, rfl, hrows⟩ := Json.required_eq_some_iff.1 hrows
      obtain ⟨c, rfl, hcols⟩ := Json.required_eq_some_iff.1 hcols
      obtain ⟨vs, rfl, hvalues⟩ := Json.required_eq_some_iff.1 hvalues
      exact ⟨r, c, vs, rfl, hrows, hcols, hvalues⟩
    · cases h
  · rintro ⟨r, c, vs, rfl, hrows, hcols, hvalues⟩
    simp [Json.required, hrows, hcols, hvalues]

/-- **A matrix is read off its forms**, and off nothing else. -/
theorem partsOfJson?_eq_some_iff : partsOfJson? v = some (rows, cols, values) ↔ Form rows cols values v := by
  have hnodup : ["rows", "cols", "values"].Nodup := by decide
  constructor
  · intro h
    cases hfields : v.fields? ["rows", "cols", "values"] 3 with
    | none =>
      rw [partsOfJson?, hfields] at h
      cases h
    | some fields =>
      obtain ⟨r, c, vs, rfl, hrows, hcols, hvalues⟩ := (partsOfJson?_eq_some hfields).1 h
      cases v with
      | object members =>
        obtain ⟨hsort, heq⟩ := (Json.fields?_object_iff hnodup).1 hfields
        simp only [List.map_cons, List.map_nil, List.cons.injEq, and_true] at heq
        exact .object hsort heq.1.symm heq.2.1.symm heq.2.2.symm hrows hcols hvalues
      | array items =>
        obtain ⟨-, heq⟩ := Json.fields?_array_iff.1 hfields
        obtain rfl : items = [r, c, vs] := List.map_injective_iff.2 (Option.some_injective Json) heq.symm
        exact .array hrows hcols hvalues
      | _ => cases hfields
  · rintro (⟨hsort, hr, hc, hvs, hrows, hcols, hvalues⟩ | ⟨hrows, hcols, hvalues⟩)
    · refine (partsOfJson?_eq_some ((Json.fields?_object_iff hnodup).2 ⟨hsort, ?_⟩)).2
        ⟨_, _, _, rfl, hrows, hcols, hvalues⟩
      rw [List.map_cons, List.map_cons, List.map_cons, List.map_nil, hr, hc, hvs]
    · exact (partsOfJson?_eq_some rfl).2 ⟨_, _, _, rfl, hrows, hcols, hvalues⟩

/-! ## Ways to a matrix -/

theorem checks_ofValues (h : values.length < 2 ^ 63) :
    Checks rows cols values id id (ofValues rows cols values.toArray) := by
  have hcount : values.length = (satMul rows cols).toNat ↔ values.length = rows.toNat * cols.toNat := by
    rw [toNat_satMul, maxCount]
    omega
  constructor
  · intro hlen
    have hfits : values.toArray.size = (satMul rows cols).toNat ∧ values.toArray.size < 2 ^ 63 := ⟨hcount.2 hlen, h⟩
    exact ⟨⟨rows, cols, values.toArray, hfits.1, hfits.2⟩, rfl, rfl, rfl, dif_pos hfits⟩
  · intro hlen
    exact dif_neg fun hfits => hlen (hcount.1 hfits.1)

/-- A column has as many rows as values, whatever their number. -/
theorem column_ok (h : values.length < 2 ^ 63) : ∃ m, column values.toArray = .ok m ∧
    m.rows.toNat = values.length ∧ m.cols = 1 ∧ m.values.toList = values := by
  have hrows : (UInt64.ofNat values.length).toNat = values.length :=
    UInt64.toNat_ofNat_of_lt' (by simp only [UInt64.size]; omega)
  have hcheck : Checks (UInt64.ofNat values.length) 1 values id id (column values.toArray) := checks_ofValues h
  obtain ⟨m, hr, hc, hvalues, hm⟩ := hcheck.accepts (by rw [hrows]; exact (Nat.mul_one _).symm)
  exact ⟨m, hm, by rw [hr, hrows], hc, hvalues⟩

theorem values_of_ofValues {m : Dense} (h : ofValues rows cols values.toArray = .ok m) :
    m.rows = rows ∧ m.cols = cols ∧ m.values.toList = values := by
  unfold ofValues at h
  split at h
  · cases h
    exact ⟨rfl, rfl, rfl⟩
  · cases h

theorem checks_ofJson (hform : Form rows cols values v) (h : values.length < 2 ^ 63) :
    Checks rows cols values id .dense (ofJson v) := by
  rw [ofJson, partsOfJson?_eq_some_iff.2 hform]
  exact (checks_ofValues h).mapError DecodeError.dense

/-- A matrix that is decoded was in one of the forms. -/
theorem form_of_ofJson {m : Dense} (h : ofJson v = .ok m) : Form m.rows m.cols m.values.toList v := by
  unfold ofJson at h
  split at h
  · rename_i rows cols values hparts
    have hm : ofValues rows cols values.toArray = .ok m := by
      cases hvalues : ofValues rows cols values.toArray with
      | error e =>
        rw [hvalues] at h
        cases h
      | ok m' =>
        rw [hvalues] at h
        cases h
        rfl
    obtain ⟨hr, hc, hvs⟩ := values_of_ofValues hm
    rw [hr, hc, hvs]
    exact partsOfJson?_eq_some_iff.1 hparts
  · cases h

theorem reply_of_tagged {t : Json.Tagged} {kind : String} (htagged : v.tagged? "type" "value" = some t)
    (hkind : t.tag.choice? = some kind) : EngineValue.ofJson v =
      (EngineValue.ofContent kind t.content).bind fun value => if t.restFits then .ok value else .error .malformed := by
  rw [EngineValue.ofJson, htagged]
  change (wellFormed t.tag.choice?).bind _ = _
  rw [hkind]
  rfl

theorem checks_reply (hform : ReplyForm rows cols values v) (h : values.length < 2 ^ 63) :
    Checks rows cols values .matrix .dense (EngineValue.ofJson v) := by
  obtain ⟨tag, content, htagged, hkind, hform⟩ := hform
  have hreply : EngineValue.ofJson v = (ofJson content).map .matrix := by
    rw [reply_of_tagged htagged hkind]
    change ((ofJson content).map EngineValue.matrix).bind _ = _
    cases ofJson content <;> rfl
  rw [hreply]
  exact (checks_ofJson hform h).map EngineValue.matrix

theorem matrix_of_content {kind : String} {content : Option Json} {m : Dense}
    (h : EngineValue.ofContent kind content = .ok (.matrix m)) :
    kind = "matrix" ∧ ∃ inner, content = some inner ∧ ofJson inner = .ok m := by
  unfold EngineValue.ofContent at h
  split at h
  · rename_i inner
    cases hx : inner.toFloat? <;> rw [hx] at h <;> cases h
  · rename_i inner
    refine ⟨rfl, inner, rfl, ?_⟩
    cases hm : ofJson inner with
    | error e =>
      rw [hm] at h
      cases h
    | ok m' =>
      rw [hm] at h
      cases h
      rfl
  all_goals cases h

/-- A matrix in a reply that is decoded was in one of the forms. -/
theorem form_of_reply {m : Dense} (h : EngineValue.ofJson v = .ok (.matrix m)) :
    ReplyForm m.rows m.cols m.values.toList v := by
  cases htagged : v.tagged? "type" "value" with
  | none =>
    rw [EngineValue.ofJson, htagged] at h
    cases h
  | some t =>
    cases hkind : t.tag.choice? with
    | none =>
      rw [EngineValue.ofJson, htagged] at h
      change (wellFormed t.tag.choice?).bind _ = _ at h
      rw [hkind] at h
      cases h
    | some kind =>
      obtain ⟨tag, content, restFits⟩ := t
      rw [reply_of_tagged htagged hkind] at h
      cases hcontent : EngineValue.ofContent kind content with
      | error e =>
        rw [hcontent] at h
        cases h
      | ok value =>
        rw [hcontent] at h
        cases restFits <;> cases h
        obtain ⟨rfl, inner, rfl, hm⟩ := matrix_of_content hcontent
        exact ⟨tag, inner, htagged, hkind, form_of_ofJson hm⟩

/-! ## Ways to look at a matrix -/

/-- The cells in range are numbered below the number of values. -/
theorem index_lt (m : Dense) {r c : Nat} (hr : r < m.rows.toNat) (hc : c < m.cols.toNat) :
    r * m.cols.toNat + c < m.values.size := calc
  r * m.cols.toNat + c < (r + 1) * m.cols.toNat := by rw [Nat.succ_mul]; omega
  _ ≤ m.rows.toNat * m.cols.toNat := Nat.mul_le_mul_right _ hr
  _ = m.values.size := m.size_eq_mul.symm

theorem isSome_get?_iff (m : Dense) (r c : Nat) : (m.get? r c).isSome = true ↔ r < m.rows.toNat ∧ c < m.cols.toNat := by
  unfold get?
  split
  · rename_i h
    have hlt : r * m.cols.toNat + c < m.values.size := m.index_lt h.1 h.2
    simp [h, hlt]
  · rename_i h
    simp [h]

/-- **The word that numbers a cell is computed without overflow.** -/
theorem toNat_index (m : Dense) {r c : UInt64} (hr : r < m.rows) (hc : c < m.cols) :
    (r * m.cols).toNat = r.toNat * m.cols.toNat ∧
      (r * m.cols + c).toNat = r.toNat * m.cols.toNat + c.toNat := by
  have hlt : r.toNat * m.cols.toNat + c.toNat < m.values.size :=
    m.index_lt (UInt64.lt_iff_toNat_lt.1 hr) (UInt64.lt_iff_toNat_lt.1 hc)
  have hsize := m.size_lt
  have hrow : (r * m.cols).toNat = r.toNat * m.cols.toNat := by
    rw [UInt64.toNat_mul, Nat.mod_eq_of_lt (by omega)]
  refine ⟨hrow, ?_⟩
  rw [UInt64.toNat_add, hrow, Nat.mod_eq_of_lt (by omega)]

open BitMatrix in
theorem consistent (m : Dense) : m.Consistent where
  count := m.size_eq_mul
  get := m.isSome_get?_iff
  index r c hr hc := by
    obtain ⟨hrow, hindex⟩ := m.toNat_index hr hc
    refine ⟨hrow, hindex, ?_⟩
    rw [hindex, get?, if_pos ⟨UInt64.lt_iff_toNat_lt.1 hr, UInt64.lt_iff_toNat_lt.1 hc⟩]
  flatten := flatten_chunks _ _
  slices hcols := by
    rw [rowSlices_eq m hcols]
    refine ⟨by rw [List.length_map, List.length_range], fun r c => ?_⟩
    rw [List.getElem?_map]
    by_cases hr : r < m.rows.toNat
    · rw [List.getElem?_range hr, Option.map_some, Option.bind_some, getElem?_rowCells, get?]
      simp [hr]
    · rw [List.getElem?_eq_none (by simpa using hr), get?, if_neg fun h => hr h.1]
      rfl
  nnz := by
    have hnnz : m.nnz.toNat = (ofDense m).setCells.card := nnz_ofDense m
    rw [hnnz, setCells]
    exact congrArg _ (Finset.filter_congr fun p _ => by rw [ofDense_get_eq, nonzeroAt])

/-- **A matrix has the cells that its extents ask for**, however it was made.  A list of values that fits in memory becomes
a matrix if it has as many values as the product of the extents, and is refused with both counts if not; a column has as
many rows as values.  It is the same for a text in one of the forms of a matrix or of a reply with one, and no other text is
read as a matrix.  The cells of a matrix in range, the slices of its rows, its list of values and the count of those that
are not zero agree, and the word that numbers a cell does not overflow. -/
theorem cells_as_asked :
    (∀ rows cols values, values.length < 2 ^ 63 → Checks rows cols values id id (ofValues rows cols values.toArray)) ∧
    (∀ values : List Float, values.length < 2 ^ 63 → ∃ m, column values.toArray = .ok m ∧
      m.rows.toNat = values.length ∧ m.cols = 1 ∧ m.values.toList = values) ∧
    (∀ text v, Json.read text = ⟨v, true⟩ → ∀ rows cols values, values.length < 2 ^ 63 →
      (Form rows cols values v → Checks rows cols values id .dense (decodeText ofJson text)) ∧
      (ReplyForm rows cols values v → Checks rows cols values .matrix .dense (decodeText EngineValue.ofJson text))) ∧
    (∀ text m,
      (decodeText ofJson text = .ok m → ∃ v, Json.read text = ⟨v, true⟩ ∧ Form m.rows m.cols m.values.toList v) ∧
      (decodeText EngineValue.ofJson text = .ok (.matrix m) →
        ∃ v, Json.read text = ⟨v, true⟩ ∧ ReplyForm m.rows m.cols m.values.toList v)) ∧
    ∀ m : Dense, m.Consistent := by
  refine ⟨fun rows cols values h => checks_ofValues h, fun values h => column_ok h,
    fun text v hread rows cols values h => ⟨fun hform => ?_, fun hform => ?_⟩,
    fun text m => ⟨fun hm => ?_, fun hm => ?_⟩, consistent⟩
  · rw [decodeText_whole hread]
    exact checks_ofJson hform h
  · rw [decodeText_whole hread]
    exact checks_reply hform h
  · obtain ⟨v, hread, hv⟩ := whole_of_decodeText hm
    exact ⟨v, hread, form_of_ofJson hv⟩
  · obtain ⟨v, hread, hv⟩ := whole_of_decodeText hm
    exact ⟨v, hread, form_of_reply hv⟩

/-- A matrix of two columns whose members are in another order, with one more between them. -/
def shuffled (rows : UInt64) : Json :=
  .ofMembers [("cols", .ofCount 2), ("note", .null), ("values", .array [.ofFloat (-0.0), .ofFloat 0.1]),
    ("rows", .ofCount rows)]

/-- A reply with its members in another order too. -/
def shuffledReply (rows : UInt64) : Json := .ofMembers [("value", shuffled rows), ("type", .ofString "matrix")]

theorem cells_as_asked_shuffled :
    ReplyForm 1 2 [-0.0, 0.1] (shuffledReply 1) ∧ ReplyForm 2 2 [-0.0, 0.1] (shuffledReply 2) ∧
    (∃ m : Dense, m.values.toList = [-0.0, 0.1] ∧
      decodeText EngineValue.ofJson (shuffledReply 1).toText = .ok (.matrix m)) ∧
    decodeText EngineValue.ofJson (shuffledReply 2).toText = .error (.dense (.denseValueCount 2 2 4 2)) ∧
    ofValues 0x100000000 0x100000000 #[] = .error (.denseValueCount 0x100000000 0x100000000 0xFFFFFFFFFFFFFFFF 0) ∧
    ∃ m : Dense, m.rows = 0xFFFFFFFFFFFFFFFF ∧ ofValues 0xFFFFFFFFFFFFFFFF 0 #[] = .ok m := by
  obtain ⟨hvalues, -, htext, -⟩ := cells_as_asked
  have hzero : Json.toFloat? (.ofFloat (-0.0)) = some (-0.0) := by
    have htext : Numeral.ofChars? (jsonLayout.chars (.ofFloat (-0.0))) = some ⟨true, ['0'], ['0'], 0⟩ := by decide +kernel
    exact Json.toFloat?_ofFloat (by decide +kernel) (Json.readsNearest_of_short htext (by decide) (by decide))
  have htenth : Json.toFloat? (.ofFloat 0.1) = some 0.1 := by
    have htext : Numeral.ofChars? (jsonLayout.chars (.ofFloat 0.1)) = some ⟨false, ['0'], ['1'], 0⟩ := by decide +kernel
    exact Json.toFloat?_ofFloat (by decide +kernel) (Json.readsNearest_of_short htext (by decide) (by decide))
  have hform (rows : UInt64) : Form rows 2 [-0.0, 0.1] (shuffled rows) := by
    refine .object ?_ rfl rfl rfl (Json.toCount?_ofCount rows) (Json.toCount?_ofCount 2) ?_
    · simp [Sortable.cons_iff, Sortable.nil, Json.isWhole]
    · simp [Json.toList?, hzero, htenth]
  have hreply (rows : UInt64) (hkeep : (shuffled rows).canSetAside = true) :
      ReplyForm rows 2 [-0.0, 0.1] (shuffledReply rows) := by
    refine ⟨.string (some "matrix"), shuffled rows, ?_, rfl, hform rows⟩
    change (if (shuffled rows).canSetAside = true then _ else _) = _
    rw [if_pos hkeep]
    rfl
  have hwritable (rows : UInt64) : (shuffledReply rows).Writable := by
    simp [shuffledReply, shuffled, Json.writable_ofMembers, Json.writable_ofCount, Json.writable_ofFloat, Json.ofString,
      Json.Writable, Json.ItemsWritable]
  have hread (rows : UInt64) : Json.read (shuffledReply rows).toText = ⟨shuffledReply rows, true⟩ :=
    Json.read_printed (hwritable rows) (.inl rfl)
  have hone := hreply 1 (by decide +kernel)
  have htwo := hreply 2 (by decide +kernel)
  obtain ⟨m, -, -, hm, hok⟩ := ((htext _ _ (hread 1) 1 2 _ (by decide)).2 hone).accepts rfl
  have hno := ((htext _ _ (hread 2) 2 2 _ (by decide)).2 htwo).rejects (by decide)
  obtain ⟨m', hrows, -, -, hok'⟩ := (hvalues 0xFFFFFFFFFFFFFFFF 0 [] (by decide)).accepts rfl
  exact ⟨hone, htwo, ⟨m, hm, hok⟩, hno, (hvalues 0x100000000 0x100000000 [] (by decide)).rejects (by decide), m', hrows,
    hok'⟩

end Dense
end MatrixPlan

import MatrixPlan.Proofs.Script.Correctness
import MatrixPlan.Proofs.Script.Postorder
import MatrixPlan.Proofs.Script.Programs
import MatrixPlan.Proofs.Workspace.Agreement
/-!
# Arguments — the counts that an engine is given

The extents of a matrix that is made or reshaped, and the seed of a random one, are passed as integer arguments.  An
engine's integers are signed, so no more than the largest of them is passed for any count, while the metadata has the
extents that were asked for.  Statements of random matrices are told apart by what is passed.
-/
namespace MatrixPlan

open Lowering (Emits variableName statement statementAt)

/-! ## Counts -/

def largestPassed : UInt64 := 9223372036854775807

/-- What is passed for a count. -/
def passed (n : UInt64) : UInt64 := min n largestPassed

theorem toNat_passed (n : UInt64) : (passed n).toNat = min n.toNat (2 ^ 63 - 1) := by
  have hlargest : largestPassed.toNat = 2 ^ 63 - 1 := rfl
  rw [passed, UInt64.min_def, ← hlargest]
  split
  · rename_i h
    exact (Nat.min_eq_left (UInt64.le_iff_toNat_le.1 h)).symm
  · rename_i h
    rw [UInt64.le_iff_toNat_le] at h
    exact (Nat.min_eq_right (Nat.le_of_not_le h)).symm

theorem passed_passed (n : UInt64) : passed (passed n) = passed n := by
  rw [← UInt64.toNat_inj, toNat_passed, toNat_passed]
  omega

theorem countText_injective : Function.Injective countText := fun n n' h => by
  have hdigits := congrArg String.toList h
  rw [toList_countText, toList_countText] at hdigits
  exact UInt64.toNat_inj.1 (numeral_injective hdigits)

/-- **A count reaches the engine as asked for exactly if it is not above the largest signed integer.** -/
theorem countText_passed_iff (n : UInt64) : countText (passed n) = countText n ↔ n ≤ largestPassed := by
  have hlargest : largestPassed.toNat = 2 ^ 63 - 1 := rfl
  rw [countText_injective.eq_iff, ← UInt64.toNat_inj, toNat_passed, UInt64.le_iff_toNat_le, hlargest]
  omega

theorem Literal.text_float (x : Float) : (float x).text = scriptFloat x := rfl

theorem Literal.text_ofCount (n : UInt64) : (ofCount n).text = countText (passed n) := by
  have hint : (Int64.ofNat (min n.toNat (2 ^ 63 - 1))).toInt = ((passed n).toNat : Int) := by
    rw [Int64.toInt_ofNat_of_lt (by omega), toNat_passed]
  rw [ofCount, text, hint]
  rfl

theorem Literal.passed_eq_of_ofCount {n n' : UInt64} (h : ofCount n = ofCount n') : passed n = passed n' :=
  countText_injective (by rw [← text_ofCount, h, text_ofCount])

/-! ## Right sides -/

def extentsText (rows cols : UInt64) : String :=
  "rows=" ++ countText (passed rows) ++ ", cols=" ++ countText (passed cols)

def filledText (value : String) (rows cols : UInt64) : String :=
  "matrix(" ++ value ++ ", " ++ extentsText rows cols ++ ")"

def RandSpec.text (r : RandSpec) : String :=
  "rand(" ++ extentsText r.rows r.cols ++ ", min=" ++ scriptFloat r.min ++ ", max=" ++ scriptFloat r.max ++
    ", sparsity=" ++ scriptFloat r.sparsity ++ (r.seed.elim "" fun s => ", seed=" ++ countText (passed s)) ++ ")"

/-- A random matrix with the counts that are passed. -/
def RandSpec.passed (r : RandSpec) : RandSpec :=
  { r with rows := MatrixPlan.passed r.rows, cols := MatrixPlan.passed r.cols, seed := r.seed.map MatrixPlan.passed }

theorem Source.expression_full (rows cols : UInt64) (value : Float) (nameOf : Nat → String) :
    (Source.full rows cols value).spec.expression nameOf = filledText (scriptFloat value) rows cols := by
  refine String.toList_injective ?_
  simp [spec, NodeSpec.expression, count, float, Input.text, Literal.text_ofCount, Literal.text_float, filledText,
    extentsText]

theorem Source.expression_rand (r : RandSpec) (nameOf : Nat → String) :
    (Source.rand r).spec.expression nameOf = r.text := by
  refine String.toList_injective ?_
  obtain ⟨rows, cols, min, max, sparsity, _ | seed⟩ := r <;>
    simp [spec, NodeSpec.expression, count, float, Input.text, Literal.text_ofCount, Literal.text_float, RandSpec.text,
      extentsText]

theorem Application.expression_reshape (g : Graph) (case : Estimator) (a : Nat) (rows cols : UInt64)
    (nameOf : Nat → String) :
    ((Application.reshape a rows cols).spec g case).expression nameOf = filledText (nameOf a) rows cols := by
  refine String.toList_injective ?_
  simp [spec, callSpec, NodeSpec.expression, Input.text, Literal.text_ofCount, filledText, extentsText]

theorem RandSpec.passed_eq_of_spec {r r' : RandSpec} (h : (Source.rand r).spec.named = (Source.rand r').spec.named) :
    r.passed = r'.passed := by
  obtain ⟨rows, cols, min, max, sparsity, seed⟩ := r
  obtain ⟨rows', cols', min', max', sparsity', seed'⟩ := r'
  simp only [Source.spec, Source.count, Source.float, List.cons_append, List.nil_append, List.cons.injEq, Prod.mk.injEq,
    Input.literal.injEq, Literal.float.injEq, true_and] at h
  obtain ⟨hrows, hcols, rfl, rfl, rfl, hseed⟩ := h
  have hseed : seed.map MatrixPlan.passed = seed'.map MatrixPlan.passed := by
    cases seed with
    | none => cases seed' with
      | none => rfl
      | some s' => cases hseed
    | some s => cases seed' with
      | none => cases hseed
      | some s' =>
        have hcount : Literal.ofCount s = Literal.ofCount s' := by simpa using hseed
        exact congrArg some (Literal.passed_eq_of_ofCount hcount)
  rw [passed, passed, Literal.passed_eq_of_ofCount hrows, Literal.passed_eq_of_ofCount hcols, hseed]

/-- **A random matrix is told by its right side**, up to what is passed, whatever follows the semicolon. -/
theorem RandSpec.text_cut {r r' : RandSpec} {rest rest' : List Char}
    (h : r.text.toList ++ ';' :: rest = r'.text.toList ++ ';' :: rest') : r.passed = r'.passed ∧ rest = rest' := by
  rw [← Source.expression_rand r variableName, ← Source.expression_rand r' variableName] at h
  obtain ⟨hbare, hrest⟩ := NodeSpec.expression_cut (Source.spelled _) (Source.spelled _) h
  exact ⟨passed_eq_of_spec (congrArg NodeSpec.named hbare :), hrest⟩

theorem RandSpec.text_passed (r : RandSpec) : r.passed.text = r.text := by
  obtain ⟨rows, cols, min, max, sparsity, _ | seed⟩ := r <;>
    simp [text, passed, extentsText, passed_passed]

/-- **Statements of random matrices are equal exactly if the same is passed**, to one variable. -/
theorem RandSpec.statement_eq_iff {r r' : RandSpec} {k k' : Nat} :
    statement (variableName k) r.text = statement (variableName k') r'.text ↔ k = k' ∧ r.passed = r'.passed := by
  constructor
  · intro h
    have hchars := congrArg String.toList h
    rw [toList_statement, toList_statement, toList_variableName, toList_variableName] at hchars
    obtain ⟨hname, hright⟩ := Text.cut_at (fun c hc => isDigit_of_mem_numeral hc)
      (fun c hc => isDigit_of_mem_numeral hc) (by rfl) (List.cons.inj hchars).2
    have hright : r.text.toList ++ [';'] = r'.text.toList ++ [';'] := by simpa using hright
    exact ⟨numeral_injective hname, (text_cut hright).1⟩
  · rintro ⟨rfl, h⟩
    rw [← r.text_passed, h, r'.text_passed]

/-! ## Statements -/

/-- **What a script says of a node `n` with the place `k` in it and the extents `rows` and `cols`**: its statement has the
right side `expression`, and its metadata the extents. -/
structure StatedAs (s : Script) (k : Nat) (n : Node) (expression : String) (rows cols : UInt64) : Prop where
  statement : s.statements[k]? = some (statement (variableName k) expression)
  rows : n.metadata.rows = some rows
  cols : n.metadata.cols = some cols

namespace Workspace

variable {w : Workspace} {held : Multiset Nat} {permit : Workspace → Nat → NodeSpec → Prop}

/-- **Counts reach the engine as far as its integers do.**  Of the extents and the seed that are asked for, a statement
has what is passed, which is the count itself up to the largest signed integer; the metadata has the extents.  The
statements of random matrices differ whenever what is passed differs. -/
theorem Reachable.states_counts (h : Reachable permit w held) (hfew : ∀ c, w.graph.builtIn c ≤ 2 ^ 64) {root : Nat}
    {top : Node} (hroot : w.node? root = some top) (stamp : Stamp) :
    (∃ order, Emits w.graph root order ∧ ∀ k r n, order[k]? = some r → w.node? r = some n →
      (∀ rows cols value, n.toNodeSpec = (Source.full rows cols value).spec →
        StatedAs (w.script stamp root) k n (filledText (scriptFloat value) rows cols) rows cols) ∧
      (∀ rand, n.toNodeSpec = (Source.rand rand).spec →
        StatedAs (w.script stamp root) k n rand.text rand.rows rand.cols) ∧
      ∀ g case a rows cols, n.toNodeSpec = (Application.reshape a rows cols).spec g case →
        ∃ j < k, order[j]? = some a ∧
          StatedAs (w.script stamp root) k n (filledText (variableName j) rows cols) rows cols) ∧
      (∀ count, countText (passed count) = countText count ↔ count ≤ largestPassed) ∧
      ∀ (r r' : RandSpec) (k k' : Nat),
        statement (variableName k) r.text = statement (variableName k') r'.text ↔ k = k' ∧ r.passed = r'.passed := by
  obtain ⟨order, hs, he⟩ := Lowering.ofRoot_sound (h.sound.numbered.distinctNames hfew) (Graph.lt_of_node? hroot)
  have hstatements : (w.script stamp root).statements = order.mapIdx (statementAt w.graph order) := hs.statements
  refine ⟨⟨order, he, fun k r n hk hn => ?_⟩, countText_passed_iff, fun r r' k k' => RandSpec.statement_eq_iff⟩
  have hstatement : (w.script stamp root).statements[k]? =
      some (statement (variableName k) (n.expression fun i => variableName (order.idxOf i))) := by
    have hn : w.graph.node? r = some n := hn
    rw [hstatements, List.getElem?_mapIdx, hk, Option.map_some, statementAt, hn, Option.elim_some]
  refine ⟨fun rows cols value hspec => ?_, fun rand hspec => ?_, fun g case a rows cols hspec => ?_⟩
  · rw [hspec, Source.expression_full] at hstatement
    exact ⟨hstatement, by rw [hspec]; rfl, by rw [hspec]; rfl⟩
  · rw [hspec, Source.expression_rand] at hstatement
    exact ⟨hstatement, by rw [hspec]; rfl, by rw [hspec]; rfl⟩
  · have hinput : a ∈ w.graph.inputs r := by
      rw [Graph.inputs_of_node? hn, hspec]
      exact List.mem_singleton_self a
    obtain ⟨j, hj, hja⟩ := he.inputs k r hk a hinput
    have hplace : order.idxOf a = j := by
      obtain ⟨hlt, hget⟩ := List.getElem?_eq_some_iff.1 hja
      rw [← hget, he.nodup.idxOf_getElem j hlt]
    obtain ⟨m, hmeta⟩ : ∃ m, n.metadata = case.reshapeTo m rows cols := ⟨_, by rw [hspec]; rfl⟩
    obtain ⟨hrows, hcols⟩ := case.shape_reshapeTo m rows cols
    rw [hspec, Application.expression_reshape, hplace] at hstatement
    exact ⟨j, hj, hja, hstatement, by rw [hmeta, hrows], by rw [hmeta, hcols]⟩

/-- Two rows and three columns with a seed, reshaped to three rows. -/
def reseated : Workspace :=
  let w : Workspace := (({} : Workspace).addContext ⟨Uuid.ofNat 0⟩ 0 {}).2
  let w := (w.addSource 0 (.rand { rows := 2, cols := 3, seed := some 7 })).2
  (w.apply (.reshape 0 3 2)).2

theorem reachable_reseated : ∃ held, Reachable offered reseated held := by
  have h : Reachable offered _ _ := .single (.context _ _ ⟨Uuid.ofNat 0⟩ 0 {})
  have h := h.addSource (c := 0) (by decide) (.rand { rows := 2, cols := 3, seed := some 7 })
  exact ⟨_, h.apply (a := .reshape 0 3 2) (by decide)⟩

/-- Small counts are stated as they are, those of the reshaped matrix with the variable of the random one. -/
theorem states_counts_reseated : (∃ held, Reachable offered reseated held) ∧ ∀ stamp, ∃ j k, j < k ∧
    (reseated.script stamp 1).statements[j]? = some (statement (variableName j)
      "rand(rows=2, cols=3, min=0.0, max=1.0, sparsity=1.0, seed=7)") ∧
    (reseated.script stamp 1).statements[k]? = some (statement (variableName k)
      ("matrix(" ++ variableName j ++ ", rows=3, cols=2)")) := by
  obtain ⟨held, h⟩ := reachable_reseated
  refine ⟨⟨held, h⟩, fun stamp => ?_⟩
  have hfew : ∀ c, reseated.graph.builtIn c ≤ 2 ^ 64 := fun c => (reseated.graph.builtIn_le_size c).trans (by decide)
  have h0 : reseated.node? 0 = some reseated.graph.nodes[0] := rfl
  have h1 : reseated.node? 1 = some reseated.graph.nodes[1] := rfl
  obtain ⟨⟨order, he, hstated⟩, -⟩ := h.states_counts hfew h1 stamp
  obtain ⟨k, hk⟩ := List.getElem?_of_mem ((he.mem_iff 1).2 (.refl _ 1))
  obtain ⟨-, -, hreshape⟩ := hstated k 1 _ hk h1
  obtain ⟨j, hjk, hj, hsecond⟩ := hreshape _ _ 0 3 2 rfl
  obtain ⟨-, hrand, -⟩ := hstated j 0 _ hj h0
  refine ⟨j, k, hjk, ?_, ?_⟩
  · rw [(hrand { rows := 2, cols := 3, seed := some 7 } rfl).statement]
    exact congrArg (fun text => some (statement (variableName j) text)) (by decide +kernel)
  · have hextents : extentsText 3 2 = "rows=3, cols=2" := by decide
    rw [hsecond.statement, filledText, hextents, String.append_assoc, String.append_assoc]
    rfl

/-- A random column of two rows. -/
def seeded (seed : UInt64) : RandSpec := { rows := 2, cols := 1, seed := some seed }

/-- Random columns with the largest seed that is passed and with the next one. -/
def twins : Workspace :=
  let w : Workspace := (({} : Workspace).addContext ⟨Uuid.ofNat 0⟩ 0 {}).2
  let w := (w.addSource 0 (.rand (seeded 9223372036854775807))).2
  (w.addSource 0 (.rand (seeded 9223372036854775808))).2

theorem reachable_twins : ∃ held, Reachable offered twins held := by
  have h : Reachable offered _ _ := .single (.context _ _ ⟨Uuid.ofNat 0⟩ 0 {})
  have h := h.addSource (c := 0) (by decide) (.rand (seeded 9223372036854775807))
  exact ⟨_, h.addSource (c := 0) (by decide) (.rand (seeded 9223372036854775808))⟩

/-- **Two seeds have one statement.** -/
theorem seeds_share_statement : (∃ held, Reachable offered twins held) ∧
    (seeded 9223372036854775807).seed ≠ (seeded 9223372036854775808).seed ∧
    (∃ n, twins.node? 0 = some n ∧ n.toNodeSpec = (Source.rand (seeded 9223372036854775807)).spec) ∧
    (∃ n, twins.node? 1 = some n ∧ n.toNodeSpec = (Source.rand (seeded 9223372036854775808)).spec) ∧ ∀ stamp,
    (twins.script stamp 0).statements =
      ["V0 = rand(rows=2, cols=1, min=0.0, max=1.0, sparsity=1.0, seed=9223372036854775807);"] ∧
    (twins.script stamp 1).statements =
      ["V0 = rand(rows=2, cols=1, min=0.0, max=1.0, sparsity=1.0, seed=9223372036854775807);"] := by
  obtain ⟨held, h⟩ := reachable_twins
  have hd : twins.graph.DistinctNames :=
    h.sound.numbered.distinctNames fun c => (twins.graph.builtIn_le_size c).trans (by decide)
  refine ⟨⟨held, h⟩, by decide, ⟨_, rfl, rfl⟩, ⟨_, rfl, rfl⟩, fun stamp => ⟨?_, ?_⟩⟩
  · exact (Lowering.statements_leaf hd (by decide) (by decide) stamp _).trans (by decide +kernel)
  · exact (Lowering.statements_leaf hd (by decide) (by decide) stamp _).trans (by decide +kernel)

end Workspace
end MatrixPlan

import MatrixPlan.Proofs.Script.Expressions
import MatrixPlan.Proofs.Script.Structure
/-!
# Programs — the text of a script tells its statements

Statements are told apart one after another (`program_cut`): a variable starts each of them as it does the output, but only
a statement goes on after it.  Inputs being called by the places of their statements, a list of statements is one of nodes
whose inputs are renamed (`NodeSpec.renamed`).
-/
namespace MatrixPlan

open Lowering (variableName statement statementAt)

/-! ## Sources and applications are spelled -/

/-- A call is spelled if its operation and the names of its arguments are words. -/
theorem NodeSpec.spelled_call (operation : String) (names : List String) {output : OutputType} {unnamed : List Input}
    {named : List (String × Input)} {metadata : Metadata} (hword : IsWord Char.isLower operation)
    (hresult : output = if operation ∈ ["sum", "auc"] then .scalar else .matrix)
    (hnamed : named.map Prod.fst = names) (hnames : ∀ name ∈ names, IsWord Char.isAlpha name) :
    Spelled ⟨operation, .call, output, unnamed, named, metadata⟩ :=
  .call hword (fun p hp => hnames p.1 (hnamed ▸ List.mem_map_of_mem hp)) hresult

theorem Source.spelled (s : Source) : s.spec.Spelled := by
  cases s with
  | read => exact NodeSpec.spelled_call "read" [] (by decide) rfl rfl (by decide)
  | full => exact NodeSpec.spelled_call "matrix" ["rows", "cols"] (by decide) rfl rfl (by decide)
  | dense => exact .dense
  | rand r =>
    obtain ⟨rows, cols, min, max, sparsity, _ | seed⟩ := r
    · exact NodeSpec.spelled_call "rand" ["rows", "cols", "min", "max", "sparsity"] (by decide) rfl rfl (by decide)
    · exact NodeSpec.spelled_call "rand" ["rows", "cols", "min", "max", "sparsity", "seed"] (by decide) rfl rfl (by decide)
  | seq => exact NodeSpec.spelled_call "seq" [] (by decide) rfl rfl (by decide)
  | scalar => exact .constant

theorem Application.spelled (g : Graph) (case : Estimator) (a : Application Nat) : (a.spec g case).Spelled := by
  cases a with
  | matmul | mul | add | eqZero | neqZero => exact .operator (by decide)
  | cbind => exact NodeSpec.spelled_call "cbind" [] (by decide) rfl rfl (by decide)
  | rbind => exact NodeSpec.spelled_call "rbind" [] (by decide) rfl rfl (by decide)
  | transpose => exact NodeSpec.spelled_call "t" [] (by decide) rfl rfl (by decide)
  | diag => exact NodeSpec.spelled_call "diag" [] (by decide) rfl rfl (by decide)
  | reshape => exact NodeSpec.spelled_call "matrix" ["rows", "cols"] (by decide) rfl rfl (by decide)
  | sum => exact NodeSpec.spelled_call "sum" [] (by decide) rfl rfl (by decide)
  | auc => exact NodeSpec.spelled_call "auc" ["Y", "P"] (by decide) rfl rfl (by decide)

theorem Graph.MadeBy.spelled {g : Graph} {origin : Nat → Origin} (hm : g.MadeBy origin) {r : Nat} {n : Node}
    (hn : g.node? r = some n) : n.toNodeSpec.Spelled := by
  cases ho : origin r with
  | source s =>
    rw [hm.spec_source hn ho]
    exact s.spelled
  | application a =>
    obtain ⟨⟨case, hcase⟩, -⟩ := hm.spec_application hn ho
    rw [hcase]
    exact a.spelled g case

/-! ## Renamed inputs -/

namespace NodeSpec

/-- A node whose inputs are called as `f` says. -/
def renamed (f : Nat → Nat) (s : NodeSpec) : NodeSpec :=
  { s with unnamed := s.unnamed.map (Input.renamed f), named := s.named.map fun p => (p.1, p.2.renamed f) }

variable {s s' : NodeSpec} {f f' : Nat → Nat}

theorem mirrors_renamed (f : Nat → Nat) (s : NodeSpec) : s.Mirrors f (s.renamed f) := ⟨rfl, rfl, rfl, rfl⟩

theorem Spelled.renamed (hs : s.Spelled) : (s.renamed f).Spelled := by
  cases hs with
  | call word names result =>
    refine .call word (fun p hp => ?_) result
    obtain ⟨q, hq, rfl⟩ := List.mem_map.1 hp
    exact names q hq
  | dense => exact .dense
  | operator spaceless => exact .operator spaceless
  | constant => exact .constant

theorem renamed_renamed (s : NodeSpec) (f place : Nat → Nat) :
    (s.renamed f).renamed place = s.renamed fun i => place (f i) := by
  have hinput : ∀ i : Input, (i.renamed f).renamed place = i.renamed fun i => place (f i) := by
    intro i
    cases i <;> rfl
  simp only [renamed, List.map_map, Function.comp_def, hinput]

theorem renamed_eq_self (h : ∀ i ∈ s.inputNodes, f i = i) : s.renamed f = s := by
  have hinput : ∀ i ∈ s.inputs, i.renamed f = i := by
    intro i hi
    cases i with
    | node r => exact congrArg Input.node (h r (mem_inputNodes_of_mem hi))
    | literal value => rfl
  have hunnamed : s.unnamed.map (Input.renamed f) = s.unnamed :=
    (List.map_congr_left fun i hi => hinput i (List.mem_append_left _ hi)).trans (List.map_id _)
  have hnamed : (s.named.map fun p => (p.1, p.2.renamed f)) = s.named :=
    (List.map_congr_left fun p hp => by
      rw [hinput p.2 (List.mem_append_right _ (List.mem_map.2 ⟨p, hp, rfl⟩)), id_eq]).trans (List.map_id _)
  rw [renamed, hunnamed, hnamed]

/-- **Nodes that are one when their inputs are renamed mirror each other**, if the names of one lead back to its inputs. -/
theorem mirrors_of_renamed (place : Nat → Nat) (h : (s.renamed f).bare = (s'.renamed f').bare)
    (hback : ∀ i ∈ s'.inputNodes, place (f' i) = i) :
    s.Mirrors (fun i => place (f i)) s' ∧ s'.output = s.output := by
  have hplaced : ((s.renamed f).renamed place).bare = ((s'.renamed f').renamed place).bare := congrArg (renamed place) h
  rw [renamed_renamed, renamed_renamed, renamed_eq_self hback] at hplaced
  obtain ⟨hoperation, hkind, houtput, hunnamed, hnamed, -⟩ := NodeSpec.mk.inj hplaced
  exact ⟨⟨hoperation.symm, hkind.symm, hunnamed.symm, hnamed.symm⟩, houtput.symm⟩

end NodeSpec

/-! ## Programs -/

/-- What the node at a place is made from; a place without a node has nothing to write. -/
def Graph.specAt (g : Graph) (r : Nat) : NodeSpec :=
  (g.node? r).elim { operation := "", kind := .constant, output := .none } fun n => n.toNodeSpec

theorem Graph.specAt_of_node? {g : Graph} {r : Nat} {n : Node} (hn : g.node? r = some n) : g.specAt r = n.toNodeSpec := by
  rw [specAt, hn, Option.elim_some]

/-- The nodes of an order, each with its inputs called by their places in it. -/
def Graph.programOf (g : Graph) (order : List Nat) : List NodeSpec :=
  order.map fun r => (g.specAt r).renamed fun i => order.idxOf i

/-- The lines of nodes, the first of which has so many variables before it. -/
def programChars (k : Nat) : List NodeSpec → List Char
  | [] => []
  | s :: specs => (statement (variableName k) (s.expression variableName)).toList ++ '\n' :: programChars (k + 1) specs

theorem toList_statement (name expression : String) :
    (statement name expression).toList = name.toList ++ ' ' :: '=' :: ' ' :: (expression.toList ++ [';']) := by
  simp [statement, String.toList_append]

/-- **Programs are told apart by their text**, line by line, in front of a name. -/
theorem program_cut {specs specs' : List NodeSpec} {k : Nat} {out out' : List Char} (hs : ∀ s ∈ specs, s.Spelled)
    (hs' : ∀ s ∈ specs', s.Spelled) (hout : ' ' ∉ out) (hout' : ' ' ∉ out')
    (h : programChars k specs ++ out = programChars k specs' ++ out') :
    specs.map NodeSpec.bare = specs'.map NodeSpec.bare ∧ out = out' := by
  induction specs generalizing k specs' with
  | nil => cases specs' with
    | nil => exact ⟨rfl, h⟩
    | cons s' specs' =>
      rw [programChars, programChars, toList_statement, List.nil_append] at h
      rw [h] at hout
      simp at hout
  | cons s specs ih => cases specs' with
    | nil =>
      rw [programChars, programChars, toList_statement, List.nil_append] at h
      rw [← h] at hout'
      simp at hout'
    | cons s' specs' =>
      rw [programChars, programChars, toList_statement, toList_statement] at h
      simp only [List.append_assoc, List.cons_append, List.append_cancel_left_eq, List.cons.injEq, true_and,
        List.nil_append] at h
      obtain ⟨hbare, hrest⟩ := NodeSpec.expression_cut (hs s List.mem_cons_self) (hs' s' List.mem_cons_self) h
      obtain ⟨hmore, hend⟩ := ih (fun t ht => hs t (List.mem_cons_of_mem s ht))
        (fun t ht => hs' t (List.mem_cons_of_mem s' ht)) (List.cons.inj hrest).2
      exact ⟨by rw [List.map_cons, List.map_cons, hbare, hmore], hend⟩

theorem statementAt_eq (g : Graph) (order : List Nat) (k r : Nat) : statementAt g order k r =
    statement (variableName k) (((g.specAt r).renamed fun i => order.idxOf i).expression variableName) := by
  have hexpression : ∀ s : NodeSpec, (s.renamed fun i => order.idxOf i).expression variableName =
      s.expression fun i => variableName (order.idxOf i) := fun s =>
    (s.mirrors_renamed fun i => order.idxOf i).expression fun i _ => rfl
  rw [statementAt, hexpression]
  cases hn : g.node? r with
  | none =>
    rw [Graph.specAt, hn]
    rfl
  | some n =>
    rw [Graph.specAt, hn]
    rfl

theorem programChars_map (g : Graph) (order refs : List Nat) (k : Nat) :
    programChars k (refs.map fun r => (g.specAt r).renamed fun i => order.idxOf i) =
      (refs.mapIdx fun j r => statementAt g order (j + k) r).flatMap fun t => t.toList ++ ['\n'] := by
  induction refs generalizing k with
  | nil => rfl
  | cons r refs ih =>
    have hshift : (fun j r => statementAt g order (j + 1 + k) r) = fun j r => statementAt g order (j + (k + 1)) r := by
      funext j r
      rw [Nat.add_assoc, Nat.add_comm 1 k]
    rw [List.map_cons, programChars, ih, List.mapIdx_cons, List.flatMap_cons, Nat.zero_add, statementAt_eq, hshift,
      List.append_assoc]
    rfl

/-- The text of a script has a line for each statement. -/
theorem Script.toList_text {s : Script} (hne : s.statements ≠ []) :
    s.text.toList = s.statements.flatMap fun t => t.toList ++ ['\n'] := by
  obtain ⟨t, ts, hstatements⟩ := List.exists_cons_of_ne_nil hne
  have hbreak : "\n".toList = ['\n'] := rfl
  rw [text, String.toList_append, String.toList_intercalate, hstatements, List.map_cons, hbreak,
    Text.intercalate_append_self, ← List.map_cons, List.flatMap_map]

/-- **The content of a script is its program and its output.** -/
theorem Script.toList_content {g : Graph} {order : List Nat} {s : Script} (hne : order ≠ [])
    (hstatements : s.statements = order.mapIdx (statementAt g order)) :
    (s.text ++ s.output).toList = programChars 0 (g.programOf order) ++ s.output.toList := by
  have hsome : s.statements ≠ [] := by
    rw [hstatements, ne_eq, List.mapIdx_eq_nil_iff]
    exact hne
  rw [String.toList_append, toList_text hsome, hstatements, Graph.programOf, programChars_map]
  rfl

end MatrixPlan

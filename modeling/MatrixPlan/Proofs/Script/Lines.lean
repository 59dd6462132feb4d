import MatrixPlan.Proofs.Script.Postorder
import MatrixPlan.Proofs.Script.Programs
/-!
# Lines — where the text of a script breaks

Each statement ends with a line break, and of what stands inside a statement only a path can have one, which is written
as it is.  So the text of a script has a line for each statement and one more for each line break in a path, and its
lines are the statements exactly if no file that is read has a line break in its path.
-/
namespace MatrixPlan

open Lowering (Emits variableName statementAt statements_leaf)

/-! ## Lines of a text -/

namespace Text

variable {p : Char → Bool} {cs : List Char}

theorem count_break_of_all (hp : p '\n' = false) (h : ∀ c ∈ cs, p c = true) : cs.count '\n' = 0 :=
  List.count_eq_zero.2 fun hmem => by cases hp.symm.trans (h _ hmem)

theorem length_splitOn (c : Char) (cs : List Char) : (cs.splitOn c).length = cs.count c + 1 := by
  induction cs with
  | nil => rfl
  | cons d cs ih =>
    rw [List.splitOn_cons_eq_if_modifyHead, List.count_cons]
    split <;> simp [ih]

theorem count_intercalate {separator : List Char} (hseparator : separator.count '\n' = 0) (xs : List (List Char)) :
    (separator.intercalate xs).count '\n' = (xs.map (List.count '\n')).sum := by
  cases xs with
  | nil => rfl
  | cons x xs =>
    rw [intercalate_cons_eq, List.count_append, List.count_flatMap, List.map_cons, List.sum_cons]
    simp only [Function.comp_def, List.count_append, hseparator, Nat.zero_add]

/-- **The lines of texts that each end with a line break**: those of each text, and nothing after the last one. -/
theorem splitOn_lines (ts : List (List Char)) :
    (ts.flatMap (· ++ ['\n'])).splitOn '\n' = ts.flatMap (List.splitOn '\n') ++ [[]] := by
  induction ts with
  | nil => rfl
  | cons t ts ih =>
    rw [List.flatMap_cons, List.flatMap_cons, List.append_assoc, List.singleton_append, List.splitOn_append_cons_self,
      ih, List.append_assoc]

theorem length_flatMap_splitOn (ts : List (List Char)) :
    (ts.flatMap (List.splitOn '\n')).length = ts.length + (ts.map (List.count '\n')).sum := by
  induction ts with
  | nil => rfl
  | cons t ts ih =>
    rw [List.flatMap_cons, List.length_append, length_splitOn, ih, List.length_cons, List.map_cons, List.sum_cons]
    omega

/-- **Texts are their own lines exactly if none of them has a line break.** -/
theorem flatMap_splitOn_eq_iff {ts : List (List Char)} :
    ts.flatMap (List.splitOn '\n') = ts ↔ ∀ t ∈ ts, t.count '\n' = 0 := by
  constructor
  · intro h t ht
    have hlength := length_flatMap_splitOn ts
    rw [h] at hlength
    have hsum : (ts.map (List.count '\n')).sum = 0 := by omega
    exact List.sum_eq_zero_iff.1 hsum _ (List.mem_map_of_mem ht)
  · intro h
    have hsingle : ∀ t ∈ ts, t.splitOn '\n' = [t] := fun t ht =>
      List.splitOn_eq_singleton (List.count_eq_zero.1 (h t ht))
    rw [List.flatMap_congr hsingle, List.flatMap_singleton']

end Text

/-! ## Line breaks of statements -/

/-- The line breaks that an input has in a statement: those of a path. -/
def Input.breaks : Input → Nat
  | .literal (.str path) => path.toList.count '\n'
  | _ => 0

def NodeSpec.breaks (s : NodeSpec) : Nat := (s.inputs.map Input.breaks).sum

theorem Literal.count_quoted (cs : List Char) : (quoted cs).count '\n' = cs.count '\n' := by
  have hescaped : ∀ c, (escaped c).count '\n' = [c].count '\n' := by
    intro c
    rw [escaped]
    split
    · rw [List.count_cons_of_ne (by decide)]
    · rfl
  have hflat : (cs.flatMap escaped).count '\n' = cs.count '\n' := by
    induction cs with
    | nil => rfl
    | cons c cs ih =>
      rw [List.flatMap_cons, List.count_append, hescaped, ih, ← List.count_append, List.singleton_append]
  rw [quoted, List.count_append, List.count_cons_of_ne (by decide), hflat]
  rfl

theorem Input.count_chars (i : Input) : i.chars.count '\n' = i.breaks := by
  by_cases hi : i.tokenKind = .string
  · obtain ⟨path, rfl, hchars⟩ := eq_str_of_tokenKind hi
    rw [hchars, Literal.count_quoted, breaks]
  · rw [Text.count_break_of_all rfl (token hi).2]
    cases i with
    | node r => rfl
    | literal l => cases l with
      | str path => exact absurd rfl hi
      | _ => rfl

namespace Argument

variable {unnamed : List Input} {named : List (String × Input)}

theorem count_chars {a : Option String × Input} (ha : Named a) : (chars a).count '\n' = a.2.breaks := by
  obtain ⟨_ | name, i⟩ := a
  · exact i.count_chars
  · rw [chars, List.count_append, Text.count_break_of_all (by rfl) (ha name rfl).of_mem,
      List.count_cons_of_ne (by decide), i.count_chars, Nat.zero_add]

theorem count_body (hnamed : ∀ p ∈ named, IsWord Char.isAlpha p.1) :
    (body unnamed named).count '\n' = ((unnamed ++ named.map (·.2)).map Input.breaks).sum := by
  have hall : (all unnamed named).map (List.count '\n' ∘ chars) = (all unnamed named).map (Input.breaks ∘ Prod.snd) :=
    List.map_congr_left fun a ha => count_chars (named_of_mem_all hnamed a ha)
  rw [body, List.count_append, Text.count_intercalate (by decide), List.map_map, hall]
  simp [all, Function.comp_def]

end Argument

theorem Dense.count_text (m : Dense) : m.text.toList.count '\n' = 0 := by
  have hvalue : ∀ x : Float, (scriptFloat x).toList.count '\n' = 0 := fun x =>
    Text.count_break_of_all (by rfl) fun c hc => isTokenChar_of_mem_double hc
  have hcount : ∀ n : UInt64, (countText n).toList.count '\n' = 0 := by
    intro n
    rw [toList_countText]
    exact Text.count_break_of_all (by rfl) fun c hc => isDigit_of_mem_numeral hc
  simp [toList_text, body, List.count_append, Text.count_intercalate, Function.comp_def, hvalue, hcount]

/-- **A right side has the line breaks of its inputs.** -/
theorem NodeSpec.count_expression {s : NodeSpec} (hs : s.Spelled) (hoperation : s.operation.toList.count '\n' = 0) :
    (s.expression variableName).toList.count '\n' = s.breaks := by
  cases hs with
  | call word names =>
    rw [toList_call, List.count_append, hoperation, List.count_cons_of_ne (by decide), Argument.count_body names,
      Nat.zero_add]
    rfl
  | dense => exact Dense.count_text _
  | operator =>
    rw [toList_operator, List.count_append, List.count_cons_of_ne (by decide), List.count_append, hoperation,
      List.count_cons_of_ne (by decide), Input.count_chars, Input.count_chars]
    simp [breaks, inputs]
  | constant =>
    rw [toList_constant, Input.count_chars]
    simp [breaks, inputs]

theorem NodeSpec.breaks_renamed (s : NodeSpec) (f : Nat → Nat) : (s.renamed f).breaks = s.breaks := by
  have hinput : ∀ i : Input, (i.renamed f).breaks = i.breaks := by
    intro i
    cases i <;> rfl
  simp [breaks, inputs, renamed, Function.comp_def, hinput]

namespace Graph.MadeBy

variable {g : Graph} {origin : Nat → Origin} {order : List Nat} {k r : Nat} {n : Node}

theorem count_operation (hm : g.MadeBy origin) (hn : g.node? r = some n) : n.operation.toList.count '\n' = 0 := by
  cases ho : origin r with
  | source s =>
    rw [hm.spec_source hn ho]
    cases s <;> simp [Source.spec]
  | application a =>
    obtain ⟨⟨case, hcase⟩, -⟩ := hm.spec_application hn ho
    rw [hcase]
    cases a <;> simp [Application.spec, Application.operatorSpec, Application.callSpec, Builtin.auc]

/-- **Of sources and applications only a matrix that is read has line breaks**: those of its path. -/
theorem breaks_eq_zero_iff (hm : g.MadeBy origin) (hn : g.node? r = some n) :
    n.breaks = 0 ↔ ∀ path metadata, n.toNodeSpec = (Source.read path metadata).spec → '\n' ∉ path.toList := by
  constructor
  · intro hzero path metadata hspec
    rw [hspec] at hzero
    exact List.count_eq_zero.1 hzero
  · intro hpaths
    cases ho : origin r with
    | source s =>
      have hspec := hm.spec_source hn ho
      cases s with
      | read path metadata =>
        rw [hspec]
        exact List.count_eq_zero.2 (hpaths path metadata hspec)
      | rand rand =>
        rw [hspec]
        obtain ⟨rows, cols, min, max, sparsity, _ | seed⟩ := rand <;> rfl
      | _ =>
        rw [hspec]
        rfl
    | application a =>
      obtain ⟨⟨case, hcase⟩, -⟩ := hm.spec_application hn ho
      rw [hcase]
      cases a <;> rfl

theorem count_statementAt (hm : g.MadeBy origin) (hn : g.node? r = some n) :
    (statementAt g order k r).toList.count '\n' = n.breaks := by
  have hname : (variableName k).toList.count '\n' = 0 := by
    rw [toList_variableName, List.count_cons_of_ne (by decide)]
    exact Text.count_break_of_all (by rfl) fun c hc => isDigit_of_mem_numeral hc
  rw [statementAt_eq, toList_statement, specAt_of_node? hn]
  simp [List.count_append, hname, NodeSpec.count_expression (hm.spelled hn).renamed (hm.count_operation hn),
    NodeSpec.breaks_renamed]

end Graph.MadeBy

namespace Workspace

variable {w : Workspace} {held : Multiset Nat}

/-- **The lines of a script are its statements, but for line breaks in paths.**  A statement has the line breaks of the
paths in it, which are written as they are, and no others.  So the lines of the text are those of the statements, one
after another, and they are the statements exactly if no matrix below the root is read from a path with a line break. -/
theorem Reachable.lines_of_text (h : Reachable offered w held) (hfew : ∀ c, w.graph.builtIn c ≤ 2 ^ 64) {root : Nat}
    {top : Node} (hroot : w.node? root = some top) (stamp : Stamp) :
    ∃ order, Emits w.graph root order ∧
      (w.script stamp root).statements.map (fun t => t.toList.count '\n') =
        order.map (fun r => (w.graph.specAt r).breaks) ∧
      (w.script stamp root).text.toList.splitOn '\n' =
        ((w.script stamp root).statements.map String.toList).flatMap (List.splitOn '\n') ++ [[]] ∧
      ((w.script stamp root).text.toList.splitOn '\n' = (w.script stamp root).statements.map String.toList ++ [[]] ↔
        ∀ r n path metadata, w.graph.Reaches root r → w.node? r = some n →
          n.toNodeSpec = (Source.read path metadata).spec → '\n' ∉ path.toList) := by
  have hlt : root < w.graph.size := Graph.lt_of_node? hroot
  obtain ⟨origin, hmade⟩ := h.madeBy
  obtain ⟨order, hs, he⟩ := Lowering.ofRoot_sound (h.sound.numbered.distinctNames hfew) hlt
  have hstatements : (w.script stamp root).statements = order.mapIdx (statementAt w.graph order) := hs.statements
  have hsome : (w.script stamp root).statements ≠ [] := by
    rw [hstatements, ne_eq, List.mapIdx_eq_nil_iff]
    exact List.ne_nil_of_mem ((he.mem_iff root).2 (.refl _ root))
  have hnode : ∀ r ∈ order, ∃ n, w.graph.node? r = some n := fun r hr =>
    Graph.exists_node? (((he.mem_iff r).1 hr).lt_size hlt)
  have hcounts : (w.script stamp root).statements.map (fun t => t.toList.count '\n') =
      order.map fun r => (w.graph.specAt r).breaks := by
    rw [hstatements]
    refine List.ext_getElem (by simp) fun k hk hk' => ?_
    simp only [List.length_map] at hk'
    obtain ⟨n, hn⟩ := hnode order[k] (List.getElem_mem hk')
    rw [List.getElem_map, List.getElem_mapIdx, List.getElem_map, hmade.count_statementAt hn, Graph.specAt_of_node? hn]
  have hlines : (w.script stamp root).text.toList.splitOn '\n' =
      ((w.script stamp root).statements.map String.toList).flatMap (List.splitOn '\n') ++ [[]] := by
    rw [Script.toList_text hsome, ← Text.splitOn_lines, List.flatMap_map]
  refine ⟨order, he, hcounts, hlines, ?_⟩
  -- the statements have no line break exactly if the nodes have none
  have hunbroken : (∀ t ∈ (w.script stamp root).statements, t.toList.count '\n' = 0) ↔
      ∀ r ∈ order, (w.graph.specAt r).breaks = 0 := by
    rw [← List.forall_mem_map (P := (· = 0)), hcounts, List.forall_mem_map]
  rw [hlines, List.append_left_inj, Text.flatMap_splitOn_eq_iff, List.forall_mem_map, hunbroken]
  constructor
  · intro hzero r n path metadata hr hn
    have hbreaks := hzero r ((he.mem_iff r).2 hr)
    rw [Graph.specAt_of_node? hn] at hbreaks
    exact (hmade.breaks_eq_zero_iff hn).1 hbreaks path metadata
  · intro hpaths r hr
    obtain ⟨n, hn⟩ := hnode r hr
    rw [Graph.specAt_of_node? hn]
    exact (hmade.breaks_eq_zero_iff hn).2 fun path metadata => hpaths r n path metadata ((he.mem_iff r).1 hr) hn

/-- Two matrices that are read, the first one from a path with a line break, and the transpose of the second. -/
def torn : Workspace :=
  let w : Workspace := (({} : Workspace).addContext ⟨Uuid.ofNat 0⟩ 0 {}).2
  let w := (w.addSource 0 (.read "a\nb" .unknown)).2
  let w := (w.addSource 0 (.read "c:\\'d'" .unknown)).2
  (w.apply (.transpose 1)).2

theorem reachable_torn : ∃ held, Reachable offered torn held := by
  have h : Reachable offered _ _ := .single (.context _ _ ⟨Uuid.ofNat 0⟩ 0 {})
  have h := h.addSource (c := 0) (by decide) (.read "a\nb" .unknown)
  have h := h.addSource (c := 0) (by decide) (.read "c:\\'d'" .unknown)
  exact ⟨_, h.apply (a := .transpose 1) (by decide)⟩

theorem builtIn_torn (c : Nat) : torn.graph.builtIn c ≤ 2 ^ 64 := (torn.graph.builtIn_le_size c).trans (by decide)

/-- The transpose does not use the first matrix, so each of its statements is a line, tricky as the other path is. -/
theorem lines_of_text_torn : (∃ held, Reachable offered torn held) ∧ ∀ stamp,
    (torn.script stamp 2).text.toList.splitOn '\n' = (torn.script stamp 2).statements.map String.toList ++ [[]] := by
  obtain ⟨held, h⟩ := reachable_torn
  have hroot : torn.node? 2 = some torn.graph.nodes[2] := rfl
  refine ⟨⟨held, h⟩, fun stamp => ?_⟩
  obtain ⟨order, -, -, -, hunbroken⟩ := h.lines_of_text builtIn_torn hroot stamp
  refine hunbroken.2 fun r n path metadata hr hn hspec => ?_
  have h1 : torn.graph.inputs 1 = [] := by decide
  have h2 : torn.graph.inputs 2 = [1] := by decide
  have hbelow : r = 1 ∨ r = 2 := hr.mem_of_closed (S := fun r => r = 1 ∨ r = 2) (by simp) (by grind)
  obtain rfl | rfl := hbelow
  · cases hn
    cases congrArg NodeSpec.unnamed hspec
    decide
  · cases hn
    have hread : torn.graph.nodes[2].operation = "read" := congrArg NodeSpec.operation hspec
    exact absurd hread (by decide)

/-- **A line break in a path breaks a statement**: of the one statement of the first matrix there are two lines. -/
theorem text_breaks_statement : (∃ held, Reachable offered torn held) ∧ ∀ stamp,
    (torn.script stamp 0).statements = ["V0 = read('a\nb');"] ∧
    (torn.script stamp 0).text.toList.splitOn '\n' = ["V0 = read('a".toList, "b');".toList, []] ∧
    (torn.script stamp 0).text.toList.splitOn '\n' ≠ (torn.script stamp 0).statements.map String.toList ++ [[]] := by
  obtain ⟨held, h⟩ := reachable_torn
  refine ⟨⟨held, h⟩, fun stamp => ?_⟩
  have hd : torn.graph.DistinctNames := h.sound.numbered.distinctNames builtIn_torn
  have hstatements : (torn.script stamp 0).statements = ["V0 = read('a\nb');"] :=
    (statements_leaf hd (by decide) (by decide) stamp _).trans (by decide)
  have hlines : (torn.script stamp 0).text.toList.splitOn '\n' = ["V0 = read('a".toList, "b');".toList, []] := by
    rw [Script.text, hstatements]
    decide
  refine ⟨hstatements, hlines, ?_⟩
  rw [hlines, hstatements]
  decide

end Workspace
end MatrixPlan

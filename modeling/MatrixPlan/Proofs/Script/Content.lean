import MatrixPlan.Proofs.Script.Correctness
import MatrixPlan.Proofs.Script.Programs
/-!
# Content — the content of a script tells the structure of its graph

In workspaces that are built by sources and applications alone, scripts of one content have graphs of one structure: the
programs are the same, and the nodes whose statements have the same places correspond.  No two graphs that differ in more
than metadata, numbers and contexts share a content, whatever stands in paths.
-/
namespace MatrixPlan

open Lowering (Emits variableName)

section

variable {order order' : List Nat}

/-- The item of a list that stands where an item of another list does. -/
def sameplace (order order' : List Nat) (r : Nat) : Nat := (order'[order.idxOf r]?).getD 0

theorem sameplace_getElem (hnodup : order.Nodup) {k : Nat} (hk : k < order.length) (hk' : k < order'.length) :
    sameplace order order' order[k] = order'[k] := by
  rw [sameplace, hnodup.idxOf_getElem k hk, List.getElem?_eq_getElem hk', Option.getD_some]

/-- **Items at the same places of two lists correspond.** -/
theorem bijOn_sameplace (hnodup : order.Nodup) (hnodup' : order'.Nodup) (hlength : order.length = order'.length) :
    Set.BijOn (sameplace order order') {r | r ∈ order} {r | r ∈ order'} := by
  refine ⟨fun r hr => ?_, fun r hr q hq heq => ?_, fun r hr => ?_⟩
  · obtain ⟨k, hk, rfl⟩ := List.getElem_of_mem hr
    rw [sameplace_getElem hnodup hk (hlength ▸ hk)]
    exact List.getElem_mem _
  · obtain ⟨k, hk, rfl⟩ := List.getElem_of_mem hr
    obtain ⟨j, hj, rfl⟩ := List.getElem_of_mem hq
    rw [sameplace_getElem hnodup hk (hlength ▸ hk), sameplace_getElem hnodup hj (hlength ▸ hj),
      hnodup'.getElem_inj_iff] at heq
    simp only [heq]
  · obtain ⟨k, hk, rfl⟩ := List.getElem_of_mem hr
    have hk' : k < order.length := hlength ▸ hk
    exact ⟨order[k], List.getElem_mem hk', sameplace_getElem hnodup hk' hk⟩

end

variable {g g' : Graph} {root root' : Nat} {order order' : List Nat}

/-- **Orders of one program are orders of graphs of one structure.** -/
theorem Lowering.Emits.mirrors (he : Emits g root order) (he' : Emits g' root' order') (hroot' : root' < g'.size)
    (hbare : (g.programOf order).map NodeSpec.bare = (g'.programOf order').map NodeSpec.bare) :
    g.Mirrors root g' root' (sameplace order order') ∧ ∀ r n n', g.Reaches root r → g.node? r = some n →
      g'.node? (sameplace order order' r) = some n' → n'.output = n.output := by
  have hlength : order.length = order'.length := by
    simpa [Graph.programOf] using congrArg List.length hbare
  have hnode : ∀ r n n', g.Reaches root r → g.node? r = some n → g'.node? (sameplace order order' r) = some n' →
      n.toNodeSpec.Mirrors (sameplace order order') n'.toNodeSpec ∧ n'.output = n.output := by
    intro r n n' hr hn hn'
    obtain ⟨k, hk, rfl⟩ := List.getElem_of_mem ((he.mem_iff r).2 hr)
    have hk' : k < order'.length := hlength ▸ hk
    rw [sameplace_getElem he.nodup hk hk'] at hn'
    have hsame : ((g.specAt order[k]).renamed fun i => order.idxOf i).bare =
        ((g'.specAt order'[k]).renamed fun i => order'.idxOf i).bare := by
      have hget := congrArg (·[k]?) hbare
      simpa [Graph.programOf, hk, hk'] using hget
    rw [Graph.specAt_of_node? hn, Graph.specAt_of_node? hn'] at hsame
    refine NodeSpec.mirrors_of_renamed (fun j => (order'[j]?).getD 0) hsame fun i hi => ?_
    -- an input of a node that is emitted is emitted itself
    have hinput : i ∈ g'.inputs order'[k] := by rwa [Graph.inputs_of_node? hn']
    have hmem := he'.inputs.mem (List.getElem_mem hk') hinput
    have hlt := List.idxOf_lt_length_of_mem hmem
    rw [List.getElem?_eq_getElem hlt, List.getElem_idxOf hlt, Option.getD_some]
  have hbij := bijOn_sameplace he.nodup he'.nodup hlength
  have hbelow : {r | r ∈ order} = {r | g.Reaches root r} := Set.ext he.mem_iff
  have hbelow' : {r | r ∈ order'} = {r | g'.Reaches root' r} := Set.ext he'.mem_iff
  rw [hbelow, hbelow'] at hbij
  refine ⟨⟨hbij, ?_, fun r n hr hn => ?_⟩, fun r n n' hr hn hn' => (hnode r n n' hr hn hn').2⟩
  · rw [sameplace, he.idxOf_root, hlength, he'.getElem?_last, Option.getD_some]
  · have hr' : g'.Reaches root' (sameplace order order' r) := hbij.mapsTo hr
    obtain ⟨n', hn'⟩ := Graph.exists_node? (hr'.lt_size hroot')
    exact ⟨n', hn', (hnode r n n' hr hn hn').1⟩

namespace Workspace

variable {w w' : Workspace} {held held' : Multiset Nat}

/-- **A script's program, and the spelling of its nodes**, in an order of the nodes below the root. -/
theorem Reachable.program (h : Reachable offered w held) (hfew : ∀ c, w.graph.builtIn c ≤ 2 ^ 64) {root : Nat}
    {top : Node} (hroot : w.node? root = some top) (stamp : Stamp) :
    ∃ order, Emits w.graph root order ∧
      (∀ s ∈ w.graph.programOf order, s.Spelled) ∧ ((w.script stamp root).text ++ (w.script stamp root).output).toList =
        programChars 0 (w.graph.programOf order) ++ (variableName (order.length - 1)).toList := by
  have hd := h.sound.numbered.distinctNames hfew
  have hlt : root < w.graph.size := Graph.lt_of_node? hroot
  obtain ⟨origin, hmade⟩ := h.madeBy
  obtain ⟨order, hs, he⟩ := Lowering.ofRoot_sound hd hlt
  have hmem : root ∈ order := (he.mem_iff root).2 (.refl _ root)
  have houtput : (w.script stamp root).output = variableName (order.length - 1) := by
    change Lowering.variableAt w.graph (Lowering.ofRoot w.graph root).vars root = _
    rw [hs.variableAt_eq hlt hmem, he.idxOf_root]
  refine ⟨order, he, fun s hmem => ?_, ?_⟩
  · obtain ⟨r, hr, rfl⟩ := List.mem_map.1 hmem
    obtain ⟨n, hn⟩ := Graph.exists_node? (((he.mem_iff r).1 hr).lt_size hlt)
    rw [Graph.specAt_of_node? hn]
    exact (hmade.spelled hn).renamed
  · rw [Script.toList_content (List.ne_nil_of_mem hmem) hs.statements, houtput]

theorem not_blank_variableName (k : Nat) : ' ' ∉ (variableName k).toList := by
  rw [toList_variableName]
  intro hmem
  rcases List.mem_cons.1 hmem with hmem | hmem
  · cases hmem
  · cases isDigit_of_mem_numeral hmem

/-- **The content of a script tells the structure of its graph.**  If two roots of graphs that are built by sources and
applications have scripts of one content, a bijection of the nodes below them keeps operations, kinds, constants, matrices,
outputs and inputs in their order.  So only metadata, numbers and contexts may differ, whatever stands in paths. -/
theorem Reachable.structure_of_content (h : Reachable offered w held) (h' : Reachable offered w' held')
    (hfew : ∀ c, w.graph.builtIn c ≤ 2 ^ 64) (hfew' : ∀ c, w'.graph.builtIn c ≤ 2 ^ 64) {root root' : Nat}
    {top top' : Node} (hroot : w.node? root = some top) (hroot' : w'.node? root' = some top') {stamp stamp' : Stamp}
    (hcontent : (w.script stamp root).content = (w'.script stamp' root').content) :
    ∃ f, w.graph.Mirrors root w'.graph root' f ∧ ∀ r n n', w.graph.Reaches root r → w.node? r = some n →
      w'.node? (f r) = some n' → n'.output = n.output := by
  obtain ⟨order, he, hspelled, htext⟩ := h.program hfew hroot stamp
  obtain ⟨order', he', hspelled', htext'⟩ := h'.program hfew' hroot' stamp'
  have hchars := congrArg String.toList (String.toByteArray_inj.1 hcontent)
  rw [htext, htext'] at hchars
  obtain ⟨hbare, -⟩ := program_cut hspelled hspelled' (not_blank_variableName _) (not_blank_variableName _) hchars
  exact ⟨_, he.mirrors he' (Graph.lt_of_node? hroot') hbare⟩

theorem content_twofold (stamp stamp' : Stamp) :
    (twofold.script stamp 2).content = (twofold.script stamp' 6).content := by
  have hd := reachable_twofold.choose_spec.sound.numbered.distinctNames builtIn_twofold
  obtain ⟨hstatements, houtput⟩ : (twofold.script stamp' 6).statements = (twofold.script stamp 2).statements ∧
      (twofold.script stamp' 6).output = (twofold.script stamp 2).output :=
    Script.ofGraph_mirrored (.of_mirrors mirrors_twofold hd hd) (by decide) stamp stamp' _ _
  rw [Script.content, Script.content, Script.text, Script.text, hstatements, houtput]

/-- The two products have one content, tricky as the path is, so their graphs have one structure. -/
theorem structure_of_content_twofold : (∃ held, Reachable offered twofold held) ∧
    (∀ stamp stamp', (twofold.script stamp 2).content = (twofold.script stamp' 6).content) ∧
    ∃ f, twofold.graph.Mirrors 2 twofold.graph 6 f ∧ f 2 = 6 := by
  obtain ⟨held, h⟩ := reachable_twofold
  obtain ⟨f, hmirrors, -⟩ := h.structure_of_content h builtIn_twofold builtIn_twofold rfl rfl
    (content_twofold ⟨Uuid.ofNat 0, Timestamp.ofSeconds 0⟩ ⟨Uuid.ofNat 1, Timestamp.ofSeconds 1⟩)
  exact ⟨⟨held, h⟩, content_twofold, f, hmirrors, hmirrors.roots⟩

end Workspace
end MatrixPlan

import MatrixPlan.Proofs.Workspace.Origins
/-!
# History — the nodes that a run has built, and their keys

A run keeps a record of the nodes it builds, which no later move takes anything from (`Run`).  Outside of its context a
node is known by a key, the identifier of its context and its number there.  As long as contexts have identifiers of their
own and none has made more nodes than there are words, keys tell all nodes of the record apart, those that are dead or
were never registered too.

Numbers alone do not order the graph: a node may use one of another context with a greater number than its own.  What
orders it is the record, in which a node stands after its inputs.
-/
namespace MatrixPlan
namespace Workspace

/-- **The runs of a workspace**, with all nodes built so far in the order of building.  Other moves build nothing. -/
inductive Run (permit : Workspace → Nat → NodeSpec → Prop) : List Node → Workspace × Multiset Nat → Prop where
  | start : Run permit [] ({}, 0)
  | build {built : List Node} {w : Workspace} {held : Multiset Nat} {c : Nat} {spec : NodeSpec} {n : Node}
      (h : Run permit built (w, held)) (hc : c < w.contexts.size) (hin : ∀ i ∈ spec.inputNodes, i ∈ w.heap.living)
      (hp : permit w c spec) (hn : (w.build c spec).2.node? (w.build c spec).1 = some n) :
      Run permit (built ++ [n]) ((w.build c spec).2, (w.build c spec).1 ::ₘ held)
  | other {built : List Node} {a b : Workspace × Multiset Nat} (h : Run permit built a)
      (hm : Move (fun _ _ _ => False) a b) : Run permit built b

/-- What a node is known by in all contexts: the identifier of its context, and its number there. -/
def key? (w : Workspace) (n : Node) : Option (ContextId × UInt64) := (w.context? n.context).map fun x => (x.id, n.id)

/-- A node with the first key is an input of one with the second. -/
def Feeds (w : Workspace) (built : List Node) (k k' : ContextId × UInt64) : Prop :=
  ∃ (i r : Nat) (m n : Node), built[i]? = some m ∧ built[r]? = some n ∧ i ∈ n.inputNodes ∧
    w.key? m = some k ∧ w.key? n = some k'

/-- No two contexts have one identifier. -/
def DistinctIds (w : Workspace) : Prop :=
  ∀ (c c' : Nat) (x x' : Context), w.context? c = some x → w.context? c' = some x' → x.id = x'.id → c = c'

/-- **Keys identify the nodes of a record.**  The places of the workspace are those of the record; every node has a key,
and no two have the same; the names that walks go by are the same for the same keys only, and so tell the nodes of the graph
apart; an input is in the record, with a smaller number if it is of the same context; and no chain of inputs leads from a
key back to it. -/
structure Identified (w : Workspace) (built : List Node) : Prop where
  places : ∀ r, w.node? r = built[r]?
  keyed : ∀ n ∈ built, (w.key? n).isSome = true
  keys : (built.map w.key?).Nodup
  names : ∀ m ∈ built, ∀ n ∈ built, m.name = n.name ↔ w.key? m = w.key? n
  distinct : w.graph.DistinctNames
  inputs : ∀ (r : Nat) (n : Node), built[r]? = some n → ∀ i ∈ n.inputNodes,
    ∃ m, built[i]? = some m ∧ (m.context = n.context → m.id < n.id)
  acyclic : ∀ k, ¬ Relation.TransGen (w.Feeds built) k k

variable {permit : Workspace → Nat → NodeSpec → Prop} {built : List Node} {w : Workspace} {held : Multiset Nat}
  {a : Workspace × Multiset Nat} {c r i : Nat} {x : Context} {spec : NodeSpec} {m n : Node}

/-! ## The record -/

theorem Run.reachable (h : Run permit built a) : Reachable permit a.1 a.2 := by
  induction h with
  | start => exact .refl
  | build h hc hin hp hn ih => exact ih.tail (.build _ _ _ _ hc hin hp)
  | other h hm ih => exact ih.tail (hm.mono fun _ _ _ hno => hno.elim)

/-- **Whatever moves lead to, a run leads to**, which has a record. -/
theorem Reachable.exists_run (h : Reachable permit w held) : ∃ built, Run permit built (w, held) := by
  have hall : ∀ b, Relation.ReflTransGen (Move permit) ({}, 0) b → ∃ built, Run permit built b := by
    intro b hb
    induction hb with
    | refl => exact ⟨[], .start⟩
    | tail _ hm ih =>
      obtain ⟨built, hrun⟩ := ih
      cases hm with
      | engines w held engines => exact ⟨built, hrun.other (.engines w held engines)⟩
      | context w held id engine config => exact ⟨built, hrun.other (.context w held id engine config)⟩
      | build w held c spec hc hin hp =>
        have hlt : ∀ i ∈ (w.contexts[c].nodeOf c spec).inputNodes, i < w.graph.size := fun i hi =>
          Heap.lt_size_of_mem_living (hin i hi)
        obtain ⟨hplace, hgraph⟩ := build_graph (Array.getElem?_eq_getElem hc) hlt
        have hn : (w.build c spec).2.node? (w.build c spec).1 = some (w.contexts[c].nodeOf c spec) := by
          rw [node?, hplace, hgraph, Graph.node?_add_size]
        exact ⟨built ++ [_], hrun.build hc hin hp hn⟩
      | clone w held r hr => exact ⟨built, hrun.other (.clone w held r hr)⟩
      | drop w held r hr => exact ⟨built, hrun.other (.drop w held r hr)⟩
      | submit w held stamp root => exact ⟨built, hrun.other (.submit w held stamp root)⟩
  exact hall (w, held) h

/-- **The table of nodes is the record**: nothing is taken out of it, whatever dies. -/
theorem Run.nodes_eq (h : Run permit built a) : a.1.graph.nodes.toList = built := by
  induction h with
  | start => rfl
  | @build built w held c spec n h hc hin hp hn ih =>
    have hlt : ∀ i ∈ (w.contexts[c].nodeOf c spec).inputNodes, i < w.graph.size := fun i hi =>
      Heap.lt_size_of_mem_living (hin i hi)
    obtain ⟨hplace, hgraph⟩ := build_graph (Array.getElem?_eq_getElem hc) hlt
    rw [node?, hplace, hgraph, Graph.node?_add_size] at hn
    cases hn
    refine (congrArg (fun g : Graph => g.nodes.toList) hgraph).trans ?_
    rw [← ih]
    exact Array.toList_push
  | other h hm ih =>
    obtain heq | ⟨c, x, spec, hin, -, hno, -⟩ := hm.graph h.reachable.sound
    · rw [heq, ih]
    · exact hno.elim

theorem Run.places (h : Run permit built (w, held)) (r : Nat) : w.node? r = built[r]? := by
  rw [← h.nodes_eq, Array.getElem?_toList]
  rfl

theorem Run.builtIn_eq (h : Run permit built (w, held)) (c : Nat) :
    w.graph.builtIn c = built.countP fun n => n.context = c := by
  rw [Graph.builtIn, Graph.countBefore, Graph.size, ← Array.length_toList, List.take_length, ← h.nodes_eq]

/-! ## Keys -/

theorem key?_of_name (h : m.name = n.name) : w.key? m = w.key? n := by
  obtain ⟨hc, hid⟩ := NodeName.mk.inj h
  rw [key?, key?, hc, hid]

theorem key?_inj (hids : w.DistinctIds) {k : ContextId × UInt64} (hm : w.key? m = some k) (hn : w.key? n = some k) :
    m.name = n.name := by
  obtain ⟨x, hx, rfl⟩ := Option.map_eq_some_iff.1 hm
  obtain ⟨y, hy, heq⟩ := Option.map_eq_some_iff.1 hn
  obtain ⟨hid, hnumber⟩ := Prod.mk.inj heq
  rw [Node.name, Node.name, hids _ _ _ _ hx hy hid.symm, hnumber]

/-- **A key stands at one place.** -/
theorem key?_place (hids : w.DistinctIds) (hd : w.graph.DistinctNames) {k : ContextId × UInt64}
    (hi : w.node? i = some m) (hr : w.node? r = some n) (hm : w.key? m = some k) (hn : w.key? n = some k) : i = r :=
  hd i r m n hi hr (key?_inj hids hm hn)

/-- **A chain of inputs goes down in the record**, whatever contexts it leads through. -/
theorem lt_of_feeds (hids : w.DistinctIds) (hd : w.graph.DistinctNames) (hplaces : ∀ r, w.node? r = built[r]?)
    {k k' : ContextId × UInt64} (h : Relation.TransGen (w.Feeds built) k k')
    (hi : w.node? i = some m) (hm : w.key? m = some k) (hr : w.node? r = some n) (hn : w.key? n = some k') : i < r := by
  induction h generalizing r n with
  | single hfeeds =>
    obtain ⟨i', r', m', n', hi', hr', hmem, hm', hn'⟩ := hfeeds
    rw [← hplaces] at hi' hr'
    obtain rfl := key?_place hids hd hi hi' hm hm'
    obtain rfl := key?_place hids hd hr hr' hn hn'
    exact Graph.lt_of_mem_inputs (by rwa [Graph.inputs_of_node? hr'])
  | tail _ hfeeds ih =>
    obtain ⟨i', r', m', n', hi', hr', hmem, hm', hn'⟩ := hfeeds
    rw [← hplaces] at hi' hr'
    obtain rfl := key?_place hids hd hr hr' hn hn'
    exact (ih hi' hm').trans (Graph.lt_of_mem_inputs (by rwa [Graph.inputs_of_node? hr']))

theorem id_lt_of_input (hs : Numbered w.graph w.contexts) (hfew : ∀ c, w.graph.builtIn c ≤ 2 ^ 64)
    (hi : w.graph.node? i = some m) (hr : w.graph.node? r = some n) (hlt : i < r) (hc : m.context = n.context) :
    m.id < n.id := by
  have hcount := Graph.countBefore_lt hi hlt
  have hbound := (Graph.countBefore_lt hr (Graph.lt_of_node? hr)).trans_le (hfew n.context)
  rw [hs.nodes i m hi, hs.nodes r n hr, ← hc, UInt64.lt_iff_toNat_lt]
  rw [← hc] at hbound
  rwa [UInt64.toNat_ofNat_of_lt' (by simp only [UInt64.size]; omega),
    UInt64.toNat_ofNat_of_lt' (by simp only [UInt64.size]; omega)]

/-- **Keys identify the nodes that a run has built**, the living and the dead, the registered and those over a limit, if
contexts have identifiers of their own and none has made more nodes than there are words. -/
theorem Run.identified (h : Run permit built (w, held)) (hids : w.DistinctIds)
    (hfew : ∀ c, (built.countP fun n => n.context = c) ≤ 2 ^ 64) : w.Identified built := by
  have hs : Numbered w.graph w.contexts := h.reachable.sound.numbered
  have hfew' : ∀ c, w.graph.builtIn c ≤ 2 ^ 64 := fun c => by
    rw [h.builtIn_eq]
    exact hfew c
  have hd : w.graph.DistinctNames := hs.distinctNames hfew'
  have hkey : ∀ r n, w.node? r = some n → ∃ k, w.key? n = some k := fun r n hn =>
    ⟨_, congrArg _ (Array.getElem?_eq_getElem (hs.placed r n hn))⟩
  have hkeyed : ∀ n ∈ built, ∃ k, w.key? n = some k := fun n hn => by
    obtain ⟨r, hr⟩ := List.mem_iff_getElem?.1 hn
    exact hkey r n (by rw [h.places, hr])
  refine ⟨h.places, fun n hn => Option.isSome_iff_exists.2 (hkeyed n hn), ?_,
    fun m hm n hn => ⟨key?_of_name, fun heq => ?_⟩, hd, fun r n hn i hi => ?_, fun k hk => ?_⟩
  · refine List.nodup_iff_getElem?_ne_getElem?.2 fun i r hlt hr heq => ?_
    rw [List.length_map, ← h.nodes_eq, Array.length_toList] at hr
    obtain ⟨n, hn⟩ := Graph.exists_node? hr
    obtain ⟨m, hm⟩ := Graph.exists_node? (hlt.trans hr)
    obtain ⟨k, hk⟩ := hkey r n hn
    rw [List.getElem?_map, List.getElem?_map, ← h.places, ← h.places, node?, node?, hm, hn, Option.map_some,
      Option.map_some, hk] at heq
    exact hlt.ne (key?_place hids hd hm hn (Option.some_injective _ heq) hk)
  · obtain ⟨k, hk⟩ := hkeyed n hn
    exact key?_inj hids (heq.trans hk) hk
  · rw [← h.places] at hn
    have hlt : i < r := Graph.lt_of_mem_inputs (by rwa [Graph.inputs_of_node? hn])
    obtain ⟨m, hm⟩ := Graph.exists_node? (hlt.trans (Graph.lt_of_node? hn))
    exact ⟨m, by rw [← h.places]; exact hm, id_lt_of_input hs hfew' hm hn hlt⟩
  · obtain ⟨k', ⟨i, r, m, n, hi, hr, -, hm, -⟩, -⟩ := Relation.TransGen.head'_iff.1 hk
    rw [← h.places] at hi
    exact lt_irrefl i (lt_of_feeds hids hd h.places hk hi hm hi hm)

/-- Two contexts whose nodes use each other's, the second of which takes one node.  Its second node uses one with a greater
number, and is used by a node of the first context. -/
def woven : Workspace :=
  let w : Workspace := (({} : Workspace).addContext ⟨Uuid.ofNat 0⟩ 0 {}).2
  let w := (w.addContext ⟨Uuid.ofNat 1⟩ 0 { maxNodes := 1 }).2
  let w := (w.addSource 0 (.read "x.csv" .unknown)).2
  let w := (w.apply (.add 0 0)).2
  let w := (w.apply (.add 1 0)).2
  let w := (w.addSource 1 (.read "y.csv" .unknown)).2
  let w := (w.apply (.cbind 3 2)).2
  (w.apply (.cbind 0 4)).2

theorem reachable_woven : Reachable offered woven {5, 4, 3, 2, 1, 0} := by
  have h : Reachable offered _ _ := .tail (.single (.context _ _ ⟨Uuid.ofNat 0⟩ 0 {})) (.context _ _ ⟨Uuid.ofNat 1⟩ 0
    { maxNodes := 1 })
  have h := h.addSource (c := 0) (by decide) (.read "x.csv" .unknown)
  have h := h.apply (a := .add 0 0) (by decide)
  have h := h.apply (a := .add 1 0) (by decide)
  have h := h.addSource (c := 1) (by decide) (.read "y.csv" .unknown)
  have h := h.apply (a := .cbind 3 2) (by decide)
  exact h.apply (a := .cbind 0 4) (by decide)

theorem distinctIds_woven : woven.DistinctIds := by
  have hids : ∀ c c' : Fin 2, woven.contexts[c].id = woven.contexts[c'].id → c = c' := by decide
  intro c c' x x' hx hx' heq
  obtain ⟨hc, rfl⟩ := Array.getElem?_eq_some_iff.1 hx
  obtain ⟨hc', rfl⟩ := Array.getElem?_eq_some_iff.1 hx'
  exact congrArg Fin.val (hids ⟨c, hc⟩ ⟨c', hc'⟩ heq)

/-- Identifiers stay with their contexts at the end of a handle. -/
theorem DistinctIds.drop (hids : w.DistinctIds) (hs : Sound w held) (hr : r ∈ held) : (w.drop r).DistinctIds := by
  rw [drop_eq hs.owned hr]
  intro c c' x x' hx hx' heq
  obtain ⟨y, hy, hxy, -⟩ := foldl_uncount_context hx
  obtain ⟨y', hy', hxy', -⟩ := foldl_uncount_context hx'
  exact hids c c' y y' hy hy' (by rw [hxy, hxy'] at heq; exact heq)

/-- The node over the limit and the dead one have keys of their own too, and the greater number makes no cycle. -/
theorem identified_woven : ∃ built, Run offered built (woven.drop 5, {4, 3, 2, 1, 0}) ∧ (woven.drop 5).DistinctIds ∧
    (∀ c, (built.countP fun n => n.context = c) ≤ 2 ^ 64) ∧ (woven.drop 5).Identified built ∧ built.length = 6 ∧
    5 ∉ (woven.drop 5).heap.living ∧ (∃ n, built[4]? = some n ∧ n.registration ≠ none) ∧
    ∃ m n, built[2]? = some m ∧ built[4]? = some n ∧ 2 ∈ n.inputNodes ∧ n.id < m.id := by
  obtain ⟨built, hbuilt⟩ := reachable_woven.exists_run
  have hs := reachable_woven.sound
  have hr : 5 ∈ ({5, 4, 3, 2, 1, 0} : Multiset Nat) := by decide
  have h : Run offered built (woven.drop 5, {4, 3, 2, 1, 0}) := hbuilt.other (.drop _ _ 5 hr)
  have hlength : built.length = 6 := by
    rw [← hbuilt.nodes_eq]
    rfl
  have hids := distinctIds_woven.drop hs hr
  have hfew : ∀ c, (built.countP fun n => n.context = c) ≤ 2 ^ 64 := fun c =>
    (List.countP_le_length.trans_eq hlength).trans (by decide)
  refine ⟨built, h, hids, hfew, h.identified hids hfew, hlength, fun hlive => ?_, ?_, ?_⟩
  · obtain ⟨q, hq, hreach⟩ := (hs.drop hr).owned.mem_living_iff.1 hlive
    have hsmall : ∀ q ∈ ({5, 4, 3, 2, 1, 0} : Multiset Nat).erase 5, q < 5 := by decide
    exact absurd hreach.le (Nat.not_le.2 (hsmall q hq))
  · exact ⟨woven.graph.nodes[4], by rw [← hbuilt.places]; rfl, by decide⟩
  · exact ⟨woven.graph.nodes[2], woven.graph.nodes[4], by rw [← hbuilt.places]; rfl, by rw [← hbuilt.places]; rfl,
      by decide, by decide⟩

end Workspace
end MatrixPlan

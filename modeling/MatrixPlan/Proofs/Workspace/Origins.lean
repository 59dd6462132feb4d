import MatrixPlan.Proofs.Workspace.Shapes
/-!
# Origins — what nodes are made from, and the shapes that follow

Each node of a graph that is built by sources and applications alone has an origin.  Actual shapes of the sources give a
shape to every node whose operands keep the rules; the metadata of such nodes describes their shapes, and validation
finds no fault in them.
-/
namespace MatrixPlan

/-- What a node is made from. -/
inductive Origin where
  | source (source : Source)
  | application (application : Application Nat)

/-- **Each node is made from its origin**, with one estimator or the other. -/
def Graph.MadeBy (g : Graph) (origin : Nat → Origin) : Prop :=
  ∀ (r : Nat) (n : Node), g.node? r = some n → match origin r with
    | .source s => n.toNodeSpec = s.spec
    | .application a => ∃ case : Estimator, n.toNodeSpec = a.spec g case

/-- **The shape of a node**, when the sources have the given shapes and all it uses keeps the rules. -/
def shapeAt? (origin : Nat → Origin) (actual : Nat → Extents) (r : Nat) : Option Extents :=
  match origin r with
  | .source _ => some (actual r)
  | .application a => a.resultOf? fun i => if _h : i < r then shapeAt? origin actual i else none
termination_by r
decreasing_by exact _h

section

variable {origin : Nat → Origin} {actual : Nat → Extents} {r : Nat} {g : Graph}

theorem shapeAt?_source {s : Source} (h : origin r = .source s) : shapeAt? origin actual r = some (actual r) := by
  rw [shapeAt?, h]

theorem shapeAt?_application {a : Application Nat} (h : origin r = .application a) (hlt : ∀ i ∈ a.operands, i < r) :
    shapeAt? origin actual r = a.resultOf? (shapeAt? origin actual) := by
  rw [shapeAt?, h]
  exact Application.resultOf?_congr fun i hi => by rw [dif_pos (hlt i hi)]

namespace Source

theorem inputNodes_spec (s : Source) : s.spec.inputNodes = [] := by
  cases s with
  | rand r => cases h : r.seed <;> simp [spec, NodeSpec.inputNodes, NodeSpec.inputs, h, Input.node?, count, float]
  | _ => rfl

theorem metadata_of_dense? {s : Source} {m : Dense} (h : s.spec.dense? = some m) : s.spec.metadata = m.metadata := by
  cases s with
  | dense matrix =>
    cases h
    rfl
  | _ => cases h

theorem shapeFault?_spec (g : Graph) (s : Source) : g.shapeFault? s.spec = none := by
  cases s <;> rfl

theorem signature?_spec (s : Source) : Graph.signature? s.spec = none := by
  cases s <;> rfl

end Source

namespace Application

theorem dense?_spec (g : Graph) (case : Estimator) (a : Application Nat) : (a.spec g case).dense? = none := by
  cases a <;> rfl

theorem signature_spec (g : Graph) (case : Estimator) (a : Application Nat) :
    ((Graph.signature? (a.spec g case)).bind fun b => (a.spec g case).signatureFault? b.params) = none := by
  cases a <;> rfl

end Application

namespace Graph.MadeBy

theorem add (hm : g.MadeBy origin) {n : Node} (hin : ∀ i ∈ n.inputNodes, i < g.size) {o : Origin}
    (ho : match o with
      | .source s => n.toNodeSpec = s.spec
      | .application a => ∃ case : Estimator, n.toNodeSpec = a.spec g case) :
    (g.add n hin).MadeBy (Function.update origin g.size o) := by
  have hspec : ∀ (a : Application Nat) (case : Estimator) (m : NodeSpec), m = a.spec g case →
      (∀ i ∈ m.inputNodes, i < g.size) → m = a.spec (g.add n hin) case := by
    intro a case m heq hlt
    rw [heq, Application.inputNodes_spec] at hlt
    rw [heq]
    exact (Application.spec_congr fun i hi => node?_add_of_lt hin (hlt i hi)).symm
  intro r m hr
  rw [node?_add] at hr
  split at hr
  · rename_i heq
    cases hr
    rw [heq, Function.update_self]
    cases o with
    | source s => exact ho
    | application a =>
      obtain ⟨case, hcase⟩ := ho
      exact ⟨case, hspec a case _ hcase hin⟩
  · rename_i hne
    have hold := hm r m hr
    rw [Function.update_of_ne hne]
    cases ho' : origin r with
    | source s =>
      rw [ho'] at hold
      exact hold
    | application a =>
      rw [ho'] at hold
      obtain ⟨case, hcase⟩ := hold
      refine ⟨case, hspec a case _ hcase fun i hi => ?_⟩
      rw [← inputs_of_node? hr] at hi
      exact Nat.lt_trans (lt_of_mem_inputs hi) (lt_of_node? hr)

theorem spec_source (hm : g.MadeBy origin) {n : Node} (hn : g.node? r = some n) {s : Source}
    (ho : origin r = .source s) : n.toNodeSpec = s.spec := by
  have hmade := hm r n hn
  rwa [ho] at hmade

/-- A node that is made from an application uses its operands. -/
theorem spec_application (hm : g.MadeBy origin) {n : Node} (hn : g.node? r = some n) {a : Application Nat}
    (ho : origin r = .application a) :
    (∃ case : Estimator, n.toNodeSpec = a.spec g case) ∧ ∀ i ∈ a.operands, i ∈ g.inputs r := by
  have hmade := hm r n hn
  rw [ho] at hmade
  obtain ⟨case, hcase⟩ := hmade
  exact ⟨⟨case, hcase⟩, fun i hi => by rwa [inputs_of_node? hn, hcase, Application.inputNodes_spec]⟩

theorem shapeAt?_eq (hm : g.MadeBy origin) {n : Node} (hn : g.node? r = some n) {a : Application Nat}
    (ho : origin r = .application a) : shapeAt? origin actual r = a.resultOf? (shapeAt? origin actual) :=
  shapeAt?_application ho fun i hi => lt_of_mem_inputs ((hm.spec_application hn ho).2 i hi)

/-- **No source or application breaks a signature.** -/
theorem signature (hm : g.MadeBy origin) {n : Node} (hn : g.node? r = some n) :
    ((signature? n.toNodeSpec).bind fun b => n.signatureFault? b.params) = none := by
  cases ho : origin r with
  | source s => rw [hm.spec_source hn ho, Source.signature?_spec, Option.bind_none]
  | application a =>
    obtain ⟨⟨case, hcase⟩, -⟩ := hm.spec_application hn ho
    rw [hcase]
    exact Application.signature_spec g case a

variable {root : Nat} (hm : g.MadeBy origin) (hroot : root < g.size)
  (hsources : ∀ r n s, g.Reaches root r → g.node? r = some n → origin r = .source s → n.metadata.Describes (actual r))
  (hrules : ∀ r, g.Reaches root r → ∃ e, shapeAt? origin actual r = some e ∧ e.Fits)
include hm hroot hsources hrules

/-- **Each node below the root is described and breaks no rule for shapes**, by induction along the table. -/
theorem sound (hr : g.Reaches root r) {n : Node} (hn : g.node? r = some n) :
    g.Described (shapeAt? origin actual) r ∧ g.shapeFault? n.toNodeSpec = none := by
  induction r using Nat.strongRecOn generalizing n with
  | ind r ih =>
    obtain ⟨e, he, hfits⟩ := hrules r hr
    cases ho : origin r with
    | source s =>
      have hmade := hm.spec_source hn ho
      have hd := hsources r n s hr hn ho
      rw [shapeAt?_source ho] at he
      cases he
      refine ⟨⟨n, _, shapeAt?_source ho, hn, hfits, hd, fun m hdense => ?_⟩, ?_⟩
      · rw [hmade] at hdense ⊢
        exact Source.metadata_of_dense? hdense
      · rw [hmade]
        exact Source.shapeFault?_spec g s
    | application a =>
      obtain ⟨⟨case, hcase⟩, hops⟩ := hm.spec_application hn ho
      have hdesc : ∀ i ∈ a.operands, g.Described (shapeAt? origin actual) i := fun i hi => by
        obtain ⟨m, hmi⟩ := exists_node? ((hr.input (hops i hi)).lt_size hroot)
        exact (ih i (lt_of_mem_inputs (hops i hi)) (hr.input (hops i hi)) hmi).1
      have hshape := he
      rw [hm.shapeAt?_eq hn ho] at hshape
      obtain ⟨hd, hfault⟩ := Application.spec_sound case hdesc hshape hfits
      rw [← hcase] at hd hfault
      refine ⟨⟨n, e, he, hn, hfits, hd, fun m hdense => ?_⟩, hfault⟩
      rw [hcase, Application.dense?_spec] at hdense
      cases hdense

/-- **A node below the root keeps every rule** when it is registered in the context asked for. -/
theorem keeps (hr : g.Reaches root r) {n : Node} (hn : g.node? r = some n) {expected : Nat}
    (hreg : n.registration = none) (hctx : n.context = expected) : g.Keeps expected n := by
  refine ⟨hreg, hctx, fun hk b hb => ?_, (sound hm hroot hsources hrules hr hn).2⟩
  have hsig := hm.signature hn
  rw [signature?_eq_some_iff.2 ⟨hk, hb⟩] at hsig
  exact hsig

end Graph.MadeBy

end

namespace Workspace

variable {w : Workspace} {held : Multiset Nat}

/-- **Nodes are built by sources and applications alone.** -/
def offered : Workspace → Nat → NodeSpec → Prop := fun w _ spec =>
  (∃ s : Source, spec = s.spec) ∨ ∃ (a : Application Nat) (case : Estimator), spec = a.spec w.graph case

theorem Move.addSource {c : Nat} (hc : c < w.contexts.size) (s : Source) :
    Move offered (w, held) ((w.addSource c s).2, (w.addSource c s).1 ::ₘ held) :=
  .build w held c s.spec hc (by simp [Source.inputNodes_spec]) (.inl ⟨s, rfl⟩)

/-- The first operand of an application has a context. -/
theorem Sound.context_apply (h : Sound w held) {a : Application Nat} (hops : ∀ i ∈ a.operands, i < w.graph.size) :
    ((w.node? a.first).elim 0 fun n => n.context) < w.contexts.size := by
  have hfirst : a.first ∈ a.operands := by cases a <;> simp [Application.first, Application.operands]
  obtain ⟨n, hn⟩ := Graph.exists_node? (hops _ hfirst)
  rw [show w.node? a.first = some n from hn]
  exact h.numbered.placed _ n hn

/-- **An application puts its node at the end of the graph.** -/
theorem Sound.apply_graph (h : Sound w held) {a : Application Nat} (hops : ∀ i ∈ a.operands, i < w.graph.size) :
    (w.apply a).1 = w.graph.size ∧ ∃ (case : Estimator) (n : Node) (hlt : ∀ i ∈ n.inputNodes, i < w.graph.size),
      n.toNodeSpec = a.spec w.graph case ∧ (w.apply a).2.graph = w.graph.add n hlt := by
  have hlt : ∀ case, ∀ i ∈ (a.spec w.graph case).inputNodes, i < w.graph.size := fun case i hi => by
    rw [Application.inputNodes_spec] at hi
    exact hops i hi
  obtain ⟨hplace, hgraph⟩ := build_graph (Array.getElem?_eq_getElem (h.context_apply hops)) (hlt _)
  exact ⟨hplace, _, _, hlt _, rfl, hgraph⟩

theorem Move.apply (h : Sound w held) {a : Application Nat} (hops : ∀ i ∈ a.operands, i ∈ w.heap.living) :
    Move offered (w, held) ((w.apply a).2, (w.apply a).1 ::ₘ held) := by
  have hc := h.context_apply fun i hi => Heap.lt_size_of_mem_living (hops i hi)
  refine .build w held _ _ hc (fun i hi => hops i ?_) (.inr ⟨a, _, rfl⟩)
  rwa [Application.inputNodes_spec] at hi

theorem Reachable.addSource (h : Reachable offered w held) {c : Nat} (hc : c < w.contexts.size) (s : Source) :
    Reachable offered (w.addSource c s).2 ((w.addSource c s).1 ::ₘ held) := h.tail (.addSource hc s)

theorem Reachable.apply (h : Reachable offered w held) {a : Application Nat}
    (hops : ∀ i ∈ a.operands, i ∈ w.heap.living) :
    Reachable offered (w.apply a).2 ((w.apply a).1 ::ₘ held) := h.tail (.apply h.sound hops)

theorem Reachable.madeBy (h : Reachable offered w held) : ∃ origin, w.graph.MadeBy origin := by
  have hall : ∀ b, Relation.ReflTransGen (Move offered) ({}, 0) b → ∃ origin, b.1.graph.MadeBy origin := by
    intro b hb
    induction hb with
    | refl =>
      exact ⟨fun _ => .source (.scalar 0.0), fun r n hn => by simp [graph, Heap.empty, Graph.node?, Graph.empty] at hn⟩
    | @tail a b ha hm ih =>
      obtain ⟨origin, hmade⟩ := ih
      have hreach : Reachable offered a.1 a.2 := ha
      rcases hm.graph hreach.sound with heq | ⟨c, x, spec, hin, -, hp, heq⟩
      · exact ⟨origin, by rw [heq]; exact hmade⟩
      · rw [heq]
        rcases hp with ⟨s, rfl⟩ | ⟨app, case, rfl⟩
        · exact ⟨_, hmade.add hin (o := .source s) rfl⟩
        · exact ⟨_, hmade.add hin (o := .application app) ⟨case, rfl⟩⟩
  exact hall (w, held) h

/-- **Metadata of shapes is sound, and validation rejects no graph that keeps the rules**, however little is known.  In a
graph that is built by sources and applications, let the actual shapes of the sources be such as their metadata
describes, and let the rules hold for all the root uses, in one context and without errors.  Then all metadata below the
root describes the actual shapes, and the root passes. -/
theorem Reachable.shapes_sound (h : Reachable offered w held) :
    (∃ origin, w.graph.MadeBy origin) ∧ ∀ (origin : Nat → Origin) (actual : Nat → Extents), w.graph.MadeBy origin →
      ∀ (root : Nat) (top : Node), w.node? root = some top →
      (∀ r n, w.graph.Reaches root r → w.node? r = some n → n.context = top.context ∧ n.registration = none) →
      (∀ r n s, w.graph.Reaches root r → w.node? r = some n → origin r = .source s → n.metadata.Describes (actual r)) →
      (∀ r, w.graph.Reaches root r → ∃ e, shapeAt? origin actual r = some e ∧ e.Fits) →
      (∀ r n e, w.graph.Reaches root r → w.node? r = some n → shapeAt? origin actual r = some e →
        n.metadata.Describes e) ∧ w.graph.validate root = .ok () := by
  refine ⟨h.madeBy, fun origin actual hm root top hroot hone hsources hrules => ⟨fun r n e hr hn he => ?_, ?_⟩⟩
  · have hlt : root < w.graph.size := Graph.lt_of_node? hroot
    obtain ⟨m, x, hx, hm⟩ := (hm.sound hlt hsources hrules hr hn).1
    cases hn.symm.trans hm.node
    cases he.symm.trans hx
    exact hm.metadata
  · refine Graph.validate_ok_of_keeps hroot fun r n hr hn => ?_
    obtain ⟨hctx, hreg⟩ := hone r n hr hn
    exact hm.keeps (Graph.lt_of_node? hroot) hsources hrules hr hn hreg hctx

/-- A matrix of three columns and an unknown number of rows, its transpose, and the product of both. -/
def gram : Workspace :=
  let w : Workspace := (({} : Workspace).addContext ⟨Uuid.ofNat 0⟩ 0 {}).2
  let w := (w.addSource 0 (.read "x.csv" ⟨none, some 3, none⟩)).2
  let w := (w.apply (.transpose 0)).2
  (w.apply (.matmul 1 0)).2

def gramOrigin : Nat → Origin
  | 0 => .source (.read "x.csv" ⟨none, some 3, none⟩)
  | 1 => .application (.transpose 0)
  | _ => .application (.matmul 1 0)

theorem reachable_gram : Reachable offered gram {2, 1, 0} := by
  refine .tail (.tail (.tail (.single (.context _ _ _ _ _)) (.addSource ?_ _))
    (.build _ _ 0 _ ?_ ?_ (.inr ⟨.transpose 0, _, rfl⟩))) (.build _ _ 0 _ ?_ ?_ (.inr ⟨.matmul 1 0, _, rfl⟩))
  all_goals decide

theorem madeBy_gram : gram.graph.MadeBy gramOrigin := by
  intro r n hn
  have hlt : r < 3 := Graph.lt_of_node? hn
  obtain rfl | rfl | rfl : r = 0 ∨ r = 1 ∨ r = 2 := by omega
  · cases hn
    rfl
  · cases hn
    exact ⟨.average, rfl⟩
  · cases hn
    exact ⟨.average, rfl⟩

/-- With two rows for the matrix, the product is a square of three. -/
theorem shapes_sound_gram : Reachable offered gram {2, 1, 0} ∧ gram.graph.MadeBy gramOrigin ∧
    (∃ n, gram.node? 2 = some n ∧ n.metadata.Describes ⟨3, 3⟩) ∧ gram.graph.validate 2 = .ok () := by
  have h0 : shapeAt? gramOrigin (fun _ => ⟨2, 3⟩) 0 = some ⟨2, 3⟩ := shapeAt?_source rfl
  have h1 : shapeAt? gramOrigin (fun _ => ⟨2, 3⟩) 1 = some ⟨3, 2⟩ := by
    rw [shapeAt?_application rfl (by decide)]
    simp [Application.resultOf?, h0]
  have h2 : shapeAt? gramOrigin (fun _ => ⟨2, 3⟩) 2 = some ⟨3, 3⟩ := by
    rw [shapeAt?_application rfl (by decide)]
    simp [Application.resultOf?, h0, h1]
  have hroot : gram.node? 2 = some gram.graph.nodes[2] := rfl
  have hsmall : ∀ r, gram.graph.Reaches 2 r → r = 0 ∨ r = 1 ∨ r = 2 := fun r hr => by
    have := hr.le
    omega
  obtain ⟨hdesc, hok⟩ := reachable_gram.shapes_sound.2 gramOrigin (fun _ => ⟨2, 3⟩) madeBy_gram 2 _ hroot
    (fun r n hr hn => by
      obtain rfl | rfl | rfl := hsmall r hr
      all_goals
        cases hn
        exact ⟨rfl, rfl⟩)
    (fun r n s hr hn ho => by
      obtain rfl | rfl | rfl := hsmall r hr
      · cases hn
        exact ⟨knows_none _, knows_some rfl⟩
      all_goals cases ho)
    (fun r hr => by
      obtain rfl | rfl | rfl := hsmall r hr
      · exact ⟨_, h0, by decide, by decide, by decide⟩
      · exact ⟨_, h1, by decide, by decide, by decide⟩
      · exact ⟨_, h2, by decide, by decide, by decide⟩)
  exact ⟨reachable_gram, madeBy_gram, ⟨_, hroot, hdesc 2 _ _ (.refl _ 2) hroot h2⟩, hok⟩

end Workspace
end MatrixPlan

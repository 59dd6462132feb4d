import Mathlib.Data.List.Basic
import MatrixPlan.Script.Lowering
import MatrixPlan.Proofs.Graph.Reach
/-!
# Emission — the order in which a lowering emits nodes

A lowering that has emitted the nodes of a list has written a statement for each, in which inputs are called by their
places in this list (`State.Sound`).  A node marked on the stack has its inputs emitted or above it (`Ready`), so it
finds the variables of all of them when its turn comes.  The root stays at the bottom until it is emitted last.
-/
namespace MatrixPlan

theorem NodeSpec.mem_inputNodes_of_mem {n : NodeSpec} {r : Nat} (h : Input.node r ∈ n.inputs) : r ∈ n.inputNodes :=
  List.mem_filterMap.2 ⟨.node r, h, rfl⟩

/-- **The right side of a statement depends on the names of the inputs alone.** -/
theorem NodeSpec.expression_congr {n : NodeSpec} {f f' : Nat → String} (h : ∀ i ∈ n.inputNodes, f i = f' i) :
    n.expression f = n.expression f' := by
  have hin : ∀ a ∈ n.inputs, Input.text f a = Input.text f' a := by
    intro a ha
    cases a with
    | node r => exact h r (mem_inputNodes_of_mem ha)
    | literal value => rfl
  have hun : n.unnamed.map (Input.text f) = n.unnamed.map (Input.text f') :=
    List.map_congr_left fun a ha => hin a (List.mem_append_left _ ha)
  have hnm : (n.named.map fun p => p.1 ++ "=" ++ Input.text f p.2) =
      n.named.map fun p => p.1 ++ "=" ++ Input.text f' p.2 :=
    List.map_congr_left fun p hp => by
      rw [hin p.2 (List.mem_append_right _ (List.mem_map.2 ⟨p, hp, rfl⟩))]
  unfold expression
  simp only [hun, hnm]

namespace Lowering

/-- **The statement of a node that is emitted at a place of an order**: inputs are called by their places in it. -/
def statementAt (g : Graph) (order : List Nat) (k r : Nat) : String :=
  statement (variableName k) ((g.node? r).elim "" fun n => n.expression fun i => variableName (order.idxOf i))

/-- Inputs stand before the nodes that use them. -/
def InputsFirst (g : Graph) (order : List Nat) : Prop :=
  ∀ (k r : Nat), order[k]? = some r → ∀ i ∈ g.inputs r, ∃ j, j < k ∧ order[j]? = some i

/-- **Marked nodes of a stack have their inputs done or above them.** -/
def Ready (g : Graph) : (Nat → Prop) → List (Nat × Bool) → Prop
  | _, [] => True
  | done, (r, expanded) :: stack =>
    (expanded = true → ∀ i ∈ g.inputs r, done i) ∧ Ready g (fun i => done i ∨ i = r) stack

/-- **What a walk from a root keeps** when it has emitted the nodes of `order`. -/
structure State.Sound (g : Graph) (root : Nat) (order : List Nat) (s : State) : Prop where
  vars : ∀ r n, g.node? r = some n →
    s.vars[n.name]? = if r ∈ order then some (variableName (order.idxOf r)) else none
  count : s.vars.size = order.length
  statements : s.statements.toList = order.mapIdx (statementAt g order)
  nodup : order.Nodup
  inputs : InputsFirst g order
  below : ∀ r ∈ order, g.Reaches root r
  stack : ∀ e ∈ s.stack, g.Reaches root e.1
  ready : Ready g (· ∈ order) s.stack
  /-- The root is emitted last, from the bottom of the stack. -/
  bottom : (s.stack = [] ∧ order.getLast? = some root) ∨
    ∃ above mark, s.stack = above ++ [(root, mark)] ∧ (∀ e ∈ above, e.1 < root) ∧ root ∉ order

variable {g : Graph} {root r : Nat} {n : Node} {order : List Nat} {s : State} {stack : List (Nat × Bool)}

theorem Ready.mono {P Q : Nat → Prop} (h : Ready g P stack) (hPQ : ∀ i, P i → Q i) : Ready g Q stack := by
  induction stack generalizing P Q with
  | nil => trivial
  | cons e stack ih =>
    obtain ⟨r, expanded⟩ := e
    exact ⟨fun hx i hi => hPQ i (h.1 hx i hi), ih h.2 fun i hi => hi.imp_left (hPQ i)⟩

theorem Ready.append_unmarked {P : Nat → Prop} {refs : List Nat} (h : Ready g (fun i => P i ∨ i ∈ refs) stack) :
    Ready g P (refs.map (·, false) ++ stack) := by
  induction refs generalizing P with
  | nil => simpa using h
  | cons q refs ih =>
    refine ⟨fun hx => by simp at hx, ih (h.mono fun i hi => ?_)⟩
    rcases hi with hi | hi
    · exact .inl (.inl hi)
    · rcases List.mem_cons.1 hi with rfl | hi
      · exact .inl (.inr rfl)
      · exact .inr hi

theorem InputsFirst.mem (h : InputsFirst g order) (hr : r ∈ order) {i : Nat} (hi : i ∈ g.inputs r) : i ∈ order := by
  obtain ⟨k, hk⟩ := List.mem_iff_getElem?.1 hr
  obtain ⟨j, -, hj⟩ := h k r hk i hi
  exact List.mem_of_getElem? hj

theorem InputsFirst.append (h : InputsFirst g order) (hr : ∀ i ∈ g.inputs r, i ∈ order) :
    InputsFirst g (order ++ [r]) := by
  intro k q hq i hi
  rcases Nat.lt_or_ge k order.length with hk | hk
  · rw [List.getElem?_append_left hk] at hq
    obtain ⟨j, hj, hji⟩ := h k q hq i hi
    exact ⟨j, hj, by rw [List.getElem?_append_left (by omega), hji]⟩
  · rw [List.getElem?_append_right hk, List.getElem?_singleton] at hq
    split at hq
    · cases hq
      obtain ⟨j, hji⟩ := List.mem_iff_getElem?.1 (hr i hi)
      have hj : j < order.length := (List.getElem?_eq_some_iff.1 hji).1
      exact ⟨j, by omega, by rw [List.getElem?_append_left hj, hji]⟩
    · cases hq

theorem statementAt_append (hr : ∀ i ∈ g.inputs r, i ∈ order) (more : List Nat) (k : Nat) :
    statementAt g (order ++ more) k r = statementAt g order k r := by
  have hname : ∀ i ∈ g.inputs r, variableName ((order ++ more).idxOf i) = variableName (order.idxOf i) := fun i hi => by
    rw [List.idxOf_append_of_mem (hr i hi)]
  unfold statementAt
  cases hn : g.node? r with
  | none => rw [Option.elim_none, Option.elim_none]
  | some n =>
    rw [Graph.inputs_of_node? hn] at hname
    rw [Option.elim_some, Option.elim_some, NodeSpec.expression_congr hname]

theorem State.Sound.contains_iff (hs : s.Sound g root order) (hn : g.node? r = some n) :
    s.vars.contains n.name = true ↔ r ∈ order := by
  rw [Std.HashMap.contains_eq_isSome_getElem?, hs.vars r n hn]
  split <;> simp_all

theorem State.Sound.isWaiting_iff (hs : s.Sound g root order) (hr : r < g.size) :
    s.isWaiting g r = true ↔ r ∉ order := by
  obtain ⟨n, hn⟩ := Graph.exists_node? hr
  rw [← hs.contains_iff hn, State.isWaiting, hn]
  simp

/-- **An emitted input is called by its place.** -/
theorem State.Sound.variableAt_eq (hs : s.Sound g root order) (hroot : root < g.size) (hr : r ∈ order) :
    variableAt g s.vars r = variableName (order.idxOf r) := by
  obtain ⟨n, hn⟩ := Graph.exists_node? ((hs.below r hr).lt_size hroot)
  rw [variableAt, hn, Option.elim_some, variableOf, Std.HashMap.getD_eq_getD_getElem?, hs.vars r n hn, if_pos hr,
    Option.getD_some]

theorem State.Sound.lt_size (hs : s.Sound g root order) (hroot : root < g.size) {mark : Bool}
    (h : s.stack = (r, mark) :: stack) : r < g.size :=
  (hs.stack (r, mark) (by rw [h]; exact List.mem_cons_self)).lt_size hroot

/-- **The top of the stack is the root alone, or below the root with the root at the bottom.** -/
theorem State.Sound.top (hs : s.Sound g root order) {mark : Bool} (h : s.stack = (r, mark) :: stack) :
    root ∉ order ∧ ((r = root ∧ stack = []) ∨
      (r < root ∧ ∃ above mark, stack = above ++ [(root, mark)] ∧ ∀ e ∈ above, e.1 < root)) := by
  rcases hs.bottom with ⟨hnil, -⟩ | ⟨above, mark', happ, hlt, hnot⟩
  · rw [h] at hnil
    cases hnil
  · refine ⟨hnot, ?_⟩
    rw [h] at happ
    cases above with
    | nil =>
      simp only [List.nil_append, List.cons.injEq, Prod.mk.injEq] at happ
      exact .inl ⟨happ.1.1, happ.2⟩
    | cons e above =>
      simp only [List.cons_append, List.cons.injEq] at happ
      obtain ⟨rfl, rfl⟩ := happ
      exact .inr ⟨hlt _ List.mem_cons_self, above, mark', rfl, fun e he => hlt e (List.mem_cons_of_mem _ he)⟩

theorem State.sound_start (g : Graph) (root : Nat) : (start root).Sound g root [] where
  vars := by simp [start]
  count := by simp [start]
  statements := rfl
  nodup := List.nodup_nil
  inputs := by intro k r h; simp at h
  below := by simp
  stack := by simp [start, Graph.Reaches.refl]
  ready := ⟨by simp, trivial⟩
  bottom := .inr ⟨[], false, rfl, by simp, by simp⟩

theorem State.Sound.skip (hs : s.Sound g root order) {mark : Bool} (h : s.stack = (r, mark) :: stack)
    (hr : r ∈ order) : State.Sound g root order { s with stack := stack } := by
  obtain ⟨hnot, htop⟩ := hs.top h
  have hready := hs.ready
  have hstack := hs.stack
  rw [h] at hready hstack
  refine ⟨hs.vars, hs.count, hs.statements, hs.nodup, hs.inputs, hs.below,
    fun e he => hstack e (List.mem_cons_of_mem _ he), hready.2.mono fun i hi => ?_, ?_⟩
  · rcases hi with hi | rfl
    · exact hi
    · exact hr
  · rcases htop with ⟨rfl, -⟩ | ⟨-, above, mark, happ, hlt⟩
    · exact absurd hr hnot
    · exact .inr ⟨above, mark, happ, hlt, hnot⟩

theorem State.Sound.expand (hs : s.Sound g root order) (hroot : root < g.size)
    (h : s.stack = (r, false) :: stack) (hn : g.node? r = some n) :
    State.Sound g root order
      { s with stack := (n.inputNodes.filter (s.isWaiting g)).map (·, false) ++ (r, true) :: stack } := by
  obtain ⟨hnot, htop⟩ := hs.top h
  have hready := hs.ready
  have hstack := hs.stack
  rw [h] at hready hstack
  have hr : g.Reaches root r := hstack (r, false) List.mem_cons_self
  have hwaits : ∀ i ∈ n.inputNodes.filter (s.isWaiting g), i ∈ g.inputs r := fun i hi => by
    rw [Graph.inputs_of_node? hn]
    exact (List.mem_filter.1 hi).1
  refine ⟨hs.vars, hs.count, hs.statements, hs.nodup, hs.inputs, hs.below, fun e he => ?_,
    Ready.append_unmarked ⟨fun _ i hi => ?_, hready.2.mono fun i hi => ?_⟩, ?_⟩
  · rcases List.mem_append.1 he with he | he
    · obtain ⟨i, hi, rfl⟩ := List.mem_map.1 he
      exact hr.input (hwaits i hi)
    · rcases List.mem_cons.1 he with rfl | he
      · exact hr
      · exact hstack e (List.mem_cons_of_mem _ he)
  · by_cases hdone : i ∈ order
    · exact .inl hdone
    · have hwait := (hs.isWaiting_iff ((hr.input hi).lt_size hroot)).2 hdone
      rw [Graph.inputs_of_node? hn] at hi
      exact .inr (List.mem_filter.2 ⟨hi, hwait⟩)
  · exact hi.imp_left .inl
  · have hlt : ∀ e ∈ (n.inputNodes.filter (s.isWaiting g)).map (·, false), e.1 < r := fun e he => by
      obtain ⟨i, hi, rfl⟩ := List.mem_map.1 he
      exact Graph.lt_of_mem_inputs (hwaits i hi)
    rcases htop with ⟨rfl, rfl⟩ | ⟨hrt, above, mark, rfl, habove⟩
    · exact .inr ⟨_, true, rfl, hlt, hnot⟩
    · refine .inr ⟨(n.inputNodes.filter (s.isWaiting g)).map (·, false) ++ (r, true) :: above, mark, by simp, ?_, hnot⟩
      intro e he
      rcases List.mem_append.1 he with he | he
      · exact Nat.lt_trans (hlt e he) hrt
      · rcases List.mem_cons.1 he with rfl | he
        · exact hrt
        · exact habove e he

/-- **Emitting a marked node** calls all its inputs by their places and puts it at the end of the order. -/
theorem State.Sound.emit (hd : g.DistinctNames) (hs : s.Sound g root order) (hroot : root < g.size)
    (h : s.stack = (r, true) :: stack) (hn : g.node? r = some n) (hnew : r ∉ order) :
    State.Sound g root (order ++ [r]) (State.emit g { s with stack := stack } n) := by
  obtain ⟨hnot, htop⟩ := hs.top h
  have hready := hs.ready
  have hstack := hs.stack
  rw [h] at hready hstack
  have hdone : ∀ i ∈ g.inputs r, i ∈ order := hready.1 rfl
  have hmem : ∀ q, q ∈ order ++ [r] ↔ q ∈ order ∨ q = r := by simp
  refine ⟨fun q m hm => ?_, ?_, ?_, ?_, hs.inputs.append hdone, fun q hq => ?_,
    fun e he => hstack e (List.mem_cons_of_mem _ he), hready.2.mono fun i hi => (hmem i).2 hi, ?_⟩
  · change (s.vars.insert n.name (variableName s.vars.size))[m.name]? = _
    rw [Std.HashMap.getElem?_insert]
    by_cases hq : q = r
    · subst hq
      rw [hn] at hm
      cases hm
      rw [if_pos (beq_self_eq_true n.name), if_pos ((hmem q).2 (.inr rfl)), List.idxOf_append_of_notMem hnew, hs.count]
      simp
    · have hne : (n.name == m.name) = false := by
        rw [beq_eq_false_iff_ne]
        exact fun heq => hq (hd q r m n hm hn heq.symm)
      rw [hne, if_neg (by simp), hs.vars q m hm]
      by_cases hqo : q ∈ order
      · rw [if_pos hqo, if_pos ((hmem q).2 (.inl hqo)), List.idxOf_append_of_mem hqo]
      · rw [if_neg hqo, if_neg (by simp [hqo, hq])]
  · change (s.vars.insert n.name (variableName s.vars.size)).size = _
    rw [Std.HashMap.size_insert, if_neg, hs.count, List.length_append, List.length_singleton]
    rw [← Std.HashMap.contains_iff_mem, hs.contains_iff hn]
    exact hnew
  · change (s.statements.push (statement (variableName s.vars.size) (n.expression (variableAt g s.vars)))).toList = _
    have hbefore : order.mapIdx (statementAt g order) = order.mapIdx (statementAt g (order ++ [r])) :=
      List.mapIdx_eq_mapIdx_iff.2 fun k hk =>
        (statementAt_append (fun i hi => hs.inputs.mem (List.getElem_mem hk) hi) [r] k).symm
    have hlast : n.expression (variableAt g s.vars) = n.expression fun i => variableName (order.idxOf i) :=
      NodeSpec.expression_congr fun i hi => hs.variableAt_eq hroot (hdone i (by rwa [Graph.inputs_of_node? hn]))
    rw [Array.toList_push, hs.statements, List.mapIdx_concat, hs.count, hbefore, statementAt_append hdone, statementAt,
      hn, Option.elim_some, hlast]
  · exact List.nodup_append.2 ⟨hs.nodup, by simp, fun a ha b hb => by
      rw [List.mem_singleton.1 hb]
      exact fun heq => hnew (heq ▸ ha)⟩
  · rcases (hmem q).1 hq with hq | rfl
    · exact hs.below q hq
    · exact hstack (q, true) List.mem_cons_self
  · rcases htop with ⟨rfl, rfl⟩ | ⟨hrt, above, mark, happ, hlt⟩
    · exact .inl ⟨rfl, List.getLast?_concat⟩
    · refine .inr ⟨above, mark, happ, hlt, fun hin => ?_⟩
      rcases (hmem root).1 hin with hin | rfl
      · exact hnot hin
      · exact Nat.lt_irrefl _ hrt

/-- **What a step of a walk does**: it passes over a node whose name has a variable, emits a marked one, and looks at what
any other one waits for first. -/
theorem visit_cases (hn : g.node? r = some n) (s : State) (mark : Bool) :
    (s.vars.contains n.name = true ∧ visit g s r mark = s) ∨
      (¬ s.vars.contains n.name = true ∧ mark = true ∧ visit g s r mark = s.emit g n) ∨
      (¬ s.vars.contains n.name = true ∧ mark = false ∧ visit g s r mark =
        { s with stack := (n.inputNodes.filter (s.isWaiting g)).map (·, false) ++ (r, true) :: s.stack }) := by
  unfold visit
  rw [hn]
  dsimp only
  by_cases hc : s.vars.contains n.name = true
  · exact .inl ⟨hc, if_pos hc⟩
  · rw [if_neg hc]
    cases mark with
    | true => exact .inr (.inl ⟨hc, rfl, rfl⟩)
    | false => exact .inr (.inr ⟨hc, rfl, rfl⟩)

/-- A walk that has emitted the nodes of `order` passes over these. -/
theorem State.Sound.visit_cases (hs : s.Sound g root order) (hroot : root < g.size) {mark : Bool}
    (h : s.stack = (r, mark) :: stack) :
    ∃ n, g.node? r = some n ∧
      ((r ∈ order ∧ Lowering.visit g { s with stack := stack } r mark = { s with stack := stack }) ∨
        (r ∉ order ∧ mark = true ∧
          Lowering.visit g { s with stack := stack } r mark = State.emit g { s with stack := stack } n) ∨
        (r ∉ order ∧ mark = false ∧ Lowering.visit g { s with stack := stack } r mark =
          { s with stack := (n.inputNodes.filter (s.isWaiting g)).map (·, false) ++ (r, true) :: stack })) := by
  obtain ⟨n, hn⟩ := Graph.exists_node? (hs.lt_size hroot h)
  refine ⟨n, hn, ?_⟩
  rw [← hs.contains_iff hn]
  exact Lowering.visit_cases hn { s with stack := stack } mark

/-- **A step of the walk keeps it sound**, with the order as it was or longer by a node. -/
theorem State.Sound.visit (hd : g.DistinctNames) (hs : s.Sound g root order) (hroot : root < g.size) {mark : Bool}
    (h : s.stack = (r, mark) :: stack) :
    ∃ order, State.Sound g root order (Lowering.visit g { s with stack := stack } r mark) := by
  obtain ⟨n, hn, ⟨hmem, hstep⟩ | ⟨hnew, rfl, hstep⟩ | ⟨-, rfl, hstep⟩⟩ := hs.visit_cases hroot h <;> rw [hstep]
  · exact ⟨order, hs.skip h hmem⟩
  · exact ⟨order ++ [r], hs.emit hd hroot h hn hnew⟩
  · exact ⟨order, hs.expand hroot h hn⟩

/-- **The states of a lowering on its way.** -/
inductive Walk (g : Graph) (root : Nat) : State → Prop where
  | start : Walk g root (start root)
  | visit {s : State} {r : Nat} {mark : Bool} {stack : List (Nat × Bool)} (hs : Walk g root s)
      (h : s.stack = (r, mark) :: stack) : Walk g root (visit g { s with stack := stack } r mark)

theorem Walk.sound (hd : g.DistinctNames) (hroot : root < g.size) (h : Walk g root s) :
    ∃ order, s.Sound g root order := by
  induction h with
  | start => exact ⟨[], State.sound_start g root⟩
  | visit _ h ih =>
    obtain ⟨order, hs⟩ := ih
    exact hs.visit hd hroot h

theorem Walk.run (h : Walk g root s) : Walk g root (Lowering.run g s) ∧ (Lowering.run g s).stack = [] := by
  fun_induction Lowering.run g s with
  | case1 s hnil => exact ⟨h, hnil⟩
  | case2 s r mark stack hs ih => exact ih (h.visit hs)

/-- **An order in which a lowering emits what a root uses**: each node once, after its inputs, the root last. -/
structure Emits (g : Graph) (root : Nat) (order : List Nat) : Prop where
  nodup : order.Nodup
  mem_iff : ∀ r, r ∈ order ↔ g.Reaches root r
  inputs : InputsFirst g order
  last : order.getLast? = some root

/-- **A sound walk that is over has emitted what the root reaches.** -/
theorem State.Sound.emits (hs : s.Sound g root order) (hnil : s.stack = []) : Emits g root order := by
  have hlast : order.getLast? = some root := by
    rcases hs.bottom with ⟨-, h⟩ | ⟨above, mark, h, -⟩
    · exact h
    · rw [hnil] at h
      simp at h
  refine ⟨hs.nodup, fun r => ⟨hs.below r, fun hr => ?_⟩, hs.inputs, hlast⟩
  exact hr.mem_of_closed (List.mem_of_getLast? hlast) fun q hq i hi => hs.inputs.mem hq hi

end Lowering
end MatrixPlan

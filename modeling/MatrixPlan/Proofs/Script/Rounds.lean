import MatrixPlan.Proofs.Graph.Rounds
/-!
# Rounds — how often a lowering goes round its loop

A node can be on the stack of a lowering several times before its inputs are looked at.  It is marked only once all the
same: the marked nodes of the stack are those on the way down from the root to the node on top, so they fall towards the top
(`Falling`), and a node that is looked at is not among them.  When it comes up again, its name has a variable, whether it is
the node itself that was emitted or another one of this name (`State.DoneWith`).
-/
namespace MatrixPlan
namespace Lowering

open MatrixPlan.Graph (Loop Progress Round pushes pushes_cons)

/-- One round of the loop. -/
def step (g : Graph) (s : State) : Progress State State :=
  match s.stack with
  | [] => .done s
  | (r, expanded) :: stack => .going (visit g { s with stack := stack } r expanded)

/-- The marked nodes among entries of the stack. -/
def marks (entries : List (Nat × Bool)) : List Nat := (entries.filter (·.2)).map (·.1)

/-- **What stands above a marked node of the stack is before it in the graph.** -/
def Falling (stack : List (Nat × Bool)) : Prop := stack.Pairwise fun e e' => e'.2 = true → e.1 < e'.1

variable {g : Graph} {root r : Nat} {n : Node} {done : List Nat} {s answer : State} {stack : List (Nat × Bool)} {mark : Bool}
  {rounds : List (Round State (Nat × Bool))}

/-! ## Marked nodes -/

@[simp] theorem marks_marked (r : Nat) (stack : List (Nat × Bool)) : marks ((r, true) :: stack) = r :: marks stack := rfl

@[simp] theorem marks_unmarked (r : Nat) (stack : List (Nat × Bool)) : marks ((r, false) :: stack) = marks stack := rfl

theorem marks_expand (refs : List Nat) (r : Nat) (stack : List (Nat × Bool)) :
    marks (refs.map (·, false) ++ (r, true) :: stack) = r :: marks stack := by
  simp [marks, List.filter_map]

theorem mem_marks {entries : List (Nat × Bool)} : r ∈ marks entries ↔ (r, true) ∈ entries := by simp [marks]

theorem count_marks (entries : List (Nat × Bool)) (r : Nat) : (marks entries).count r = entries.count (r, true) := by
  induction entries with
  | nil => rfl
  | cons e entries ih =>
    obtain ⟨q, mark⟩ := e
    cases mark <;> simp [List.count_cons, ih]

theorem Falling.notMem_marks (h : Falling ((r, mark) :: stack)) : r ∉ marks stack := fun hr =>
  Nat.lt_irrefl r ((List.pairwise_cons.1 h).1 _ (mem_marks.1 hr) rfl)

theorem Falling.expand (h : Falling ((r, false) :: stack)) {refs : List Nat} (hrefs : ∀ i ∈ refs, i < r) :
    Falling (refs.map (·, false) ++ (r, true) :: stack) := by
  obtain ⟨htop, hrest⟩ := List.pairwise_cons.1 h
  refine List.pairwise_append.2 ⟨?_, List.pairwise_cons.2 ⟨htop, hrest⟩, fun e he e' he' hmark => ?_⟩
  · rw [List.pairwise_map]
    exact List.pairwise_of_forall fun _ _ hmark => absurd hmark Bool.false_ne_true
  · obtain ⟨i, hi, rfl⟩ := List.mem_map.1 he
    rcases List.mem_cons.1 he' with rfl | he'
    · exact hrefs i hi
    · exact (hrefs i hi).trans (htop e' he' hmark)

/-! ## The loop -/

theorem step_nil (h : s.stack = []) : step g s = .done s := by rw [step, h]

theorem step_cons (h : s.stack = (r, mark) :: stack) : step g s = .going (visit g { s with stack := stack } r mark) := by
  rw [step, h]

theorem run_of_done (h : step g s = .done answer) : run g s = answer := by
  rw [run]
  split
  · rename_i hnil
    cases (step_nil hnil).symm.trans h
    rfl
  · rename_i hcons
    cases (step_cons hcons).symm.trans h

theorem run_of_going {next : State} (h : step g s = .going next) : run g s = run g next := by
  rw [run]
  split
  · rename_i hnil
    cases (step_nil hnil).symm.trans h
  · rename_i hcons
    cases (step_cons hcons).symm.trans h
    rfl

theorem exists_pushed (g : Graph) (s : State) (r : Nat) (mark : Bool) :
    ∃ pushed, (visit g s r mark).stack = pushed ++ s.stack := by
  unfold visit
  split
  · exact ⟨[], rfl⟩
  · rename_i n hn
    split
    · exact ⟨[], rfl⟩
    · split
      · exact ⟨[], rfl⟩
      · exact ⟨(n.inputNodes.filter (s.isWaiting g)).map (·, false) ++ [(r, true)], by simp⟩

/-- **A lowering ends**, with the finished walk. -/
theorem exists_rounds_run (g : Graph) (s : State) : ∃ rounds, Loop State.stack (step g) s rounds (run g s) := by
  fun_induction run g s with
  | case1 s hnil => exact ⟨[], .finish hnil (step_nil hnil)⟩
  | case2 s r mark stack hs ih =>
    obtain ⟨rounds, h⟩ := ih
    obtain ⟨pushed, hnext⟩ := exists_pushed g { s with stack := stack } r mark
    exact ⟨_, .again hs (step_cons hs) hnext h⟩

/-! ## What is done with -/

/-- **A walk from a root is done with the marked nodes of a list**, which are no longer on the stack: they have given their
names to variables, and no other names have one. -/
structure State.DoneWith (g : Graph) (root : Nat) (done : List Nat) (s : State) : Prop where
  named : ∀ name, s.vars.contains name = true ↔ ∃ r ∈ done, ∃ n, g.node? r = some n ∧ n.name = name
  below : ∀ r ∈ done, g.Reaches root r
  stack : ∀ e ∈ s.stack, g.Reaches root e.1
  falling : Falling s.stack
  nodup : (done ++ marks s.stack).Nodup

theorem State.doneWith_start (g : Graph) (root : Nat) : (start root).DoneWith g root [] where
  named := by simp [start]
  below := by simp
  stack := by simp [start, Graph.Reaches.refl]
  falling := List.pairwise_singleton _ _
  nodup := List.nodup_nil

theorem State.DoneWith.skip (hs : s.DoneWith g root done) (h : s.stack = (r, false) :: stack) :
    State.DoneWith g root done { s with stack := stack } := by
  obtain ⟨hnamed, hbelow, hstack, hfall, hnodup⟩ := hs
  rw [h] at hstack hfall hnodup
  exact ⟨hnamed, hbelow, fun e he => hstack e (List.mem_cons_of_mem _ he), (List.pairwise_cons.1 hfall).2, hnodup⟩

/-- A marked node is done with when it comes up again, whether it is emitted or its name has a variable. -/
theorem State.DoneWith.leave (hs : s.DoneWith g root done) (h : s.stack = (r, true) :: stack) (hn : g.node? r = some n)
    {next : State} (hnext : next.stack = stack)
    (hvars : ∀ name, next.vars.contains name = true ↔ s.vars.contains name = true ∨ n.name = name) :
    next.DoneWith g root (done ++ [r]) := by
  obtain ⟨hnamed, hbelow, hstack, hfall, hnodup⟩ := hs
  rw [h] at hstack hfall hnodup
  refine ⟨fun name => ?_, fun q hq => ?_, ?_, ?_, ?_⟩
  · rw [hvars, hnamed]
    constructor
    · rintro (⟨q, hq, m, hm⟩ | hname)
      · exact ⟨q, List.mem_append_left [r] hq, m, hm⟩
      · exact ⟨r, List.mem_concat_self, n, hn, hname⟩
    · rintro ⟨q, hq, m, hm, hname⟩
      rcases List.mem_append.1 hq with hq | hq
      · exact .inl ⟨q, hq, m, hm, hname⟩
      · rw [List.mem_singleton.1 hq] at hm
        cases hn.symm.trans hm
        exact .inr hname
  · rcases List.mem_append.1 hq with hq | hq
    · exact hbelow q hq
    · rw [List.mem_singleton.1 hq]
      exact hstack (r, true) List.mem_cons_self
  · rw [hnext]
    exact fun e he => hstack e (List.mem_cons_of_mem _ he)
  · rw [hnext]
    exact (List.pairwise_cons.1 hfall).2
  · rwa [hnext, ← List.append_cons]

/-- A node that is looked at is marked. -/
theorem State.DoneWith.expand (hs : s.DoneWith g root done) (h : s.stack = (r, false) :: stack) (hn : g.node? r = some n)
    (hnew : ¬ s.vars.contains n.name = true) {refs : List Nat} (hrefs : ∀ i ∈ refs, i ∈ g.inputs r) :
    State.DoneWith g root done { s with stack := refs.map (·, false) ++ (r, true) :: stack } := by
  obtain ⟨hnamed, hbelow, hstack, hfall, hnodup⟩ := hs
  rw [h] at hstack hfall hnodup
  have hdone : r ∉ done := fun hr => hnew ((hnamed n.name).2 ⟨r, hr, n, hn, rfl⟩)
  refine ⟨hnamed, hbelow, fun e he => ?_, hfall.expand fun i hi => Graph.lt_of_mem_inputs (hrefs i hi), ?_⟩
  · rcases List.mem_append.1 he with he | he
    · obtain ⟨i, hi, rfl⟩ := List.mem_map.1 he
      exact (hstack (r, false) List.mem_cons_self).input (hrefs i hi)
    · rcases List.mem_cons.1 he with rfl | he
      · exact hstack (r, false) List.mem_cons_self
      · exact hstack e (List.mem_cons_of_mem _ he)
  · rw [marks_expand]
    exact List.nodup_middle.2 (List.nodup_cons.2 ⟨List.not_mem_append hdone hfall.notMem_marks, hnodup⟩)

/-- **A lowering marks a node once**, when it has neither been done with nor marked, and puts it and inputs of it on the
stack.  It ends done with the nodes it has marked. -/
theorem State.DoneWith.marked_once (hroot : root < g.size) (hs : s.DoneWith g root done)
    (h : Loop State.stack (step g) s rounds answer) :
    (∃ final, answer.DoneWith g root final ∧ final.Perm (done ++ marks s.stack ++ marks (pushes rounds))) ∧
    (pushes rounds).length ≤ ((marks (pushes rounds)).map fun r => 1 + (g.inputs r).length).sum := by
  -- the list grows on the way, so the hypothesis is used at the one a round leads to
  induction h generalizing done with
  | @finish s answer hnil hdone =>
    cases (step_nil hnil).symm.trans hdone
    exact ⟨⟨done, hs, by simp [hnil, marks, pushes]⟩, Nat.zero_le _⟩
  | @leave s e stack answer hstack hdone => cases (step_cons hstack).symm.trans hdone
  | @again s next e stack pushed rounds answer hstack hgoing hnext _ ih =>
    obtain ⟨r, mark⟩ := e
    cases (step_cons hstack).symm.trans hgoing
    obtain ⟨n, hn⟩ := Graph.exists_node? ((hs.stack (r, mark) (by rw [hstack]; exact List.mem_cons_self)).lt_size hroot)
    obtain ⟨hc, hstep⟩ | ⟨hc, rfl, hstep⟩ | ⟨hc, rfl, hstep⟩ := visit_cases hn { s with stack := stack } mark <;>
      rw [hstep] at hnext ih <;> rw [pushes_cons, hstack]
    · obtain rfl : pushed = [] := List.self_eq_append_left.1 hnext
      cases mark with
      | true =>
        have hleft : State.DoneWith g root (done ++ [r]) { s with stack := stack } :=
          hs.leave hstack hn rfl fun name => ⟨.inl, fun hname => hname.elim id fun heq => heq ▸ hc⟩
        rw [marks_marked, List.append_cons]
        exact ih hleft
      | false => exact ih (hs.skip hstack)
    · obtain rfl : pushed = [] := List.self_eq_append_left.1 hnext
      have hleft : State.DoneWith g root (done ++ [r]) (State.emit g { s with stack := stack } n) :=
        hs.leave hstack hn rfl fun name => by simp [State.emit, or_comm]
      rw [marks_marked, List.append_cons]
      exact ih hleft
    · obtain ⟨refs, hrefs⟩ : ∃ refs, n.inputNodes.filter (State.isWaiting g { s with stack := stack }) = refs := ⟨_, rfl⟩
      rw [hrefs] at hnext ih
      have hinputs : ∀ i ∈ refs, i ∈ g.inputs r := fun i hi => by
        rw [Graph.inputs_of_node? hn]
        exact (List.mem_filter.1 (hrefs ▸ hi)).1
      have hle : refs.length ≤ (g.inputs r).length := by
        rw [Graph.inputs_of_node? hn, ← hrefs]
        exact List.length_filter_le _ _
      obtain ⟨⟨final, hfinal, hperm⟩, hlength⟩ := ih (hs.expand hstack hn hc hinputs)
      have hpushed : refs.map (·, false) ++ [(r, true)] ++ stack = pushed ++ stack := by rw [← hnext, ← List.append_cons]
      rw [← List.append_cancel_right hpushed, ← List.append_cons, marks_expand]
      dsimp only at hperm
      rw [marks_expand] at hperm
      refine ⟨⟨final, hfinal, hperm.trans ?_⟩, ?_⟩
      · rw [List.append_assoc, List.append_assoc]
        exact List.perm_middle.symm.append_left done
      · rw [List.length_append, List.length_map, List.length_cons, List.map_cons, List.sum_cons]
        omega

/-- **What the loop of a lowering does**: it ends in the finished walk, marks nodes below the root only and each at most
once, all of them if their names tell them apart, and goes round at most once for each time that a node is used, once for
each node, and once more. -/
structure MarksOnce (g : Graph) (root : Nat) (rounds : List (Round State (Nat × Bool))) (answer : State) : Prop where
  answer_eq : answer = ofRoot g root
  once : ∀ r, (pushes rounds).count (r, true) ≤ 1
  below : ∀ r, (r, true) ∈ pushes rounds → r ∈ g.below root
  all : g.DistinctNames → ∀ r ∈ g.below root, (pushes rounds).count (r, true) = 1
  length_le : rounds.length ≤ 1 + (g.below root).card + g.references root

theorem marksOnce (hroot : root < g.size) (h : Loop State.stack (step g) (start root) rounds answer) :
    MarksOnce g root rounds answer := by
  obtain ⟨⟨final, hfinal, hperm⟩, hlength⟩ := (State.doneWith_start g root).marked_once hroot h
  have hperm : final.Perm (marks (pushes rounds)) := hperm
  have hnodup : (marks (pushes rounds)).Nodup := hperm.nodup_iff.1 (List.nodup_append.1 hfinal.nodup).1
  have hreach : ∀ r ∈ marks (pushes rounds), g.Reaches root r := fun r hr => hfinal.below r (hperm.mem_iff.2 hr)
  have hanswer : answer = ofRoot g root := h.answer_eq (fun _ _ => run_of_done) fun _ _ => run_of_going
  refine ⟨hanswer, fun r => ?_, fun r hr => Graph.mem_below.2 (hreach r (mem_marks.2 hr)), fun hd r hr => ?_, ?_⟩
  · rw [← count_marks]
    exact List.nodup_iff_count_le_one.1 hnodup r
  · -- a node that is emitted has given its name to a variable, and no other marked node has this name
    obtain ⟨order, hs⟩ := (Walk.start.run).1.sound hd hroot
    have hmem : r ∈ order := ((hs.emits Walk.start.run.2).mem_iff r).2 (Graph.mem_below.1 hr)
    obtain ⟨n, hn⟩ := Graph.exists_node? ((Graph.mem_below.1 hr).lt_size hroot)
    obtain ⟨q, hq, m, hm, hname⟩ := (hfinal.named n.name).1 (by rw [hanswer]; exact (hs.contains_iff hn).2 hmem)
    obtain rfl : q = r := hd q r m n hm hn hname
    rw [← count_marks]
    exact List.count_eq_one_of_mem hnodup (hperm.mem_iff.1 hq)
  · have hsum := hlength.trans (Graph.sum_map_le hnodup hreach _)
    rw [Finset.sum_add_distrib, ← Finset.card_eq_sum_ones] at hsum
    have hlen := h.length_le
    rw [start, List.length_singleton] at hlen
    rw [Graph.references]
    omega

end Lowering
end MatrixPlan

import MatrixPlan.Proofs.Graph.Verdict
import MatrixPlan.Proofs.Script.Postorder
/-!
# Survey — the order in which a validation looks at nodes

A validation looks at a node before its inputs, and of these at the last one first.  This order can be said by recursion
(`Graph.survey`), and the fault that is reported is the first one in it.  So the fault of a root hides those of all it
uses, where a lowering would come to them first; the two orders report the same when there is one fault to report.
-/
namespace MatrixPlan
namespace Graph

/-- **The recursive survey** from a node, when the nodes of `done` have been looked at before: one of these is passed over,
any other node is looked at before what its inputs use, the last input first. -/
def surveyFrom (g : Graph) (done : List Nat) (r : Nat) : List Nat :=
  if r ∈ done then done
  else (g.inputs r).reverse.attach.foldl (fun done i => g.surveyFrom done i.1) (done ++ [r])
termination_by r
decreasing_by exact lt_of_mem_inputs (List.mem_reverse.1 i.2)

def survey (g : Graph) (root : Nat) : List Nat := g.surveyFrom [] root

def faultAt? (g : Graph) (expected r : Nat) : Option PlanError := (g.node? r).bind (g.fault? expected)

/-- **The verdict on nodes in an order**: the first fault among them, if there is one. -/
def verdictOn (g : Graph) (expected : Nat) (order : List Nat) : Except PlanError Unit :=
  match order.findSome? (g.faultAt? expected) with
  | some e => .error e
  | none => .ok ()

/-- **An order that goes down from a root**: each node stands in it once, and apart from the root after one that uses
it. -/
inductive Descends (g : Graph) (root : Nat) : List Nat → Prop where
  | nil : Descends g root []
  | snoc {done : List Nat} {r : Nat} (before : Descends g root done) (new : r ∉ done)
      (used : r = root ∨ ∃ q ∈ done, r ∈ g.inputs q) : Descends g root (done ++ [r])

variable {g : Graph} {expected root r : Nat} {done order order' : List Nat} {v next : Visit}

theorem surveyFrom_of_mem (h : r ∈ done) : g.surveyFrom done r = done := by
  rw [surveyFrom, if_pos h]

theorem surveyFrom_of_notMem (h : r ∉ done) :
    g.surveyFrom done r = (g.inputs r).reverse.foldl g.surveyFrom (done ++ [r]) := by
  rw [surveyFrom, if_neg h]
  simp only [List.foldl_attach]

/-! ## What a survey looks at -/

theorem isPrefix_foldl {f : List Nat → Nat → List Nat} {refs : List Nat} (hf : ∀ i ∈ refs, ∀ done, done <+: f done i)
    (done : List Nat) : done <+: refs.foldl f done :=
  List.foldlRecOn (motive := (done <+: ·)) _ _ (List.prefix_refl done) fun more hmore i hi => hmore.trans (hf i hi more)

theorem isPrefix_surveyFrom (g : Graph) (done : List Nat) (r : Nat) : done <+: g.surveyFrom done r := by
  induction r using Nat.strongRecOn generalizing done with
  | ind r ih =>
    by_cases hr : r ∈ done
    · rw [surveyFrom_of_mem hr]
    · rw [surveyFrom_of_notMem hr]
      refine (List.prefix_append done [r]).trans (isPrefix_foldl (fun i hi more => ?_) _)
      exact ih i (lt_of_mem_inputs (List.mem_reverse.1 hi)) more

theorem isPrefix_foldl_surveyFrom (g : Graph) (done refs : List Nat) : done <+: refs.foldl g.surveyFrom done :=
  isPrefix_foldl (fun i _ more => g.isPrefix_surveyFrom more i) done

theorem mem_surveyFrom_self (g : Graph) (done : List Nat) (r : Nat) : r ∈ g.surveyFrom done r := by
  by_cases hr : r ∈ done
  · exact (g.isPrefix_surveyFrom done r).subset hr
  · rw [surveyFrom_of_notMem hr]
    exact (g.isPrefix_foldl_surveyFrom (done ++ [r]) _).subset (List.mem_append_right done (List.mem_singleton_self r))

theorem mem_foldl_surveyFrom {refs : List Nat} {i : Nat} (hi : i ∈ refs) (done : List Nat) :
    i ∈ refs.foldl g.surveyFrom done := by
  obtain ⟨before, after, rfl⟩ := List.append_of_mem hi
  rw [List.foldl_append, List.foldl_cons]
  exact (g.isPrefix_foldl_surveyFrom _ after).subset (g.mem_surveyFrom_self _ i)

/-- **A survey goes down** from where it starts. -/
theorem Descends.surveyFrom (h : Descends g root done) (hr : r = root ∨ ∃ q ∈ done, r ∈ g.inputs q) :
    Descends g root (g.surveyFrom done r) := by
  induction r using Nat.strongRecOn generalizing done with
  | ind r ih =>
    by_cases hmem : r ∈ done
    · rwa [surveyFrom_of_mem hmem]
    · rw [surveyFrom_of_notMem hmem]
      -- the inputs are looked at when the node that uses them has been
      refine (List.foldlRecOn (motive := fun more => Descends g root more ∧ r ∈ more) _ _
        ⟨h.snoc hmem hr, List.mem_append_right done (List.mem_singleton_self r)⟩ fun more hmore i hi => ?_).1
      rw [List.mem_reverse] at hi
      exact ⟨ih i (lt_of_mem_inputs hi) hmore.1 (.inr ⟨r, hmore.2, hi⟩), (g.isPrefix_surveyFrom more i).subset hmore.2⟩

theorem Descends.reaches (h : Descends g root order) : ∀ r ∈ order, g.Reaches root r := by
  induction h with
  | nil => simp
  | snoc before new used ih =>
    intro q hq
    rcases List.mem_append.1 hq with hq | hq
    · exact ih q hq
    · rw [List.mem_singleton.1 hq]
      rcases used with rfl | ⟨p, hp, hi⟩
      · exact .refl g _
      · exact (ih p hp).input hi

/-- Up to each of its nodes an order goes down from the root. -/
theorem Descends.cut (h : Descends g root order) {rest : List Nat} (hs : order = done ++ r :: rest) :
    Descends g root done ∧ (r = root ∨ ∃ q ∈ done, r ∈ g.inputs q) := by
  induction h generalizing rest with
  | nil => simp at hs
  | @snoc order x before new used ih =>
    rcases List.eq_nil_or_concat rest with rfl | ⟨rest, y, rfl⟩
    · obtain ⟨rfl, heq⟩ := List.append_inj' hs rfl
      cases heq
      exact ⟨before, used⟩
    · rw [List.concat_eq_append, ← List.cons_append, ← List.append_assoc] at hs
      exact ih (List.append_inj' hs rfl).1

/-- **A survey looks at the inputs of each node** that it looks at. -/
theorem inputs_mem_surveyFrom {x i : Nat} (hx : x ∈ g.surveyFrom done r) (hnew : x ∉ done) (hi : i ∈ g.inputs x) :
    i ∈ g.surveyFrom done r := by
  induction r using Nat.strongRecOn generalizing done with
  | ind r ih =>
    by_cases hmem : r ∈ done
    · rw [surveyFrom_of_mem hmem] at hx
      exact absurd hx hnew
    · rw [surveyFrom_of_notMem hmem] at hx ⊢
      by_cases hxr : x = r
      · subst hxr
        exact mem_foldl_surveyFrom (List.mem_reverse.2 hi) _
      · refine List.foldlRecOn (motive := fun more => x ∈ more → i ∈ more) _ _ (fun hmore => ?_)
          (fun more hmore q hq hx => ?_) hx
        · rcases List.mem_append.1 hmore with hmore | hmore
          · exact absurd hmore hnew
          · exact absurd (List.mem_singleton.1 hmore) hxr
        · by_cases hbefore : x ∈ more
          · exact (g.isPrefix_surveyFrom more q).subset (hmore hbefore)
          · exact ih q (lt_of_mem_inputs (List.mem_reverse.1 hq)) hx hbefore

theorem descends_survey (g : Graph) (root : Nat) : Descends g root (g.survey root) := Descends.nil.surveyFrom (.inl rfl)

/-- **A survey looks at all that the root reaches.** -/
theorem mem_survey_iff : r ∈ g.survey root ↔ g.Reaches root r := by
  refine ⟨g.descends_survey root |>.reaches r, fun hr => ?_⟩
  exact hr.mem_of_closed (g.mem_surveyFrom_self [] root) fun q hq i hi => inputs_mem_surveyFrom hq List.not_mem_nil hi

/-! ## What a validation reports -/

theorem faultAt?_of_node? {n : Node} (hn : g.node? r = some n) : g.faultAt? expected r = g.fault? expected n := by
  rw [faultAt?, hn, Option.bind_some]

theorem verdictOn_eq_ok_iff : g.verdictOn expected order = .ok () ↔ ∀ r ∈ order, g.faultAt? expected r = none := by
  rw [verdictOn, ← List.findSome?_eq_none_iff]
  cases order.findSome? (g.faultAt? expected) <;> simp

/-- A fault that is reported is that of a node, and the nodes before it have none. -/
theorem verdictOn_eq_error {e : PlanError} (h : g.verdictOn expected order = .error e) :
    ∃ done r rest, order = done ++ r :: rest ∧ g.faultAt? expected r = some e ∧
      ∀ q ∈ done, g.faultAt? expected q = none := by
  unfold verdictOn at h
  split at h
  · rename_i e' he
    cases h
    obtain ⟨done, r, rest, hs, hr, hdone⟩ := List.findSome?_eq_some_iff.1 he
    exact ⟨done, r, rest, hs, hr, hdone⟩
  · cases h

theorem exists_of_verdictOn_eq_error {e : PlanError} (h : g.verdictOn expected order = .error e) :
    ∃ r ∈ order, g.faultAt? expected r = some e := by
  obtain ⟨done, r, rest, rfl, hr, -⟩ := verdictOn_eq_error h
  exact ⟨r, by simp, hr⟩

/-- The nodes before the first fault do not count. -/
theorem verdictOn_append_cons {e : PlanError} (hdone : ∀ q ∈ done, g.faultAt? expected q = none)
    (he : g.faultAt? expected r = some e) (rest : List Nat) :
    g.verdictOn expected (done ++ r :: rest) = .error e := by
  rw [verdictOn, List.findSome?_append, List.findSome?_eq_none_iff.2 hdone, Option.none_or, List.findSome?_cons, he]

/-- **Where there is one fault to report, orders of the same nodes report the same.** -/
theorem verdictOn_congr (hmem : ∀ r, r ∈ order ↔ r ∈ order')
    (hone : ∀ r ∈ order, ∀ q ∈ order, ∀ e e', g.faultAt? expected r = some e → g.faultAt? expected q = some e' →
      e = e') :
    g.verdictOn expected order = g.verdictOn expected order' := by
  cases h : g.verdictOn expected order with
  | ok _ => exact (verdictOn_eq_ok_iff.2 fun r hr => verdictOn_eq_ok_iff.1 h r ((hmem r).2 hr)).symm
  | error e =>
    obtain ⟨r, hr, he⟩ := exists_of_verdictOn_eq_error h
    cases h' : g.verdictOn expected order' with
    | ok _ =>
      have hnone := verdictOn_eq_ok_iff.1 h' r ((hmem r).1 hr)
      cases hnone.symm.trans he
    | error e' =>
      obtain ⟨q, hq, he'⟩ := exists_of_verdictOn_eq_error h'
      rw [hone r hr q ((hmem q).2 hq) e e' he he']

/-- **A node is reached through nodes without a fault.** -/
def ReachesClear (g : Graph) (expected root r : Nat) : Prop :=
  Relation.ReflTransGen (fun q i => i ∈ g.inputs q ∧ g.faultAt? expected q = none) root r

theorem Descends.reachesClear (h : Descends g root order) (hclean : ∀ q ∈ order, g.faultAt? expected q = none) :
    ∀ q ∈ order, g.ReachesClear expected root q := by
  induction h with
  | nil => simp
  | @snoc done r before new used ih =>
    have hdone : ∀ q ∈ done, g.faultAt? expected q = none := fun q hq => hclean q (List.mem_append_left [r] hq)
    intro q hq
    rcases List.mem_append.1 hq with hq | hq
    · exact ih hdone q hq
    · rw [List.mem_singleton.1 hq]
      rcases used with rfl | ⟨p, hp, hi⟩
      · exact .refl
      · exact (ih hdone p hp).tail ⟨hi, hdone p hp⟩

/-- **The first fault on the way down is reached through nodes without one.** -/
theorem Descends.exists_reachesClear (h : Descends g root order) {e : PlanError}
    (he : g.verdictOn expected order = .error e) :
    ∃ r, g.faultAt? expected r = some e ∧ g.ReachesClear expected root r := by
  obtain ⟨done, r, rest, hs, hr, hclean⟩ := verdictOn_eq_error he
  obtain ⟨hdone, rfl | ⟨q, hq, hi⟩⟩ := h.cut hs
  · exact ⟨r, hr, .refl⟩
  · exact ⟨r, hr, (hdone.reachesClear hclean q hq).tail ⟨hi, hclean q hq⟩⟩

/-- **A walk has looked at the nodes of `done`**, and they keep the rules. -/
structure Visit.Surveyed (g : Graph) (expected : Nat) (done : List Nat) (v : Visit) : Prop where
  stack : ∀ r ∈ v.stack, r < g.size
  saw : ∀ r, v.Saw g r ↔ r ∈ done
  clean : ∀ r ∈ done, g.faultAt? expected r = none

theorem Visit.Surveyed.saw_top (hv : v.Surveyed g expected done) {n : Node} (hn : g.node? r = some n) :
    v.seen.contains n.name = true ↔ r ∈ done := by
  rw [← hv.saw r, Visit.saw_iff hn]

/-- **What a step of a walk does**: it passes over a node whose name it has seen, ends at one with a fault, and puts the
inputs of any other on the stack. -/
theorem visit_cases {n : Node} {stack : List Nat} (hs : v.stack = r :: stack) (hn : g.node? r = some n) :
    (v.seen.contains n.name = true ∧ g.visit expected v = .going { v with stack := stack }) ∨
      (¬ v.seen.contains n.name = true ∧ ∃ e, g.fault? expected n = some e ∧ g.visit expected v = .done (.error e)) ∨
      (¬ v.seen.contains n.name = true ∧ g.fault? expected n = none ∧
        g.visit expected v = .going ⟨n.inputNodes.reverse ++ stack, v.seen.insert n.name⟩) := by
  unfold Graph.visit
  rw [hs]
  dsimp only
  rw [hn]
  dsimp only
  by_cases hc : v.seen.contains n.name = true
  · exact .inl ⟨hc, if_pos hc⟩
  · rw [if_neg hc]
    cases hf : g.fault? expected n with
    | some e => exact .inr (.inl ⟨hc, e, rfl, rfl⟩)
    | none => exact .inr (.inr ⟨hc, rfl, rfl⟩)

/-- A walk that has looked at the nodes of `done` passes over these. -/
theorem Visit.Surveyed.visit_cases (hv : v.Surveyed g expected done) {stack : List Nat} (hs : v.stack = r :: stack) :
    ∃ n, g.node? r = some n ∧
      ((r ∈ done ∧ g.visit expected v = .going { v with stack := stack }) ∨
        (r ∉ done ∧ ∃ e, g.fault? expected n = some e ∧ g.visit expected v = .done (.error e)) ∨
        (r ∉ done ∧ g.fault? expected n = none ∧
          g.visit expected v = .going ⟨n.inputNodes.reverse ++ stack, v.seen.insert n.name⟩)) := by
  obtain ⟨n, hn⟩ := exists_node? (hv.stack r (by rw [hs]; exact List.mem_cons_self))
  refine ⟨n, hn, ?_⟩
  rw [← hv.saw_top hn]
  exact Graph.visit_cases hs hn

theorem Visit.Surveyed.pass (hv : v.Surveyed g expected done) {stack : List Nat} (hs : v.stack = r :: stack) :
    Visit.Surveyed g expected done { v with stack := stack } :=
  ⟨fun q hq => hv.stack q (by rw [hs]; exact List.mem_cons_of_mem r hq), hv.saw, hv.clean⟩

theorem Visit.Surveyed.check (hd : g.DistinctNames) (hv : v.Surveyed g expected done) {stack : List Nat} {n : Node}
    (hs : v.stack = r :: stack) (hn : g.node? r = some n) (hf : g.fault? expected n = none) :
    Visit.Surveyed g expected (done ++ [r]) ⟨n.inputNodes.reverse ++ stack, v.seen.insert n.name⟩ := by
  refine ⟨fun q hq => ?_, fun q => ?_, fun q hq => ?_⟩
  · rcases List.mem_append.1 hq with hq | hq
    · rw [List.mem_reverse, ← inputs_of_node? hn] at hq
      exact Nat.lt_trans (lt_of_mem_inputs hq) (lt_of_node? hn)
    · exact (hv.pass hs).stack q hq
  · rw [Visit.saw_insert hd hn, hv.saw, List.mem_append, List.mem_singleton, or_comm]
  · rcases List.mem_append.1 hq with hq | hq
    · exact hv.clean q hq
    · rw [List.mem_singleton.1 hq, faultAt?_of_node? hn, hf]

/-- **A step of the walk does a part of the survey** that its stack asks for. -/
theorem Visit.Surveyed.visit (hd : g.DistinctNames) (hv : v.Surveyed g expected done)
    (h : g.visit expected v = .going next) : ∃ done', next.Surveyed g expected done' ∧
      next.stack.foldl g.surveyFrom done' = v.stack.foldl g.surveyFrom done := by
  cases hs : v.stack with
  | nil =>
    rw [Graph.visit, hs] at h
    cases h
  | cons r stack =>
    obtain ⟨n, hn, ⟨hmem, hstep⟩ | ⟨-, e, -, hstep⟩ | ⟨hnew, hf, hstep⟩⟩ := hv.visit_cases hs <;>
      cases hstep.symm.trans h
    · exact ⟨done, hv.pass hs, by rw [List.foldl_cons, surveyFrom_of_mem hmem]⟩
    · refine ⟨done ++ [r], hv.check hd hs hn hf, ?_⟩
      rw [List.foldl_cons, surveyFrom_of_notMem hnew, List.foldl_append, inputs_of_node? hn]

/-- **A walk that ends gives the verdict on what there was to survey.** -/
theorem Visit.Surveyed.visit_done (hv : v.Surveyed g expected done) {answer : Except PlanError Unit}
    (h : g.visit expected v = .done answer) : answer = g.verdictOn expected (v.stack.foldl g.surveyFrom done) := by
  cases hs : v.stack with
  | nil =>
    rw [Graph.visit, hs] at h
    cases h
    exact (verdictOn_eq_ok_iff.2 hv.clean).symm
  | cons r stack =>
    obtain ⟨n, hn, ⟨-, hstep⟩ | ⟨hnew, e, he, hstep⟩ | ⟨-, -, hstep⟩⟩ := hv.visit_cases hs <;>
      cases hstep.symm.trans h
    obtain ⟨more, hmore⟩ := g.isPrefix_foldl_surveyFrom (done ++ [r]) ((g.inputs r).reverse ++ stack)
    rw [List.foldl_cons, surveyFrom_of_notMem hnew, ← List.foldl_append, ← hmore, List.append_assoc,
      List.singleton_append, verdictOn_append_cons hv.clean (by rw [faultAt?_of_node? hn, he])]

theorem visitAll_eq (hd : g.DistinctNames) (hv : v.Surveyed g expected done) :
    g.visitAll expected v = g.verdictOn expected (v.stack.foldl g.surveyFrom done) := by
  -- the walk takes the nodes it has looked at along, so the hypothesis is used at those a step leads to
  fun_induction visitAll g expected v generalizing done with
  | case1 v answer hdone => exact hv.visit_done hdone
  | case2 v next hgoing ih =>
    obtain ⟨done', hnext, heq⟩ := hv.visit hd hgoing
    rw [ih hnext, heq]

theorem Visit.surveyed_start (hroot : root < g.size) : Visit.Surveyed g expected [] ⟨[root], {}⟩ where
  stack r hr := by rwa [List.mem_singleton.1 hr]
  saw r := by simp [Visit.Saw]
  clean := by simp

/-- **A validation gives the verdict of its survey.** -/
theorem validate_eq_verdictOn (hd : g.DistinctNames) {top : Node} (hroot : g.node? root = some top) :
    g.validate root = g.verdictOn top.context (g.survey root) := by
  rw [validate, hroot]
  exact visitAll_eq hd (Visit.surveyed_start (lt_of_node? hroot))

end Graph

namespace Workspace

open Lowering

variable {w : Workspace} {held : Multiset Nat} {permit : Workspace → Nat → NodeSpec → Prop}

/-- **Validation reports the first fault on the way down.**  It looks at all that the root uses, each node once, after a
node that uses it.  So the node whose fault is reported is reached through nodes without one, whatever the faults of its
inputs.  Lowering comes to the inputs of a node first; if there is but one fault to report, it would be found in this
order too. -/
theorem Reachable.reports_downward (h : Reachable permit w held) (hfew : ∀ c, w.graph.builtIn c ≤ 2 ^ 64) {root : Nat}
    {top : Node} (hroot : w.node? root = some top) :
    Graph.Descends w.graph root (w.graph.survey root) ∧ (∀ r, r ∈ w.graph.survey root ↔ w.graph.Reaches root r) ∧
      w.graph.validate root = w.graph.verdictOn top.context (w.graph.survey root) ∧
      (∀ e, w.graph.validate root = .error e → ∃ r, w.graph.faultAt? top.context r = some e ∧
        w.graph.ReachesClear top.context root r) ∧
      emissions w.graph (start root) = w.graph.postorder root ∧
      ((∀ r q e e', w.graph.Reaches root r → w.graph.Reaches root q → w.graph.faultAt? top.context r = some e →
          w.graph.faultAt? top.context q = some e' → e = e') →
        w.graph.validate root = w.graph.verdictOn top.context (w.graph.postorder root)) := by
  have hd : w.graph.DistinctNames := h.sound.numbered.distinctNames hfew
  have hlt : root < w.graph.size := Graph.lt_of_node? hroot
  have hsurvey := Graph.validate_eq_verdictOn hd hroot
  obtain ⟨hemissions, hs⟩ := emissions_start hd hlt
  have hpost : ∀ r, r ∈ w.graph.postorder root ↔ w.graph.Reaches root r := by
    have hwalk : Walk w.graph root (start root) := .start
    exact (hs.emits hwalk.run.2).mem_iff
  refine ⟨w.graph.descends_survey root, fun r => Graph.mem_survey_iff, hsurvey, fun e he => ?_, hemissions,
    fun hone => ?_⟩
  · rw [hsurvey] at he
    exact (w.graph.descends_survey root).exists_reachesClear he
  · rw [hsurvey]
    refine Graph.verdictOn_congr (fun r => Graph.mem_survey_iff.trans (hpost r).symm) fun r hr q hq e e' => ?_
    exact hone r q e e' (Graph.mem_survey_iff.1 hr) (Graph.mem_survey_iff.1 hq)

/-- A sum of matrices of different shapes, and its product with a matrix that does not fit the sum. -/
def misfits : Workspace :=
  let w : Workspace := (({} : Workspace).addContext ⟨Uuid.ofNat 0⟩ 0 {}).2
  let w := (w.addSource 0 (.read "a" (.ofShape 2 2))).2
  let w := (w.addSource 0 (.read "b" (.ofShape 3 3))).2
  let w := (w.apply (.add 0 1)).2
  let w := (w.addSource 0 (.read "d" (.ofShape 5 5))).2
  (w.apply (.matmul 2 3)).2

theorem reachable_misfits : ∃ held, Reachable offered misfits held := by
  have h : Reachable offered _ _ := .single (.context _ _ ⟨Uuid.ofNat 0⟩ 0 {})
  have h := h.addSource (c := 0) (by decide) (.read "a" (.ofShape 2 2))
  have h := h.addSource (c := 0) (by decide) (.read "b" (.ofShape 3 3))
  have h := h.apply (a := .add 0 1) (by decide)
  have h := h.addSource (c := 0) (by decide) (.read "d" (.ofShape 5 5))
  exact ⟨_, h.apply (a := .matmul 2 3) (by decide)⟩

theorem builtIn_misfits (c : Nat) : misfits.graph.builtIn c ≤ 2 ^ 64 :=
  (misfits.graph.builtIn_le_size c).trans (by decide)

theorem faults_misfits : misfits.graph.faultAt? 0 0 = none ∧ misfits.graph.faultAt? 0 1 = none ∧
    misfits.graph.faultAt? 0 2 = some (.validation (.shapeMismatch "+" (.elementwise 2 2 3 3))) ∧
    misfits.graph.faultAt? 0 3 = none ∧
    misfits.graph.faultAt? 0 4 = some (.validation (.shapeMismatch "%*%" (.innerExtents 3 5))) := by
  decide

/-- Of the sum alone there is one fault to report. -/
theorem reports_downward_misfits : (∃ held, Reachable offered misfits held) ∧
    misfits.graph.validate 2 = misfits.graph.verdictOn 0 (misfits.graph.postorder 2) ∧
    misfits.graph.validate 2 = .error (.validation (.shapeMismatch "+" (.elementwise 2 2 3 3))) := by
  obtain ⟨held, h⟩ := reachable_misfits
  obtain ⟨h0, h1, -⟩ := faults_misfits
  have hroot : misfits.node? 2 = some misfits.graph.nodes[2] := rfl
  obtain ⟨-, -, -, -, -, hone⟩ := h.reports_downward builtIn_misfits hroot
  have honly : ∀ r e, misfits.graph.Reaches 2 r → misfits.graph.faultAt? 0 r = some e → r = 2 := by
    intro r e hr he
    have hle : r ≤ 2 := hr.le
    obtain rfl | rfl | rfl : r = 0 ∨ r = 1 ∨ r = 2 := by omega
    · cases h0.symm.trans he
    · cases h1.symm.trans he
    · rfl
  refine ⟨⟨held, h⟩, hone fun r q e e' hr hq he he' => ?_, Graph.validate_of_fault? hroot (by decide)⟩
  obtain rfl := honly r e hr he
  obtain rfl := honly q e' hq he'
  exact Option.some.inj (he.symm.trans he')

/-- **A product is reported while its left side is at fault**, which a lowering would come to first. -/
theorem reports_product_before_sum : (∃ held, Reachable offered misfits held) ∧ 2 ∈ misfits.graph.inputs 4 ∧
    misfits.graph.validate 4 = .error (.validation (.shapeMismatch "%*%" (.innerExtents 3 5))) ∧
    misfits.graph.verdictOn 0 (misfits.graph.postorder 4) =
      .error (.validation (.shapeMismatch "+" (.elementwise 2 2 3 3))) ∧
    misfits.graph.validate 4 ≠ misfits.graph.verdictOn 0 (misfits.graph.postorder 4) := by
  have hroot : misfits.node? 4 = some misfits.graph.nodes[4] := rfl
  have hproduct : misfits.graph.validate 4 = .error (.validation (.shapeMismatch "%*%" (.innerExtents 3 5))) :=
    Graph.validate_of_fault? hroot (by decide)
  have hpost : misfits.graph.postorder 4 = [0, 1] ++ 2 :: [3, 4] := by
    have i0 : misfits.graph.inputs 0 = [] := by decide
    have i1 : misfits.graph.inputs 1 = [] := by decide
    have i2 : misfits.graph.inputs 2 = [0, 1] := by decide
    have i3 : misfits.graph.inputs 3 = [] := by decide
    have i4 : misfits.graph.inputs 4 = [2, 3] := by decide
    simp [Graph.postorder, Graph.postorderFrom_of_notMem, i0, i1, i2, i3, i4]
  obtain ⟨h0, h1, h2, -⟩ := faults_misfits
  have hsum : misfits.graph.verdictOn 0 (misfits.graph.postorder 4) =
      .error (.validation (.shapeMismatch "+" (.elementwise 2 2 3 3))) := by
    rw [hpost]
    exact Graph.verdictOn_append_cons (by simp [h0, h1]) h2 [3, 4]
  refine ⟨reachable_misfits, by decide, hproduct, hsum, ?_⟩
  rw [hproduct, hsum]
  decide

end Workspace
end MatrixPlan

import MatrixPlan.Graph.Validate
import MatrixPlan.Proofs.Graph.Reach
/-!
# Verdict — what a validation says of the nodes below a root

The walk has seen a set of nodes that keep the rules, and the inputs of each of them are seen or still on the stack
(`Visit.Sound`).  With an empty stack the set is closed, so it holds all that the root reaches.  The walk tells nodes
apart by their names alone, so this needs names that are distinct.
-/
namespace MatrixPlan
namespace Graph

/-- **The rules for one node** of a graph whose root is in the context `expected`. -/
structure Keeps (g : Graph) (expected : Nat) (n : Node) : Prop where
  registered : n.registration = none
  context : n.context = expected
  signature : n.kind = .call → ∀ b, Builtin.lookup? n.operation = some b → n.signatureFault? b.params = none
  shapes : g.shapeFault? n.toNodeSpec = none

theorem signature?_eq_some_iff {n : NodeSpec} {b : Builtin} :
    signature? n = some b ↔ n.kind = .call ∧ Builtin.lookup? n.operation = some b := by
  unfold signature?
  cases n.kind <;> simp

theorem fault?_eq_none_iff {g : Graph} {expected : Nat} {n : Node} :
    g.fault? expected n = none ↔ g.Keeps expected n := by
  constructor
  · intro h
    unfold fault? at h
    split at h
    · cases h
    · rename_i hreg
      split at h
      · cases h
      · rename_i hctx
        split at h
        · cases h
        · rename_i hsig
          refine ⟨hreg, by simpa using hctx, fun hk b hb => ?_, Option.map_eq_none_iff.1 h⟩
          rw [signature?_eq_some_iff.2 ⟨hk, hb⟩] at hsig
          simpa using hsig
  · rintro ⟨hreg, hctx, hsig, hshape⟩
    have hs : ((signature? n.toNodeSpec).bind fun b => n.signatureFault? b.params) = none := by
      rw [Option.bind_eq_none_iff]
      intro b hb
      obtain ⟨hk, hl⟩ := signature?_eq_some_iff.1 hb
      exact hsig hk b hl
    simp only [fault?, hreg, hctx, hs, hshape, ne_eq, not_true_eq_false, ↓reduceIte, Option.map_none]

/-- The walk has seen the node at a place. -/
def Visit.Saw (g : Graph) (v : Visit) (r : Nat) : Prop := ∃ n, g.node? r = some n ∧ v.seen.contains n.name = true

/-- **What a walk from a root keeps.** -/
structure Visit.Sound (g : Graph) (expected root : Nat) (v : Visit) : Prop where
  below : ∀ r ∈ v.stack, g.Reaches root r
  keeps : ∀ r n, v.Saw g r → g.node? r = some n → g.fault? expected n = none
  inputs : ∀ r, v.Saw g r → ∀ i ∈ g.inputs r, v.Saw g i ∨ i ∈ v.stack
  root : v.Saw g root ∨ root ∈ v.stack

variable {g : Graph} {expected root : Nat} {v next : Visit}

theorem Visit.saw_iff {r : Nat} {n : Node} (hn : g.node? r = some n) :
    v.Saw g r ↔ v.seen.contains n.name = true := by
  constructor
  · rintro ⟨m, hm, hc⟩
    cases hn.symm.trans hm
    exact hc
  · exact fun hc => ⟨n, hn, hc⟩

/-- What a walk has seen stays seen. -/
theorem Visit.Saw.insert {r : Nat} (h : v.Saw g r) (stack : List Nat) (name : NodeName) :
    Visit.Saw g { stack := stack, seen := v.seen.insert name } r := by
  obtain ⟨m, hm, hc⟩ := h
  exact ⟨m, hm, by simp [hc]⟩

/-- **Seeing one more node** marks its place and no other. -/
theorem Visit.saw_insert (hd : g.DistinctNames) {r : Nat} {n : Node} (hn : g.node? r = some n) (stack : List Nat)
    (q : Nat) : Visit.Saw g { stack := stack, seen := v.seen.insert n.name } q ↔ q = r ∨ v.Saw g q := by
  unfold Saw
  constructor
  · rintro ⟨m, hm, hc⟩
    rw [Std.HashSet.contains_insert, Bool.or_eq_true] at hc
    rcases hc with hc | hc
    · exact .inl (hd q r m n hm hn (beq_iff_eq.1 hc).symm)
    · exact .inr ⟨m, hm, hc⟩
  · rintro (rfl | hq)
    · exact ⟨n, hn, by simp⟩
    · exact Visit.Saw.insert hq stack n.name

theorem Visit.sound_start : Visit.Sound g expected root ⟨[root], {}⟩ where
  below := by simp [Reaches.refl]
  keeps := by rintro r n ⟨m, -, hm⟩; simp at hm
  inputs := by rintro r ⟨m, -, hm⟩; simp at hm
  root := .inr (by simp)

theorem below_visit (hv : ∀ r ∈ v.stack, g.Reaches root r) (h : g.visit expected v = .going next) :
    ∀ r ∈ next.stack, g.Reaches root r := by
  unfold visit at h
  split at h
  · cases h
  rename_i r stack hs
  rw [hs] at hv
  have htail : ∀ q ∈ stack, g.Reaches root q := fun q hq => hv q (List.mem_cons_of_mem r hq)
  split at h
  · cases h
    exact htail
  · rename_i n hn
    split at h
    · cases h
      exact htail
    · split at h
      · cases h
      · cases h
        intro q hq
        rcases List.mem_append.1 hq with hq | hq
        · rw [List.mem_reverse, ← inputs_of_node? hn] at hq
          exact (hv r List.mem_cons_self).input hq
        · exact htail q hq

/-- **A step of the walk keeps it sound.** -/
theorem Visit.Sound.visit (hd : g.DistinctNames) (hroot : root < g.size) (hv : v.Sound g expected root)
    (h : g.visit expected v = .going next) : next.Sound g expected root := by
  have hbelow := below_visit hv.below h
  unfold Graph.visit at h
  split at h
  · cases h
  rename_i r stack hs
  obtain ⟨hstack, hkeeps, hinputs, hrt⟩ := hv
  rw [hs] at hstack hinputs hrt
  obtain ⟨n, hn⟩ := exists_node? ((hstack r List.mem_cons_self).lt_size hroot)
  rw [hn] at h
  dsimp only at h
  split at h
  · -- a node seen before leaves the stack and stays seen
    rename_i hc
    cases h
    have hstay : ∀ q, v.Saw g q ∨ q ∈ r :: stack → v.Saw g q ∨ q ∈ stack := by
      rintro q (hq | hq)
      · exact .inl hq
      · rcases List.mem_cons.1 hq with rfl | hq
        · exact .inl ⟨n, hn, hc⟩
        · exact .inr hq
    exact ⟨hbelow, hkeeps, fun q hq i hi => hstay i (hinputs q hq i hi), hstay root hrt⟩
  · split at h
    · cases h
    · -- a node seen for the first time leaves its inputs on the stack
      rename_i hf
      cases h
      have hsaw := Visit.saw_insert (v := v) hd hn (n.inputNodes.reverse ++ stack)
      have hstay : ∀ q, v.Saw g q ∨ q ∈ r :: stack →
          Visit.Saw g { stack := n.inputNodes.reverse ++ stack, seen := v.seen.insert n.name } q ∨
            q ∈ n.inputNodes.reverse ++ stack := by
        rintro q (hq | hq)
        · exact .inl ((hsaw q).2 (.inr hq))
        · rcases List.mem_cons.1 hq with rfl | hq
          · exact .inl ((hsaw q).2 (.inl rfl))
          · exact .inr (List.mem_append_right _ hq)
      refine ⟨hbelow, fun q m hq hm => ?_, fun q hq i hi => ?_, hstay root hrt⟩
      · rcases (hsaw q).1 hq with rfl | hq
        · rw [hn] at hm
          cases hm
          exact hf
        · exact hkeeps q m hq hm
      · rcases (hsaw q).1 hq with rfl | hq
        · rw [inputs_of_node? hn] at hi
          exact .inr (List.mem_append_left _ (List.mem_reverse.2 hi))
        · exact hstay i (hinputs q hq i hi)

/-- **A walk that ends without a fault has seen all that the root reaches.** -/
theorem Visit.Sound.fault?_eq_none (hv : v.Sound g expected root) (hs : v.stack = []) {r : Nat} {n : Node}
    (hr : g.Reaches root r) (hn : g.node? r = some n) : g.fault? expected n = none := by
  have hsaw : v.Saw g r := by
    refine hr.mem_of_closed ?_ fun q hq i hi => ?_
    · simpa [hs] using hv.root
    · simpa [hs] using hv.inputs q hq i hi
  exact hv.keeps r n hsaw hn

/-- **An ending walk** has nothing left to look at, or looks at a node that breaks a rule. -/
theorem visit_done {answer : Except PlanError Unit} (h : g.visit expected v = .done answer) :
    (v.stack = [] ∧ answer = .ok ()) ∨
      ∃ r n e, r ∈ v.stack ∧ g.node? r = some n ∧ g.fault? expected n = some e ∧ answer = .error e := by
  unfold visit at h
  split at h
  · rename_i hs
    cases h
    exact .inl ⟨hs, rfl⟩
  · rename_i r stack hs
    split at h
    · cases h
    · rename_i n hn
      split at h
      · cases h
      · split at h
        · rename_i e he
          cases h
          exact .inr ⟨r, n, e, by rw [hs]; exact List.mem_cons_self, hn, he, rfl⟩
        · cases h

theorem visitAll_ok (hd : g.DistinctNames) (hroot : root < g.size) (hv : v.Sound g expected root)
    (h : g.visitAll expected v = .ok ()) {r : Nat} {n : Node} (hr : g.Reaches root r) (hn : g.node? r = some n) :
    g.fault? expected n = none := by
  fun_induction visitAll g expected v with
  | case1 v answer hdone =>
    rcases visit_done hdone with ⟨hs, -⟩ | ⟨_, _, _, -, -, -, rfl⟩
    · exact hv.fault?_eq_none hs hr hn
    · cases h
  | case2 v next hgoing ih => exact ih (hv.visit hd hroot hgoing) h

theorem visitAll_error (hv : ∀ r ∈ v.stack, g.Reaches root r) {e : PlanError}
    (h : g.visitAll expected v = .error e) :
    ∃ r n, g.Reaches root r ∧ g.node? r = some n ∧ g.fault? expected n = some e := by
  fun_induction visitAll g expected v with
  | case1 v answer hdone =>
    rcases visit_done hdone with ⟨-, rfl⟩ | ⟨r, n, e', hr, hn, he, rfl⟩
    · cases h
    · cases h
      exact ⟨r, n, hv r hr, hn, he⟩
  | case2 v next hgoing ih => exact ih (below_visit hv hgoing) h

/-- **The fault that a validation reports is that of a node below the root.** -/
theorem validate_error {top : Node} (hroot : g.node? root = some top) {e : PlanError} (h : g.validate root = .error e) :
    ∃ r n, g.Reaches root r ∧ g.node? r = some n ∧ g.fault? top.context n = some e := by
  unfold validate at h
  rw [hroot] at h
  exact visitAll_error (by simp [Reaches.refl]) h

/-- The root is looked at first. -/
theorem validate_of_fault? {top : Node} (hroot : g.node? root = some top) {e : PlanError}
    (he : g.fault? top.context top = some e) : g.validate root = .error e := by
  have hvisit : g.visit top.context ⟨[root], {}⟩ = .done (.error e) := by simp [visit, hroot, he]
  rw [validate, hroot]
  dsimp only
  rw [visitAll]
  split
  · rename_i answer h
    cases hvisit.symm.trans h
    rfl
  · rename_i next h
    cases hvisit.symm.trans h

/-- **A graph passes if all nodes below the root keep the rules**, whatever their names are. -/
theorem validate_ok_of_keeps {top : Node} (hroot : g.node? root = some top)
    (h : ∀ r n, g.Reaches root r → g.node? r = some n → g.Keeps top.context n) : g.validate root = .ok () := by
  cases hv : g.validate root with
  | ok _ => rfl
  | error e =>
    obtain ⟨r, n, hr, hn, he⟩ := validate_error hroot hv
    rw [fault?_eq_none_iff.2 (h r n hr hn)] at he
    cases he

/-- **A graph passes only if all nodes below the root keep the rules.** -/
theorem keeps_of_validate_ok (hd : g.DistinctNames) {top : Node} (hroot : g.node? root = some top)
    (h : g.validate root = .ok ()) {r : Nat} {n : Node} (hr : g.Reaches root r) (hn : g.node? r = some n) :
    g.Keeps top.context n := by
  unfold validate at h
  rw [hroot] at h
  have hlt := lt_of_node? hroot
  exact fault?_eq_none_iff.1 (visitAll_ok hd hlt Visit.sound_start h hr hn)

end Graph
end MatrixPlan

import MatrixPlan.Proofs.Session.Growth
import MatrixPlan.Proofs.Session.Protocol
import MatrixPlan.Proofs.Workspace.Budget
/-!
# Budget — no engine sees a script beyond the limit of a validating context

Each script in the log of an engine was handed over by a computation of the run.  At that time its root was held, and had
passed if its context validates, so the script was within the count of the context and with it within the limit.
-/
namespace MatrixPlan
namespace Session

variable {s : Session} {permit : Workspace → Nat → NodeSpec → Prop}

theorem Sound.foldl_next (hs : Sound Workspace.anything 0 s) (steps : List Step) :
    Sound Workspace.anything 0 (steps.foldl Session.next s) := by
  induction steps generalizing s with
  | nil => exact hs
  | cons step steps ih => exact ih (hs.next (fun _ _ _ _ => trivial) (.inr fun _ _ _ => trivial))

/-- **What is handed over is handed over by a step of the run**, in the session that the steps before it lead to. -/
theorem mem_handedOverBy {q : Nat × Script} {steps : List Step} (h : q ∈ s.handedOverBy steps) :
    ∃ before step after, steps = before ++ step :: after ∧ q ∈ (before.foldl next s).handedOver step := by
  induction steps generalizing s with
  | nil => cases h
  | cons step steps ih =>
    rcases List.mem_append.1 h with h | h
    · exact ⟨[], step, steps, rfl, h⟩
    · obtain ⟨before, other, after, rfl, hq⟩ := ih h
      exact ⟨step :: before, other, after, rfl, hq⟩

/-- **A computation hands over a script** of the node of a handle, which has passed if its context `x` validates. -/
structure HandsOver (s : Session) (name : String) (p : Nat) (script : Script) (h : Handle) (n : Node) (x : Context) :
    Prop where
  handle : s.handles.lookup name = some h
  node : s.workspace.node? h.node = some n
  context : s.workspace.context? n.context = some x
  engine : x.engine = p
  script : s.workspace.script s.issue.1 h.node = script
  passed : x.config.validateOnSubmit = true → s.workspace.graph.validate h.node = .ok ()

theorem handsOver_of_mem {step : Step} {p : Nat} {script : Script} (hmem : (p, script) ∈ s.handedOver step) :
    ∃ name h n x, step = .compute name ∧ s.HandsOver name p script h n x := by
  cases step with
  | compute name =>
    unfold handedOver at hmem
    dsimp only at hmem
    split at hmem
    · rename_i h hh
      split at hmem
      · rename_i x hx
        split at hmem
        · rename_i hpass
          obtain ⟨n, hn, hnx⟩ := Option.bind_eq_some_iff.1 hx
          cases List.mem_singleton.1 hmem
          exact ⟨name, h, n, x, rfl, hh, hn, hnx, rfl, rfl, Workspace.passes_iff.1 hpass⟩
        · cases hmem
      · cases hmem
    · cases hmem
  | _ => cases hmem

theorem mem_held_of_lookup {name : String} {h : Handle} (hh : s.handles.lookup name = some h) : h.node ∈ s.held := by
  obtain ⟨before, after, heq, -⟩ := List.lookup_eq_some_iff.1 hh
  simp [held, heq]

/-- **A handle that passes is within the count of its context**, which is within the limit. -/
theorem Sound.within_budget (hs : Sound permit 0 s) (hfew : ∀ c, s.workspace.graph.builtIn c ≤ 2 ^ 64) {name : String}
    {h : Handle} (hh : s.handles.lookup name = some h) {n : Node} {x : Context}
    (hn : s.workspace.node? h.node = some n) (hx : s.workspace.context? n.context = some x)
    (hok : s.workspace.graph.validate h.node = .ok ()) :
    (∀ stamp, (s.workspace.script stamp h.node).statements.length ≤ s.workspace.nodeCount n.context) ∧
      s.workspace.nodeCount n.context ≤ x.config.maxNodes.toNat := by
  have hsound := hs.reachable.sound
  rw [Multiset.zero_add] at hsound
  exact ⟨fun stamp => hsound.length_statements_le hfew hn (mem_held_of_lookup hh) hok stamp, (hsound.accounts hx).limited⟩

/-- **Graphs that are accepted fit the budget of their context**, in every session that a run leads to.  A handle that
passes has no more statements than its context counts nodes, and these are within the limit; and each script that an
engine has been handed was within the limit of its context, if this one validates. -/
theorem budget_kept (steps : List Step) (hfew : ∀ c, (runAll {} steps).2.workspace.graph.builtIn c ≤ 2 ^ 64) :
    (∀ name h, (runAll {} steps).2.handles.lookup name = some h →
      (runAll {} steps).2.workspace.graph.validate h.node = .ok () →
      ∃ n x, (runAll {} steps).2.workspace.node? h.node = some n ∧
        (runAll {} steps).2.workspace.context? n.context = some x ∧
        (∀ stamp, ((runAll {} steps).2.workspace.script stamp h.node).statements.length ≤
          (runAll {} steps).2.workspace.nodeCount n.context) ∧
        (runAll {} steps).2.workspace.nodeCount n.context ≤ x.config.maxNodes.toNat) ∧
    ∀ p, ∀ script ∈ (runAll {} steps).2.log p, ∃ before name after h n x,
      flatAll steps = before ++ .compute name :: after ∧ (before.foldl next {}).HandsOver name p script h n x ∧
        (x.config.validateOnSubmit = true → script.statements.length ≤ x.config.maxNodes.toNat) := by
  have hempty : Sound Workspace.anything 0 {} := sound_empty
  constructor
  · intro name h hh hok
    have hs := sound_runAll steps
    have hsound := (reachable_runAll steps).sound
    obtain ⟨n, hn⟩ := Graph.exists_node?
      (Heap.lt_size_of_mem_living (hsound.owned.mem_living (mem_held_of_lookup hh)))
    have hx := Array.getElem?_eq_getElem (hsound.numbered.placed _ n hn)
    exact ⟨n, _, hn, hx, hs.within_budget hfew hh hn hx hok⟩
  · intro p script hscript
    rw [runAll_snd] at hfew hscript
    rw [log_foldl_next wired_empty] at hscript
    have hmem : (p, script) ∈ handedOverBy {} (flatAll steps) := by
      simpa [log, recorder] using hscript
    obtain ⟨before, step, after, hsplit, hmem⟩ := mem_handedOverBy hmem
    obtain ⟨name, h, n, x, rfl, hhands⟩ := handsOver_of_mem hmem
    refine ⟨before, name, after, h, n, x, hsplit, hhands, fun hv => ?_⟩
    -- no more nodes had been built then than in the end
    have hgrows := grows_foldl_next (before.foldl next {}) (.compute name :: after)
    rw [← List.foldl_append, ← hsplit] at hgrows
    have hfew' : ∀ c, (before.foldl next {}).workspace.graph.builtIn c ≤ 2 ^ 64 := fun c =>
      Nat.le_trans (hgrows.builtIn_le c) (hfew c)
    obtain ⟨hcount, hlimit⟩ := (hempty.foldl_next before).within_budget hfew' hhands.handle hhands.node hhands.context
      (hhands.passed hv)
    rw [← hhands.script]
    exact Nat.le_trans (hcount _) hlimit

/-- The limit of the second context is zero, so its node does not pass; the script of the first is a single statement. -/
theorem budget_kept_shared : (∀ c, (runAll {} shared).2.workspace.graph.builtIn c ≤ 2 ^ 64) ∧
    (runAll {} shared).2.workspace.graph.validate 0 = .ok () ∧
    ∀ stamp, ((runAll {} shared).2.workspace.script stamp 0).statements.length ≤ 1 := by
  have hfew : ∀ c, (runAll {} shared).2.workspace.graph.builtIn c ≤ 2 ^ 64 := fun c =>
    Nat.le_trans (Graph.builtIn_le_size _ c) (by decide +kernel)
  have hcount : (runAll {} shared).2.workspace.nodeCount 0 = 1 := by decide +kernel
  refine ⟨hfew, validate_shared.1, fun stamp => ?_⟩
  obtain ⟨n, x, hn, -, hlength, -⟩ := (budget_kept shared hfew).1 "x" ⟨.scalar, 0⟩ (by decide +kernel)
    validate_shared.1
  cases node?_shared.1.symm.trans hn
  exact (hlength stamp).trans hcount.le

end Session
end MatrixPlan

import MatrixPlan.Proofs.Session.Engines
/-!
# Protocol — what engines see of a session

An engine is handed one script for each computation on a context of its own that is not rejected, and nothing else
happens to it but new replies.  What a computation answers follows from the verdict and from the next reply.
-/
namespace MatrixPlan

/-- What the kind of a handle is called in an error. -/
def HandleKind.name : HandleKind → String
  | matrix => "matrix"
  | scalar => "scalar"

/-- **What a computation answers to a reply**: the value if it is of the handle's kind, and else an error. -/
structure HandleKind.Answers (kind : HandleKind) (reply : Reply) (answer : Answer) : Prop where
  matrix : ∀ m, answer = .matrix m ↔ kind = .matrix ∧ reply = .ok (.matrix m)
  scalar : ∀ v, answer = .scalar v ↔ kind = .scalar ∧ reply = .ok (.scalar v)
  failure : ∀ f, reply = .error f → answer = .failed (.execution f)
  otherKind : ∀ v, reply = .ok v → v.kind ≠ kind.name →
    answer = .failed (.execution (.unexpectedOutput kind.name v.kind))

namespace Session

variable {s : Session} {name : String} {h : Handle} {n : Node} {x : Context} {e : Recorder} {step : Step}
  {permit : Workspace → Nat → NodeSpec → Prop}

theorem run_compute (hh : s.handles.lookup name = some h) : s.run (.compute name) = s.compute h := by
  have hact : s.act (.compute name) = .ok (s.compute h) := by
    simp only [act, handle, Session.lookup, hh]
    rfl
  change s.settle (s.act (.compute name)) = _
  rw [hact]
  rfl

theorem compute_rejected {cause : PlanError} {w : Workspace}
    (hsubmit : s.workspace.submit s.issue.1 h.node = (.error cause, w)) :
    s.compute h = (.failed cause, { s.issue.2 with workspace := w }) := by
  have hworkspace : s.issue.2.workspace = s.workspace := rfl
  unfold compute
  cases h.kind <;>
    simp only [hworkspace, Workspace.computeMatrix, Workspace.computeScalar, hsubmit, Workspace.valueOf]

theorem compute_accepted {reply : Reply} {w : Workspace}
    (hsubmit : s.workspace.submit s.issue.1 h.node = (reply.mapError .execution, w)) :
    ∃ answer, s.compute h = (answer, { s.issue.2 with workspace := w }) ∧ h.kind.Answers reply answer := by
  have hworkspace : s.issue.2.workspace = s.workspace := rfl
  unfold compute
  cases hk : h.kind with
  | matrix =>
    simp only [hworkspace, Workspace.computeMatrix, hsubmit]
    refine ⟨_, rfl, ?_⟩
    rcases reply with f | v
    · constructor <;> simp [Except.mapError, Workspace.valueOf]
    · cases v <;> constructor <;>
        simp [Except.mapError, Workspace.valueOf, EngineValue.toMatrix, EngineValue.kind, HandleKind.name, eq_comm]
  | scalar =>
    simp only [hworkspace, Workspace.computeScalar, hsubmit]
    refine ⟨_, rfl, ?_⟩
    rcases reply with f | v
    · constructor <;> simp [Except.mapError, Workspace.valueOf]
    · cases v <;> constructor <;>
        simp [Except.mapError, Workspace.valueOf, EngineValue.toScalar, EngineValue.kind, HandleKind.name, eq_comm]

/-- **What computing a handle does**, given its node, its context and the engine of this context: nothing but to answer
if the graph is rejected, and else to hand over its script and to answer the next reply. -/
structure Computes (s : Session) (name : String) (h : Handle) (n : Node) (x : Context) (e : Recorder) : Prop where
  node : s.workspace.node? h.node = some n
  context : s.workspace.context? n.context = some x
  engine : s.workspace.engines[x.engine]? = some e
  rejected : ∀ cause, x.config.validateOnSubmit = true → s.workspace.graph.validate h.node = .error cause →
    s.run (.compute name) = (.failed cause, s.issue.2)
  accepted : (x.config.validateOnSubmit = true → s.workspace.graph.validate h.node = .ok ()) →
    ∃ answer, s.run (.compute name) = (answer, { s.issue.2 with
      workspace := s.workspace.handOver x.engine e (s.workspace.script s.issue.1 h.node) }) ∧
      h.kind.Answers e.nextReply answer
  contextId : (s.workspace.script s.issue.1 h.node).contextId = x.id

theorem computes (hs : Sound permit 0 s) (hw : s.Wired) (hh : s.handles.lookup name = some h) :
    ∃ n x e, s.Computes name h n x e := by
  have hsound := hs.reachable.sound
  rw [Multiset.zero_add] at hsound
  have hmem : h.node ∈ s.held := by
    obtain ⟨before, after, heq, -⟩ := List.lookup_eq_some_iff.1 hh
    simp [held, heq]
  obtain ⟨n, hn⟩ := Graph.exists_node? (Heap.lt_size_of_mem_living (hsound.owned.mem_living hmem))
  have hc : n.context < s.workspace.contexts.size := hsound.numbered.placed _ n hn
  have hx : s.workspace.context? n.context = some s.workspace.contexts[n.context] := Array.getElem?_eq_getElem hc
  have he := hw.workspace n.context _ hx
  refine ⟨n, _, _, hn, hx, Array.getElem?_eq_getElem he, fun cause hv hcause => ?_, fun hv => ?_, ?_⟩
  · rw [run_compute hh]
    exact compute_rejected (Workspace.submit_rejected _ hn hx hv hcause)
  · rw [run_compute hh]
    exact compute_accepted (Workspace.submit_accepted _ hn hx hv (Array.getElem?_eq_getElem he))
  · exact Workspace.script_contextId _ hn hx

/-! ### The logs of engines -/

/-- The scripts that an engine has been handed, the oldest first. -/
def log (s : Session) (p : Nat) : List Script := (s.recorder p).submitted.toList

/-- Whether a step is a single one that neither queues a reply nor computes. -/
def isQuiet : Step → Bool
  | .reply _ _ | .compute _ | .rounds _ _ => false
  | _ => true

/-- What a step hands over: to which engine, and which script. -/
def handedOver (s : Session) : Step → List (Nat × Script)
  | .compute name =>
    match s.handles.lookup name with
    | some h =>
      match (s.workspace.node? h.node).bind fun n => s.workspace.context? n.context with
      | some x =>
        if s.workspace.passes x h.node then [(x.engine, s.workspace.script s.issue.1 h.node)] else []
      | none => []
    | none => []
  | _ => []

/-- What steps hand over one after another. -/
def handedOverBy (s : Session) : List Step → List (Nat × Script)
  | [] => []
  | step :: steps => s.handedOver step ++ (s.next step).handedOverBy steps

theorem recorder_eq (s : Session) (p : Nat) : s.recorder p = (s.workspace.engines[p]?).getD {} :=
  Array.getD_eq_getD_getElem?

/-- An engine that is new has been handed nothing and has no reply. -/
theorem recorder_push {t : Session} (fallback : EngineValue)
    (ht : t.workspace.engines = s.workspace.engines.push { fallback }) (p : Nat) :
    (t.recorder p).submitted = (s.recorder p).submitted ∧ (t.recorder p).replies = (s.recorder p).replies := by
  rw [recorder_eq, recorder_eq, ht, Array.getElem?_push]
  split
  · rename_i heq
    rw [heq, Array.getElem?_eq_none (Nat.le_refl _)]
    exact ⟨rfl, rfl⟩
  · exact ⟨rfl, rfl⟩

/-- **A quiet step leaves the logs and the replies of all engines as they are.** -/
theorem recorder_next_of_isQuiet (hq : isQuiet step = true) (p : Nat) :
    ((s.next step).recorder p).submitted = (s.recorder p).submitted ∧
      ((s.next step).recorder p).replies = (s.recorder p).replies := by
  have hsame : ∀ t : Session, t.workspace.engines = s.workspace.engines →
      (t.recorder p).submitted = (s.recorder p).submitted ∧ (t.recorder p).replies = (s.recorder p).replies :=
    fun t ht => by rw [recorder_eq, recorder_eq, ht]; exact ⟨rfl, rfl⟩
  generalize hs' : s.next step = s'
  have ho := outcome s step
  rw [hs'] at ho
  cases ho with
  | idle _ _ hw => exact hsame s' (by rw [hw])
  | engine name fallback => exact recorder_push fallback rfl p
  | reply _ _ _ => cases hq
  | context name engine config place engines he =>
    rcases he with ⟨rfl, -⟩ | ⟨rfl, -⟩
    · exact hsame _ rfl
    · exact recorder_push .empty rfl p
  | source | apply | node =>
    refine hsame _ ?_
    rw [(engines_bindBuilt s _ _ _).1]
    exact Workspace.engines_build _ _ _
  | clone _ _ h => exact hsame _ (engines_bindBuilt s _ h.kind (h.node, s.workspace.retain h.node)).1
  | drop a => exact hsame _ (engines_unbind s a).1
  | compute _ _ _ => cases hq

theorem log_handOver {t : Session} (he : s.workspace.engines[x.engine]? = some e) (script : Script)
    (ht : t.workspace = s.workspace.handOver x.engine e script) (p : Nat) :
    t.log p = s.log p ++ (([(x.engine, script)].filter fun q => q.1 == p).map (·.2)) := by
  rw [log, log, recorder_eq, recorder_eq, ht, Workspace.handOver, Array.getElem?_setIfInBounds]
  by_cases hp : x.engine = p
  · subst hp
    rw [if_pos rfl, if_pos (Array.getElem?_eq_some_iff.1 he).1, he]
    simp [Recorder.taking]
  · simp [hp]

theorem log_next_reply (s : Session) (engine : String) (reply : Reply) (p : Nat) :
    (s.next (.reply engine reply)).log p = s.log p := by
  cases hplace : s.engine "exec" engine with
  | error field => rw [next_of_error (by rw [act, hplace]; rfl)]
  | ok place =>
    rw [next_of_ok (by rw [act, hplace]; rfl), log, log, recorder_eq, recorder_eq]
    simp only [modifyEngine, Array.getElem?_modify]
    split
    · cases s.workspace.engines[p]? <;> rfl
    · rfl

theorem next_compute (hh : s.handles.lookup name = some h) :
    s.next (.compute name) = { s.issue.2 with workspace := (s.workspace.submit s.issue.1 h.node).2 } := by
  rw [← compute_snd, ← run_compute hh]
  rfl

/-- A computation adds its script to the log of one engine, or nothing if it is rejected. -/
theorem log_next_compute (hw : s.Wired) (name : String) (p : Nat) :
    (s.next (.compute name)).log p =
      s.log p ++ ((s.handedOver (.compute name)).filter fun q => q.1 == p).map (·.2) := by
  cases hh : s.handles.lookup name with
  | none =>
    have hact : s.act (.compute name) = .error "a" := by
      simp only [act, handle, Session.lookup, hh]
      rfl
    simp [next_of_error hact, handedOver, hh]
  | some h =>
    rw [next_compute hh]
    cases hx : (s.workspace.node? h.node).bind fun n => s.workspace.context? n.context with
    | none =>
      have hsubmit : (s.workspace.submit s.issue.1 h.node).2 = s.workspace := by rw [Workspace.submit, hx]
      rw [hsubmit]
      simp only [handedOver, hh, hx, List.filter_nil, List.map_nil, List.append_nil]
      rfl
    | some x =>
      obtain ⟨n, hn, hnx⟩ := Option.bind_eq_some_iff.1 hx
      have he := Array.getElem?_eq_getElem (hw.workspace _ _ hnx)
      by_cases hpass : s.workspace.passes x h.node = true
      · simp only [handedOver, hh, hx, hpass, ↓reduceIte]
        rw [Workspace.submit_accepted _ hn hnx (Workspace.passes_iff.1 hpass) he]
        exact log_handOver he _ rfl p
      · obtain ⟨cause, hv, hcause⟩ := Workspace.exists_cause hpass
        simp only [handedOver, hh, hx, hpass, Bool.false_eq_true, ↓reduceIte, List.filter_nil, List.map_nil,
          List.append_nil]
        rw [Workspace.submit_rejected _ hn hnx hv hcause]
        rfl

/-- **A step adds to the log of each engine what it hands over to it.** -/
theorem log_next (hw : s.Wired) (step : Step) (p : Nat) :
    (s.next step).log p = s.log p ++ ((s.handedOver step).filter fun q => q.1 == p).map (·.2) := by
  have hquiet : isQuiet step = true → (s.next step).log p = s.log p := fun hq => by
    rw [log, log, (recorder_next_of_isQuiet hq p).1]
  cases step with
  | compute name => exact log_next_compute hw name p
  | reply engine reply =>
    rw [log_next_reply]
    exact (List.append_nil _).symm
  | rounds n steps => exact (List.append_nil _).symm
  | _ =>
    rw [hquiet rfl]
    exact (List.append_nil _).symm

/-- **The log of an engine is what steps have handed over to it, in their order.** -/
theorem log_foldl_next (hw : s.Wired) (steps : List Step) (p : Nat) :
    (steps.foldl Session.next s).log p = s.log p ++ ((s.handedOverBy steps).filter fun q => q.1 == p).map (·.2) := by
  induction steps generalizing s with
  | nil => simp [handedOverBy]
  | cons step steps ih =>
    rw [List.foldl_cons, ih (hw.next step), log_next hw, handedOverBy, List.filter_append, List.map_append,
      List.append_assoc]

/-- **The protocol of computations**, in every session that a run leads to.  Computing a handle does what `Computes` says;
quiet steps leave the logs and replies of all engines as they are; and the log of each engine is the scripts handed over
to it throughout the run, in their order. -/
theorem compute_protocol (steps : List Step) :
    (∀ name h, (runAll {} steps).2.handles.lookup name = some h →
      ∃ n x e, (runAll {} steps).2.Computes name h n x e) ∧
    (∀ step p, isQuiet step = true →
      (((runAll {} steps).2.run step).2.recorder p).submitted = ((runAll {} steps).2.recorder p).submitted ∧
        (((runAll {} steps).2.run step).2.recorder p).replies = ((runAll {} steps).2.recorder p).replies) ∧
    ∀ p, (runAll {} steps).2.log p =
      ((handedOverBy {} (flatAll steps)).filter fun q => q.1 == p).map (·.2) := by
  have hsound := sound_runAll steps
  have hwired : (runAll {} steps).2.Wired := by
    rw [runAll_snd]
    exact wired_empty.foldl_next _
  refine ⟨fun name h hh => computes hsound hwired hh, fun step p hq => ?_, fun p => ?_⟩
  · have hrun : ((runAll {} steps).2.run step).2 = (runAll {} steps).2.next step := by
      rw [run_snd]
      cases step with
      | rounds n steps => cases hq
      | _ => rfl
    rw [hrun]
    exact recorder_next_of_isQuiet hq p
  · rw [runAll_snd, log_foldl_next wired_empty]
    simp [log, recorder]

/-- Two contexts with one engine, which has a reply left; the second takes no node. -/
def shared : List Step :=
  [.engine "e" .empty, .reply "e" (.ok (.scalar 0.5)), .context "a" (some "e") {},
    .context "b" (some "e") { maxNodes := 0 }, .source "x" "a" (.scalar 1.0), .source "y" "b" (.scalar 1.0)]

def sharedNode (context : Nat) (registration : Option GraphError) : Node :=
  { (Source.scalar 1.0).spec with context, id := 0, registration }

theorem node?_shared : (runAll {} shared).2.workspace.node? 0 = some (sharedNode 0 none) ∧
    (runAll {} shared).2.workspace.node? 1 = some (sharedNode 1 (some (.nodeLimitExceeded 0))) := ⟨rfl, rfl⟩

theorem context?_shared : ∃ x y, (runAll {} shared).2.workspace.context? 0 = some x ∧
    (runAll {} shared).2.workspace.context? 1 = some y ∧ x.engine = 0 ∧ y.config.validateOnSubmit = true :=
  ⟨_, _, rfl, rfl, rfl, rfl⟩

theorem validate_shared : (runAll {} shared).2.workspace.graph.validate 0 = .ok () ∧
    (runAll {} shared).2.workspace.graph.validate 1 = .error (.graph (.nodeLimitExceeded 0)) := by
  refine ⟨Graph.validate_ok_of_keeps node?_shared.1 fun r n hr hn => ?_, Graph.validate_of_fault? node?_shared.2 rfl⟩
  obtain rfl : r = 0 := Nat.le_zero.1 hr.le
  cases node?_shared.1.symm.trans hn
  exact Graph.fault?_eq_none_iff.1 rfl

/-- The computation on the first context takes the reply and is the one script in the log; the one on the second is
rejected, and nothing changes. -/
theorem compute_protocol_shared :
    (∃ t, (runAll {} shared).2.run (.compute "x") = (.scalar 0.5, t) ∧
      t.log 0 = [(runAll {} shared).2.workspace.script (runAll {} shared).2.issue.1 0]) ∧
    (runAll {} shared).2.run (.compute "y") =
      (.failed (.graph (.nodeLimitExceeded 0)), (runAll {} shared).2.issue.2) := by
  obtain ⟨hcomputes, -, hlog⟩ := compute_protocol shared
  obtain ⟨x, y, hx, hy, hengine, hvalidates⟩ := context?_shared
  constructor
  · obtain ⟨n, x', e, h⟩ := hcomputes "x" ⟨.scalar, 0⟩ rfl
    cases node?_shared.1.symm.trans h.node
    cases hx.symm.trans h.context
    have he := h.engine
    rw [hengine] at he
    have hreply : e.nextReply = .ok (.scalar 0.5) := by
      cases he
      rfl
    obtain ⟨answer, hrun, hanswers⟩ := h.accepted fun _ => validate_shared.1
    refine ⟨_, hrun.trans (by rw [(hanswers.scalar 0.5).2 ⟨rfl, hreply⟩]), ?_⟩
    refine (log_handOver h.engine _ rfl 0).trans ?_
    rw [hlog 0, hengine]
    rfl
  · obtain ⟨n, y', e, h⟩ := hcomputes "y" ⟨.scalar, 1⟩ rfl
    cases node?_shared.2.symm.trans h.node
    cases hy.symm.trans h.context
    exact h.rejected _ hvalidates validate_shared.2

end Session
end MatrixPlan

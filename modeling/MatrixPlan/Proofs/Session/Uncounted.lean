import MatrixPlan.Session.Run
import MatrixPlan.Proofs.Workspace.Uncounted
/-!
# Uncounted — non-zero counts are for the caller alone

Runs of steps that differ in the counts they give, and in the estimators of their contexts, differ in the counts of
their nodes and in nothing else: no shape, number, verdict, script or reply depends on a count.  Two sessions that
differ in counts and estimators alone (`Session.uncounted`) give answers to a step that do so too, and are left so.
-/
namespace MatrixPlan

def NodeRequest.uncounted (r : NodeRequest) : NodeRequest := { r with metadata := r.metadata.uncounted }

namespace Step

mutual

/-- A step without the non-zero counts that it gives; its contexts estimate by averages. -/
def uncounted : Step → Step
  | .context name e config => .context name e config.uncounted
  | .source name c s => .source name c s.uncounted
  | .node name c request => .node name c request.uncounted
  | .rounds n steps => .rounds n (uncountedAll steps)
  | step => step

def uncountedAll : List Step → List Step
  | [] => []
  | step :: steps => uncounted step :: uncountedAll steps

end

/-- Whether a step gives no counts and builds no node. -/
def isPlain : Step → Bool
  | .context .. | .source .. | .apply .. | .node .. | .rounds .. => false
  | _ => true

theorem uncounted_of_isPlain {step : Step} (h : step.isPlain = true) : step.uncounted = step := by
  cases step with
  | context | source | apply | node | rounds => cases h
  | _ => rfl

end Step

namespace Answer

mutual

/-- An answer without the non-zero counts of the nodes and the estimators of the contexts that it shows. -/
def uncounted : Answer → Answer
  | .context place config => .context place config.uncounted
  | .bound n live => .bound n.uncounted live
  | .info i => .info { i with node := i.node.uncounted }
  | .answers list => .answers (uncountedAll list)
  | a => a

def uncountedAll : List Answer → List Answer
  | [] => []
  | a :: as => uncounted a :: uncountedAll as

end

end Answer

namespace Session

/-- A session without the non-zero counts of its nodes and the estimators of its contexts. -/
def uncounted (s : Session) : Session := { s with workspace := s.workspace.uncounted }

/-- An answer and a session, both without counts and estimators. -/
def forget (r : Answer × Session) : Answer × Session := (r.1.uncounted, r.2.uncounted)

variable {s t : Session}

theorem bind_map {x : Except ε α} {f g : α → Except ε β} {k : β → β} (h : ∀ a, g a = (f a).map k) :
    (x >>= g) = (x >>= f).map k := by
  cases x with
  | error e => rfl
  | ok a => exact h a

theorem bind_agree {x : Except ε α} {f g : α → Except ε β} {k : β → β} (h : ∀ a, (f a).map k = (g a).map k) :
    (x >>= f).map k = (x >>= g).map k := by
  cases x with
  | error e => rfl
  | ok a => exact h a

theorem unbind_uncounted (s : Session) (name : String) : s.uncounted.unbind name = (s.unbind name).uncounted := by
  have hh : s.uncounted.handles = s.handles := rfl
  unfold unbind
  rw [hh]
  cases s.handles.lookup name with
  | none => rfl
  | some h =>
    exact congrArg (fun w => { s with workspace := w, handles := s.handles.filter fun p => p.1 != name })
      (s.workspace.drop_uncounted h.node)

theorem bindHandle_uncounted (s : Session) (name : String) (h : Handle) :
    s.uncounted.bindHandle name h = forget (s.bindHandle name h) := by
  unfold bindHandle
  rw [unbind_uncounted]
  have hnode := (s.unbind name).workspace.node?_uncounted h.node
  have hcount := (s.unbind name).workspace.nodeCount_uncounted
  dsimp only [uncounted] at hnode hcount ⊢
  rw [hnode]
  cases (s.unbind name).workspace.node? h.node with
  | none => rfl
  | some n =>
    rw [Option.map_some]
    dsimp only
    rw [hcount]
    rfl

theorem bindBuilt_of_uncounted_eq (hu : s.uncounted = t.uncounted) (name : String) (kind : HandleKind)
    {built built' : Nat × Workspace} (hb : Prod.map id Workspace.uncounted built = Prod.map id Workspace.uncounted built') :
    forget (s.bindBuilt name kind built) = forget (t.bindBuilt name kind built') := by
  have hbuilt : ∀ (u : Session) (b : Nat × Workspace),
      forget (u.bindBuilt name kind b) = u.uncounted.bindBuilt name kind (Prod.map id Workspace.uncounted b) :=
    fun u b => (bindHandle_uncounted { u with workspace := b.2 } name ⟨kind, b.1⟩).symm
  rw [hbuilt, hbuilt, hu, hb]

theorem specOf_uncounted (s : Session) (r : NodeRequest) :
    s.uncounted.specOf r.uncounted = (s.specOf r).map NodeSpec.uncounted := by
  have hinput : s.uncounted.input = s.input := rfl
  unfold specOf
  rw [hinput]
  refine bind_map fun unnamed => ?_
  exact bind_map fun named => rfl

theorem nameOf_uncounted (s : Session) : s.uncounted.nameOf = s.nameOf := by
  funext r
  have hnode : s.uncounted.workspace.node? r = (s.workspace.node? r).map Node.uncounted := s.workspace.node?_uncounted r
  unfold nameOf
  rw [hnode]
  cases s.workspace.node? r <;> rfl

theorem shown_uncounted (s : Session) : s.uncounted.shown = s.shown := by
  funext i
  unfold shown
  rw [nameOf_uncounted]

theorem infoOf_uncounted (s : Session) (n : Node) :
    s.uncounted.infoOf n.uncounted = { s.infoOf n with node := n.uncounted } := by
  unfold infoOf
  rw [nameOf_uncounted, shown_uncounted]
  rfl

theorem placed_uncounted (s : Session) : s.uncounted.placed = s.placed := by
  funext script
  have hplace : s.uncounted.workspace.placeOf? script.contextId = s.workspace.placeOf? script.contextId :=
    s.workspace.placeOf?_uncounted _
  unfold placed
  rw [hplace]

theorem scriptOf_uncounted (s : Session) (name : String) :
    s.uncounted.scriptOf name = (s.scriptOf name).map (Prod.map id uncounted) := by
  refine bind_map fun h => ?_
  have hscript : s.uncounted.issue.2.workspace.script s.issue.1 h.node = s.issue.2.workspace.script s.issue.1 h.node :=
    s.workspace.script_uncounted _ _
  exact congrArg (fun script => Except.ok (script, s.uncounted.issue.2)) hscript

theorem compute_uncounted (s : Session) (h : Handle) : s.uncounted.compute h = forget (s.compute h) := by
  have hsubmit : s.uncounted.issue.2.workspace.submit s.issue.1 h.node =
      Prod.map id Workspace.uncounted (s.issue.2.workspace.submit s.issue.1 h.node) := s.workspace.submit_uncounted _ _
  have hissue : s.uncounted.issue.1 = s.issue.1 := rfl
  unfold compute Workspace.computeMatrix Workspace.computeScalar
  dsimp only
  rw [hissue, hsubmit]
  cases h.kind with
  | matrix =>
    dsimp only [Prod.map, id]
    cases Workspace.valueOf EngineValue.toMatrix (s.issue.2.workspace.submit s.issue.1 h.node).1 <;> rfl
  | scalar =>
    dsimp only [Prod.map, id]
    cases Workspace.valueOf EngineValue.toScalar (s.issue.2.workspace.submit s.issue.1 h.node).1 <;> rfl

theorem addContext_uncounted (s : Session) (name : String) (engine : Option String) (config : Config) :
    s.uncounted.addContext name engine config.uncounted = (s.addContext name engine config).map forget := by
  have hadd : ∀ (place : Nat) (w : Workspace), _ := fun place w =>
    congrArg (fun r : Nat × Workspace => (Except.ok (.context r.1 config.uncounted,
      { s.issue.2 with workspace := r.2, contexts := bind name r.1 s.contexts }) : Except String (Answer × Session)))
      (w.addContext_uncounted ⟨s.issue.1.id⟩ place config)
  cases engine with
  | none => exact hadd _ { s.workspace with engines := s.workspace.engines.push {} }
  | some e => exact bind_map fun place => hadd place s.workspace

/-- **A step that gives no counts and builds no node** is answered without counts as it is with them. -/
theorem act_uncounted (s : Session) {step : Step} (hplain : step.isPlain = true) :
    s.uncounted.act step = (s.act step).map forget := by
  cases step with
  | context name engine config | source name context source | apply name application | node name context request
  | rounds n steps => cases hplain
  | engine name fallback | unusable field | invalid cause => rfl
  | reply engine reply | calls engine => exact bind_map fun place => rfl
  | submitted engine =>
    refine bind_map fun place => ?_
    rw [placed_uncounted]
    rfl
  | count context =>
    exact bind_map fun c =>
      congrArg (fun n => Except.ok (Answer.count n, s.uncounted)) (s.workspace.nodeCount_uncounted c)
  | operationCount context operation =>
    exact bind_map fun c =>
      congrArg (fun n => Except.ok (Answer.count n, s.uncounted)) (s.workspace.operationCount_uncounted c operation)
  | clone name a =>
    refine bind_map fun h => congrArg Except.ok ?_
    exact bindHandle_uncounted { s with workspace := s.workspace.retain h.node } name ⟨h.kind, h.node⟩
  | drop a =>
    refine bind_map fun h => ?_
    rw [unbind_uncounted]
    dsimp only
    rw [nameOf_uncounted]
    exact congrArg (fun n => Except.ok (Answer.count n, (s.unbind a).uncounted))
      ((s.unbind a).workspace.nodeCount_uncounted _)
  | same a b =>
    refine bind_map fun x => bind_map fun y => ?_
    rw [nameOf_uncounted]
    rfl
  | info a =>
    refine bind_map fun h => ?_
    have hnode : s.uncounted.workspace.node? h.node = (s.workspace.node? h.node).map Node.uncounted :=
      s.workspace.node?_uncounted _
    rw [hnode]
    cases s.workspace.node? h.node with
    | none => rfl
    | some n => exact congrArg (fun i => Except.ok (Answer.info i, s.uncounted)) (s.infoOf_uncounted n)
  | validate a =>
    refine bind_map fun h => ?_
    have hverdict : s.uncounted.workspace.graph.validate h.node = s.workspace.graph.validate h.node :=
      s.workspace.graph.validate_uncounted _
    rw [hverdict]
    cases s.workspace.graph.validate h.node <;> rfl
  | script a =>
    change (s.uncounted.scriptOf a >>= _) = (s.scriptOf a >>= _).map _
    rw [scriptOf_uncounted]
    cases s.scriptOf a with
    | error field => rfl
    | ok r =>
      exact congrArg (fun f => Except.ok (Answer.script (f r.1).1 (f r.1).2 (f r.1).2.survives, r.2.uncounted))
        (placed_uncounted r.2)
  | fingerprint a =>
    change (s.uncounted.scriptOf a >>= _) = (s.scriptOf a >>= _).map _
    rw [scriptOf_uncounted]
    cases s.scriptOf a <;> rfl
  | compute a => exact bind_map fun h => congrArg Except.ok (s.compute_uncounted h)

/-- **Sessions that differ in counts and estimators alone** answer a step alike, whichever counts and estimators it
gives, and are alike after it. -/
theorem act_of_uncounted_eq (hu : s.uncounted = t.uncounted) (step : Step) :
    (s.act step).map forget = (t.act step.uncounted).map forget := by
  have hw : s.workspace.uncounted = t.workspace.uncounted := congrArg Session.workspace hu
  have hcontext : ∀ field name, s.context field name = t.context field name :=
    fun field name => (congrArg (fun u : Session => u.context field name) hu :)
  by_cases hplain : step.isPlain = true
  · rw [Step.uncounted_of_isPlain hplain, ← act_uncounted s hplain, hu, act_uncounted t hplain]
  cases step with
  | context name engine config =>
    change (s.addContext name engine config).map forget = (t.addContext name engine config.uncounted).map forget
    rw [← addContext_uncounted, hu]
    exact t.addContext_uncounted name engine config.uncounted
  | source name context source =>
    have hkind : HandleKind.ofOutput source.uncounted.spec.output = .ofOutput source.spec.output := by cases source <;> rfl
    change (s.context "ctx" context >>= _).map _ = (t.context "ctx" context >>= fun c =>
      pure (t.bindBuilt name (.ofOutput source.uncounted.spec.output) _)).map _
    rw [hcontext, hkind]
    exact bind_agree fun c => congrArg Except.ok
      (bindBuilt_of_uncounted_eq hu name _ (s.workspace.addSource_of_uncounted_eq hw c source))
  | apply name application =>
    -- the estimates are not the same, so going on without counts is not enough
    have hplaced : application.mapM s.matrixNode = application.mapM t.matrixNode :=
      (congrArg (fun u : Session => application.mapM u.matrixNode) hu :)
    change (application.mapM s.matrixNode >>= _).map _ = (application.mapM t.matrixNode >>= _).map _
    rw [hplaced]
    exact bind_agree fun placed => congrArg Except.ok
      (bindBuilt_of_uncounted_eq hu name _ (s.workspace.apply_of_uncounted_eq hw placed))
  | node name context request =>
    change (s.context "ctx" context >>= _).map _ = (t.context "ctx" context >>= _).map _
    rw [hcontext]
    refine bind_agree fun c => ?_
    have hspec : t.specOf request.uncounted = (s.specOf request).map NodeSpec.uncounted := by
      rw [← specOf_uncounted, hu]
      rfl
    rw [hspec]
    cases s.specOf request with
    | error field => rfl
    | ok spec =>
      exact congrArg Except.ok (bindBuilt_of_uncounted_eq hu name _ (s.workspace.build_of_uncounted_eq hw c rfl))
  | rounds n steps => exact congrArg (fun u => Except.ok (Answer.answers [], u)) hu
  | _ => exact absurd rfl hplain

theorem settle_of_uncounted_eq (hu : s.uncounted = t.uncounted) {x y : Except String (Answer × Session)}
    (h : x.map forget = y.map forget) : forget (s.settle x) = forget (t.settle y) := by
  cases x with
  | error field =>
    cases y with
    | error field' =>
      cases h
      exact Prod.ext rfl hu
    | ok r => cases h
  | ok r =>
    cases y with
    | error field => cases h
    | ok r' => exact Except.ok.inj h

/-- Answers and a session, all without counts and estimators. -/
def forgetAll (r : List Answer × Session) : List Answer × Session := (Answer.uncountedAll r.1, r.2.uncounted)

mutual

theorem run_of_uncounted_eq (step : Step) (s t : Session) (hu : s.uncounted = t.uncounted) :
    forget (s.run step) = forget (t.run step.uncounted) := by
  cases step with
  | rounds n steps =>
    have hround := runAll_of_uncounted_eq steps
    have hall : ∀ n : Nat, forgetAll (n.repeat (fun r => runAll r.2 steps) ([], s)) =
        forgetAll (n.repeat (fun r => runAll r.2 (Step.uncountedAll steps)) ([], t)) := by
      intro n
      induction n with
      | zero => exact Prod.ext rfl hu
      -- a round starts where the rounds before it have left both sessions
      | succ n ih => exact hround _ _ (congrArg Prod.snd ih)
    exact congrArg (fun r : List Answer × Session => (Answer.answers r.1, r.2)) (hall n)
  | _ => exact settle_of_uncounted_eq hu (act_of_uncounted_eq hu _)

/-- **Sessions that differ in counts and estimators alone answer all steps alike**, and are alike after them. -/
theorem runAll_of_uncounted_eq (steps : List Step) (s t : Session) (hu : s.uncounted = t.uncounted) :
    forgetAll (s.runAll steps) = forgetAll (t.runAll (Step.uncountedAll steps)) := by
  cases steps with
  | nil => exact Prod.ext rfl hu
  | cons step steps =>
    have hhead := run_of_uncounted_eq step s t hu
    have htail := runAll_of_uncounted_eq steps _ _ (congrArg Prod.snd hhead)
    exact congrArg₂ (fun a (r : List Answer × Session) => (a :: r.1, r.2)) (congrArg Prod.fst hhead) htail

end

/-- **Two sessions that agree on all but non-zero counts.** -/
structure AgreesUpToCounts (s t : Session) : Prop where
  handles : s.handles = t.handles
  size : s.workspace.graph.size = t.workspace.graph.size
  /-- Nodes at one place are one node, but for the count. -/
  nodes : ∀ (r : Nat) (n : Node), s.workspace.node? r = some n → ∃ nnz,
    t.workspace.node? r = some { n with metadata := ⟨n.metadata.rows, n.metadata.cols, nnz⟩ }
  verdicts : ∀ root, s.workspace.graph.validate root = t.workspace.graph.validate root
  /-- Scripts are the same whenever and under whatever identifier they are made. -/
  scripts : ∀ (stamp stamp' : Stamp) (root : Nat),
    (s.workspace.script stamp root).statements = (t.workspace.script stamp' root).statements ∧
    (s.workspace.script stamp root).output = (t.workspace.script stamp' root).output ∧
    (s.workspace.script stamp root).fingerprint = (t.workspace.script stamp' root).fingerprint
  submitted : ∀ place, (s.recorder place).submitted = (t.recorder place).submitted

theorem script_of_uncounted_eq (hu : s.uncounted = t.uncounted) (stamp : Stamp) (root : Nat) :
    s.workspace.script stamp root = t.workspace.script stamp root := by
  have hw : s.workspace.uncounted = t.workspace.uncounted := congrArg Session.workspace hu
  rw [← s.workspace.script_uncounted, hw, t.workspace.script_uncounted]

theorem AgreesUpToCounts.of_uncounted_eq (hu : s.uncounted = t.uncounted) : AgreesUpToCounts s t := by
  have hgraph : s.workspace.graph.uncounted = t.workspace.graph.uncounted :=
    congrArg (fun u : Session => u.workspace.graph) hu
  have hhandles : s.handles = t.handles := (congrArg (fun u : Session => u.handles) hu :)
  constructor
  case handles => exact hhandles
  case size => rw [← Graph.size_uncounted, hgraph, Graph.size_uncounted]
  case nodes =>
    intro r n hn
    obtain ⟨hnone, -⟩ | ⟨m, m', hm, hm', heq⟩ := Graph.node?_of_uncounted_eq hgraph r
    · cases hnone.symm.trans hn
    · cases hm.symm.trans hn
      exact ⟨m'.metadata.nnz, hm'.trans (congrArg some (Node.eq_of_uncounted_eq heq))⟩
  case verdicts =>
    intro root
    rw [← Graph.validate_uncounted, hgraph, Graph.validate_uncounted]
  case scripts =>
    intro stamp stamp' root
    -- the stamp is no part of the statements
    have hscript := script_of_uncounted_eq hu stamp' root
    have hstatements : (s.workspace.script stamp' root).statements = (t.workspace.script stamp' root).statements :=
      congrArg Script.statements hscript
    have houtput : (s.workspace.script stamp' root).output = (t.workspace.script stamp' root).output :=
      congrArg Script.output hscript
    exact ⟨hstatements, houtput, Script.fingerprint_congr hstatements houtput⟩
  case submitted =>
    intro place
    exact (congrArg (fun u : Session => (u.recorder place).submitted) hu :)

/-- **No run lets a non-zero count out.**  Two runs of the same steps, but for estimators and for the counts that are
given, have answers and leave sessions that differ in counts alone. -/
theorem runAll_blind_to_counts {steps steps' : List Step} (h : Step.uncountedAll steps = Step.uncountedAll steps') :
    Answer.uncountedAll (runAll {} steps).1 = Answer.uncountedAll (runAll {} steps').1 ∧
      AgreesUpToCounts (runAll {} steps).2 (runAll {} steps').2 := by
  have hruns : forgetAll (runAll {} steps) = forgetAll (runAll {} steps') := by
    rw [runAll_of_uncounted_eq steps {} {} rfl, h, ← runAll_of_uncounted_eq steps' {} {} rfl]
  exact ⟨congrArg Prod.fst hruns, .of_uncounted_eq (congrArg Prod.snd hruns)⟩

/-- A matrix that is read, and which of its cells are zero. -/
def zeroes (estimator : Estimator) (nnz : Option UInt64) : List Step :=
  [.context "c" none { estimator }, .source "x" "c" (.read "x.csv" ⟨some 2, some 2, nnz⟩), .apply "y" (.eqZero "x")]

/-- The count of the zeroes is known in one run and not in the other; their script is the same. -/
theorem runAll_blind_to_counts_zeroes :
    Step.uncountedAll (zeroes .average (some 1)) = Step.uncountedAll (zeroes .worst none) ∧
      (∃ n n', (runAll {} (zeroes .average (some 1))).2.workspace.node? 1 = some n ∧ n.metadata.nnz = some 3 ∧
        (runAll {} (zeroes .worst none)).2.workspace.node? 1 = some n' ∧ n'.metadata.nnz = none) ∧
      ∀ stamp stamp', ((runAll {} (zeroes .average (some 1))).2.workspace.script stamp 1).fingerprint =
        ((runAll {} (zeroes .worst none)).2.workspace.script stamp' 1).fingerprint :=
  ⟨rfl, ⟨_, _, rfl, rfl, rfl, rfl⟩, fun stamp stamp' =>
    ((@runAll_blind_to_counts (zeroes .average (some 1)) (zeroes .worst none) rfl).2.scripts
      stamp stamp' 1).2.2⟩

end Session
end MatrixPlan

import MatrixPlan.Proofs.Session.Flat
/-!
# Outcome — what a step can do to a session

A step that is no repetition either fails, or looks at the session, or makes one of a few changes (`Outcome`): it adds an
engine or a context, binds a name to a node, drops one, or hands a graph over.  What is kept throughout runs is shown for
each of these changes once.
-/
namespace MatrixPlan
namespace Session

variable {s s' : Session} {name field : String} {a : Answer} {step : Step}

theorem bind_ok {x : Except ε α} {f : α → Except ε β} {b : β} (hb : (x >>= f) = .ok b) :
    ∃ a, x = .ok a ∧ f a = .ok b := by
  cases x with
  | error e => cases hb
  | ok a => exact ⟨a, rfl, hb⟩

theorem eq_snd_of_ok {r : Answer × Session} (hr : (pure r : Except String (Answer × Session)) = .ok (a, s')) :
    s' = r.2 := by
  cases hr
  rfl

theorem mem_of_lookup {table : List (String × α)} {v : α} (hl : lookup table field name = .ok v) : (name, v) ∈ table := by
  unfold lookup at hl
  split at hl
  · rename_i v' hv
    cases hl
    obtain ⟨before, after, rfl, -⟩ := List.lookup_eq_some_iff.1 hv
    simp
  · cases hl

theorem compute_snd (s : Session) (h : Handle) :
    (s.compute h).2 = { s.issue.2 with workspace := (s.workspace.submit s.issue.1 h.node).2 } := by
  unfold Session.compute
  cases h.kind <;> rfl

/-- **What a step other than a repetition can do to a session**, with what it has found there. -/
inductive Outcome (s : Session) : Step → Session → Prop where
  | idle (step : Step) (s' : Session) (hw : s'.workspace = s.workspace) (hh : s'.handles = s.handles)
      (hc : s'.contexts = s.contexts) (he : s'.engines = s.engines) : Outcome s step s'
  | engine (name : String) (fallback : EngineValue) : Outcome s (.engine name fallback)
      { s with
        workspace := (s.workspace.addEngine { fallback }).2, engines := bind name s.workspace.engines.size s.engines }
  | reply (engine : String) (reply : Reply) (place : Nat) :
      Outcome s (.reply engine reply) (s.modifyEngine place fun e => e.push reply)
  | context (name : String) (engine : Option String) (config : Config) (place : Nat) (engines : Array Recorder)
      (he : (engines = s.workspace.engines ∧ ∃ p ∈ s.engines, p.2 = place) ∨
        (engines = s.workspace.engines.push {} ∧ place = s.workspace.engines.size)) :
      Outcome s (.context name engine config) { s.issue.2 with
        workspace := (({ s.workspace with engines } : Workspace).addContext ⟨s.issue.1.id⟩ place config).2
        contexts := bind name s.workspace.contexts.size s.contexts }
  | source (name context : String) (source : Source) (c : Nat) (hc : (context, c) ∈ s.contexts) :
      Outcome s (.source name context source)
        (s.bindBuilt name (.ofOutput source.spec.output) (s.workspace.addSource c source)).2
  | apply (name : String) (application : Application String) (placed : Application Nat)
      (hplaced : application.mapM s.matrixNode = .ok placed) :
      Outcome s (.apply name application) (s.bindBuilt name (kindOf application) (s.workspace.apply placed)).2
  | node (name context : String) (request : NodeRequest) (c : Nat) (hc : (context, c) ∈ s.contexts) (spec : NodeSpec)
      (hspec : s.specOf request = .ok spec) :
      Outcome s (.node name context request) (s.bindBuilt name (.ofOutput spec.output) (s.workspace.build c spec)).2
  | clone (name a : String) (h : Handle) (hh : s.handle "a" a = .ok h) :
      Outcome s (.clone name a) (s.bindBuilt name h.kind (h.node, s.workspace.retain h.node)).2
  | drop (a : String) : Outcome s (.drop a) (s.unbind a)
  | compute (a : String) (h : Handle) (hh : s.handle "a" a = .ok h) : Outcome s (.compute a)
      { s.issue.2 with workspace := (s.workspace.submit s.issue.1 h.node).2 }

theorem outcome_addContext {engine : Option String} {config : Config}
    (hadd : s.addContext name engine config = .ok (a, s')) : Outcome s (.context name engine config) s' := by
  unfold addContext at hadd
  cases engine with
  | none =>
    rw [eq_snd_of_ok hadd]
    exact .context _ _ _ s.workspace.engines.size _ (.inr ⟨rfl, rfl⟩)
  | some e =>
    obtain ⟨place, hplace, hadd⟩ := bind_ok hadd
    rw [eq_snd_of_ok hadd]
    exact .context _ _ _ place s.workspace.engines (.inl ⟨rfl, _, mem_of_lookup hplace, rfl⟩)

/-- **A step that succeeds has an outcome.** -/
theorem outcome_of_act (hact : s.act step = .ok (a, s')) : Outcome s step s' := by
  cases step with
  | engine name fallback =>
    cases hact
    exact .engine name fallback
  | reply engine reply =>
    obtain ⟨place, -, hact⟩ := bind_ok hact
    cases hact
    exact .reply engine reply place
  | calls engine | submitted engine | count context | operationCount context operation =>
    obtain ⟨place, -, hact⟩ := bind_ok hact
    cases hact
    exact .idle _ _ rfl rfl rfl rfl
  | context name engine config => exact outcome_addContext hact
  | source name context source =>
    obtain ⟨c, hc, hact⟩ := bind_ok hact
    rw [eq_snd_of_ok hact]
    exact .source name context source c (mem_of_lookup hc)
  | apply name application =>
    obtain ⟨placed, hplaced, hact⟩ := bind_ok hact
    rw [eq_snd_of_ok hact]
    exact .apply name application placed hplaced
  | node name context request =>
    obtain ⟨c, hc, hact⟩ := bind_ok hact
    obtain ⟨spec, hspec, hact⟩ := bind_ok hact
    rw [eq_snd_of_ok hact]
    exact .node name context request c (mem_of_lookup hc) spec hspec
  | clone name a =>
    obtain ⟨h, hh, hact⟩ := bind_ok hact
    rw [eq_snd_of_ok hact]
    exact .clone name a h hh
  | drop a =>
    obtain ⟨h, -, hact⟩ := bind_ok hact
    cases hact
    exact .drop a
  | same a b =>
    obtain ⟨x, -, hact⟩ := bind_ok hact
    obtain ⟨y, -, hact⟩ := bind_ok hact
    cases hact
    exact .idle _ _ rfl rfl rfl rfl
  | info a =>
    obtain ⟨h, -, hact⟩ := bind_ok hact
    split at hact
    · cases hact
      exact .idle _ _ rfl rfl rfl rfl
    · cases hact
  | validate a =>
    obtain ⟨h, -, hact⟩ := bind_ok hact
    split at hact
    · cases hact
      exact .idle _ _ rfl rfl rfl rfl
    · cases hact
      exact .idle _ _ rfl rfl rfl rfl
  | script a | fingerprint a =>
    obtain ⟨⟨script, t⟩, hscript, hact⟩ := bind_ok hact
    obtain ⟨h, -, hscript⟩ := bind_ok hscript
    cases hscript
    rw [eq_snd_of_ok hact]
    exact .idle _ _ rfl rfl rfl rfl
  | compute a =>
    obtain ⟨h, hh, hact⟩ := bind_ok hact
    rw [eq_snd_of_ok hact, compute_snd]
    exact .compute a h hh
  | rounds n steps =>
    cases hact
    exact .idle _ _ rfl rfl rfl rfl
  | unusable field => cases hact
  | invalid cause =>
    cases hact
    exact .idle _ _ rfl rfl rfl rfl

theorem outcome (s : Session) (step : Step) : Outcome s step (s.next step) := by
  cases hact : s.act step with
  | error field =>
    rw [next_of_error hact]
    exact .idle _ _ rfl rfl rfl rfl
  | ok r =>
    rw [next_of_ok hact]
    exact outcome_of_act hact

end Session
end MatrixPlan

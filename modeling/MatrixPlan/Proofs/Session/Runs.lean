import MatrixPlan.Proofs.Session.Outcome
import MatrixPlan.Proofs.Workspace.Origins
/-!
# Runs — the workspaces of sessions are those that moves lead to

A session holds the nodes of its bound handles.  Every step of a session is a sequence of moves, builds of other nodes
than sources and applications being for `node` steps alone, so what holds of every workspace that moves lead to holds
throughout every run.
-/
namespace MatrixPlan
namespace Session

open Workspace (Reachable Move offered anything)

/-- The nodes that handles are bound to, each as often as there are handles. -/
def held (s : Session) : Multiset Nat := (s.handles.map fun p => p.2.node : List Nat)

/-- **What every step of a session keeps**: moves have led here, with `extra` held besides what handles are bound to; names
are bound once, and contexts are in place. -/
structure Sound (permit : Workspace → Nat → NodeSpec → Prop) (extra : Multiset Nat) (s : Session) : Prop where
  reachable : Reachable permit s.workspace (extra + s.held)
  names : (s.handles.map (·.1)).Nodup
  contexts : ∀ p ∈ s.contexts, p.2 < s.workspace.contexts.size

variable {permit : Workspace → Nat → NodeSpec → Prop} {extra : Multiset Nat} {s s' : Session} {name field : String}
  {h : Handle} {a : Answer}

theorem node_mem_held (hh : s.handle field name = .ok h) : h.node ∈ s.held :=
  Multiset.mem_coe.2 (List.mem_map.2 ⟨_, mem_of_lookup hh, rfl⟩)

theorem matrixNode_mem_held {r : Nat} (hr : s.matrixNode field name = .ok r) : r ∈ s.held := by
  obtain ⟨h, hh, hr⟩ := bind_ok hr
  split at hr
  · cases hr
    exact node_mem_held hh
  · cases hr

theorem coe_map_filter {table : List (String × Handle)} (hnodup : (table.map (·.1)).Nodup)
    (hl : table.lookup name = some h) :
    (((table.filter fun p => p.1 != name).map fun p => p.2.node : List Nat) : Multiset Nat) =
      ((table.map fun p => p.2.node : List Nat) : Multiset Nat).erase h.node := by
  induction table with
  | nil => cases hl
  | cons p table ih =>
    obtain ⟨key, first⟩ := p
    rw [List.map_cons, List.nodup_cons] at hnodup
    by_cases hp : key = name
    · subst hp
      have hkeep : table.filter (fun q => q.1 != key) = table := by
        refine List.filter_eq_self.2 fun q hq => ?_
        rw [bne_iff_ne]
        exact fun heq => hnodup.1 (List.mem_map.2 ⟨q, hq, heq⟩)
      have hhead : first = h := by simpa using hl
      simp [hkeep, hhead]
    · have htail : table.lookup name = some h := by
        rw [List.lookup_cons, beq_eq_false_iff_ne.2 (Ne.symm hp)] at hl
        exact hl
      have hmem : h.node ∈ ((table.map fun p => p.2.node : List Nat) : Multiset Nat) := by
        obtain ⟨before, after, rfl, -⟩ := List.lookup_eq_some_iff.1 htail
        simp
      rw [List.filter_cons_of_pos (by simpa using hp), List.map_cons, List.map_cons, ← Multiset.cons_coe,
        ← Multiset.cons_coe, Multiset.erase_cons_tail_of_mem hmem, ih hnodup.2 htail]

/-- **A name that loses its handle** is a move, whatever else is held. -/
theorem Sound.unbind (hs : Sound permit extra s) (name : String) :
    Sound permit extra (s.unbind name) ∧ name ∉ (s.unbind name).handles.map (·.1) := by
  unfold Session.unbind
  cases hl : s.handles.lookup name with
  | none =>
    refine ⟨hs, fun hin => ?_⟩
    obtain ⟨p, hp, rfl⟩ := List.mem_map.1 hin
    have hne := List.lookup_eq_none_iff.1 hl p hp
    simp at hne
  | some h =>
    have hmem : h.node ∈ s.held := by
      obtain ⟨before, after, heq, -⟩ := List.lookup_eq_some_iff.1 hl
      simp [held, heq]
    have hreach := hs.reachable.tail (.drop _ _ h.node (Multiset.mem_add.2 (.inr hmem)))
    refine ⟨⟨?_, ?_, fun p hp => ?_⟩, ?_⟩
    · rw [Multiset.erase_add_right_pos _ hmem, held, ← coe_map_filter hs.names hl] at hreach
      exact hreach
    · exact hs.names.sublist (List.filter_sublist.map _)
    · have hsize : (s.workspace.drop h.node).contexts.size = s.workspace.contexts.size := Workspace.size_foldl_uncount _ _ _
      rw [hsize]
      exact hs.contexts p hp
    · simp

/-- **A name that is bound to a node held besides** holds it from then on. -/
theorem Sound.bindHandle (hs : Sound permit {h.node} s) (name : String) : Sound permit 0 (s.bindHandle name h).2 := by
  obtain ⟨hu, hfresh⟩ := hs.unbind name
  have hkeep : (s.unbind name).handles.filter (fun p => p.1 != name) = (s.unbind name).handles := by
    refine List.filter_eq_self.2 fun p hp => ?_
    rw [bne_iff_ne]
    exact fun heq => hfresh (List.mem_map.2 ⟨p, hp, heq⟩)
  have hbound : Sound permit 0 { s.unbind name with handles := bind name h (s.unbind name).handles } := by
    refine ⟨?_, ?_, hu.contexts⟩
    · have hreach := hu.reachable
      rw [Multiset.singleton_add] at hreach
      simpa [held, bind, hkeep] using hreach
    · rw [bind, hkeep, List.map_cons]
      exact List.nodup_cons.2 ⟨hfresh, hu.names⟩
  unfold Session.bindHandle
  dsimp only
  split <;> exact hbound

theorem Sound.bindBuilt (hs : Sound permit 0 s) {built : Nat × Workspace} (kind : HandleKind)
    (hm : Move permit (s.workspace, s.held) (built.2, built.1 ::ₘ s.held))
    (hsize : s.workspace.contexts.size ≤ built.2.contexts.size) : Sound permit 0 (s.bindBuilt name kind built).2 := by
  have hreach := hs.reachable
  rw [Multiset.zero_add] at hreach
  have hbuilt : Sound permit {(⟨kind, built.1⟩ : Handle).node} { s with workspace := built.2 } :=
    ⟨by rw [Multiset.singleton_add]; exact hreach.tail hm, hs.names,
      fun p hp => Nat.lt_of_lt_of_le (hs.contexts p hp) hsize⟩
  exact hbuilt.bindHandle name

theorem Sound.moved (hs : Sound permit 0 s) (hm : Move permit (s.workspace, s.held) (s'.workspace, s.held))
    (hh : s'.handles = s.handles) (hc : ∀ p ∈ s'.contexts, p.2 < s'.workspace.contexts.size) : Sound permit 0 s' := by
  have hreach := hs.reachable
  rw [Multiset.zero_add] at hreach
  exact ⟨by rw [Multiset.zero_add, held, hh]; exact hreach.tail hm, by rw [hh]; exact hs.names, hc⟩

theorem mapM_ok {f : α → Except ε β} {xs : List α} {ys : List β} (hm : xs.mapM f = .ok ys) :
    ∀ y ∈ ys, ∃ x ∈ xs, f x = .ok y := by
  induction xs generalizing ys with
  | nil =>
    cases hm
    simp
  | cons x xs ih =>
    rw [List.mapM_cons] at hm
    obtain ⟨y, hy, hm⟩ := bind_ok hm
    obtain ⟨zs, hzs, hm⟩ := bind_ok hm
    cases hm
    intro z hz
    rcases List.mem_cons.1 hz with rfl | hz
    · exact ⟨x, List.mem_cons_self, hy⟩
    · obtain ⟨x', hx', hf⟩ := ih hzs z hz
      exact ⟨x', List.mem_cons_of_mem x hx', hf⟩

theorem operands_mapM {f : String → String → Except String Nat} {application : Application String}
    {placed : Application Nat} (hm : application.mapM f = .ok placed) :
    ∀ i ∈ placed.operands, ∃ field name, f field name = .ok i := by
  cases application with
  | matmul a b | mul a b | add a b | cbind a b | rbind a b | auc a b =>
    obtain ⟨x, hx, hm⟩ := bind_ok hm
    obtain ⟨y, hy, hm⟩ := bind_ok hm
    cases hm
    intro i hi
    simp only [Application.operands, List.mem_cons, List.not_mem_nil, or_false] at hi
    rcases hi with rfl | rfl
    · exact ⟨_, _, hx⟩
    · exact ⟨_, _, hy⟩
  | transpose a | diag a | eqZero a | neqZero a | reshape a _ _ | sum a =>
    obtain ⟨x, hx, hm⟩ := bind_ok hm
    cases hm
    intro i hi
    simp only [Application.operands, List.mem_singleton] at hi
    subst hi
    exact ⟨_, _, hx⟩

theorem input_mem_held {i : NamedInput} {r : Nat} (hi : s.input i = .ok (.node r)) : r ∈ s.held := by
  cases i with
  | handle name =>
    obtain ⟨h, hh, hi⟩ := bind_ok hi
    cases hi
    exact node_mem_held hh
  | literal value => cases hi

theorem inputNodes_specOf {request : NodeRequest} {spec : NodeSpec} (hr : s.specOf request = .ok spec) :
    ∀ i ∈ spec.inputNodes, i ∈ s.held := by
  obtain ⟨unnamed, hunnamed, hr⟩ := bind_ok hr
  obtain ⟨named, hnamed, hr⟩ := bind_ok hr
  cases hr
  intro r hr
  obtain ⟨input, hin, hnode⟩ := List.mem_filterMap.1 hr
  cases input with
  | literal value => cases hnode
  | node q =>
    cases hnode
    rcases List.mem_append.1 hin with hin | hin
    · obtain ⟨x, -, hx⟩ := mapM_ok hunnamed _ hin
      exact input_mem_held hx
    · obtain ⟨p, hp, hpair⟩ := List.mem_map.1 hin
      obtain ⟨x, -, hx⟩ := mapM_ok hnamed p hp
      obtain ⟨y, hy, hx⟩ := bind_ok hx
      cases hx
      cases hpair
      exact input_mem_held hy

theorem Sound.addContext (hs : Sound permit 0 s) (name : String) (config : Config) (place : Nat)
    (engines : Array Recorder) : Sound permit 0 { s.issue.2 with
      workspace := (({ s.workspace with engines } : Workspace).addContext ⟨s.issue.1.id⟩ place config).2
      contexts := bind name s.workspace.contexts.size s.contexts } := by
  have hused : Sound permit 0 { s with workspace := { s.workspace with engines } } :=
    hs.moved (.engines _ _ _) rfl hs.contexts
  refine hused.moved (.context _ _ _ _ _) rfl fun p hp => ?_
  change p.2 < (s.workspace.contexts.push _).size
  rw [Array.size_push]
  rcases List.mem_cons.1 hp with rfl | hp
  · exact Nat.lt_succ_self _
  · exact Nat.lt_succ_of_lt (hs.contexts p (List.mem_filter.1 hp).1)

theorem Sound.congr (hs : Sound permit extra s) (hw : s'.workspace = s.workspace) (hh : s'.handles = s.handles)
    (hc : s'.contexts = s.contexts) : Sound permit extra s' :=
  ⟨by rw [hw, held, hh]; exact hs.reachable, by rw [hh]; exact hs.names, by rw [hw, hc]; exact hs.contexts⟩

mutual

/-- **Whether a step builds nothing but sources and applications.** -/
def offers : Step → Bool
  | .node _ _ _ => false
  | .rounds _ steps => offersAll steps
  | _ => true

def offersAll : List Step → Bool
  | [] => true
  | step :: steps => offers step && offersAll steps

end

/-- **A step keeps a session sound.** -/
theorem Sound.next (hs : Sound permit 0 s) (hoff : ∀ w c spec, offered w c spec → permit w c spec) {step : Step}
    (hstep : offers step = true ∨ ∀ w c spec, permit w c spec) : Sound permit 0 (s.next step) := by
  have hreach := hs.reachable
  rw [Multiset.zero_add] at hreach
  have hliving : ∀ r ∈ s.held, r ∈ s.workspace.heap.living := fun r hr => hreach.sound.owned.mem_living hr
  generalize hs' : s.next step = s'
  have ho := outcome s step
  rw [hs'] at ho
  cases ho with
  | idle _ _ hw hh hc _ => exact hs.congr hw hh hc
  | engine name fallback | reply engine reply place => exact hs.moved (.engines _ _ _) rfl hs.contexts
  | context name engine config place engines _ => exact hs.addContext name config place engines
  | source name context source c hc =>
    exact hs.bindBuilt _ ((Move.addSource (hs.contexts _ hc) source).mono hoff)
      (Nat.le_of_eq (Workspace.size_contexts_build _ _ _).symm)
  | apply name application placed hplaced =>
    have hops : ∀ i ∈ placed.operands, i ∈ s.workspace.heap.living := fun i hi => by
      obtain ⟨field, name, hi⟩ := operands_mapM hplaced i hi
      exact hliving i (matrixNode_mem_held hi)
    exact hs.bindBuilt _ ((Move.apply hreach.sound hops).mono hoff)
      (Nat.le_of_eq (Workspace.size_contexts_build _ _ _).symm)
  | node name context request c hc spec hspec =>
    have hany : ∀ w c spec, permit w c spec := hstep.resolve_left (by simp [offers])
    exact hs.bindBuilt _ (.build _ _ c spec (hs.contexts _ hc)
      (fun i hi => hliving i (inputNodes_specOf hspec i hi)) (hany _ _ _))
      (Nat.le_of_eq (Workspace.size_contexts_build _ _ _).symm)
  | clone name a h hh =>
    exact hs.bindBuilt _ (.clone _ _ h.node (hliving _ (node_mem_held hh))) (Nat.le_refl _)
  | drop a => exact (hs.unbind a).1
  | compute a h _ =>
    refine hs.moved (.submit _ _ _ _) rfl fun p hp => ?_
    change p.2 < (s.workspace.submit _ _).2.contexts.size
    rw [(s.workspace.submit_snd _ _).2]
    exact hs.contexts p hp

mutual

/-- **A step with all its rounds keeps a session sound.** -/
theorem Sound.run (hoff : ∀ w c spec, offered w c spec → permit w c spec) (step : Step)
    (hstep : offers step = true ∨ ∀ w c spec, permit w c spec) (s : Session) (hs : Sound permit 0 s) :
    Sound permit 0 (s.run step).2 := by
  cases step with
  | rounds n steps =>
    have hround := Sound.runAll hoff steps hstep
    have hall : ∀ n : Nat, Sound permit 0 (n.repeat (fun r => Session.runAll r.2 steps) (([] : List Answer), s)).2 := by
      intro n
      induction n with
      | zero => exact hs
      | succ n ih => exact hround _ ih
    exact hall n
  | _ => exact hs.next hoff hstep

theorem Sound.runAll (hoff : ∀ w c spec, offered w c spec → permit w c spec) (steps : List Step)
    (hsteps : offersAll steps = true ∨ ∀ w c spec, permit w c spec) (s : Session) (hs : Sound permit 0 s) :
    Sound permit 0 (s.runAll steps).2 := by
  cases steps with
  | nil => exact hs
  | cons step steps =>
    have hhead : offers step = true ∨ ∀ w c spec, permit w c spec :=
      hsteps.imp_left fun h => (Bool.and_eq_true_iff.1 h).1
    have htail : offersAll steps = true ∨ ∀ w c spec, permit w c spec :=
      hsteps.imp_left fun h => (Bool.and_eq_true_iff.1 h).2
    exact Sound.runAll hoff steps htail _ (Sound.run hoff step hhead s hs)

end

theorem sound_empty : Sound permit 0 {} where
  reachable := .refl
  names := List.nodup_nil
  contexts := by simp

/-- Whatever steps a sound session goes through, it is sound after them. -/
theorem Sound.after (hs : Sound anything 0 s) (steps : List Step) : Sound anything 0 (s.runAll steps).2 :=
  Sound.runAll (fun _ _ _ _ => trivial) steps (.inr fun _ _ _ => trivial) s hs

theorem sound_runAll (steps : List Step) : Sound anything 0 (runAll {} steps).2 := sound_empty.after steps

/-- **Moves lead to the workspace of every run.** -/
theorem reachable_runAll (steps : List Step) :
    Reachable anything (runAll {} steps).2.workspace (runAll {} steps).2.held := by
  have hreach := (sound_runAll steps).reachable
  rwa [Multiset.zero_add] at hreach

/-- **Sources and applications lead to the workspace of every run without other nodes.** -/
theorem reachable_offered_runAll {steps : List Step} (h : offersAll steps = true) :
    Reachable offered (runAll {} steps).2.workspace (runAll {} steps).2.held := by
  have hreach := (Sound.runAll (fun _ _ _ hp => hp) steps (.inl h) {} sound_empty).reachable
  rwa [Multiset.zero_add] at hreach

end Session
end MatrixPlan

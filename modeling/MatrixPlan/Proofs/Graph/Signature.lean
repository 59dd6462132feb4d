import Mathlib.Data.List.Nodup
import MatrixPlan.Proofs.Graph.Exactness
import MatrixPlan.Proofs.Workspace.Origins
import MatrixPlan.Script.Lowering
/-!
# Signature — the named inputs of an accepted call

Named inputs are a list, which is read in three ways: the first input of a name, the last one, and all of them in a
script.  Validation asks which names there are, not how often.  So an accepted call of a builtin passes its parameters
and nothing else, and the three readings agree when no name is repeated.
-/
namespace MatrixPlan

section lookup

variable {α : Type} {entries : List (String × α)}

theorem lookup_cons_eq (p : String × α) (entries : List (String × α)) (key : String) :
    (p :: entries).lookup key = if key = p.1 then some p.2 else entries.lookup key := by
  rw [List.lookup_cons]
  by_cases h : key = p.1
  · rw [if_pos h, beq_iff_eq.2 h]
  · rw [if_neg h, beq_eq_false_iff_ne.2 h]

/-- Without a repeated key, the last entry of a key is the first. -/
theorem lookup_reverse (h : (entries.map (·.1)).Nodup) (key : String) :
    entries.reverse.lookup key = entries.lookup key := by
  induction entries with
  | nil => rfl
  | cons p entries ih =>
    obtain ⟨hnot, hrest⟩ := List.nodup_cons.1 h
    rw [List.reverse_cons, List.lookup_append, ih hrest, lookup_cons_eq, lookup_cons_eq]
    by_cases hkey : key = p.1
    · have hnone : entries.lookup key = none := List.lookup_eq_none_iff.2 fun q hq =>
        bne_iff_ne.2 fun heq => hnot (List.mem_map.2 ⟨q, hq, heq.symm.trans hkey⟩)
      rw [if_pos hkey, if_pos hkey, hnone, Option.none_or]
    · rw [if_neg hkey, if_neg hkey, List.lookup_nil, Option.or_none]

/-- An input that is put in a table is found there, and hides no other. -/
theorem lookup_putNamed (name : String) (input : Input) (table : List (String × Input)) (key : String) :
    (putNamed name input table).lookup key = if key = name then some input else table.lookup key := by
  induction table with
  | nil => rw [putNamed, lookup_cons_eq]
  | cons p table ih =>
    rw [putNamed]
    split
    · rename_i hhead
      rw [lookup_cons_eq, lookup_cons_eq, ← hhead]
      by_cases hkey : key = name
      · rw [if_pos hkey, if_pos hkey]
      · rw [if_neg hkey, if_neg hkey, if_neg hkey]
    · rename_i hhead
      split
      · rw [lookup_cons_eq]
      · rw [lookup_cons_eq, lookup_cons_eq, ih]
        by_cases hkey : key = name
        · rw [if_pos hkey, if_pos hkey, if_neg fun heq => hhead (hkey.symm.trans heq)]
        · rw [if_neg hkey, if_neg hkey]

end lookup

namespace NodeSpec

variable {n : NodeSpec} {params : List String}

/-- The names of the named inputs, as often as they are used. -/
def names (n : NodeSpec) : List String := n.named.map (·.1)

/-- The script passes these texts by name, after the positional inputs. -/
def Passes (n : NodeSpec) (nameOf : Nat → String) (arguments : List (String × String)) : Prop :=
  n.expression nameOf = n.operation ++ "(" ++ ", ".intercalate
    (n.unnamed.map (Input.text nameOf) ++ arguments.map fun a => a.1 ++ "=" ++ a.2) ++ ")"

/-- **A call binds each parameter once**: its names are the parameters, each once; the first input of a name is the
last; and the script passes one argument for each parameter. -/
structure BindsOnce (n : NodeSpec) (params : List String) : Prop where
  names : n.names.Perm params
  lookup : ∀ name, n.namedInput? name = n.namedInputMap.lookup name
  script : ∀ nameOf, ∃ arguments, n.Passes nameOf arguments ∧ ∀ p ∈ params, (arguments.map (·.1)).count p = 1

theorem namedInput?_eq_lookup (n : NodeSpec) (name : String) : n.namedInput? name = n.named.lookup name := by
  unfold namedInput?
  induction n.named with
  | nil => rfl
  | cons p named ih =>
    rw [List.find?_cons, lookup_cons_eq]
    by_cases hname : name = p.1
    · rw [if_pos hname, beq_iff_eq.2 hname.symm]
      rfl
    · rw [if_neg hname, beq_eq_false_iff_ne.2 (Ne.symm hname)]
      exact ih

/-- Of inputs with one name the table has the last. -/
theorem lookup_namedInputMap (n : NodeSpec) (name : String) :
    n.namedInputMap.lookup name = n.named.reverse.lookup name := by
  have hall : ∀ (named table : List (String × Input)),
      (named.foldl (fun table p => putNamed p.1 p.2 table) table).lookup name =
        (named.reverse.lookup name).or (table.lookup name) := by
    intro named
    induction named with
    | nil => exact fun table => rfl
    | cons p named ih =>
      intro table
      rw [List.foldl_cons, ih, lookup_putNamed, List.reverse_cons, List.lookup_append, lookup_cons_eq, Option.or_assoc]
      by_cases hname : name = p.1
      · rw [if_pos hname, if_pos hname, Option.some_or]
      · rw [if_neg hname, if_neg hname, List.lookup_nil, Option.none_or]
  rw [namedInputMap, hall, List.lookup_nil, Option.or_none]

theorem isNone_namedInput? {name : String} : (n.namedInput? name).isNone = true ↔ name ∉ n.names := by
  rw [namedInput?_eq_lookup, Option.isNone_iff_eq_none, List.lookup_eq_none_iff, names, List.mem_map]
  constructor
  · rintro h ⟨p, hp, rfl⟩
    simpa using h p hp
  · intro h p hp
    exact bne_iff_ne.2 fun heq => h ⟨p, hp, heq.symm⟩

/-- **A signature is kept by the right names**, however often they are used. -/
theorem signatureFault?_eq_none_iff : n.signatureFault? params = none ↔ ∀ name, name ∈ n.names ↔ name ∈ params := by
  unfold signatureFault?
  constructor
  · intro h
    split at h
    · cases h
    · rename_i hmissing
      have hextra := List.find?_eq_none.1 (Option.map_eq_none_iff.1 h)
      refine fun name => ⟨fun hname => ?_, fun hname => ?_⟩
      · obtain ⟨p, hp, rfl⟩ := List.mem_map.1 hname
        simpa using hextra p hp
      · by_contra hnot
        exact List.find?_eq_none.1 hmissing name hname (isNone_namedInput?.2 hnot)
  · intro h
    have hmissing : (params.find? fun p => (n.namedInput? p).isNone) = none :=
      List.find?_eq_none.2 fun p hp hnone => isNone_namedInput?.1 hnone ((h p).2 hp)
    rw [hmissing]
    refine Option.map_eq_none_iff.2 (List.find?_eq_none.2 fun p hp => ?_)
    simpa using (h p.1).1 (List.mem_map_of_mem hp)

theorem passes_named (hk : n.kind = .call) (nameOf : Nat → String) :
    n.Passes nameOf (n.named.map fun p => (p.1, p.2.text nameOf)) := by
  unfold Passes expression
  rw [hk, List.map_map]
  rfl

/-- **A call with the right names binds each parameter once when no name is repeated**, and only then. -/
theorem bindsOnce_iff (hk : n.kind = .call) (hnames : ∀ name, name ∈ n.names ↔ name ∈ params) (hparams : params.Nodup) :
    n.BindsOnce params ↔ n.names.Nodup := by
  refine ⟨fun h => h.names.nodup_iff.2 hparams, fun h => ⟨?_, fun name => ?_, fun nameOf => ?_⟩⟩
  · exact (List.perm_ext_iff_of_nodup h hparams).2 hnames
  · rw [namedInput?_eq_lookup, lookup_namedInputMap, lookup_reverse h]
  · refine ⟨_, passes_named hk nameOf, fun p hp => ?_⟩
    rw [List.map_map]
    exact List.count_eq_one_of_mem h ((hnames p).2 hp)

end NodeSpec

theorem Builtin.nodup_params {name : String} {b : Builtin} (h : lookup? name = some b) : b.params.Nodup := by
  obtain rfl : b = auc := by simpa [all] using List.mem_of_find?_eq_some h
  decide

theorem Source.nodup_names (s : Source) : s.spec.names.Nodup := by
  cases s with
  | full rows cols value => exact (by decide : ["rows", "cols"].Nodup)
  | rand r =>
    obtain ⟨rows, cols, min, max, sparsity, seed⟩ := r
    cases seed with
    | none => exact (by decide : ["rows", "cols", "min", "max", "sparsity"].Nodup)
    | some s => exact (by decide : ["rows", "cols", "min", "max", "sparsity", "seed"].Nodup)
  | _ => exact List.nodup_nil

theorem Application.nodup_names (g : Graph) (case : Estimator) (a : Application Nat) : (a.spec g case).names.Nodup := by
  cases a with
  | reshape a rows cols => exact (by decide : ["rows", "cols"].Nodup)
  | auc y p => exact (by decide : ["Y", "P"].Nodup)
  | _ => exact List.nodup_nil

theorem Graph.MadeBy.nodup_names {g : Graph} {origin : Nat → Origin} (hm : g.MadeBy origin) {r : Nat} {n : Node}
    (hn : g.node? r = some n) : n.names.Nodup := by
  cases ho : origin r with
  | source s =>
    rw [hm.spec_source hn ho]
    exact s.nodup_names
  | application a =>
    obtain ⟨⟨case, hcase⟩, -⟩ := hm.spec_application hn ho
    rw [hcase]
    exact a.nodup_names g case

namespace Workspace

variable {w : Workspace} {held : Multiset Nat} {permit : Workspace → Nat → NodeSpec → Prop}

/-- An accepted call of a builtin has the names of its parameters, and no others. -/
theorem Reachable.accepted_names (h : Reachable permit w held) (hfew : ∀ c, w.graph.builtIn c ≤ 2 ^ 64) {root r : Nat}
    {top n : Node} {b : Builtin} (hroot : w.node? root = some top) (hok : w.graph.validate root = .ok ())
    (hr : w.graph.Reaches root r) (hn : w.node? r = some n) (hk : n.kind = .call)
    (hb : Builtin.lookup? n.operation = some b) (name : String) : name ∈ n.names ↔ name ∈ b.params :=
  have hkeeps := Graph.keeps_of_validate_ok (h.sound.numbered.distinctNames hfew) hroot hok hr hn
  NodeSpec.signatureFault?_eq_none_iff.1 (hkeeps.signature hk b hb) name

/-- **An accepted call of a builtin passes its parameters and nothing else; it passes each of them once when no name is
repeated**, and only then.  Of inputs with one name validation looks at the first, the table of names has the last, and
the script passes all.  Nodes of sources and applications repeat no name. -/
theorem Reachable.calls_bind (h : Reachable permit w held) (hfew : ∀ c, w.graph.builtIn c ≤ 2 ^ 64) {root r : Nat}
    {top n : Node} {b : Builtin} (hroot : w.node? root = some top) (hok : w.graph.validate root = .ok ())
    (hr : w.graph.Reaches root r) (hn : w.node? r = some n) (hk : n.kind = .call)
    (hb : Builtin.lookup? n.operation = some b) :
    (∀ name, name ∈ n.names ↔ name ∈ b.params) ∧ (n.BindsOnce b.params ↔ n.names.Nodup) ∧
    (∀ name, n.namedInput? name = n.named.lookup name ∧ n.namedInputMap.lookup name = n.named.reverse.lookup name) ∧
    (∀ nameOf, n.Passes nameOf (n.named.map fun p => (p.1, p.2.text nameOf))) ∧
    ∀ origin, w.graph.MadeBy origin → n.BindsOnce b.params := by
  have hnames := h.accepted_names hfew hroot hok hr hn hk hb
  have hiff := NodeSpec.bindsOnce_iff hk hnames (Builtin.nodup_params hb)
  exact ⟨hnames, hiff, fun name => ⟨n.namedInput?_eq_lookup name, n.lookup_namedInputMap name⟩,
    NodeSpec.passes_named hk, fun origin hm => hiff.2 (hm.nodup_names hn)⟩

/-- Three matrices, and a call that is given two of them as labels. -/
def doubled : Workspace :=
  let w : Workspace := (({} : Workspace).addContext ⟨Uuid.ofNat 0⟩ 0 {}).2
  let w := (w.addSource 0 (.read "y" .unknown)).2
  let w := (w.addSource 0 (.read "z" .unknown)).2
  let w := (w.addSource 0 (.read "p" .unknown)).2
  (w.build 0 {
    operation := "auc"
    kind := .call
    output := .scalar
    named := [("Y", .node 0), ("Y", .node 1), ("P", .node 2)] }).2

theorem reachable_doubled : Reachable anything doubled {3, 2, 1, 0} := by
  refine .tail (.tail (.tail (.tail (.single (.context _ _ _ _ _)) (.build _ _ 0 _ ?_ ?_ trivial))
    (.build _ _ 0 _ ?_ ?_ trivial)) (.build _ _ 0 _ ?_ ?_ trivial)) (.build _ _ 0 _ ?_ ?_ trivial)
  all_goals decide

theorem builtIn_doubled (c : Nat) : doubled.graph.builtIn c ≤ 2 ^ 64 :=
  (doubled.graph.builtIn_le_size c).trans (by decide)

theorem validate_doubled : doubled.graph.validate 3 = .ok () := by
  refine Graph.validate_ok_of_keeps rfl fun r n hr hn => Graph.fault?_eq_none_iff.1 ?_
  have hle := hr.le
  obtain rfl | rfl | rfl | rfl : r = 0 ∨ r = 1 ∨ r = 2 ∨ r = 3 := by omega
  all_goals
    cases hn
    rfl

/-- The call has the right names, one of them twice. -/
theorem calls_bind_doubled : doubled.graph.validate 3 = .ok () ∧ ∃ n, doubled.node? 3 = some n ∧
    (∀ name, name ∈ n.names ↔ name ∈ ["Y", "P"]) ∧ ¬ n.BindsOnce ["Y", "P"] := by
  have hn : doubled.node? 3 = some doubled.graph.nodes[3] := rfl
  obtain ⟨hnames, hiff, -⟩ :=
    reachable_doubled.calls_bind (b := .auc) builtIn_doubled hn validate_doubled (.refl _ 3) hn rfl rfl
  exact ⟨validate_doubled, _, hn, hnames, fun h => absurd (hiff.1 h) (by decide)⟩

/-- **A call that is given its labels twice is accepted**, and then its labels are one matrix or the other. -/
theorem accepted_call_repeats : Reachable anything doubled {3, 2, 1, 0} ∧ doubled.graph.validate 3 = .ok () ∧
    ∃ n, doubled.node? 3 = some n ∧ n.kind = .call ∧ Builtin.lookup? n.operation = some .auc ∧
      ¬ n.names.Perm Builtin.auc.params ∧ n.namedInput? "Y" = some (.node 0) ∧
      n.namedInputMap.lookup "Y" = some (.node 1) ∧ n.expression (fun i => "V" ++ toString i) = "auc(Y=V0, Y=V1, P=V2)" :=
  ⟨reachable_doubled, validate_doubled, _, rfl, rfl, rfl, by decide, rfl, rfl, by decide⟩

end Workspace
end MatrixPlan

import MatrixPlan.Engine.Recorder
/-!
# Replies — a recorder delivers its replies in the order they were queued

A recorder is asked to queue replies and to execute scripts, in any order.  What its queue delivers is read off its state:
an execution that leaves the queue shorter was answered from it, and one that leaves it as it is got the fallback.
-/
namespace MatrixPlan
namespace Recorder

/-- What a recorder is asked: to queue a reply, which is a value or a failure, or to execute a script. -/
inductive Call where
  | push (reply : Reply)
  | execute (script : Script)

namespace Call

def reply? : Call → Option Reply
  | push r => some r
  | execute _ => none

def script? : Call → Option Script
  | push _ => none
  | execute s => some s

end Call

def next (e : Recorder) : Call → Recorder
  | .push r => e.push r
  | .execute s => (e.execute s).2

/-- The recorder that calls lead to. -/
def after (e : Recorder) (calls : List Call) : Recorder := calls.foldl next e

def pushed (calls : List Call) : List Reply := calls.filterMap Call.reply?

def executed (calls : List Call) : List Script := calls.filterMap Call.script?

/-- What the queue delivers in a call: the answer to a script, if there are fewer replies left than before. -/
def delivers (e : Recorder) : Call → List Reply
  | .push _ => []
  | .execute s => if (e.execute s).2.replies.length < e.replies.length then [(e.execute s).1] else []

/-- What the queue delivers in calls one after another. -/
def delivered (e : Recorder) : List Call → List Reply
  | [] => []
  | call :: calls => e.delivers call ++ (e.next call).delivered calls

/-- Whether a script is answered with the fallback, and with nothing from the queue. -/
def FallsBack (e : Recorder) (s : Script) (fallback : EngineValue) : Prop :=
  (e.execute s).1 = .ok fallback ∧ (e.execute s).2.replies = e.replies

variable {e : Recorder} {call : Call} {s : Script}

theorem execute_nil (h : e.replies = []) (s : Script) :
    e.execute s = (.ok e.fallback, { e with submitted := e.submitted.push s }) := by
  unfold execute
  simp only [h]

theorem execute_cons {r : Reply} {rest : List Reply} (h : e.replies = r :: rest) (s : Script) :
    e.execute s = (r, { e with submitted := e.submitted.push s, replies := rest }) := by
  unfold execute
  simp only [h]

/-- **What a call does**: it queues its reply or keeps its script, and what it delivers is taken from the front of the
queue. -/
structure Serves (e e' : Recorder) (call : Call) (delivered : List Reply) : Prop where
  replies : delivered ++ e'.replies = e.replies ++ call.reply?.toList
  submitted : e'.submitted.toList = e.submitted.toList ++ call.script?.toList
  fallback : e'.fallback = e.fallback

theorem serves_next (e : Recorder) (call : Call) : e.Serves (e.next call) call (e.delivers call) := by
  cases call with
  | push r => exact ⟨rfl, (List.append_nil _).symm, rfl⟩
  | execute s =>
    cases hreplies : e.replies with
    | nil =>
      have hexecute := execute_nil hreplies s
      refine ⟨?_, ?_, ?_⟩
      · simp [delivers, next, Call.reply?, hexecute, hreplies]
      · simp [next, Call.script?, hexecute]
      · simp [next, hexecute]
    | cons r rest =>
      have hexecute := execute_cons hreplies s
      refine ⟨?_, ?_, ?_⟩
      · simp [delivers, next, Call.reply?, hexecute, hreplies]
      · simp [next, Call.script?, hexecute]
      · simp [next, hexecute]

/-- **What calls do one after another.**  The replies delivered and those left are those there were and those pushed. -/
theorem serves_after (e : Recorder) (calls : List Call) :
    e.delivered calls ++ (e.after calls).replies = e.replies ++ pushed calls ∧
    (e.after calls).submitted.toList = e.submitted.toList ++ executed calls ∧
    (e.after calls).fallback = e.fallback := by
  induction calls generalizing e with
  | nil => exact ⟨(List.append_nil _).symm, (List.append_nil _).symm, rfl⟩
  | cons call calls ih =>
    have hstep := serves_next e call
    obtain ⟨hreplies, hsubmitted, hfallback⟩ := ih (e.next call)
    have hpushed : pushed (call :: calls) = call.reply?.toList ++ pushed calls := by
      cases call <;> rfl
    have hexecuted : executed (call :: calls) = call.script?.toList ++ executed calls := by
      cases call <;> rfl
    refine ⟨?_, ?_, hfallback.trans hstep.fallback⟩
    · calc e.delivered (call :: calls) ++ (e.after (call :: calls)).replies
          = e.delivers call ++ ((e.next call).delivered calls ++ ((e.next call).after calls).replies) :=
            List.append_assoc _ _ _
        _ = e.delivers call ++ (e.next call).replies ++ pushed calls := by rw [hreplies, List.append_assoc]
        _ = e.replies ++ pushed (call :: calls) := by rw [hstep.replies, hpushed, List.append_assoc]
    · calc ((e.next call).after calls).submitted.toList
          = (e.next call).submitted.toList ++ executed calls := hsubmitted
        _ = e.submitted.toList ++ executed (call :: calls) := by rw [hstep.submitted, hexecuted, List.append_assoc]

/-- **A script gets the fallback when and only when no reply is left.** -/
theorem fallsBack_iff (e : Recorder) (s : Script) : e.FallsBack s e.fallback ↔ e.replies = [] := by
  constructor
  · rintro ⟨-, hsame⟩
    cases hreplies : e.replies with
    | nil => rfl
    | cons r rest =>
      rw [execute_cons hreplies, hreplies] at hsame
      exact absurd hsame.symm (List.cons_ne_self r rest)
  · intro hnone
    rw [FallsBack, execute_nil hnone]
    exact ⟨rfl, rfl⟩

/-- **Replies are delivered in order.**  After any calls of a new recorder, the replies delivered so far and then those
left are those pushed, in their order; the next script gets the fallback if and only if all replies pushed so far are
delivered, and else the first of them that is not; and the scripts kept are those executed, each once and in their order,
whatever they were answered. -/
theorem replies_in_order (fallback : EngineValue) (calls : List Call) :
    let start : Recorder := { fallback }
    let e := start.after calls
    start.delivered calls ++ e.replies = pushed calls ∧
    (∀ s, (e.FallsBack s fallback ↔ start.delivered calls = pushed calls) ∧
      (e.execute s).1 = (pushed calls)[(start.delivered calls).length]?.getD (.ok fallback)) ∧
    e.submitted.toList = executed calls ∧ e.callCount = (executed calls).length := by
  intro start e
  obtain ⟨hreplies, hsubmitted, hfallback⟩ := serves_after start calls
  rw [show start.replies = [] from rfl, List.nil_append] at hreplies
  rw [show start.submitted.toList = [] from rfl, List.nil_append] at hsubmitted
  have hall : e.replies = [] ↔ start.delivered calls = pushed calls := by
    rw [← hreplies, List.self_eq_append_right]
  have hfirst : (pushed calls)[(start.delivered calls).length]? = e.replies[0]? := by
    rw [← hreplies, List.getElem?_append_right (Nat.le_refl _), Nat.sub_self]
  refine ⟨hreplies, fun s => ⟨?_, ?_⟩, hsubmitted, ?_⟩
  · rw [← hall, ← fallsBack_iff e s, hfallback]
  · rw [hfirst]
    cases hleft : e.replies with
    | nil =>
      rw [execute_nil hleft, hfallback]
      rfl
    | cons r rest =>
      rw [execute_cons hleft]
      rfl
  · rw [callCount, ← hsubmitted, Array.length_toList]

/-- A reply that is pushed after the fallback was given is not lost, and a failure is a reply like others. -/
example (a b c d : Script) :
    (Recorder.delivered {} [.execute a, .push (.ok .empty), .execute b, .execute c, .push (.error (.timeout 10)),
      .execute d]) =
      [.ok .empty, .error (.timeout 10)] := rfl

end Recorder
end MatrixPlan

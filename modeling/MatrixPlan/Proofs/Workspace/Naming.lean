import Mathlib.Data.List.Basic
import MatrixPlan.Proofs.Workspace.Accounting
/-!
# Naming — the numbers that contexts give to their nodes

The number of a node is the number of nodes its context has made before it, in the width of a word (`Numbered`).  No
number comes twice before a context has made as many nodes as there are words, and until then names tell nodes apart.
-/
namespace MatrixPlan
namespace Graph

/-- How many nodes of a context stand before a place. -/
def countBefore (g : Graph) (c r : Nat) : Nat := (g.nodes.toList.take r).countP fun n => n.context = c

/-- How many nodes a context has made, the dead ones with the living. -/
def builtIn (g : Graph) (c : Nat) : Nat := g.countBefore c g.size

variable {g : Graph} {n : Node} {c r : Nat}

theorem countBefore_succ (hn : g.node? r = some n) :
    g.countBefore c (r + 1) = g.countBefore c r + if n.context = c then 1 else 0 := by
  have hget : g.nodes.toList[r]? = some n := by rw [Array.getElem?_toList]; exact hn
  rw [countBefore, countBefore, List.take_add_one, hget, Option.toList_some, List.countP_append, List.countP_singleton]
  simp only [decide_eq_true_eq]

theorem countBefore_mono (g : Graph) (c : Nat) {r r' : Nat} (h : r ≤ r') : g.countBefore c r ≤ g.countBefore c r' :=
  (List.take_sublist_take_left h).countP_le

theorem builtIn_le_size (g : Graph) (c : Nat) : g.builtIn c ≤ g.size :=
  Nat.le_trans List.countP_le_length (by simp [Graph.size])

theorem countBefore_add (h : ∀ i ∈ n.inputNodes, i < g.size) (hr : r ≤ g.size) :
    (g.add n h).countBefore c r = g.countBefore c r := by
  rw [countBefore, countBefore]
  change ((g.nodes.push n).toList.take r).countP _ = _
  rw [Array.toList_push, List.take_append_of_le_length (by simpa [Graph.size] using hr)]

theorem builtIn_add (h : ∀ i ∈ n.inputNodes, i < g.size) :
    (g.add n h).builtIn c = g.builtIn c + if n.context = c then 1 else 0 := by
  rw [builtIn, size_add, countBefore_succ (node?_add_size h), countBefore_add h (Nat.le_refl _), builtIn]

theorem countBefore_lt (hn : g.node? r = some n) {r' : Nat} (h : r < r') :
    g.countBefore n.context r < g.countBefore n.context r' := by
  have hsucc := countBefore_succ (c := n.context) hn
  rw [if_pos rfl] at hsucc
  have := g.countBefore_mono n.context (show r + 1 ≤ r' from h)
  omega

end Graph

/-- **Nodes are numbered in the order in which their contexts make them.** -/
structure Numbered (g : Graph) (contexts : Array Context) : Prop where
  placed : ∀ (r : Nat) (n : Node), g.node? r = some n → n.context < contexts.size
  nodes : ∀ (r : Nat) (n : Node), g.node? r = some n → n.id = UInt64.ofNat (g.countBefore n.context r)
  next : ∀ (c : Nat) (x : Context), contexts[c]? = some x → x.nextNode = UInt64.ofNat (g.builtIn c)

namespace Numbered

variable {g : Graph} {contexts contexts' : Array Context} {c : Nat} {x : Context}

theorem empty : Numbered .empty #[] where
  placed := by intro r n h; simp [Graph.node?, Graph.empty] at h
  nodes := by intro r n h; simp [Graph.node?, Graph.empty] at h
  next := by intro c x h; simp at h

theorem push (h : Numbered g contexts) (hx : x.nextNode = 0) : Numbered g (contexts.push x) where
  placed r n hn := by
    rw [Array.size_push]
    exact Nat.lt_succ_of_lt (h.placed r n hn)
  nodes := h.nodes
  next c y hy := by
    rw [Array.getElem?_push] at hy
    split at hy
    · rename_i hc
      cases hy
      have hnone : g.builtIn c = 0 := by
        rw [Graph.builtIn, Graph.countBefore, List.countP_eq_zero]
        intro n hn
        obtain ⟨r, hr⟩ := List.mem_iff_getElem?.1 (List.mem_of_mem_take hn)
        have := h.placed r n (by rw [Graph.node?, ← Array.getElem?_toList, hr])
        simp only [decide_eq_true_eq]
        omega
      rw [hx, hnone]
      rfl
    · exact h.next c y hy

/-- **A new node has the next number of its context**, which goes on by one. -/
theorem add (h : Numbered g contexts) (hx : contexts[c]? = some x) {n : Node} (hc : n.context = c)
    (hid : n.id = x.nextNode) (hin : ∀ i ∈ n.inputNodes, i < g.size) {x' : Context}
    (hx' : x'.nextNode = x.nextNode + 1) : Numbered (g.add n hin) (contexts.setIfInBounds c x') where
  placed r m hm := by
    rw [Array.size_setIfInBounds]
    rw [Graph.node?_add] at hm
    split at hm
    · cases hm
      rw [hc]
      exact (Array.getElem?_eq_some_iff.1 hx).1
    · exact h.placed r m hm
  nodes r m hm := by
    rw [Graph.node?_add] at hm
    split at hm
    · rename_i hr
      cases hm
      rw [hr, Graph.countBefore_add hin (Nat.le_refl _), hid, hc, h.next c x hx]
      rfl
    · rw [Graph.countBefore_add hin (Nat.le_of_lt (Graph.lt_of_node? hm))]
      exact h.nodes r m hm
  next d y hy := by
    rw [Graph.builtIn_add, hc]
    rw [Workspace.getElem?_setContext hx] at hy
    by_cases hd : c = d
    · subst hd
      rw [if_pos rfl] at hy
      cases hy
      rw [hx', h.next c x hx, if_pos rfl, UInt64.ofNat_add]
      rfl
    · rw [if_neg hd] at hy
      rw [if_neg hd, Nat.add_zero]
      exact h.next d y hy

theorem congr (h : Numbered g contexts) (hsize : contexts'.size = contexts.size)
    (hnext : ∀ (c : Nat) (x' : Context), contexts'[c]? = some x' →
      ∃ x, contexts[c]? = some x ∧ x'.nextNode = x.nextNode) : Numbered g contexts' where
  placed := by
    rw [hsize]
    exact h.placed
  nodes := h.nodes
  next c x' hx' := by
    obtain ⟨x, hx, heq⟩ := hnext c x' hx'
    rw [heq]
    exact h.next c x hx

/-- **Names tell nodes apart** until a context has made more nodes than there are words. -/
theorem distinctNames (h : Numbered g contexts) (hfew : ∀ c, g.builtIn c ≤ 2 ^ 64) : g.DistinctNames := by
  intro r r' n n' hn hn' hname
  have hctx : n.context = n'.context := congrArg NodeName.context hname
  have hid : n.id = n'.id := congrArg NodeName.id hname
  rw [h.nodes r n hn, h.nodes r' n' hn', ← hctx] at hid
  have hcap := hfew n.context
  have hlt := Graph.countBefore_lt hn (Graph.lt_of_node? hn)
  have hlt' := Graph.countBefore_lt hn' (Graph.lt_of_node? hn')
  rw [Graph.builtIn] at hcap
  rw [← hctx] at hlt'
  have heq : g.countBefore n.context r = g.countBefore n.context r' := by
    have := congrArg UInt64.toNat hid
    rwa [UInt64.toNat_ofNat_of_lt' (by simp only [UInt64.size]; omega),
      UInt64.toNat_ofNat_of_lt' (by simp only [UInt64.size]; omega)] at this
  rcases Nat.lt_trichotomy r r' with hr | hr | hr
  · have := Graph.countBefore_lt hn hr
    omega
  · exact hr
  · have := Graph.countBefore_lt hn' hr
    rw [← hctx] at this
    omega

end Numbered
end MatrixPlan

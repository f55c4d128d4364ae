import Mathlib

/-!
# Reachability in a graph of references

Nodes are kept alive by roots and by edges from live nodes.  A collector that counts
references only removes nodes that nothing refers to.  Two facts make that exact: removing
such a node does not change what is live (`live_remove`), and where the edges are ranked, so
that there are no cycles, a node that something refers to is live once nothing is left to
remove (`live_of_counted`).
-/

namespace Foundation

variable {κ : Type}

/-- What the roots keep alive. -/
inductive Live (root : κ → Prop) (edge : κ → κ → Prop) : κ → Prop
  | root {k : κ} (h : root k) : Live root edge k
  | edge {j k : κ} (h : Live root edge j) (he : edge j k) : Live root edge k

variable {root : κ → Prop} {edge edge' : κ → κ → Prop}

theorem Live.mono (h : ∀ j k, edge j k → edge' j k) {k : κ} (hk : Live root edge k) :
    Live root edge' k := by
  induction hk with
  | root hr => exact .root hr
  | edge _ he ih => exact .edge ih (h _ _ he)

theorem not_live {k : κ} (hroot : ¬ root k) (hedge : ∀ j, ¬ edge j k) : ¬ Live root edge k := by
  intro h
  cases h with
  | root hr => exact hroot hr
  | edge _ he => exact hedge _ he

/-- Taking away what a dead node refers to leaves everything live that was. -/
theorem live_remove {dead : κ} (hdead : ¬ Live root edge dead)
    (hle : ∀ j k, edge' j k → edge j k) (hkept : ∀ j k, j ≠ dead → edge j k → edge' j k) (k : κ) :
    Live root edge' k ↔ Live root edge k := by
  constructor
  · exact Live.mono hle
  · intro h
    induction h with
    | root hr => exact .root hr
    | @edge j k hj he ih =>
      apply Live.edge ih
      apply hkept j k _ he
      rintro rfl
      exact hdead hj

/-- **Counting is enough without cycles.**  If every node has a root or an edge to it, and
    edges lead from bounded ranks to smaller ones, then every node is live. -/
theorem live_of_counted {node : κ → Prop} {rank : κ → Nat} {bound : Nat}
    (hbound : ∀ k, node k → rank k ≤ bound) (hrank : ∀ j k, edge j k → rank k < rank j)
    (hnode : ∀ j k, edge j k → node j) (hcounted : ∀ k, node k → root k ∨ ∃ j, edge j k)
    {k : κ} (hk : node k) : Live root edge k := by
  -- the distance to the bound shrinks along edges that are followed backwards
  induction hd : bound - rank k using Nat.strongRecOn generalizing k with
  | _ d ih =>
    rcases hcounted k hk with hr | ⟨j, hj⟩
    · exact .root hr
    · have hlt := hrank j k hj
      have hle := hbound j (hnode j k hj)
      exact .edge (ih (bound - rank j) (by omega) (hnode j k hj) rfl) hj

theorem exists_rank_bound (rank : κ → Nat) (nodes : List κ) :
    ∃ bound, ∀ k ∈ nodes, rank k ≤ bound := by
  induction nodes with
  | nil => exact ⟨0, by simp⟩
  | cons k rest ih =>
    obtain ⟨bound, h⟩ := ih
    refine ⟨max (rank k) bound, ?_⟩
    intro j hj
    rcases List.mem_cons.mp hj with rfl | hj
    · exact Nat.le_max_left _ _
    · exact Nat.le_trans (h j hj) (Nat.le_max_right _ _)

end Foundation

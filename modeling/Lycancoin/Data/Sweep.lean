import Mathlib

namespace Lycancoin.Data

/-! Removal of everything that can be reached from some seeds.  A sweep takes
the pending nodes one at a time, drops those that are not there any more, and
removes the others while it queues what follows them. -/

variable {Node : Type}

/-- `node` follows some seed through any number of edges. -/
def Reached (edge : Node → Node → Prop) (seeds : List Node) (node : Node) : Prop :=
  ∃ seed ∈ seeds, Relation.ReflTransGen edge seed node

/-- A sweep in progress: `gone` is removed already, in this order, and
`pending` waits. -/
structure Sweep (edge : Node → Node → Prop) (present : Node → Prop)
    (seeds gone pending : List Node) : Prop where
  nodup : gone.Nodup
  was : ∀ node ∈ gone, present node
  reached : ∀ node, node ∈ gone ∨ node ∈ pending → Reached edge seeds node
  closed : ∀ node ∈ gone, ∀ next, edge node next → next ∈ gone ∨ next ∈ pending
  seeded : ∀ seed ∈ seeds, present seed → seed ∈ gone ∨ seed ∈ pending

namespace Sweep

variable {edge : Node → Node → Prop} {present : Node → Prop} {seeds gone pending : List Node}
  {node : Node}

theorem start (seeds : List Node) : Sweep edge present seeds [] seeds where
  nodup := List.nodup_nil
  was := by simp
  reached node member := by
    cases member with
    | inl absent => simp at absent
    | inr seeded => exact ⟨node, seeded, .refl⟩
  closed := by simp
  seeded seed member _ := Or.inr member

theorem skip (sweep : Sweep edge present seeds gone (node :: pending))
    (absent : present node → node ∈ gone)
    (targets : ∀ before next, edge before next → present next) :
    Sweep edge present seeds gone pending where
  nodup := sweep.nodup
  was := sweep.was
  reached other member :=
    sweep.reached other (member.imp_right (List.mem_cons_of_mem node))
  closed before member next step := by
    cases sweep.closed before member next step with
    | inl removed => exact Or.inl removed
    | inr waiting =>
        cases List.mem_cons.mp waiting with
        | inl same =>
            subst same
            exact Or.inl (absent (targets before next step))
        | inr later => exact Or.inr later
  seeded seed member there := by
    cases sweep.seeded seed member there with
    | inl removed => exact Or.inl removed
    | inr waiting =>
        cases List.mem_cons.mp waiting with
        | inl same =>
            subst same
            exact Or.inl (absent there)
        | inr later => exact Or.inr later

/-- A node that is still there goes, and what follows it and is still there is
queued. -/
theorem take (sweep : Sweep edge present seeds gone (node :: pending)) (there : present node)
    (fresh : node ∉ gone) {next : List Node} (follows : ∀ other ∈ next, edge node other)
    (complete : ∀ other, edge node other → other ∈ gone ∨ other ∈ next) :
    Sweep edge present seeds (gone ++ [node]) (pending ++ next) where
  nodup := by
    rw [List.nodup_append]
    refine ⟨sweep.nodup, List.nodup_singleton node, ?_⟩
    intro other removed last isLast same
    rw [List.mem_singleton] at isLast
    exact fresh (isLast ▸ same ▸ removed)
  was other member := by
    cases List.mem_append.mp member with
    | inl removed => exact sweep.was other removed
    | inr last =>
        rw [List.mem_singleton] at last
        exact last ▸ there
  reached other member := by
    have here := sweep.reached node (Or.inr List.mem_cons_self)
    simp only [List.mem_append, List.mem_singleton] at member
    rcases member with (removed | same) | waiting | queued
    · exact sweep.reached other (Or.inl removed)
    · exact same ▸ here
    · exact sweep.reached other (Or.inr (List.mem_cons_of_mem node waiting))
    · obtain ⟨seed, seeded, path⟩ := here
      exact ⟨seed, seeded, path.tail (follows other queued)⟩
  closed before member after step := by
    simp only [List.mem_append, List.mem_singleton] at member ⊢
    rcases member with removed | same
    · rcases sweep.closed before removed after step with old | waiting
      · exact Or.inl (Or.inl old)
      · cases List.mem_cons.mp waiting with
        | inl isNode => exact Or.inl (Or.inr isNode)
        | inr later => exact Or.inr (Or.inl later)
    · subst same
      rcases complete after step with old | queued
      · exact Or.inl (Or.inl old)
      · exact Or.inr (Or.inr queued)
  seeded seed member seedPresent := by
    simp only [List.mem_append, List.mem_singleton]
    rcases sweep.seeded seed member seedPresent with removed | waiting
    · exact Or.inl (Or.inl removed)
    · cases List.mem_cons.mp waiting with
      | inl same => exact Or.inl (Or.inr same)
      | inr later => exact Or.inr (Or.inl later)

/-- When nothing waits any more, exactly what is present and reached is gone. -/
theorem finish (sweep : Sweep edge present seeds gone [])
    (sources : ∀ before next, edge before next → present before) :
    node ∈ gone ↔ present node ∧ Reached edge seeds node := by
  constructor
  · intro removed
    exact ⟨sweep.was node removed, sweep.reached node (Or.inl removed)⟩
  · intro ⟨there, seed, seeded, path⟩
    induction path with
    | refl =>
        rcases sweep.seeded seed seeded there with removed | waiting
        · exact removed
        · simp at waiting
    | tail _ step ih =>
        rcases sweep.closed _ (ih (sources _ _ step)) _ step with removed | waiting
        · exact removed
        · simp at waiting

end Sweep

end Lycancoin.Data

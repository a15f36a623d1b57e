import Mathlib

/-! # Release

Nodes need other nodes.  Once a node is released, the nodes that wait for it
are visited in turn, and one that has all it needs is released as well. -/

namespace Lycancoin.Data

/-- A release in progress: what has been released, in this order, the last part
of it whose waiters are still to be visited, and the visits. -/
structure Release (Node : Type) where
  pending : List Node
  released : List Node
  visited : List Node

namespace Release

variable {Node : Type} [DecidableEq Node]

def start (root : Node) : Release Node := { pending := [root], released := [root], visited := [] }

def ready (needs : Node → List Node) (released : List Node) (node : Node) : Bool :=
  (needs node).all (· ∈ released)

def visit (needs : Node → List Node) (release : Release Node) (node : Node) : Release Node :=
  let visited := release.visited ++ [node]
  if node ∉ release.released ∧ ready needs release.released node then
    { pending := release.pending ++ [node], released := release.released ++ [node], visited }
  else { release with visited }

def run (needs waiters : Node → List Node) : Nat → Release Node → Option (Release Node)
  | 0, release => if release.pending.isEmpty then some release else none
  | passes + 1, release =>
      match release.pending with
      | [] => some release
      | node :: pending =>
          run needs waiters passes ((waiters node).foldl (visit needs) { release with pending })

structure Waiting (needs waiters : Node → List Node) (nodes : List Node) : Prop where
  listed : ∀ need, ∀ node ∈ nodes, need ∈ needs node → node ∈ waiters need
  known : ∀ need, ∀ node ∈ waiters need, node ∈ nodes

/-- What holds while the waiters of `done` are visited and `todo` is left of them. -/
structure Walk (needs waiters : Node → List Node) (root : Node) (release : Release Node)
    (done todo : List Node) : Prop where
  split : release.released = done ++ release.pending
  nodup : release.released.Nodup
  rooted : root ∈ release.released
  earned : ∀ node ∈ release.released,
    node = root ∨ node ∈ release.visited ∧ ready needs release.released node = true
  visits : release.visited ++ todo = done.flatMap waiters
  complete : ∀ node ∈ done.flatMap waiters, ready needs release.released node = true →
    node ∈ release.released ∨ node ∈ todo ∨ ∃ later ∈ release.pending, node ∈ waiters later

variable {needs waiters : Node → List Node} {nodes done todo : List Node} {root node : Node}
  {release final : Release Node}

theorem ready_iff {released : List Node} :
    ready needs released node = true ↔ ∀ need ∈ needs node, need ∈ released := by
  simp [ready]

theorem ready_mono {released more : List Node} (within : released ⊆ more)
    (isReady : ready needs released node = true) : ready needs more node = true :=
  ready_iff.mpr fun need member => within (ready_iff.mp isReady need member)

theorem Walk.start (root : Node) : Walk needs waiters root (start root) [] [] where
  split := rfl
  nodup := List.nodup_singleton root
  rooted := List.mem_singleton_self root
  earned node member := Or.inl (List.mem_singleton.mp member)
  visits := rfl
  complete node member := by simp at member

theorem Walk.next {pending : List Node} (walk : Walk needs waiters root release done [])
    (isPending : release.pending = node :: pending) :
    Walk needs waiters root { release with pending } (done ++ [node]) (waiters node) where
  split := by rw [walk.split, isPending, List.append_assoc, List.singleton_append]
  nodup := walk.nodup
  rooted := walk.rooted
  earned := walk.earned
  visits := by
    rw [List.flatMap_append, ← walk.visits]
    simp
  complete other member isReady := by
    rw [List.flatMap_append, List.mem_append] at member
    rcases member with earlier | own
    · rcases walk.complete other earlier isReady with released | absent | ⟨later, among, waits⟩
      · exact Or.inl released
      · contradiction
      · rw [isPending] at among
        rcases List.mem_cons.mp among with same | behind
        · exact Or.inr (Or.inl (same ▸ waits))
        · exact Or.inr (Or.inr ⟨later, behind, waits⟩)
    · exact Or.inr (Or.inl (by simpa using own))

theorem Walk.visit (waiting : Waiting needs waiters nodes)
    (walk : Walk needs waiters root release done (node :: todo)) :
    Walk needs waiters root (visit needs release node) done todo := by
  have visits : release.visited ++ [node] ++ todo = done.flatMap waiters := by
    rw [List.append_assoc, List.singleton_append]
    exact walk.visits
  have seen : ∀ other ∈ release.visited, other ∈ release.visited ++ [node] := fun other member =>
    List.mem_append_left _ member
  rw [Release.visit]
  split
  · rename_i fresh
    obtain ⟨unreleased, isReady⟩ := fresh
    have within : release.released ⊆ release.released ++ [node] := List.subset_append_left _ _
    refine ⟨?_, ?_, within walk.rooted, ?_, visits, ?_⟩
    · simp only [walk.split, List.append_assoc]
    · simp only [List.nodup_append, List.nodup_cons, List.not_mem_nil, not_false_eq_true,
        List.nodup_nil, and_true, List.mem_singleton, walk.nodup, true_and]
      intro earlier member _ isNode same
      exact unreleased (isNode ▸ same ▸ member)
    · intro other member
      rcases List.mem_append.mp member with old | own
      · exact (walk.earned other old).imp_right fun ⟨visited, earned⟩ =>
          ⟨seen other visited, ready_mono within earned⟩
      · rw [List.mem_singleton.mp own]
        exact Or.inr ⟨by simp, ready_mono within isReady⟩
    · intro other member nowReady
      by_cases before : ready needs release.released other = true
      · rcases walk.complete other member before with released | left | ⟨later, among, waits⟩
        · exact Or.inl (within released)
        · rcases List.mem_cons.mp left with same | further
          · exact Or.inl (by simp [same])
          · exact Or.inr (Or.inl further)
        · exact Or.inr (Or.inr ⟨later, List.mem_append_left _ among, waits⟩)
      · -- what it needed last is the node that has just been released
        obtain ⟨need, needed, missing⟩ : ∃ need ∈ needs other, need ∉ release.released := by
          simpa [ready_iff] using before
        have isNode : need = node := by
          simpa [missing] using ready_iff.mp nowReady need needed
        obtain ⟨behind, _, waits⟩ := List.mem_flatMap.mp member
        have known := waiting.known behind other waits
        exact Or.inr (Or.inr ⟨node, by simp, waiting.listed node other known (isNode ▸ needed)⟩)
  · rename_i stays
    refine ⟨walk.split, walk.nodup, walk.rooted, ?_, visits, ?_⟩
    · intro other member
      exact (walk.earned other member).imp_right fun ⟨visited, earned⟩ =>
        ⟨seen other visited, earned⟩
    · intro other member isReady
      rcases walk.complete other member isReady with released | left | later
      · exact Or.inl released
      · rcases List.mem_cons.mp left with same | further
        · subst same
          by_contra missing
          exact stays ⟨fun released => missing (Or.inl released), isReady⟩
        · exact Or.inr (Or.inl further)
      · exact Or.inr (Or.inr later)

theorem Walk.visitAll (waiting : Waiting needs waiters nodes)
    (walk : Walk needs waiters root release done todo) :
    Walk needs waiters root (todo.foldl (Release.visit needs) release) done [] := by
  induction todo generalizing release with
  | nil => exact walk
  | cons first rest ih => exact ih (walk.visit waiting)

theorem Walk.length_released_le (waiting : Waiting needs waiters nodes)
    (walk : Walk needs waiters root release done []) :
    release.released.length ≤ nodes.length + 1 := by
  have within : release.released ⊆ root :: nodes := by
    intro node member
    rcases walk.earned node member with same | ⟨visited, _⟩
    · exact same ▸ List.mem_cons_self
    · have waits : node ∈ done.flatMap waiters := by
        rw [← walk.visits, List.append_nil]
        exact visited
      obtain ⟨need, _, among⟩ := List.mem_flatMap.mp waits
      exact List.mem_cons_of_mem _ (waiting.known need node among)
  exact (walk.nodup.subperm within).length_le

theorem Walk.run (waiting : Waiting needs waiters nodes)
    (walk : Walk needs waiters root release done []) {passes : Nat}
    (enough : nodes.length + 1 ≤ done.length + passes) :
    ∃ final, Release.run needs waiters passes release = some final ∧ final.pending = [] ∧
      Walk needs waiters root final final.released [] := by
  induction passes generalizing release done with
  | zero =>
      have count := walk.length_released_le waiting
      rw [walk.split, List.length_append] at count
      have ended : release.pending = [] := List.eq_nil_of_length_eq_zero (by omega)
      refine ⟨release, by simp [Release.run, ended], ended, ?_⟩
      rw [walk.split, ended, List.append_nil]
      exact walk
  | succ passes ih =>
      cases isPending : release.pending with
      | nil =>
          refine ⟨release, by simp [Release.run, isPending], isPending, ?_⟩
          rw [walk.split, isPending, List.append_nil]
          exact walk
      | cons node pending =>
          have further := (walk.next isPending).visitAll waiting
          obtain ⟨final, ran, ended, walked⟩ := ih further (by simp; omega)
          refine ⟨final, ?_, ended, walked⟩
          rw [Release.run, isPending]
          exact ran

theorem Walk.released_of_ready (walk : Walk needs waiters root final final.released [])
    (ended : final.pending = []) {need : Node} (released : need ∈ final.released)
    (waits : node ∈ waiters need) (isReady : ready needs final.released node = true) :
    node ∈ final.released := by
  rcases walk.complete node (List.mem_flatMap.mpr ⟨need, released, waits⟩) isReady with
    found | absent | ⟨later, among, _⟩
  · exact found
  · contradiction
  · rw [ended] at among
    contradiction

theorem Walk.mem_visited_iff (walk : Walk needs waiters root final final.released []) :
    node ∈ final.visited ↔ ∃ need ∈ final.released, node ∈ waiters need := by
  have visits := walk.visits
  rw [List.append_nil] at visits
  rw [visits, List.mem_flatMap]

end Release

end Lycancoin.Data

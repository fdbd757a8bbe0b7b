import Mathlib.Algebra.Order.BigOperators.Group.List
import Mathlib.Algebra.Order.Group.Nat
import Mathlib.Data.List.Nodup
import Mathlib.Order.Basic
import ObjectFlow.Dataflow.Worklist
import ObjectFlow.Proofs.Iteration
import ObjectFlow.Proofs.Table

/-!
# Solutions of the dataflow equations of one method

The solver visits nodes until none waits.  A node that does not wait is settled: what flows
out of its sources has come in, and what flows out is the transfer of what flows in.  A visit
that changes what flows out of a node lowers the potential, because what flows in went up or
the node was not up to date.  When facts have a height that is bounded, the solver therefore
comes to its end, and what it ends with solves the equations.
-/

namespace ObjectFlow.Dataflow

/-- An order on facts in which a good fact can go up only so often. -/
structure Scale (φ : Type) [Preorder φ] where
  Good : φ → Prop
  height : φ → Nat
  limit : Nat
  height_le : ∀ {a}, Good a → height a ≤ limit
  height_mono : ∀ {a b}, Good a → Good b → a ≤ b → height a ≤ height b
  eq_of_height : ∀ {a b}, Good a → Good b → a ≤ b → height b ≤ height a → a = b

namespace Problem

variable {φ : Type} [Preorder φ]

/-- Equations over good facts on a graph whose sources and targets belong together. -/
structure Lawful (problem : Problem φ) (scale : Scale φ) : Prop where
  nodup : problem.nodes.Nodup
  boundary : problem.boundary ∈ problem.nodes
  sources : ∀ node, ∀ source ∈ problem.sources node,
    source ∈ problem.nodes ∧ node ∈ problem.targets source
  targets : ∀ node, ∀ target ∈ problem.targets node, target ∈ problem.nodes
  boundaryFact : scale.Good problem.boundaryFact
  initial : scale.Good problem.initial
  meet : ∀ {a b}, scale.Good a → scale.Good b →
    scale.Good (problem.meet a b) ∧ a ≤ problem.meet a b ∧ b ≤ problem.meet a b
  transfer : ∀ node {fact}, scale.Good fact → scale.Good (problem.transfer node fact)

/-- What flows into a node so far. -/
def inputOf (problem : Problem φ) (progress : Progress φ) (node : Node) : φ :=
  (progress.input.get? node).getD problem.initial

/-- What flows out of a node so far. -/
def outputOf (problem : Problem φ) (progress : Progress φ) (node : Node) : φ :=
  (progress.output.get? node).getD problem.initial

/-- What flows out of the sources of a node has come in, and what flows out of it is the
transfer of what flows in. -/
structure Settled (problem : Problem φ) (progress : Progress φ) (node : Node) : Prop where
  flows : ∀ source ∈ problem.sources node,
    problem.outputOf progress source ≤ problem.inputOf progress node
  output : problem.outputOf progress node =
    problem.transfer node (problem.inputOf progress node)

/-- What holds of the facts all the time. -/
structure Orderly (problem : Problem φ) (scale : Scale φ) (progress : Progress φ) : Prop where
  input : ∀ node ∈ problem.nodes,
    progress.input.get? node = some (problem.inputOf progress node)
  output : ∀ node ∈ problem.nodes,
    progress.output.get? node = some (problem.outputOf progress node)
  input_good : ∀ node, scale.Good (problem.inputOf progress node)
  output_good : ∀ node, scale.Good (problem.outputOf progress node)
  boundary_input : problem.inputOf progress problem.boundary = problem.boundaryFact
  boundary_output : problem.outputOf progress problem.boundary = problem.boundaryFact

/-- Only nodes that wait are not settled.  The boundary never waits. -/
structure Invariant (problem : Problem φ) (scale : Scale φ) (progress : Progress φ) : Prop where
  orderly : problem.Orderly scale progress
  queue_nodup : progress.queue.Nodup
  queue_subset : ∀ node ∈ progress.queue, node ∈ problem.nodes ∧ node ≠ problem.boundary
  settled : ∀ node ∈ problem.nodes, node ≠ problem.boundary → node ∉ progress.queue →
    problem.Settled progress node

variable {problem : Problem φ} {scale : Scale φ} {progress : Progress φ} {node other : Node}
  {rest : List Node}

theorem Lawful.invariant_start (h : problem.Lawful scale) :
    problem.Invariant scale problem.start := by
  have hinput : ∀ node, problem.inputOf problem.start node =
      if node = problem.boundary then problem.boundaryFact else problem.initial := by
    intro node
    by_cases hboundary : node = problem.boundary
    · simp [inputOf, start, hboundary]
    · by_cases hnode : node ∈ problem.nodes <;> simp [inputOf, start, hboundary, hnode]
  have hgood : ∀ node, scale.Good (problem.inputOf problem.start node) := by
    intro node
    rw [hinput]
    split
    · exact h.boundaryFact
    · exact h.initial
  have hsome : ∀ node ∈ problem.nodes,
      problem.start.input.get? node = some (problem.inputOf problem.start node) := by
    intro node hnode
    rw [hinput]
    by_cases hboundary : node = problem.boundary <;> simp [start, hboundary, hnode]
  have hboundary : problem.inputOf problem.start problem.boundary = problem.boundaryFact := by
    rw [hinput, if_pos rfl]
  -- At the start what flows out of a node is what flows in.
  refine ⟨⟨hsome, hsome, hgood, hgood, hboundary, hboundary⟩, h.nodup.filter _, ?_, ?_⟩
  · intro node hnode
    simpa [start] using hnode
  · intro node hnode hne hwaits
    simp [start, hnode, hne] at hwaits

section Queue

omit [Preorder φ] in
theorem mem_foldl_enqueue {more queue : List Node} :
    node ∈ more.foldl problem.enqueue queue ↔
      node ∈ queue ∨ (node ∈ more ∧ node ≠ problem.boundary) := by
  induction more generalizing queue with
  | nil => simp
  | cons first more ih =>
    rw [List.foldl_cons, ih]
    unfold enqueue
    by_cases hnode : node = first
    · subst hnode
      split
      · next hskip =>
        simp only [List.mem_cons, true_or, true_and]
        tauto
      · next hadd =>
        simp only [not_or] at hadd
        simp [hadd.1]
    · split <;> simp [hnode]

omit [Preorder φ] in
theorem nodup_foldl_enqueue {more queue : List Node} (h : queue.Nodup) :
    (more.foldl problem.enqueue queue).Nodup := by
  induction more generalizing queue with
  | nil => exact h
  | cons first more ih =>
    refine ih ?_
    unfold enqueue
    split
    · exact h
    · next hadd =>
      simp only [not_or] at hadd
      exact List.Nodup.append h (List.nodup_singleton first) (by simpa using hadd.2)

end Queue

section Visit

/-- What comes in from the sources of a node is above what was there, and above what flows
out of each source. -/
theorem Lawful.inflow (h : problem.Lawful scale) (horderly : problem.Orderly scale progress)
    (node : Node) : scale.Good (problem.inflow progress node) ∧
      problem.inputOf progress node ≤ problem.inflow progress node ∧
      ∀ source ∈ problem.sources node,
        problem.outputOf progress source ≤ problem.inflow progress node := by
  have hsources : ∀ source ∈ problem.sources node, source ∈ problem.nodes :=
    fun source hsource => (h.sources node source hsource).1
  have hstart := horderly.input_good node
  unfold Problem.inflow
  rw [← inputOf]
  generalize problem.inputOf progress node = fact at hstart
  generalize problem.sources node = sources at hsources
  induction sources generalizing fact with
  | nil => exact ⟨hstart, le_refl _, by simp⟩
  | cons first sources ih =>
    obtain ⟨hfirst, hrest⟩ := List.forall_mem_cons.mp hsources
    obtain ⟨hgood, hout, hfact⟩ := h.meet (horderly.output_good first) hstart
    obtain ⟨hgood', hle, hall⟩ := ih _ hgood hrest
    simp only [List.foldl_cons, horderly.output first hfirst]
    refine ⟨hgood', hfact.trans hle, fun source hsource => ?_⟩
    rcases List.mem_cons.mp hsource with rfl | hsource
    · exact hout.trans hle
    · exact hall source hsource

variable [DecidableEq φ]

/-- What flows out of a node when it is visited. -/
def outflow (problem : Problem φ) (progress : Progress φ) (node : Node) : φ :=
  problem.transfer node (problem.inflow progress node)

/-- A visit changes the facts at its node, and queues the targets of the node when what flows
out of it has changed. -/
structure Visits (problem : Problem φ) (progress next : Progress φ) (node : Node)
    (rest : List Node) : Prop where
  input : next.input = progress.input.set node (problem.inflow progress node)
  output : next.output = progress.output.set node (problem.outflow progress node)
  queue : next.queue =
    if problem.outflow progress node = problem.outputOf progress node then rest
    else (problem.targets node).foldl problem.enqueue rest

theorem Orderly.visit (h : problem.Orderly scale progress) (hnode : node ∈ problem.nodes)
    (hqueue : progress.queue = node :: rest) :
    ∃ next, problem.visit progress = .more next ∧ problem.Visits progress next node rest := by
  unfold Problem.visit
  rw [hqueue]
  refine ⟨_, rfl, rfl, rfl, ?_⟩
  rw [h.output node hnode]
  by_cases hsame : problem.outflow progress node = problem.outputOf progress node
  · have hkept : problem.outputOf progress node =
        problem.transfer node (problem.inflow progress node) := hsame.symm
    simp [hsame, ← hkept]
  · have hchanged : problem.outputOf progress node ≠
        problem.transfer node (problem.inflow progress node) := fun heq => hsame heq.symm
    simp [hsame, hchanged]

variable {next : Progress φ}

omit [Preorder φ] in
theorem Visits.inputOf (h : problem.Visits progress next node rest) (other : Node) :
    problem.inputOf next other =
      if other = node then problem.inflow progress node else problem.inputOf progress other := by
  by_cases hother : other = node <;> simp [Problem.inputOf, h.input, hother]

omit [Preorder φ] in
theorem Visits.outputOf (h : problem.Visits progress next node rest) (other : Node) :
    problem.outputOf next other =
      if other = node then problem.outflow progress node
      else problem.outputOf progress other := by
  by_cases hother : other = node <;> simp [Problem.outputOf, h.output, hother]

theorem Lawful.orderly_visits (h : problem.Lawful scale)
    (horderly : problem.Orderly scale progress) (hvisits : problem.Visits progress next node rest)
    (hne : node ≠ problem.boundary) : problem.Orderly scale next := by
  obtain ⟨hgood, -⟩ := h.inflow horderly node
  refine ⟨fun other hother => ?_, fun other hother => ?_, fun other => ?_, fun other => ?_, ?_, ?_⟩
  · rw [hvisits.inputOf, hvisits.input, Table.get?_set, horderly.input other hother]
    split <;> rfl
  · rw [hvisits.outputOf, hvisits.output, Table.get?_set, horderly.output other hother]
    split <;> rfl
  · rw [hvisits.inputOf]
    split
    · exact hgood
    · exact horderly.input_good other
  · rw [hvisits.outputOf]
    split
    · exact h.transfer node hgood
    · exact horderly.output_good other
  · rw [hvisits.inputOf, if_neg hne.symm, horderly.boundary_input]
  · rw [hvisits.outputOf, if_neg hne.symm, horderly.boundary_output]

/-- A visit settles its node, and another node stays settled unless it is queued again. -/
theorem Lawful.settled_visits (h : problem.Lawful scale)
    (horderly : problem.Orderly scale progress) (hvisits : problem.Visits progress next node rest)
    (hsettled : other ≠ node → problem.Settled progress other)
    (hqueued : problem.outflow progress node ≠ problem.outputOf progress node →
      other ∉ problem.targets node) : problem.Settled next other := by
  -- What a node that is not queued gets from the visited node has not changed.
  have hsame : ∀ source ∈ problem.sources other,
      problem.outputOf next source = problem.outputOf progress source := by
    intro source hsource
    rw [hvisits.outputOf]
    split
    · next heq =>
      subst heq
      by_contra hchanged
      exact hqueued hchanged (h.sources other source hsource).2
    · rfl
  by_cases hself : other = node
  · subst hself
    obtain ⟨-, -, hall⟩ := h.inflow horderly other
    refine ⟨fun source hsource => ?_, ?_⟩
    · rw [hsame source hsource, hvisits.inputOf, if_pos rfl]
      exact hall source hsource
    · rw [hvisits.inputOf, hvisits.outputOf, if_pos rfl, if_pos rfl, outflow]
  · obtain ⟨hflows, houtput⟩ := hsettled hself
    refine ⟨fun source hsource => ?_, ?_⟩
    · rw [hsame source hsource, hvisits.inputOf, if_neg hself]
      exact hflows source hsource
    · rw [hvisits.inputOf, hvisits.outputOf, if_neg hself, if_neg hself, houtput]

/-- A visit keeps the invariant. -/
theorem Lawful.invariant_visits (h : problem.Lawful scale)
    (hinv : problem.Invariant scale progress) (hqueue : progress.queue = node :: rest)
    (hvisits : problem.Visits progress next node rest) : problem.Invariant scale next := by
  obtain ⟨horderly, hnodup, hsubset, hsettled⟩ := hinv
  rw [hqueue] at hnodup hsubset hsettled
  obtain ⟨hnode, hne⟩ := hsubset node List.mem_cons_self
  obtain ⟨-, hrest⟩ := List.nodup_cons.mp hnodup
  have hkept : ∀ other ∈ rest, other ∈ next.queue := by
    intro other hother
    rw [hvisits.queue]
    split
    · exact hother
    · exact mem_foldl_enqueue.mpr (.inl hother)
  refine ⟨h.orderly_visits horderly hvisits hne, ?_, ?_, ?_⟩
  · rw [hvisits.queue]
    split
    · exact hrest
    · exact nodup_foldl_enqueue hrest
  · intro other hother
    rw [hvisits.queue] at hother
    split at hother
    · exact hsubset other (List.mem_cons_of_mem _ hother)
    · rcases mem_foldl_enqueue.mp hother with hother | ⟨htarget, hboundary⟩
      · exact hsubset other (List.mem_cons_of_mem _ hother)
      · exact ⟨h.targets node other htarget, hboundary⟩
  · intro other hother hboundary hwaits
    refine h.settled_visits horderly hvisits (fun hself => hsettled other hother hboundary ?_)
      fun hchanged htarget => hwaits ?_
    · simp only [List.mem_cons, hself, false_or]
      exact fun hmem => hwaits (hkept other hmem)
    · rw [hvisits.queue, if_neg hchanged]
      exact mem_foldl_enqueue.mpr (.inr ⟨htarget, hboundary⟩)

end Visit

section Termination

variable [DecidableEq φ]

/-- How far the fact before a node can still go up, and one more for a node that is not up to
date. -/
def room (problem : Problem φ) (scale : Scale φ) (progress : Progress φ) (node : Node) : Nat :=
  scale.limit - scale.height (problem.inputOf progress node) +
    if problem.outputOf progress node = problem.transfer node (problem.inputOf progress node)
    then 0 else 1

def potential (problem : Problem φ) (scale : Scale φ) (progress : Progress φ) : Nat :=
  (problem.nodes.map (problem.room scale progress)).sum

/-- What the solver has left to do: visits that change something, and visits that only empty
the queue. -/
def remaining (problem : Problem φ) (scale : Scale φ) (progress : Progress φ) : Nat :=
  problem.potential scale progress * (problem.nodes.length + 1) + progress.queue.length

variable {next : Progress φ}

theorem room_visits_of_ne (hvisits : problem.Visits progress next node rest)
    (hne : other ≠ node) : problem.room scale next other = problem.room scale progress other := by
  simp only [room, hvisits.inputOf, hvisits.outputOf, if_neg hne]

/-- A visited node is up to date. -/
theorem room_visits_self (hvisits : problem.Visits progress next node rest) :
    problem.room scale next node =
      scale.limit - scale.height (problem.inflow progress node) := by
  rw [room, hvisits.inputOf, hvisits.outputOf, if_pos rfl, if_pos rfl, outflow, if_pos rfl,
    Nat.add_zero]

theorem Lawful.room_visits_self_le (h : problem.Lawful scale)
    (horderly : problem.Orderly scale progress)
    (hvisits : problem.Visits progress next node rest) :
    problem.room scale next node ≤ problem.room scale progress node := by
  obtain ⟨hgood, hgrows, -⟩ := h.inflow horderly node
  have hheight := scale.height_mono (horderly.input_good node) hgood hgrows
  rw [room_visits_self hvisits, room]
  omega

/-- When something else flows out of a node, either the fact before it went up or the node
was not up to date. -/
theorem Lawful.room_visits_self_lt (h : problem.Lawful scale)
    (horderly : problem.Orderly scale progress)
    (hvisits : problem.Visits progress next node rest)
    (hchanged : problem.outflow progress node ≠ problem.outputOf progress node) :
    problem.room scale next node < problem.room scale progress node := by
  obtain ⟨hgood, hgrows, -⟩ := h.inflow horderly node
  rw [room_visits_self hvisits, room]
  by_cases hsame : problem.inputOf progress node = problem.inflow progress node
  · have hdebt : problem.outputOf progress node ≠
        problem.transfer node (problem.inputOf progress node) := by
      rw [hsame]
      exact fun heq => hchanged heq.symm
    rw [if_neg hdebt, hsame]
    omega
  · have hheight : scale.height (problem.inputOf progress node) <
        scale.height (problem.inflow progress node) := by
      refine Nat.lt_of_not_le fun hle => hsame ?_
      exact scale.eq_of_height (horderly.input_good node) hgood hgrows hle
    have hlimit := scale.height_le hgood
    omega

theorem Lawful.potential_visits_le (h : problem.Lawful scale)
    (horderly : problem.Orderly scale progress)
    (hvisits : problem.Visits progress next node rest) :
    problem.potential scale next ≤ problem.potential scale progress := by
  refine List.sum_le_sum fun other _ => ?_
  by_cases hother : other = node
  · exact hother ▸ h.room_visits_self_le horderly hvisits
  · exact (room_visits_of_ne hvisits hother).le

theorem Lawful.potential_visits_lt (h : problem.Lawful scale)
    (horderly : problem.Orderly scale progress) (hnode : node ∈ problem.nodes)
    (hvisits : problem.Visits progress next node rest)
    (hchanged : problem.outflow progress node ≠ problem.outputOf progress node) :
    problem.potential scale next < problem.potential scale progress := by
  refine List.sum_lt_sum _ _ (fun other _ => ?_)
    ⟨node, hnode, h.room_visits_self_lt horderly hvisits hchanged⟩
  by_cases hother : other = node
  · exact hother ▸ h.room_visits_self_le horderly hvisits
  · exact (room_visits_of_ne hvisits hother).le

/-- Every visit leaves less to do. -/
theorem Lawful.remaining_lt (h : problem.Lawful scale) (hinv : problem.Invariant scale progress)
    (hqueue : progress.queue = node :: rest)
    (hvisits : problem.Visits progress next node rest) :
    problem.remaining scale next < problem.remaining scale progress := by
  have hnode := (hinv.queue_subset node (by simp [hqueue])).1
  have hinv' := h.invariant_visits hinv hqueue hvisits
  unfold remaining
  by_cases hsame : problem.outflow progress node = problem.outputOf progress node
  · have hle := h.potential_visits_le hinv.orderly hvisits
    rw [hvisits.queue, if_pos hsame, hqueue, List.length_cons]
    exact Nat.add_lt_add_of_le_of_lt (Nat.mul_le_mul_right _ hle) (Nat.lt_succ_self _)
  · have hlt := h.potential_visits_lt hinv.orderly hnode hvisits hsame
    have hlength : next.queue.length ≤ problem.nodes.length :=
      (List.subperm_of_subset hinv'.queue_nodup fun other hother =>
        (hinv'.queue_subset other hother).1).length_le
    calc problem.potential scale next * (problem.nodes.length + 1) + next.queue.length
        < (problem.potential scale next + 1) * (problem.nodes.length + 1) := by
          rw [Nat.succ_mul]
          omega
      _ ≤ problem.potential scale progress * (problem.nodes.length + 1) :=
          Nat.mul_le_mul_right _ hlt
      _ ≤ _ := Nat.le_add_right _ _

theorem potential_le (problem : Problem φ) (scale : Scale φ) (progress : Progress φ) :
    problem.potential scale progress ≤ problem.nodes.length * (scale.limit + 1) := by
  have hroom : ∀ amount ∈ problem.nodes.map (problem.room scale progress),
      amount ≤ scale.limit + 1 := by
    intro amount hamount
    obtain ⟨node, -, rfl⟩ := List.mem_map.mp hamount
    unfold room
    split <;> omega
  simpa [potential] using List.sum_le_card_nsmul _ _ hroom

/-- The facts solve the equations. -/
structure Solution (problem : Problem φ) (scale : Scale φ) (progress : Progress φ) : Prop
    extends problem.Orderly scale progress where
  settled : ∀ node ∈ problem.nodes, node ≠ problem.boundary → problem.Settled progress node

/-- More visits than the solver can make before no node waits any more. -/
def limit (problem : Problem φ) (scale : Scale φ) : Nat :=
  problem.nodes.length * (scale.limit + 1) * (problem.nodes.length + 1) + problem.nodes.length

theorem remaining_start_le (problem : Problem φ) (scale : Scale φ) :
    problem.remaining scale problem.start ≤ problem.limit scale := by
  have hqueue : problem.start.queue.length ≤ problem.nodes.length := List.length_filter_le _ _
  exact Nat.add_le_add (Nat.mul_le_mul_right _ (problem.potential_le scale _)) hqueue

/-- Visit after visit, the queue runs empty, and then lawful equations are solved.  The solver
is never stopped before that when it is allowed enough visits. -/
theorem Lawful.exists_ends (h : problem.Lawful scale) {rounds : Nat}
    (hrounds : problem.limit scale + 1 < 2 ^ rounds) :
    ∃ count, Iteration.Ends problem.visit problem.start count (problem.solve rounds) ∧
      ((problem.solve rounds).queue = [] ∧ problem.Solution scale (problem.solve rounds)) ∧
      count ≤ problem.limit scale := by
  have hmore : ∀ progress next, problem.Invariant scale progress →
      problem.visit progress = .more next → problem.Invariant scale next ∧
        problem.remaining scale next < problem.remaining scale progress := by
    intro progress next hinv hnext
    cases hqueue : progress.queue with
    | nil => simp [visit, hqueue] at hnext
    | cons node rest =>
      have hnode := (hinv.queue_subset node (by simp [hqueue])).1
      obtain ⟨next', hnext', hvisits⟩ := hinv.orderly.visit hnode hqueue
      rw [hnext] at hnext'
      cases hnext'
      exact ⟨h.invariant_visits hinv hqueue hvisits, h.remaining_lt hinv hqueue hvisits⟩
  have hdone : ∀ progress final, problem.Invariant scale progress →
      problem.visit progress = .done final →
        final.queue = [] ∧ problem.Solution scale final := by
    intro progress final hinv hdone
    cases hqueue : progress.queue with
    | nil =>
      simp only [visit, hqueue, Iteration.Turn.done.injEq] at hdone
      subst hdone
      exact ⟨hqueue, hinv.orderly,
        fun node hnode hne => hinv.settled node hnode hne (by simp [hqueue])⟩
    | cons node rest => simp [visit, hqueue] at hdone
  have hstart := problem.remaining_start_le scale
  obtain ⟨count, hends, hfinal, hcount⟩ :=
    Iteration.exists_ends hmore hdone h.invariant_start (Nat.lt_of_le_of_lt (by omega) hrounds)
  exact ⟨count, hends, hfinal, hcount.trans hstart⟩

end Termination

end Problem

end ObjectFlow.Dataflow

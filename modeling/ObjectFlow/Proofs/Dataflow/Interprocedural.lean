import Mathlib.Data.List.Nodup
import ObjectFlow.Dataflow.Interprocedural
import ObjectFlow.Proofs.Dataflow.Value

/-!
# Solutions of dataflow equations

The solver visits nodes until none is left in its queue.  A node that does not wait is
settled: the facts of its sources have come in, and what flows out of it is the transfer
of what flows in.  The transfer of a node may depend on what flows out of a store, which
hands on what it gets; when that changes, the nodes that depend on it are queued again.
-/

namespace ObjectFlow.Dataflow

namespace Facts

/-- The fact before a node, empty where none is given. -/
def input (facts : Facts Fact) (node : Node) : Fact := (facts.before.get? node).getD {}

/-- The fact after a node, empty where none is given. -/
def output (facts : Facts Fact) (node : Node) : Fact := (facts.after.get? node).getD {}

variable (facts : Facts Fact) (node other : Node) (fact : Fact)

@[simp]
theorem input_setBefore :
    (facts.setBefore other fact).input node = if node = other then fact else facts.input node := by
  by_cases h : node = other <;> simp [input, setBefore, h]

@[simp]
theorem output_setAfter :
    (facts.setAfter other fact).output node = if node = other then fact else facts.output node := by
  by_cases h : node = other <;> simp [output, setAfter, h]

@[simp]
theorem input_setAfter : (facts.setAfter other fact).input node = facts.input node := rfl

@[simp]
theorem output_setBefore : (facts.setBefore other fact).output node = facts.output node := rfl

end Facts

namespace Interprocedural.Problem

/-- Equations over tidy facts in which a node depends on other nodes only through what
flows out of stores. -/
structure Lawful (problem : Problem Fact) (vars : Nat) (stores : Node → Bool) : Prop where
  nodup : problem.nodes.Nodup
  initial : problem.initial = {}
  meet : problem.meet = Fact.meetInto
  boundary_nodup : (problem.boundary.map Prod.fst).Nodup
  boundary : ∀ entry ∈ problem.boundary, entry.1 ∈ problem.nodes ∧ entry.2.Tidy vars
  source : ∀ node, ∀ edge ∈ problem.inEdges node, edge.1 ∈ problem.nodes
  along : ∀ node, ∀ edge ∈ problem.inEdges node, ∀ fact : Fact, fact.Tidy vars →
    (edge.2 fact).Tidy vars
  succs : ∀ node ∈ problem.nodes, ∀ edge ∈ problem.inEdges node, node ∈ problem.succs edge.1
  transfer : ∀ node facts fact, fact.Tidy vars → (problem.transfer node facts fact).Tidy vars
  before : ∀ node facts other fact,
    problem.transfer node (facts.setBefore other fact) = problem.transfer node facts
  /-- What flows out of a node that is no store matters to no other node. -/
  silent : ∀ source, stores source = false → ∀ node facts fact,
    problem.transfer node (facts.setAfter source fact) = problem.transfer node facts
  /-- A store hands on what it gets. -/
  passes : ∀ source, stores source = true → ∀ facts fact,
    problem.transfer source facts fact = fact
  /-- When what flows out of a store grows, only its dependents do something else. -/
  dependents : ∀ source ∈ problem.nodes, stores source = true → ∀ node ∈ problem.nodes,
    ∀ facts fact, facts.output source ≤ fact → node ∉ problem.dependents source facts fact →
      problem.transfer node (facts.setAfter source fact) (facts.input node) =
        problem.transfer node facts (facts.input node)

/-- A node is settled: the facts of its sources have come in, and what flows out is the
transfer of what flows in. -/
structure Settled (problem : Problem Fact) (facts : Facts Fact) (node : Node) : Prop where
  flows : ∀ edge ∈ problem.inEdges node, edge.2 (facts.output edge.1) ≤ facts.input node
  output : facts.output node = problem.transfer node facts (facts.input node)

/-- What holds of the facts all the time. -/
structure Orderly (problem : Problem Fact) (vars : Nat) (stores : Node → Bool)
    (facts : Facts Fact) : Prop where
  before : ∀ node ∈ problem.nodes, facts.before.get? node = some (facts.input node)
  after : ∀ node ∈ problem.nodes, facts.after.get? node = some (facts.output node)
  input_tidy : ∀ node, (facts.input node).Tidy vars
  output_tidy : ∀ node, (facts.output node).Tidy vars
  boundary : ∀ entry ∈ problem.boundary, entry.2 ≤ facts.input entry.1
  stores : ∀ node, stores node = true → facts.output node ≤ facts.input node

/-- Only nodes that wait are not settled. -/
structure Invariant (problem : Problem Fact) (vars : Nat) (stores : Node → Bool)
    (progress : Progress Fact) : Prop where
  orderly : problem.Orderly vars stores progress.facts
  queue_nodup : progress.queue.Nodup
  queue_subset : ∀ node ∈ progress.queue, node ∈ problem.nodes
  settled : ∀ node ∈ problem.nodes, node ∉ progress.queue → problem.Settled progress.facts node

variable {problem : Problem Fact} {vars : Nat} {stores : Node → Bool} {facts : Facts Fact}

section Start

variable {boundary : List (Node × Fact)}

/-- The given facts at some nodes. -/
def given (facts : Facts Fact) (boundary : List (Node × Fact)) : Facts Fact :=
  boundary.foldl (fun facts (node, fact) => (facts.setBefore node fact).setAfter node fact) facts

@[simp]
theorem given_cons (entry : Node × Fact) : given facts (entry :: boundary) =
    given ((facts.setBefore entry.1 entry.2).setAfter entry.1 entry.2) boundary := rfl

theorem input_given_of_notMem {node : Node} (h : node ∉ boundary.map Prod.fst) :
    (given facts boundary).input node = facts.input node := by
  induction boundary generalizing facts with
  | nil => rfl
  | cons entry boundary ih =>
    simp only [List.map_cons, List.mem_cons, not_or] at h
    rw [given_cons, ih h.2]
    simp [h.1]

theorem input_given {entry : Node × Fact} (hnodup : (boundary.map Prod.fst).Nodup)
    (hentry : entry ∈ boundary) : (given facts boundary).input entry.1 = entry.2 := by
  induction boundary generalizing facts with
  | nil => cases hentry
  | cons first boundary ih =>
    obtain ⟨hfirst, hrest⟩ := List.nodup_cons.mp hnodup
    rcases List.mem_cons.mp hentry with rfl | hentry
    · rw [given_cons, input_given_of_notMem hfirst]
      simp
    · exact ih hrest hentry

/-- Given facts stand before and after their nodes alike. -/
theorem given_keeps (hsame : facts.before = facts.after)
    (htidy : ∀ node, (facts.input node).Tidy vars)
    (hboundary : ∀ entry ∈ boundary, entry.2.Tidy vars) :
    (given facts boundary).before = (given facts boundary).after ∧
      ∀ node, ((given facts boundary).input node).Tidy vars ∧
        ((facts.before.get? node).isSome → ((given facts boundary).before.get? node).isSome) := by
  induction boundary generalizing facts with
  | nil => exact ⟨hsame, fun node => ⟨htidy node, id⟩⟩
  | cons entry boundary ih =>
    obtain ⟨hentry, hrest⟩ := List.forall_mem_cons.mp hboundary
    let next := (facts.setBefore entry.1 entry.2).setAfter entry.1 entry.2
    have hnextTidy : ∀ node, (next.input node).Tidy vars := by
      intro node
      by_cases hnode : node = entry.1
      · simpa [next, hnode] using hentry
      · simpa [next, hnode] using htidy node
    obtain ⟨hsame', hnodes⟩ := @ih next (by simp [next, Facts.setBefore, Facts.setAfter, hsame])
      hnextTidy hrest
    refine ⟨hsame', fun node => ⟨(hnodes node).1, fun hsome => (hnodes node).2 ?_⟩⟩
    by_cases hnode : node = entry.1 <;> simp [next, Facts.setBefore, Facts.setAfter, hnode, hsome]

theorem start_facts (problem : Problem Fact) : problem.start.facts =
    given
      { before := .constant problem.nodes problem.initial
        after := .constant problem.nodes problem.initial }
      problem.boundary := rfl

theorem Lawful.invariant_start (h : problem.Lawful vars stores) :
    problem.Invariant vars stores problem.start := by
  have hempty : ∀ node, ((Table.constant problem.nodes problem.initial).get? node).getD {} =
      ({} : Fact) := by
    intro node
    by_cases hnode : node ∈ problem.nodes <;> simp [hnode, h.initial]
  obtain ⟨hsame, hnodes⟩ := @given_keeps vars
    { before := .constant problem.nodes problem.initial
      after := .constant problem.nodes problem.initial } problem.boundary rfl
    (fun node => by simp only [Facts.input, hempty, Fact.tidy_empty])
    fun entry hentry => (h.boundary entry hentry).2
  rw [← start_facts] at hsame hnodes
  have houtput : ∀ node, problem.start.facts.output node = problem.start.facts.input node := by
    intro node
    rw [Facts.output, ← hsame, Facts.input]
  have hbefore : ∀ node ∈ problem.nodes,
      problem.start.facts.before.get? node = some (problem.start.facts.input node) := by
    intro node hnode
    obtain ⟨fact, hfact⟩ := Option.isSome_iff_exists.mp ((hnodes node).2 (by simp [hnode]))
    simp [Facts.input, hfact]
  refine ⟨⟨hbefore, ?_, fun node => (hnodes node).1, ?_, ?_, ?_⟩, h.nodup, fun _ hnode => hnode,
    fun node hnode hwaits => absurd hnode hwaits⟩
  · intro node hnode
    rw [← hsame, houtput, hbefore node hnode]
  · exact fun node => houtput node ▸ (hnodes node).1
  · intro entry hentry
    rw [start_facts, input_given h.boundary_nodup hentry]
  · exact fun node _ => (houtput node).le

end Start

section Queue

theorem mem_foldl_enqueue {more queue : List Node} {node : Node} :
    node ∈ more.foldl problem.enqueue queue ↔
      node ∈ queue ∨ (node ∈ more ∧ node ∈ problem.nodes) := by
  induction more generalizing queue with
  | nil => simp
  | cons first more ih =>
    rw [List.foldl_cons, ih]
    unfold enqueue
    split
    · next hfirst =>
      by_cases hnode : node = first
      · simp [hnode, hfirst.1]
      · simp [hnode]
    · next hfirst =>
      by_cases hnode : node = first
      · subst hnode
        simp only [not_and, not_not] at hfirst
        simp only [List.mem_cons, true_or, true_and]
        tauto
      · simp [hnode]

theorem nodup_foldl_enqueue {more queue : List Node} (h : queue.Nodup) :
    (more.foldl problem.enqueue queue).Nodup := by
  induction more generalizing queue with
  | nil => exact h
  | cons first more ih =>
    refine ih ?_
    unfold enqueue
    split
    · next hfirst =>
      exact List.Nodup.append h (List.nodup_singleton first) (by simpa using hfirst.2)
    · exact h

end Queue

section Inflow

/-- Takes in what the source of an edge sends. -/
def receive (problem : Problem Fact) (facts : Facts Fact) (fact : Fact)
    (edge : Node × (Fact → Fact)) : Fact :=
  match facts.after.get? edge.1 with
  | some out => problem.meet (edge.2 out) fact
  | none => fact

theorem inflow_eq (h : problem.Lawful vars stores) (facts : Facts Fact) (node : Node) :
    problem.inflow facts node =
      (problem.inEdges node).foldl (problem.receive facts) (facts.input node) := by
  rw [Problem.inflow, Facts.input, h.initial]
  congr 1
  funext fact edge
  cases hout : facts.after.get? edge.1 <;> simp [receive, hout]

theorem Lawful.receive (h : problem.Lawful vars stores)
    (horderly : problem.Orderly vars stores facts) {node : Node} {edge : Node × (Fact → Fact)}
    (hedge : edge ∈ problem.inEdges node) {fact : Fact} (hfact : fact.Tidy vars) :
    (problem.receive facts fact edge).Tidy vars ∧ fact ≤ problem.receive facts fact edge ∧
      edge.2 (facts.output edge.1) ≤ problem.receive facts fact edge := by
  have hout : facts.after.get? edge.1 = some (facts.output edge.1) :=
    horderly.after edge.1 (h.source node edge hedge)
  have hsent := h.along node edge hedge _ (horderly.output_tidy edge.1)
  simp only [Problem.receive, hout, h.meet]
  exact ⟨hsent.meetInto hfact, hsent.toCanonical.target_le_meetInto fact,
    hsent.toCanonical.le_meetInto fact⟩

/-- What comes in from the sources of a node is above what was there, and above what each
source sends. -/
theorem Lawful.inflow (h : problem.Lawful vars stores)
    (horderly : problem.Orderly vars stores facts) (node : Node) :
    (problem.inflow facts node).Tidy vars ∧ facts.input node ≤ problem.inflow facts node ∧
      ∀ edge ∈ problem.inEdges node,
        edge.2 (facts.output edge.1) ≤ problem.inflow facts node := by
  rw [inflow_eq h]
  have hfact := horderly.input_tidy node
  generalize facts.input node = fact at hfact ⊢
  have hedges : ∀ edge ∈ problem.inEdges node, edge ∈ problem.inEdges node := fun _ hedge => hedge
  suffices hfold : ∀ (edges : List (Node × (Fact → Fact))),
      (∀ edge ∈ edges, edge ∈ problem.inEdges node) →
      (edges.foldl (problem.receive facts) fact).Tidy vars ∧
        fact ≤ edges.foldl (problem.receive facts) fact ∧
        ∀ edge ∈ edges,
          edge.2 (facts.output edge.1) ≤ edges.foldl (problem.receive facts) fact by
    exact hfold _ hedges
  intro edges hedges
  induction edges generalizing fact with
  | nil => exact ⟨hfact, le_refl _, by simp⟩
  | cons edge edges ih =>
    obtain ⟨hedge, hrest⟩ := List.forall_mem_cons.mp hedges
    obtain ⟨htidy, hfrom, hsent⟩ := h.receive horderly hedge hfact
    obtain ⟨htidy', hfrom', hsent'⟩ := ih _ htidy hrest
    refine ⟨htidy', hfrom.trans hfrom', fun other hother => ?_⟩
    rcases List.mem_cons.mp hother with rfl | hother
    · exact hsent.trans hfrom'
    · exact hsent' other hother

end Inflow

section Visit

variable {node other : Node} {progress : Progress Fact} {rest : List Node}

/-- What flows out of a node when it is visited. -/
def outflow (problem : Problem Fact) (facts : Facts Fact) (node : Node) : Fact :=
  problem.transfer node facts (problem.inflow facts node)

/-- The facts after the visit of a node. -/
def visited (problem : Problem Fact) (facts : Facts Fact) (node : Node) : Facts Fact :=
  (facts.setBefore node (problem.inflow facts node)).setAfter node (problem.outflow facts node)

theorem get?_before_visited : (problem.visited facts node).before.get? other =
    if other = node then some (problem.inflow facts node) else facts.before.get? other := by
  simp [visited, Facts.setBefore, Facts.setAfter]

theorem get?_after_visited : (problem.visited facts node).after.get? other =
    if other = node then some (problem.outflow facts node) else facts.after.get? other := by
  simp [visited, Facts.setBefore, Facts.setAfter]

@[simp]
theorem input_visited : (problem.visited facts node).input other =
    if other = node then problem.inflow facts node else facts.input other := by
  simp [visited]

@[simp]
theorem output_visited : (problem.visited facts node).output other =
    if other = node then problem.outflow facts node else facts.output other := by
  simp [visited]

/-- A visit queues the successors and the dependents of a node when what flows out of the
node has changed. -/
theorem Orderly.visit (h : problem.Orderly vars stores progress.facts)
    (hqueue : progress.queue = node :: rest) (hnode : node ∈ problem.nodes) :
    ∃ next, problem.visit progress = .more next ∧
      next.facts = problem.visited progress.facts node ∧
      next.queue = if problem.outflow progress.facts node = progress.facts.output node then rest
        else (problem.succs node).foldl problem.enqueue
          ((problem.dependents node progress.facts
            (problem.outflow progress.facts node)).foldl problem.enqueue rest) := by
  have hout := h.after node hnode
  unfold Problem.visit
  rw [hqueue]
  refine ⟨_, rfl, rfl, ?_⟩
  by_cases hsame : problem.outflow progress.facts node = progress.facts.output node
  · have hkept : progress.facts.after.get? node =
        some (problem.transfer node progress.facts (problem.inflow progress.facts node)) := by
      rw [hout, ← hsame, outflow]
    rw [if_pos hsame]
    simp [hkept]
  · have hchanged : progress.facts.after.get? node ≠
        some (problem.transfer node progress.facts (problem.inflow progress.facts node)) := by
      rw [hout]
      exact fun heq => hsame (Option.some.inj heq).symm
    rw [if_neg hsame]
    simp only [if_pos hchanged]
    rfl

theorem Lawful.outflow_of_stores (h : problem.Lawful vars stores) (hstores : stores node = true) :
    problem.outflow facts node = problem.inflow facts node :=
  h.passes node hstores facts _

theorem Lawful.outflow_tidy (h : problem.Lawful vars stores)
    (horderly : problem.Orderly vars stores facts) (node : Node) :
    (problem.outflow facts node).Tidy vars :=
  h.transfer node facts _ (h.inflow horderly node).1

theorem Lawful.orderly_visited (h : problem.Lawful vars stores)
    (horderly : problem.Orderly vars stores facts) (node : Node) :
    problem.Orderly vars stores (problem.visited facts node) := by
  obtain ⟨htidy, hgrows, -⟩ := h.inflow horderly node
  refine ⟨fun other hother => ?_, fun other hother => ?_, fun other => ?_, fun other => ?_,
    fun entry hentry => ?_, fun other hother => ?_⟩
  · rw [get?_before_visited, input_visited, horderly.before other hother]
    split <;> rfl
  · rw [get?_after_visited, output_visited, horderly.after other hother]
    split <;> rfl
  · by_cases heq : other = node
    · simpa [heq] using htidy
    · simpa [heq] using horderly.input_tidy other
  · by_cases heq : other = node
    · simpa [heq] using h.outflow_tidy horderly node
    · simpa [heq] using horderly.output_tidy other
  · by_cases heq : entry.1 = node
    · simpa [heq] using (horderly.boundary entry hentry).trans (heq ▸ hgrows)
    · simpa [heq] using horderly.boundary entry hentry
  · by_cases heq : other = node
    · subst heq
      simp [h.outflow_of_stores hother]
    · simpa [heq] using horderly.stores other hother

/-- What flows out of a store only grows. -/
theorem Lawful.output_le_outflow (h : problem.Lawful vars stores)
    (horderly : problem.Orderly vars stores facts) (hstores : stores node = true) :
    facts.output node ≤ problem.outflow facts node := by
  rw [h.outflow_of_stores hstores]
  exact (horderly.stores node hstores).trans (h.inflow horderly node).2.1

theorem Lawful.transfer_visited_eq (h : problem.Lawful vars stores) :
    problem.transfer other (problem.visited facts node) =
      problem.transfer other (facts.setAfter node (problem.outflow facts node)) :=
  h.before other (facts.setAfter node (problem.outflow facts node)) node _

/-- A visit does not change what the visited node does. -/
theorem Lawful.transfer_visited_self (h : problem.Lawful vars stores) (fact : Fact) :
    problem.transfer node (problem.visited facts node) fact = problem.transfer node facts fact := by
  rw [h.transfer_visited_eq]
  cases hstores : stores node with
  | false => rw [h.silent node hstores]
  | true => rw [h.passes node hstores, h.passes node hstores]

/-- A visit changes what another node does only when something else flows out of a store
and the other node depends on it. -/
theorem Lawful.transfer_visited (h : problem.Lawful vars stores)
    (horderly : problem.Orderly vars stores facts) (hnode : node ∈ problem.nodes)
    (hother : other ∈ problem.nodes)
    (hcase : problem.outflow facts node = facts.output node ∨ stores node = false ∨
      other ∉ problem.dependents node facts (problem.outflow facts node)) :
    problem.transfer other (problem.visited facts node) (facts.input other) =
      problem.transfer other facts (facts.input other) := by
  rw [h.transfer_visited_eq]
  rcases hcase with hsame | hsilent | hdependents
  · have hset : facts.setAfter node (problem.outflow facts node) = facts := by
      rw [hsame, Facts.setAfter, Table.set_eq_self (horderly.after node hnode)]
    rw [hset]
  · rw [h.silent node hsilent]
  · cases hstores : stores node with
    | false => rw [h.silent node hstores]
    | true =>
      exact h.dependents node hnode hstores other hother facts _
        (h.output_le_outflow horderly hstores) hdependents

/-- A visit settles its node.  Another node stays settled unless it is queued again. -/
theorem Lawful.settled_visited (h : problem.Lawful vars stores)
    (horderly : problem.Orderly vars stores facts) (hnode : node ∈ problem.nodes)
    (hother : other ∈ problem.nodes) (hsettled : other ≠ node → problem.Settled facts other)
    (hqueued : problem.outflow facts node ≠ facts.output node → other ∉ problem.succs node ∧
      other ∉ problem.dependents node facts (problem.outflow facts node)) :
    problem.Settled (problem.visited facts node) other := by
  -- What a node that is not queued gets from the visited node has not changed.
  have hsame : ∀ edge ∈ problem.inEdges other,
      (problem.visited facts node).output edge.1 = facts.output edge.1 := by
    intro edge hedge
    by_cases hedgeNode : edge.1 = node
    · rw [output_visited, if_pos hedgeNode, hedgeNode]
      by_contra hchanged
      exact (hqueued hchanged).1 (hedgeNode ▸ h.succs other hother edge hedge)
    · rw [output_visited, if_neg hedgeNode]
  by_cases hself : other = node
  · subst hself
    refine ⟨fun edge hedge => ?_, ?_⟩
    · rw [hsame edge hedge, input_visited, if_pos rfl]
      exact (h.inflow horderly other).2.2 edge hedge
    · rw [h.transfer_visited_self]
      simp [outflow]
  · obtain ⟨hflows, houtput⟩ := hsettled hself
    refine ⟨fun edge hedge => ?_, ?_⟩
    · rw [hsame edge hedge, input_visited, if_neg hself]
      exact hflows edge hedge
    · rw [input_visited, output_visited, if_neg hself, if_neg hself, houtput,
        h.transfer_visited horderly hnode hother]
      by_cases hchanged : problem.outflow facts node = facts.output node
      · exact .inl hchanged
      · exact .inr (.inr (hqueued hchanged).2)

/-- A visit keeps the invariant. -/
theorem Lawful.invariant_visit (h : problem.Lawful vars stores)
    (hinv : problem.Invariant vars stores progress) (hqueue : progress.queue = node :: rest)
    {next : Progress Fact} (hnext : problem.visit progress = .more next) :
    problem.Invariant vars stores next := by
  obtain ⟨horderly, hnodup, hsubset, hsettled⟩ := hinv
  rw [hqueue] at hnodup hsubset hsettled
  obtain ⟨-, hrestNodup⟩ := List.nodup_cons.mp hnodup
  have hnode := hsubset node List.mem_cons_self
  obtain ⟨next', hnext', hfacts, hqueue'⟩ := horderly.visit hqueue hnode
  rw [hnext] at hnext'
  cases hnext'
  generalize progress.facts = facts at *
  refine ⟨hfacts ▸ h.orderly_visited horderly node, ?_, ?_, ?_⟩
  · rw [hqueue']
    split
    · exact hrestNodup
    · exact nodup_foldl_enqueue (nodup_foldl_enqueue hrestNodup)
  · intro other hother
    rw [hqueue'] at hother
    split at hother
    · exact hsubset other (List.mem_cons_of_mem _ hother)
    · simp only [mem_foldl_enqueue] at hother
      rcases hother with (hother | hother) | hother
      · exact hsubset other (List.mem_cons_of_mem _ hother)
      · exact hother.2
      · exact hother.2
  · intro other hother hwaits
    rw [hqueue'] at hwaits
    rw [hfacts]
    refine h.settled_visited horderly hnode hother (fun hself => hsettled other hother ?_)
      fun hchanged => ?_
    · have hrest : other ∉ rest := by
        intro hmem
        refine hwaits ?_
        split
        · exact hmem
        · simp [mem_foldl_enqueue, hmem]
      simp [hself, hrest]
    · rw [if_neg hchanged] at hwaits
      simp only [mem_foldl_enqueue, hother, and_true, not_or] at hwaits
      exact ⟨hwaits.2, hwaits.1.2⟩

end Visit

end Interprocedural.Problem

end ObjectFlow.Dataflow

import ObjectFlow.Proofs.Dataflow.Interprocedural
import ObjectFlow.Proofs.Iteration

/-!
# The solver of dataflow equations comes to its end

What flows into a node only grows.  A visit that changes what flows out of a node uses up
some of the room that the facts have left to grow, or brings a node up to date that was
not.  The equations are solved when no node waits any more.
-/

namespace ObjectFlow.Dataflow.Interprocedural.Problem

variable {problem : Problem Fact} {vars : Nat} {stores : Node → Bool} {facts : Facts Fact}
  {node other : Node} {progress : Progress Fact} {rest : List Node}

/-- What it costs to bring a node up to date.  A store costs more than all other nodes
together, because these may have to follow it. -/
def cost (problem : Problem Fact) (stores : Node → Bool) (node : Node) : Nat :=
  if stores node then problem.nodes.length + 1 else 1

/-- The cost of a node that is not up to date. -/
def debt (problem : Problem Fact) (stores : Node → Bool) (facts : Facts Fact) (node : Node) : Nat :=
  if facts.output node = problem.transfer node facts (facts.input node) then 0
  else problem.cost stores node

/-- How far the facts at a node can still go up, and its debt. -/
def room (problem : Problem Fact) (vars : Nat) (stores : Node → Bool) (facts : Facts Fact)
    (node : Node) : Nat :=
  (2 * vars - (facts.input node).height vars) * (problem.nodes.length + 1) +
    problem.debt stores facts node

def potential (problem : Problem Fact) (vars : Nat) (stores : Node → Bool) (facts : Facts Fact) :
    Nat :=
  (problem.nodes.map (problem.room vars stores facts)).sum

/-- What a solver has left to do: visits that change something, and visits that only empty
the queue. -/
def remaining (problem : Problem Fact) (vars : Nat) (stores : Node → Bool)
    (progress : Progress Fact) : Nat :=
  problem.potential vars stores progress.facts * (problem.nodes.length + 1) + progress.queue.length

theorem cost_le (problem : Problem Fact) (stores : Node → Bool) (node : Node) :
    problem.cost stores node ≤ problem.nodes.length + 1 := by
  unfold cost
  split <;> omega

theorem debt_le (problem : Problem Fact) (stores : Node → Bool) (facts : Facts Fact) (node : Node) :
    problem.debt stores facts node ≤ problem.cost stores node := by
  unfold debt
  split <;> omega

theorem Lawful.debt_visited_self (h : problem.Lawful vars stores) :
    problem.debt stores (problem.visited facts node) node = 0 := by
  rw [debt, h.transfer_visited_self]
  simp [outflow]

theorem Lawful.room_visited_self_le (h : problem.Lawful vars stores)
    (horderly : problem.Orderly vars stores facts) :
    problem.room vars stores (problem.visited facts node) node ≤
      problem.room vars stores facts node := by
  have hheight : (facts.input node).height vars ≤ (problem.inflow facts node).height vars :=
    Fact.height_mono (h.inflow horderly node).2.1
  rw [room, room, h.debt_visited_self, input_visited, if_pos rfl]
  exact Nat.add_le_add (Nat.mul_le_mul_right _ (by omega)) (Nat.zero_le _)

/-- When something else flows out of a node, either the fact before it went up or the node
was not up to date. -/
theorem Lawful.room_visited_self_add_cost (h : problem.Lawful vars stores)
    (horderly : problem.Orderly vars stores facts)
    (hchanged : problem.outflow facts node ≠ facts.output node) :
    problem.room vars stores (problem.visited facts node) node + problem.cost stores node ≤
      problem.room vars stores facts node := by
  obtain ⟨htidy, hgrows, -⟩ := h.inflow horderly node
  rw [room, room, h.debt_visited_self, input_visited, if_pos rfl]
  by_cases hsame : problem.inflow facts node = facts.input node
  · have hdebt : problem.debt stores facts node = problem.cost stores node := by
      rw [debt, if_neg fun heq => hchanged ?_]
      rw [heq, outflow, hsame]
    rw [hsame, hdebt, Nat.add_zero]
  · have hheight : (facts.input node).height vars < (problem.inflow facts node).height vars := by
      refine Nat.lt_of_not_le fun hle => hsame ?_
      exact ((horderly.input_tidy node).eq_of_height htidy hgrows hle).symm
    have hbound := (problem.inflow facts node).height_le vars
    have hcost := problem.cost_le stores node
    have hroom : (2 * vars - (problem.inflow facts node).height vars + 1) *
          (problem.nodes.length + 1) ≤
        (2 * vars - (facts.input node).height vars) * (problem.nodes.length + 1) :=
      Nat.mul_le_mul_right _ (by omega)
    rw [Nat.succ_mul] at hroom
    omega

theorem Lawful.room_visited_of_unchanged (h : problem.Lawful vars stores)
    (horderly : problem.Orderly vars stores facts) (hnode : node ∈ problem.nodes)
    (hother : other ∈ problem.nodes) (hne : other ≠ node)
    (hcase : problem.outflow facts node = facts.output node ∨ stores node = false) :
    problem.room vars stores (problem.visited facts node) other =
      problem.room vars stores facts other := by
  simp only [room, debt, input_visited, output_visited, if_neg hne,
    h.transfer_visited horderly hnode hother (hcase.imp_right .inl)]

/-- A visit puts no store in debt, and any other node for one. -/
theorem Lawful.room_visited_le (h : problem.Lawful vars stores) (hne : other ≠ node) :
    problem.room vars stores (problem.visited facts node) other ≤
      problem.room vars stores facts other + 1 := by
  simp only [room, debt, input_visited, output_visited, if_neg hne]
  cases hstores : stores other with
  | true =>
    rw [h.passes other hstores, h.passes other hstores]
    omega
  | false =>
    have hcost : problem.cost stores other = 1 := by simp [cost, hstores]
    rw [hcost]
    split <;> omega

theorem sum_map_add_le {α : Type} {items : List α} {f g a b : α → Nat}
    (h : ∀ x ∈ items, g x + a x ≤ f x + b x) :
    (items.map g).sum + (items.map a).sum ≤ (items.map f).sum + (items.map b).sum := by
  rw [← List.sum_map_add, ← List.sum_map_add]
  exact List.sum_le_sum h

theorem le_sum_single (hnode : node ∈ problem.nodes) (amount : Nat) :
    amount ≤ (problem.nodes.map fun other => if other = node then amount else 0).sum :=
  List.single_le_sum (fun _ _ => Nat.zero_le _) _ (List.mem_map.mpr ⟨node, hnode, if_pos rfl⟩)

/-- A visit after which nothing else flows out of the node raises no potential. -/
theorem Lawful.potential_visited_le (h : problem.Lawful vars stores)
    (horderly : problem.Orderly vars stores facts) (hnode : node ∈ problem.nodes)
    (hsame : problem.outflow facts node = facts.output node) :
    problem.potential vars stores (problem.visited facts node) ≤
      problem.potential vars stores facts := by
  refine List.sum_le_sum fun other hother => ?_
  by_cases hother' : other = node
  · exact hother' ▸ h.room_visited_self_le horderly
  · exact (h.room_visited_of_unchanged horderly hnode hother hother' (.inl hsame)).le

/-- A visit after which something else flows out of the node lowers the potential. -/
theorem Lawful.potential_visited_lt (h : problem.Lawful vars stores)
    (horderly : problem.Orderly vars stores facts) (hnode : node ∈ problem.nodes)
    (hchanged : problem.outflow facts node ≠ facts.output node) :
    problem.potential vars stores (problem.visited facts node) <
      problem.potential vars stores facts := by
  let extra := if stores node then 1 else 0
  have hcost : problem.cost stores node = problem.nodes.length * extra + 1 := by
    cases hstores : stores node <;> simp [cost, extra, hstores]
  have hextra : (problem.nodes.map fun _ => extra).sum = problem.nodes.length * extra := by simp
  have hpaid := le_sum_single hnode (problem.cost stores node)
  have hsum : (problem.nodes.map (problem.room vars stores (problem.visited facts node))).sum +
        (problem.nodes.map fun other => if other = node then problem.cost stores node else 0).sum ≤
      (problem.nodes.map (problem.room vars stores facts)).sum +
        (problem.nodes.map fun _ => extra).sum := by
    refine sum_map_add_le fun other hother => ?_
    by_cases hother' : other = node
    · rw [if_pos hother', hother']
      exact (h.room_visited_self_add_cost horderly hchanged).trans (Nat.le_add_right _ _)
    · rw [if_neg hother', Nat.add_zero]
      cases hstores : stores node with
      | false =>
        rw [h.room_visited_of_unchanged horderly hnode hother hother' (.inr hstores)]
        exact Nat.le_add_right _ _
      | true => simpa [extra, hstores] using h.room_visited_le hother'
  unfold potential
  omega

/-- The solver lowers what it has left to do with every visit. -/
theorem Lawful.remaining_lt (h : problem.Lawful vars stores)
    (hinv : problem.Invariant vars stores progress) (hqueue : progress.queue = node :: rest)
    {next : Progress Fact} (hnext : problem.visit progress = .more next) :
    problem.remaining vars stores next < problem.remaining vars stores progress := by
  have hnode := hinv.queue_subset node (by simp [hqueue])
  have hinv' := h.invariant_visit hinv hqueue hnext
  obtain ⟨next', hnext', hfacts, hqueue'⟩ := hinv.orderly.visit hqueue hnode
  rw [hnext] at hnext'
  cases hnext'
  unfold remaining
  rw [hfacts, hqueue]
  by_cases hsame : problem.outflow progress.facts node = progress.facts.output node
  · have hle := h.potential_visited_le hinv.orderly hnode hsame
    rw [hqueue', if_pos hsame, List.length_cons]
    exact Nat.add_lt_add_of_le_of_lt (Nat.mul_le_mul_right _ hle) (Nat.lt_succ_self _)
  · have hlt := h.potential_visited_lt hinv.orderly hnode hsame
    have hlength : next.queue.length ≤ problem.nodes.length :=
      (List.subperm_of_subset hinv'.queue_nodup hinv'.queue_subset).length_le
    calc problem.potential vars stores (problem.visited progress.facts node) *
            (problem.nodes.length + 1) + next.queue.length
        < (problem.potential vars stores (problem.visited progress.facts node) + 1) *
            (problem.nodes.length + 1) := by
          rw [Nat.succ_mul]
          omega
      _ ≤ problem.potential vars stores progress.facts * (problem.nodes.length + 1) :=
          Nat.mul_le_mul_right _ hlt
      _ ≤ _ := Nat.le_add_right _ _

/-- The facts solve the equations. -/
structure Solution (problem : Problem Fact) (vars : Nat) (stores : Node → Bool)
    (facts : Facts Fact) : Prop extends problem.Orderly vars stores facts where
  settled : ∀ node ∈ problem.nodes, problem.Settled facts node

/-- More steps than a solver of these equations can make. -/
def limit (problem : Problem Fact) (vars : Nat) : Nat :=
  problem.nodes.length * ((2 * vars + 1) * (problem.nodes.length + 1)) *
    (problem.nodes.length + 1) + problem.nodes.length

theorem potential_le (problem : Problem Fact) (vars : Nat) (stores : Node → Bool)
    (facts : Facts Fact) : problem.potential vars stores facts ≤
      problem.nodes.length * ((2 * vars + 1) * (problem.nodes.length + 1)) := by
  have hroom : ∀ amount ∈ problem.nodes.map (problem.room vars stores facts),
      amount ≤ (2 * vars + 1) * (problem.nodes.length + 1) := by
    intro amount hamount
    obtain ⟨node, -, rfl⟩ := List.mem_map.mp hamount
    rw [room, Nat.add_mul, Nat.one_mul]
    refine Nat.add_le_add (Nat.mul_le_mul_right _ (Nat.sub_le _ _)) ?_
    exact (problem.debt_le stores facts node).trans (problem.cost_le stores node)
  have hsum := List.sum_le_card_nsmul _ _ hroom
  simpa [potential] using hsum

theorem remaining_start_le (problem : Problem Fact) (vars : Nat) (stores : Node → Bool) :
    problem.remaining vars stores problem.start ≤ problem.limit vars :=
  Nat.add_le_add_right (Nat.mul_le_mul_right _ (problem.potential_le vars stores _)) _

/-- Visit after visit, the queue runs empty, and then lawful equations are solved.  The solver
is never stopped before that when it is allowed enough visits. -/
theorem Lawful.exists_ends (h : problem.Lawful vars stores) {rounds : Nat}
    (hrounds : problem.limit vars + 1 < 2 ^ rounds) :
    ∃ count, Iteration.Ends problem.visit problem.start count (problem.solve rounds) ∧
      ((problem.solve rounds).queue = [] ∧
        problem.Solution vars stores (problem.solve rounds).facts) ∧
      count ≤ problem.limit vars := by
  have hmore : ∀ progress next, problem.Invariant vars stores progress →
      problem.visit progress = .more next → problem.Invariant vars stores next ∧
        problem.remaining vars stores next < problem.remaining vars stores progress := by
    intro progress next hinv hnext
    cases hqueue : progress.queue with
    | nil => simp [visit, hqueue] at hnext
    | cons node rest =>
      exact ⟨h.invariant_visit hinv hqueue hnext, h.remaining_lt hinv hqueue hnext⟩
  have hdone : ∀ progress final, problem.Invariant vars stores progress →
      problem.visit progress = .done final →
        final.queue = [] ∧ problem.Solution vars stores final.facts := by
    intro progress final hinv hdone
    cases hqueue : progress.queue with
    | nil =>
      simp only [visit, hqueue, Iteration.Turn.done.injEq] at hdone
      subst hdone
      exact ⟨hqueue, hinv.orderly,
        fun node hnode => hinv.settled node hnode (by simp [hqueue])⟩
    | cons node rest => simp [visit, hqueue] at hdone
  have hstart := problem.remaining_start_le vars stores
  obtain ⟨count, hends, hfinal, hcount⟩ :=
    Iteration.exists_ends hmore hdone h.invariant_start (Nat.lt_of_le_of_lt (by omega) hrounds)
  exact ⟨count, hends, hfinal, hcount.trans hstart⟩

end ObjectFlow.Dataflow.Interprocedural.Problem

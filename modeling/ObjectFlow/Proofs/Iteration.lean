import ObjectFlow.Iteration
import Mathlib.Tactic.Ring

/-!
# Loops that end in time

`settle` gives up after a bounded number of steps.  A loop whose step keeps an
invariant and lowers a measure never gets that far, as long as the measure of its
start is below the number of steps that the bound allows.  `Steps` is the same loop
without a bound: it then comes to its end by itself, and `settle` gives what it ends
with.  These are the only facts about `settle` that the rest of the library needs.
-/

namespace ObjectFlow.Iteration

variable {σ ε : Type} {Inv Final : σ → Prop} {measure : σ → Nat}

section Total

variable {step : σ → Turn σ}

/-- A burst of `2 ^ n` steps ends the loop or uses up `2 ^ n` of the measure. -/
theorem burst_progress
    (hmore : ∀ s t, Inv s → step s = .more t → Inv t ∧ measure t < measure s)
    (hdone : ∀ s t, Inv s → step s = .done t → Final t) (n : Nat) {s : σ} (hs : Inv s) :
    (∃ t, burst step n s = .done t ∧ Final t) ∨
      ∃ t, burst step n s = .more t ∧ Inv t ∧ measure t + 2 ^ n ≤ measure s := by
  induction n generalizing s with
  | zero =>
    cases hturn : step s with
    | done t => exact .inl ⟨t, by rw [burst, hturn], hdone s t hs hturn⟩
    | more t =>
      obtain ⟨ht, hlt⟩ := hmore s t hs hturn
      exact .inr ⟨t, by rw [burst, hturn], ht, hlt⟩
  | succ n ih =>
    rcases ih hs with ⟨t, hburst, hfinal⟩ | ⟨t, hburst, ht, hle⟩
    · exact .inl ⟨t, by rw [burst, hburst], hfinal⟩
    · rcases ih ht with ⟨u, hburst', hfinal⟩ | ⟨u, hburst', hu, hle'⟩
      · exact .inl ⟨u, by simp [burst, hburst, hburst'], hfinal⟩
      · refine .inr ⟨u, by simp [burst, hburst, hburst'], hu, ?_⟩
        rw [pow_succ]
        omega

theorem bursts_final
    (hmore : ∀ s t, Inv s → step s = .more t → Inv t ∧ measure t < measure s)
    (hdone : ∀ s t, Inv s → step s = .done t → Final t) (rounds n : Nat) {s : σ} (hs : Inv s)
    (hbound : measure s + 2 ^ n < 2 ^ (n + rounds)) :
    ∃ t, bursts step rounds n s = .done t ∧ Final t := by
  induction rounds generalizing n s with
  | zero => simp at hbound
  | succ rounds ih =>
    rcases burst_progress hmore hdone n hs with ⟨t, hburst, hfinal⟩ | ⟨t, hburst, ht, hle⟩
    · exact ⟨t, by simp [bursts, hburst], hfinal⟩
    · have hrest : measure t + 2 ^ (n + 1) < 2 ^ (n + 1 + rounds) := by
        have hsame : n + 1 + rounds = n + (rounds + 1) := by ring
        rw [hsame, pow_succ]
        omega
      obtain ⟨u, hbursts, hfinal⟩ := ih (n + 1) ht hrest
      exact ⟨u, by simp [bursts, hburst, hbursts], hfinal⟩

/-- A loop that lowers a measure ends in a final state. -/
theorem settle_final
    (hmore : ∀ s t, Inv s → step s = .more t → Inv t ∧ measure t < measure s)
    (hdone : ∀ s t, Inv s → step s = .done t → Final t) {rounds : Nat} {s : σ} (hs : Inv s)
    (hbound : measure s + 1 < 2 ^ rounds) : Final (settle step rounds s) := by
  have hstart : measure s + 2 ^ 0 < 2 ^ (0 + rounds) := by simpa using hbound
  obtain ⟨t, hbursts, hfinal⟩ := bursts_final hmore hdone rounds 0 hs hstart
  rw [settle, hbursts]
  exact hfinal

/-- What every step keeps, a loop keeps, however many steps it makes. -/
theorem settle_keeps (hstep : ∀ s, Inv s → Inv (step s).state) (rounds : Nat) {s : σ}
    (hs : Inv s) : Inv (settle step rounds s) := by
  have hburst : ∀ n {s}, Inv s → Inv (burst step n s).state := by
    intro n
    induction n with
    | zero => exact fun hs => hstep _ hs
    | succ n ih =>
      intro s hs
      have hfirst := ih hs
      unfold burst
      split
      · next hdone => rwa [hdone] at hfirst
      · next hmore =>
        rw [hmore] at hfirst
        exact ih hfirst
  have hbursts : ∀ rounds n {s}, Inv s → Inv (bursts step rounds n s).state := by
    intro rounds
    induction rounds with
    | zero => exact fun _ _ hs => hs
    | succ rounds ih =>
      intro n s hs
      have hfirst := hburst n hs
      unfold bursts
      split
      · next hdone => rwa [hdone] at hfirst
      · next hmore =>
        rw [hmore] at hfirst
        exact ih (n + 1) hfirst
  exact hbursts rounds 0 hs

end Total

section Unbounded

/-- `Steps step s count t`: the loop goes from `s` to `t` in `count` steps, with no bound on
them. -/
inductive Steps (step : σ → Turn σ) (s : σ) : Nat → σ → Prop where
  | refl : Steps step s 0 s
  | more {count : Nat} {t u : σ} (hsteps : Steps step s count t) (hmore : step t = .more u) :
    Steps step s (count + 1) u

/-- The loop from `s`, with no bound on its steps, is over after `count` of them and leaves
`final`.  No run of the loop is longer. -/
structure Ends (step : σ → Turn σ) (s : σ) (count : Nat) (final : σ) : Prop where
  last : ∃ t, Steps step s count t ∧ step t = .done final
  longest : ∀ {count' : Nat} {u : σ}, Steps step s count' u → count' ≤ count

variable {step : σ → Turn σ} {s t u : σ} {count count' : Nat}

theorem Steps.unique (h : Steps step s count t) (h' : Steps step s count u) : t = u := by
  induction h generalizing u with
  | refl => cases h'; rfl
  | more _ hmore ih =>
    cases h' with
    | more hsteps' hmore' =>
      cases ih hsteps'
      rw [hmore] at hmore'
      cases hmore'
      rfl

/-- A run goes on from the first state that a step leads to. -/
theorem Steps.head (hmore : step s = .more t) (h : Steps step t count u) :
    Steps step s (count + 1) u := by
  induction h with
  | refl => exact .more .refl hmore
  | more _ hlast ih => exact .more ih hlast

/-- No run is longer than one after which the loop is over. -/
theorem Steps.count_le (h : Steps step s count t) (hlast : Steps step s count' u) {final : σ}
    (hdone : step u = .done final) : count ≤ count' := by
  induction h with
  | refl => exact Nat.zero_le count'
  | more hsteps hmore ih =>
    refine Nat.lt_of_le_of_ne ih ?_
    rintro rfl
    cases hsteps.unique hlast
    rw [hdone] at hmore
    cases hmore

/-- Every step of a run uses up some of the measure. -/
theorem Steps.measure_add_le
    (hmore : ∀ s t, Inv s → step s = .more t → Inv t ∧ measure t < measure s)
    (h : Steps step s count t) (hs : Inv s) : Inv t ∧ measure t + count ≤ measure s := by
  induction h with
  | refl => exact ⟨hs, Nat.le_refl _⟩
  | more _ hturn ih =>
    obtain ⟨ht, hle⟩ := ih
    obtain ⟨hu, hlt⟩ := hmore _ _ ht hturn
    exact ⟨hu, by omega⟩

/-- A loop that lowers a measure comes to its end by itself, after no more steps than the
measure of its start, and `settle` gives what it ends with. -/
theorem exists_ends (hmore : ∀ s t, Inv s → step s = .more t → Inv t ∧ measure t < measure s)
    (hdone : ∀ s t, Inv s → step s = .done t → Final t) {rounds : Nat} (hs : Inv s)
    (hbound : measure s + 1 < 2 ^ rounds) :
    ∃ count, Ends step s count (settle step rounds s) ∧ Final (settle step rounds s) ∧
      count ≤ measure s := by
  have hlast : (∃ count t, Steps step s count t ∧ step t = .done (settle step rounds s)) ∧
      Final (settle step rounds s) := by
    refine @settle_final _ (fun t => Inv t ∧ ∃ count, Steps step s count t)
      (fun final => (∃ count t, Steps step s count t ∧ step t = .done final) ∧ Final final)
      measure step ?_ ?_ rounds s ⟨hs, 0, .refl⟩ hbound
    · rintro t u ⟨ht, count, hsteps⟩ hturn
      obtain ⟨hu, hlt⟩ := hmore t u ht hturn
      exact ⟨⟨hu, count + 1, hsteps.more hturn⟩, hlt⟩
    · rintro t final ⟨ht, count, hsteps⟩ hturn
      exact ⟨⟨count, t, hsteps, hturn⟩, hdone t final ht hturn⟩
  obtain ⟨⟨count, t, hsteps, hturn⟩, hfinal⟩ := hlast
  have hmeasure := (hsteps.measure_add_le hmore hs).2
  exact ⟨count, ⟨⟨t, hsteps, hturn⟩, fun h => h.count_le hsteps hturn⟩, hfinal, by omega⟩

end Unbounded

section Partial

variable {step : σ → Except ε (Turn σ)}

/-- What a step that cannot fail gives: a final state, or a state with the invariant
and a lower measure. -/
def Advances (step : σ → Except ε (Turn σ)) (Inv Final : σ → Prop) (measure : σ → Nat) : Prop :=
  ∀ s, Inv s →
    (∃ t, step s = .ok (.done t) ∧ Final t) ∨
      ∃ t, step s = .ok (.more t) ∧ Inv t ∧ measure t < measure s

/-- A loop that lowers a measure and cannot fail comes to its end by itself, and `settleExcept`
gives what it ends with. -/
theorem Advances.exists_ends (hadvances : Advances step Inv Final measure) {rounds : Nat} {s : σ}
    (hs : Inv s) (hbound : measure s + 1 < 2 ^ rounds) :
    ∃ count t, Ends (attempt step) (.ok s) count (.ok t) ∧
      settleExcept step rounds s = .ok t ∧ Final t := by
  let height : Except ε σ → Nat := fun
    | .ok s => measure s
    | .error _ => 0
  let Sound : Except ε σ → Prop := fun r => ∃ s, r = .ok s ∧ Inv s
  let Ended : Except ε σ → Prop := fun r => ∃ t, r = .ok t ∧ Final t
  have hmore : ∀ r u, Sound r → attempt step r = .more u → Sound u ∧ height u < height r := by
    rintro _ u ⟨s, rfl, hs⟩ hturn
    rcases hadvances s hs with ⟨t, hstep, -⟩ | ⟨t, hstep, ht, hlt⟩
    · simp [attempt, hstep, Turn.map] at hturn
    · simp only [attempt, hstep, Turn.map, Turn.more.injEq] at hturn
      subst hturn
      exact ⟨⟨t, rfl, ht⟩, hlt⟩
  have hdone : ∀ r u, Sound r → attempt step r = .done u → Ended u := by
    rintro _ u ⟨s, rfl, hs⟩ hturn
    rcases hadvances s hs with ⟨t, hstep, hfinal⟩ | ⟨t, hstep, -, -⟩
    · simp only [attempt, hstep, Turn.map, Turn.done.injEq] at hturn
      exact ⟨t, hturn.symm, hfinal⟩
    · simp [attempt, hstep, Turn.map] at hturn
  have hstart : Sound (.ok s) := ⟨s, rfl, hs⟩
  obtain ⟨count, hends, ⟨t, ht, hfinal⟩, -⟩ := Iteration.exists_ends hmore hdone hstart hbound
  exact ⟨count, t, ht ▸ hends, ht, hfinal⟩

/-- A loop that lowers a measure and cannot fail ends in a final state. -/
theorem settleExcept_final (hadvances : Advances step Inv Final measure) {rounds : Nat} {s : σ}
    (hs : Inv s) (hbound : measure s + 1 < 2 ^ rounds) :
    ∃ t, settleExcept step rounds s = .ok t ∧ Final t := by
  obtain ⟨_, t, -, hsettle, hfinal⟩ := hadvances.exists_ends hs hbound
  exact ⟨t, hsettle, hfinal⟩

/-- A loop that is over at once changes nothing. -/
theorem settleExcept_of_done {rounds : Nat} {s t : σ} (h : step s = .ok (.done t)) :
    settleExcept step (rounds + 1) s = .ok t := by
  simp [settleExcept, settle, bursts, burst, attempt, h, Turn.map, Turn.state]

end Partial

section Walk

/-!
A walk over a graph visits new nodes, whose `fan` successors at most it queues, and drops nodes
that it saw before.  `(total - seen) * (fan + 1) + queue` goes down with every step.
-/

theorem remaining_lt_of_visit {total seen fan : Nat} (hseen : seen < total) {added : Nat}
    (hadded : added ≤ fan) (queue : Nat) :
    (total - (seen + 1)) * (fan + 1) + (queue + added) <
      (total - seen) * (fan + 1) + (queue + 1) := by
  have hleft : total - seen = total - (seen + 1) + 1 := by omega
  rw [hleft, Nat.succ_mul]
  omega

theorem remaining_lt_rounds (total fan : Nat) :
    total * (fan + 1) + 1 + 1 < 2 ^ (total + fan + 2) := by
  have htotal : total ≤ 2 ^ total := Nat.lt_two_pow_self.le
  have hfan : fan + 1 ≤ 2 ^ fan := Nat.lt_two_pow_self
  have hproduct : total * (fan + 1) ≤ 2 ^ total * 2 ^ fan := Nat.mul_le_mul htotal hfan
  have hpos : 0 < 2 ^ total * 2 ^ fan :=
    Nat.mul_pos (Nat.two_pow_pos total) (Nat.two_pow_pos fan)
  calc total * (fan + 1) + 1 + 1
      < 2 ^ total * 2 ^ fan * 4 := by omega
    _ = 2 ^ (total + fan + 2) := by ring

end Walk

end ObjectFlow.Iteration

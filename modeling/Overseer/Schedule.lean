import Overseer.Session

/-!
One schedule of a monitor and its workers on a single thread: the loop runs until it waits, then
each worker in turn empties its queue, and so on.  `turn_lt`: the loop on its own always comes to
wait.  Together with workers that fail on their own failure events it need not, so `settle` has a
bound on its rounds.
-/

namespace Overseer

def Phase.rank : Phase → Nat
  | .running => 2
  | .leaving => 1
  | .finished => 0

namespace Monitor

theorem process_inputs (m : Monitor) (input : Input) :
    (m.process input).1.inputs = m.inputs ∧ (m.process input).1.phase = m.phase := by
  cases input with
  | config text => exact ⟨rfl, rfl⟩
  | report label bytes =>
    simp only [process, handle, handleReport]
    split
    · exact ⟨rfl, rfl⟩
    · split <;> exact ⟨rfl, rfl⟩

/-- What bounds the rounds of the loop: the phases to come, the queued inputs, the backlog of events
and the loss that the monitor has yet to hear of. -/
def remaining (m : Monitor) : Nat × Nat × Nat × Nat :=
  (m.phase.rank, m.inputs.length, m.backlog, m.missed)

def Shorter : Nat × Nat × Nat × Nat → Nat × Nat × Nat × Nat → Prop :=
  Prod.Lex (· < ·) (Prod.Lex (· < ·) (Prod.Lex (· < ·) (· < ·)))

theorem turn_lt {m n : Monitor} {output : List Output} (h : m.turn = some (n, output)) :
    Shorter n.remaining m.remaining := by
  unfold turn at h
  split at h
  · rename_i hphase
    have hleave : ∀ k : Monitor, Shorter k.leave.1.remaining m.remaining := by
      intro k
      refine Prod.Lex.left _ _ ?_
      rw [hphase]
      exact Nat.lt_succ_self 1
    split at h
    · simp at h
      have hl := hleave m
      rw [h] at hl
      exact hl
    split at h
    · simp at h
      rw [← h.1]
      exact hleave _
    split at h
    · rename_i next hf
      simp at h
      rw [h] at hf
      obtain ⟨hinputs, hph, hlt⟩ := forward_lt hf
      unfold remaining
      rw [hinputs, hph]
      refine Prod.Lex.right _ (Prod.Lex.right _ ?_)
      obtain hlt | ⟨heq, hlt⟩ := hlt
      · exact Prod.Lex.left _ _ hlt
      · rw [heq]
        exact Prod.Lex.right _ hlt
    split at h
    · rename_i input inputs hin
      simp at h
      obtain ⟨hi, hp⟩ := process_inputs { m with inputs } input
      rw [h] at hi hp
      unfold remaining
      rw [hp, hi, hin]
      exact Prod.Lex.right _ (Prod.Lex.left _ _ (Nat.lt_succ_self _))
    · split at h
      · simp at h
        have hl := hleave m
        rw [h] at hl
        exact hl
      · simp at h
  · rename_i hphase
    split at h
    · simp at h
      refine Prod.Lex.left _ _ ?_
      rw [← h.1, hphase]
      exact Nat.lt_succ_self 0
    · simp at h
  · simp at h

/-- Let the loop run until it waits. -/
def run (m : Monitor) : Monitor × List Output :=
  match _h : m.turn with
  | none => (m, [])
  | some (n, output) =>
    let (n, rest) := n.run
    (n, output ++ rest)
termination_by m.remaining
decreasing_by exact turn_lt _h

/-- Let the workers run until their queues are empty. -/
def work (m : Monitor) : Monitor × List Output :=
  let (fanOut, output) := m.fanOut.work
  ({ m with fanOut }, output)

/-- Let loop and workers run until none can go on, for at most so many rounds. -/
def settle : Nat → Monitor → Monitor × List Output
  | 0, m => (m, [])
  | rounds + 1, m =>
    let (m, output) := m.run
    if m.fanOut.isIdle then (m, output)
    else
      let (m, worked) := m.work
      let (m, rest) := settle rounds m
      (m, output ++ worked ++ rest)

/-- Queue an input, waiting for a place if there is none. -/
def submitWaiting (rounds : Nat) (m : Monitor) (input : Input) :
    Except SubmitError Unit × Monitor × List Output :=
  let (m, output) := if m.isFull then m.settle rounds else (m, [])
  match m.submit input with
  | .ok m => (.ok (), m, output)
  | .error e => (.error e, m, output)

end Monitor

end Overseer

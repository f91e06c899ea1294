import Overseer.Effect
import Overseer.Markup.Draft

/-!
Reporters write a report into a buffer of limited size.  A report that does not fit is written again
from the start into a buffer twice as large, which the reporter keeps.  The largest buffer holds
every text.
-/

namespace Overseer

open Markup (Draft Instr Note Writer openNode closeNode runDraft)

structure Reporter where
  name : String
  root : String
  bufferSize : Nat
  bufferSize_pos : 0 < bufferSize
  deriving DecidableEq

namespace Reporter

/-- A buffer has at least one byte. -/
def new (name root : String) (bufferSize : Nat) : Reporter :=
  ⟨name, root, max 1 bufferSize, by omega⟩

/-- The reporter with a buffer twice as large, up to the largest amount. -/
def grow (r : Reporter) : Reporter :=
  { r with
    bufferSize := Amount.mul r.bufferSize 2
    bufferSize_pos := by
      have := r.bufferSize_pos
      simp only [Amount.mul, Amount.clamp, Amount.limit]
      omega }

/-- The room in the buffer.  Lengths of texts are amounts, so none passes the largest one. -/
def room (r : Reporter) : Option Nat :=
  if r.bufferSize < Amount.limit then some r.bufferSize else none

/-- One attempt at a report.  There are no notes if already the root tag did not fit. -/
structure Attempt where
  outcome : Except Markup.Error String
  notes : Option (List Note)

def attempt (r : Reporter) (draft : Draft) : Attempt :=
  match (openNode r.root) (.new r.room) with
  | .error e _ => ⟨.error e, none⟩
  | .ok _ w =>
    match (do runDraft draft; closeNode r.root : Markup.WriteM Unit) w with
    | .error e w => ⟨.error e, some w.notes⟩
    | .ok _ w => ⟨.ok w.text, some w.notes⟩

/-- A finished report: how often the draft was carried out, or why it has none, and the notes of
each time. -/
structure Generation where
  reporter : Reporter
  result : Except Markup.Error Nat
  effects : List Effect
  notes : List (List Note)

/-- A report that is too long is written again, which ends with the largest buffer at the latest. -/
def generate (r : Reporter) (draft : Draft) : Generation :=
  let a := r.attempt draft
  let notes := a.notes.toList
  match a.outcome with
  | .ok text => ⟨r, .ok notes.length, [.write r.name text], notes⟩
  | .error (.bufferExceeded limit) =>
    if _h : r.bufferSize < Amount.limit then
      let next := generate r.grow draft
      let name := r.name
      let size := r.grow.bufferSize
      { reporter := next.reporter
        result := next.result.map (· + notes.length)
        effects := .debug s!"report '{name}' exceeded {limit} bytes, retrying with {size}" ::
          next.effects
        notes := notes ++ next.notes }
    else ⟨r, .error (.bufferExceeded limit), [], notes⟩
  | .error e => ⟨r, .error e, [], notes⟩
termination_by Amount.limit - r.bufferSize
decreasing_by
  have := r.bufferSize_pos
  simp only [grow, Amount.mul, Amount.clamp, Amount.limit] at *
  omega

/-- Complete markup goes out unchanged. -/
def writeRaw (r : Reporter) (source : String) : List Effect := [.write r.name source]

end Reporter

end Overseer

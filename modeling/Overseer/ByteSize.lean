import Overseer.Amount
import Overseer.Text.Blank

/-!
Byte sizes in text: an amount with an optional unit `K`, `M` or `G`.  `unit?_largest` says which unit
a size is written with.
-/

namespace Overseer.ByteSize

def kibi : Nat := 1024
def mebi : Nat := 1024 * kibi
def gibi : Nat := 1024 * mebi

/-- What a unit letter at the end multiplies by. -/
def factor? : Char → Option Nat
  | 'K' => some kibi
  | 'M' => some mebi
  | 'G' => some gibi
  | _ => none

/-- Read a trimmed amount with at most one unit letter; the product stops at the largest amount. -/
def parse (text : List Char) : Except NumeralError Nat :=
  let text := Text.trimChars text
  match text.getLast?.bind factor? with
  | some factor => (Amount.parse text.dropLast).map (Amount.mul · factor)
  | none => Amount.parse text

/-- The units a size is written with, the largest first. -/
def units : List (Nat × String) := [(gibi, "G"), (mebi, "M"), (kibi, "K")]

/-- The largest unit that divides a size; nothing divides zero for this purpose. -/
def unit? (n : Nat) : Option (Nat × String) :=
  if n = 0 then none else units.find? fun unit => n % unit.1 == 0

/-- The shortest exact text of a size. -/
def render (n : Nat) : String :=
  match unit? n with
  | some (factor, letter) => toString (n / factor) ++ letter
  | none => toString n

/-- Whole mebibytes in a size. -/
def toMebi (n : Nat) : Nat := n / mebi

/-- No larger unit than the chosen one divides the size. -/
theorem unit?_largest {n factor : Nat} {letter : String} (h : unit? n = some (factor, letter)) :
    n % factor = 0 ∧ ∀ u ∈ units, factor < u.1 → n % u.1 ≠ 0 := by
  have hsizes : gibi = 1073741824 ∧ mebi = 1048576 ∧ kibi = 1024 := ⟨rfl, rfl, rfl⟩
  obtain ⟨hg, hm, hk⟩ := hsizes
  unfold unit? at h
  simp only [units, List.find?_cons, List.find?_nil, List.forall_mem_cons] at h ⊢
  refine ⟨?_, ?_, ?_, ?_, by simp⟩ <;> (repeat' split at h) <;> simp_all <;> omega

end Overseer.ByteSize

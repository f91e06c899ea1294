/-!
Amounts: natural numbers up to `2 ^ 64 - 1`.  Sums and products of quantities stop at that bound,
differences at zero, and a numeral beyond the bound is refused.  Sums of versions begin again at
zero (`wrap`).
-/

namespace Overseer

namespace Amount

/-- The largest amount. -/
def limit : Nat := 0xFFFFFFFFFFFFFFFF

/-- Cut a number down to the largest amount. -/
def clamp (n : Nat) : Nat := min n limit

def add (a b : Nat) : Nat := clamp (a + b)

def mul (a b : Nat) : Nat := clamp (a * b)

/-- The sum of a list, cut down after every addition. -/
def sum (as : List Nat) : Nat := as.foldl add 0

/-- Leave out what is above the lowest 64 bits of a number. -/
def wrap (n : Nat) : Nat := n % (limit + 1)

theorem clamp_le (n : Nat) : clamp n ≤ limit := Nat.min_le_right _ _

theorem clamp_of_le {n : Nat} (h : n ≤ limit) : clamp n = n := Nat.min_eq_left h

theorem add_clamp (a b : Nat) : add (clamp a) b = clamp (a + b) := by
  simp only [add, clamp]; omega

theorem wrap_le (n : Nat) : wrap n ≤ limit := Nat.le_of_lt_succ (Nat.mod_lt n (Nat.succ_pos limit))

theorem wrap_of_le {n : Nat} (h : n ≤ limit) : wrap n = n := Nat.mod_eq_of_lt (Nat.lt_succ_of_le h)

end Amount

/-! ## Numerals -/

/-- Why a text is not a numeral. -/
inductive NumeralError where
  | empty
  | invalidDigit
  | overflow
  deriving DecidableEq, Repr

def NumeralError.message : NumeralError → String
  | .empty => "cannot parse integer from empty string"
  | .invalidDigit => "invalid digit found in string"
  | .overflow => "number too large to fit in target type"

namespace Numeral

/-- The value of an ASCII digit in a base up to sixteen. -/
def digit? (base : Nat) (c : Char) : Option Nat :=
  let n := c.toNat
  let value :=
    if '0' ≤ c && c ≤ '9' then some (n - 48)
    else if 'a' ≤ c && c ≤ 'f' then some (n - 87)
    else if 'A' ≤ c && c ≤ 'F' then some (n - 55)
    else none
  value.filter (· < base)

/-- Read digits from the left onto `acc`; the first one that is no digit or passes the bound
decides the error. -/
def readDigits (base bound : Nat) : Nat → List Char → Except NumeralError Nat
  | acc, [] => .ok acc
  | acc, c :: r =>
    match digit? base c with
    | none => .error .invalidDigit
    | some d => if acc * base + d ≤ bound then readDigits base bound (acc * base + d) r
        else .error .overflow

/-- An optional `+`, then at least one digit. -/
def read (base bound : Nat) : List Char → Except NumeralError Nat
  | [] => .error .empty
  | ['+'] => .error .invalidDigit
  | '+' :: r => readDigits base bound 0 r
  | s => readDigits base bound 0 s

end Numeral

/-- Read an amount in decimal. -/
def Amount.parse (s : List Char) : Except NumeralError Nat := Numeral.read 10 limit s

end Overseer

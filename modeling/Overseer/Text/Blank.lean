/-!
White space as Unicode has it, and trimming it from both ends of a text.  `trimChars_eq_self` says
when trimming changes nothing.
-/

namespace Overseer.Text

/-- The characters of the Unicode property `White_Space`. -/
def isWhiteSpace (c : Char) : Bool :=
  let n := c.toNat
  (0x9 ≤ n && n ≤ 0xD) || n == 0x20 || n == 0x85 || n == 0xA0 || n == 0x1680 ||
    (0x2000 ≤ n && n ≤ 0x200A) || n == 0x2028 || n == 0x2029 || n == 0x202F || n == 0x205F ||
    n == 0x3000

/-- Drop the characters that satisfy `p` from the end. -/
def dropEndWhile (p : Char → Bool) (s : List Char) : List Char :=
  (s.reverse.dropWhile p).reverse

/-- Drop white space from both ends. -/
def trimChars (s : List Char) : List Char :=
  dropEndWhile isWhiteSpace (s.dropWhile isWhiteSpace)

def trim (s : String) : String := String.ofList (trimChars s.toList)

theorem dropEndWhile_eq_self (p : Char → Bool) (s : List Char)
    (h : ∀ c, s.getLast? = some c → p c = false) : dropEndWhile p s = s := by
  unfold dropEndWhile
  cases hr : s.reverse with
  | nil => simpa using hr.symm
  | cons c r =>
    have hc : p c = false := h c (by rw [List.getLast?_eq_head?_reverse, hr]; rfl)
    rw [List.dropWhile_cons_of_neg (by simp [hc]), ← hr, List.reverse_reverse]

/-- Characters with no white space at either end are their own trimming. -/
theorem trimChars_eq_self (s : List Char) (hfirst : ∀ c, s.head? = some c → isWhiteSpace c = false)
    (hlast : ∀ c, s.getLast? = some c → isWhiteSpace c = false) : trimChars s = s := by
  have hdrop : s.dropWhile isWhiteSpace = s := by
    cases s with
    | nil => rfl
    | cons c r => exact List.dropWhile_cons_of_neg (by simp [hfirst c rfl])
  rw [trimChars, hdrop, dropEndWhile_eq_self _ _ hlast]

end Overseer.Text

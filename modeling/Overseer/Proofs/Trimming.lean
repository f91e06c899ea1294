import Mathlib.Data.List.TakeWhile
import Overseer.Text.Blank

/-!
Trimming cuts a text into white space, its trimming and white space, and the trimming is the only
part of it that stands so and has no white space at its ends (`Text.trimChars_eq_iff`).
-/

namespace Overseer.Text

variable {s t : List Char}

/-- No white space at either end. -/
structure Trimmed (s : List Char) : Prop where
  first : ∀ c, s.head? = some c → isWhiteSpace c = false
  last : ∀ c, s.getLast? = some c → isWhiteSpace c = false

/-- White space only, if anything at all. -/
def AllWhite (s : List Char) : Prop := ∀ c ∈ s, isWhiteSpace c = true

theorem ne_of_isWhiteSpace {c d : Char} (hc : isWhiteSpace c = true)
    (hd : isWhiteSpace d = false) : c ≠ d := by
  rintro rfl
  exact Bool.false_ne_true (hd.symm.trans hc)

theorem head?_dropWhile_false {p : Char → Bool} {s : List Char} :
    ∀ c, (s.dropWhile p).head? = some c → p c = false := by
  intro c hc
  have h := List.head?_dropWhile_not p s
  rw [hc] at h
  simpa using h

/-- What trimming takes from the end. -/
def ending (s : List Char) : List Char := (s.reverse.takeWhile isWhiteSpace).reverse

theorem dropEndWhile_append_ending (s : List Char) :
    dropEndWhile isWhiteSpace s ++ ending s = s := by
  rw [dropEndWhile, ending, ← List.reverse_append, List.takeWhile_append_dropWhile,
    List.reverse_reverse]

theorem trimmed_trimChars (s : List Char) : Trimmed (trimChars s) where
  first c hc := by
    refine head?_dropWhile_false (s := s) c ?_
    rw [← dropEndWhile_append_ending (s.dropWhile isWhiteSpace), List.head?_append]
    rw [trimChars] at hc
    rw [hc, Option.some_or]
  last c hc := by
    rw [trimChars, dropEndWhile, List.getLast?_reverse] at hc
    exact head?_dropWhile_false c hc

theorem exists_trimChars (s : List Char) :
    ∃ before after, s = before ++ trimChars s ++ after ∧ AllWhite before ∧ AllWhite after := by
  refine ⟨s.takeWhile isWhiteSpace, ending (s.dropWhile isWhiteSpace), ?_, ?_, ?_⟩
  · rw [List.append_assoc, trimChars, dropEndWhile_append_ending, List.takeWhile_append_dropWhile]
  · exact fun c hc => List.mem_takeWhile_imp hc
  · exact fun c hc => List.mem_takeWhile_imp (List.mem_reverse.mp hc)

theorem dropEndWhile_append {before after : List Char} (hafter : AllWhite after) :
    dropEndWhile isWhiteSpace (before ++ after) = dropEndWhile isWhiteSpace before := by
  rw [dropEndWhile, List.reverse_append,
    List.dropWhile_append_of_pos fun c hc => hafter c (List.mem_reverse.mp hc), ← dropEndWhile]

theorem trimChars_eq_nil_iff : trimChars s = [] ↔ AllWhite s := by
  constructor
  · intro h c hc
    obtain ⟨before, after, hs, hbefore, hafter⟩ := exists_trimChars s
    rw [hs, h, List.append_nil, List.mem_append] at hc
    exact hc.elim (hbefore c) (hafter c)
  · intro h
    rw [trimChars, List.dropWhile_eq_nil_iff.mpr h]
    rfl

theorem trimChars_padded {before after : List Char} (ht : Trimmed t) (hbefore : AllWhite before)
    (hafter : AllWhite after) : trimChars (before ++ t ++ after) = t := by
  cases t with
  | nil =>
    rw [trimChars_eq_nil_iff, List.append_nil]
    exact fun c hc => (List.mem_append.mp hc).elim (hbefore c) (hafter c)
  | cons c r =>
    have hc : isWhiteSpace c = false := ht.first c rfl
    rw [trimChars, List.append_assoc, List.dropWhile_append_of_pos hbefore, List.cons_append,
      List.dropWhile_cons_of_neg (by rw [hc]; decide), ← List.cons_append,
      dropEndWhile_append hafter, dropEndWhile_eq_self _ _ ht.last]

theorem trimmed_iff : Trimmed s ↔ trimChars s = s := by
  refine ⟨fun h => trimChars_eq_self s h.first h.last, fun h => ?_⟩
  rw [← h]
  exact trimmed_trimChars s

instance (s : List Char) : Decidable (Trimmed s) := decidable_of_iff _ trimmed_iff.symm

theorem trimChars_eq_iff : trimChars s = t ↔
    Trimmed t ∧ ∃ before after, s = before ++ t ++ after ∧ AllWhite before ∧ AllWhite after := by
  constructor
  · rintro rfl
    exact ⟨trimmed_trimChars s, exists_trimChars s⟩
  · rintro ⟨ht, before, after, rfl, hbefore, hafter⟩
    exact trimChars_padded ht hbefore hafter

end Overseer.Text

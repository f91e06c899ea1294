import Mathlib.Data.List.Basic
import Overseer.Proofs.Digits

/-!
Sizes in text.  A size is cut before its unit (`Cut`), and what stands in front of the unit is read
as an amount.  So the texts that are sizes are those of a sign, digits and a unit, every other text
is refused as the amount in it is, and a size is written with the largest unit that divides it
(`read_and_written`).
-/

namespace Overseer.ByteSize

/-- What a size can end with, and the bytes that it is counted in then. -/
def endings : List (List Char × Nat) :=
  [([], 1), (['K'], 1024), (['M'], 1024 * 1024), (['G'], 1024 * 1024 * 1024)]

/-- A text is cut before its unit, the longest ending that it has. -/
structure Cut (text amount : List Char) (unit : List Char × Nat) : Prop where
  unit_mem : unit ∈ endings
  text_eq : text = amount ++ unit.1
  longest : ∀ other ∈ endings, other.1 <:+ text → other.1.length ≤ unit.1.length

variable {s text amount : List Char} {unit : List Char × Nat} {n : Nat}

/-! ## Reading -/

theorem factor?_eq_some_iff {c : Char} {factor : Nat} :
    factor? c = some factor ↔ ([c], factor) ∈ endings := by
  have hsizes : kibi = 1024 ∧ mebi = 1024 * 1024 ∧ gibi = 1024 * 1024 * 1024 := ⟨rfl, rfl, rfl⟩
  obtain ⟨hk, hm, hg⟩ := hsizes
  unfold factor?
  split
  · simp [endings, hk, eq_comm]
  · simp [endings, hm, eq_comm]
  · simp [endings, hg, eq_comm]
  · rename_i hnotK hnotM hnotG
    simp [endings, show c ≠ 'K' from hnotK, show c ≠ 'M' from hnotM, show c ≠ 'G' from hnotG]

theorem cases_of_mem_endings (h : unit ∈ endings) :
    unit = ([], 1) ∨ ∃ c, unit.1 = [c] ∧ factor? c = some unit.2 := by
  have hmem := h
  simp only [endings, List.mem_cons, List.not_mem_nil, or_false] at h
  rcases h with rfl | rfl | rfl | rfl
  · exact .inl rfl
  all_goals exact .inr ⟨_, rfl, factor?_eq_some_iff.mpr hmem⟩

theorem isDigit_of_factor? {c : Char} {factor : Nat} (h : factor? c = some factor) :
    c.isDigit = false := by
  rw [Bool.eq_false_iff]
  intro hdigit
  rw [factor?_of_isDigit hdigit] at h
  cases h

theorem exists_cut (text : List Char) : ∃ amount unit, Cut text amount unit := by
  cases hunit : text.getLast?.bind factor? with
  | none =>
    refine ⟨text, ([], 1), List.mem_cons_self, (List.append_nil text).symm,
      fun other hother hend => ?_⟩
    rcases cases_of_mem_endings hother with rfl | ⟨c, hc, hfactor⟩
    · exact Nat.le_refl 0
    · obtain ⟨front, rfl⟩ := hc ▸ hend
      rw [List.getLast?_concat, Option.bind_some, hfactor] at hunit
      cases hunit
  | some factor =>
    obtain ⟨c, hlast, hfactor⟩ := Option.bind_eq_some_iff.mp hunit
    obtain ⟨front, rfl⟩ := List.getLast?_eq_some_iff.mp hlast
    refine ⟨front, ([c], factor), factor?_eq_some_iff.mp hfactor, rfl, fun other hother _ => ?_⟩
    rcases cases_of_mem_endings hother with rfl | ⟨d, hd, _⟩
    · exact Nat.zero_le 1
    · rw [hd]
      exact Nat.le_refl 1

theorem parse_of_cut (h : Cut (Text.trimChars s) amount unit) :
    parse s = (Amount.parse amount).map fun n => min (n * unit.2) Amount.limit := by
  rw [parse]
  rcases cases_of_mem_endings h.unit_mem with rfl | ⟨c, hc, hfactor⟩
  · have hnone : (Text.trimChars s).getLast?.bind factor? = none := by
      rw [Option.bind_eq_none_iff]
      intro c hlast
      cases hfactor : factor? c with
      | none => rfl
      | some factor =>
        -- a longer ending
        obtain ⟨front, hfront⟩ := List.getLast?_eq_some_iff.mp hlast
        have hlonger :=
          h.longest ([c], factor) (factor?_eq_some_iff.mp hfactor) ⟨front, hfront.symm⟩
        exact absurd hlonger (Nat.not_succ_le_zero 0)
    have hamount : Text.trimChars s = amount := by
      rw [h.text_eq, List.append_nil]
    rw [hnone, hamount]
    cases hread : Amount.parse amount with
    | error e => rfl
    | ok n =>
      have hbound : min (n * 1) Amount.limit = n := by
        rw [Nat.mul_one, Nat.min_eq_left (Amount.le_of_parse hread)]
      exact congrArg Except.ok hbound.symm
  · have htext : Text.trimChars s = amount ++ [c] := by rw [h.text_eq, hc]
    rw [htext, List.getLast?_concat, Option.bind_some, hfactor, List.dropLast_concat]
    rfl

theorem parse_eq_error_iff_of_cut {e : NumeralError} (h : Cut (Text.trimChars s) amount unit) :
    parse s = .error e ↔ Amount.parse amount = .error e := by
  rw [parse_of_cut h]
  cases Amount.parse amount with
  | error f => rfl
  | ok n => exact iff_of_false (fun h => by cases h) fun h => by cases h

theorem cut_of_digits {front digits : List Char} (hdigits : Amount.AllDigits digits)
    (hunit : unit ∈ endings) : Cut (front ++ digits ++ unit.1) (front ++ digits) unit := by
  refine ⟨hunit, rfl, fun other hother hend => ?_⟩
  rcases cases_of_mem_endings hother with rfl | ⟨c, hc, hother⟩
  · exact Nat.zero_le _
  rcases cases_of_mem_endings hunit with rfl | ⟨d, hd, _⟩
  · -- a text without a unit ends with a digit
    rw [hc, List.append_nil] at hend
    obtain ⟨begin, hbegin⟩ := hend
    have hlast : digits.getLast? = some c := by
      rw [← List.getLast?_append_of_ne_nil front hdigits.1, ← hbegin, List.getLast?_concat]
    have hdigit := hdigits.2 c (List.mem_of_mem_getLast? hlast)
    rw [isDigit_of_factor? hother] at hdigit
    cases hdigit
  · rw [hc, hd]
    exact Nat.le_refl 1

theorem parse_eq_ok_iff : parse s = .ok n ↔ ∃ sign digits, ∃ unit ∈ endings,
    Text.trimChars s = sign ++ digits ++ unit.1 ∧ (sign = [] ∨ sign = ['+']) ∧
      Amount.AllDigits digits ∧ Nat.ofDigitChars 10 digits 0 ≤ Amount.limit ∧
        n = min (Nat.ofDigitChars 10 digits 0 * unit.2) Amount.limit := by
  constructor
  · intro h
    obtain ⟨amount, unit, hcut⟩ := exists_cut (Text.trimChars s)
    rw [parse_of_cut hcut] at h
    cases hread : Amount.parse amount with
    | error e =>
      rw [hread] at h
      cases h
    | ok m =>
      rw [hread] at h
      obtain ⟨sign, digits, rfl, hsign, hdigits, rfl, hle⟩ := Amount.parse_eq_ok_iff.mp hread
      exact ⟨sign, digits, unit, hcut.unit_mem, hcut.text_eq, hsign, hdigits, hle,
        (Except.ok.inj h).symm⟩
  · rintro ⟨sign, digits, unit, hunit, htext, hsign, hdigits, hle, rfl⟩
    have hread : Amount.parse (sign ++ digits) = .ok (Nat.ofDigitChars 10 digits 0) :=
      Amount.parse_eq_ok_iff.mpr ⟨sign, digits, rfl, hsign, hdigits, rfl, hle⟩
    rw [parse_of_cut (htext ▸ cut_of_digits hdigits hunit), hread]
    rfl

theorem parse_eq_error_iff {e : NumeralError} : parse s = .error e ↔ ∃ amount unit,
    Cut (Text.trimChars s) amount unit ∧ Amount.parse amount = .error e ∧
      Amount.Refuses amount e := by
  constructor
  · intro h
    obtain ⟨amount, unit, hcut⟩ := exists_cut (Text.trimChars s)
    have hread := (parse_eq_error_iff_of_cut hcut).mp h
    exact ⟨amount, unit, hcut, hread, Amount.parse_eq_error_iff.mp hread⟩
  · rintro ⟨amount, unit, hcut, hread, _⟩
    exact (parse_eq_error_iff_of_cut hcut).mpr hread

/-! ## Writing -/

theorem size_of_mem_endings (h : unit ∈ endings) : unit.2 = 1 ∨ ∃ u ∈ units, u.1 = unit.2 := by
  simp only [endings, List.mem_cons, List.not_mem_nil, or_false] at h
  rcases h with rfl | rfl | rfl | rfl
  · exact .inl rfl
  · exact .inr ⟨(kibi, "K"), by simp [units], rfl⟩
  · exact .inr ⟨(mebi, "M"), by simp [units], rfl⟩
  · exact .inr ⟨(gibi, "G"), by simp [units], rfl⟩

theorem render_eq (hn : n ≠ 0) : ∃ unit ∈ endings,
    render n = toString (n / unit.2) ++ String.ofList unit.1 ∧ unit.2 ∣ n ∧
      ∀ other ∈ endings, other.2 ∣ n → other.2 ≤ unit.2 := by
  rw [render]
  cases hunit : unit? n with
  | none =>
    rw [unit?, if_neg hn, List.find?_eq_none] at hunit
    refine ⟨([], 1), List.mem_cons_self, by simp, Nat.one_dvd n, fun other hother hdvd => ?_⟩
    rcases size_of_mem_endings hother with hone | ⟨u, hu, hsize⟩
    · exact Nat.le_of_eq hone
    · have hno := hunit u hu
      rw [hsize, Nat.mod_eq_zero_of_dvd hdvd] at hno
      exact absurd rfl hno
  | some u =>
    obtain ⟨factor, letter⟩ := u
    obtain ⟨hmod, c, rfl, hfactor, _⟩ := unit?_cases hunit
    refine ⟨([c], factor), factor?_eq_some_iff.mp hfactor, rfl, Nat.dvd_of_mod_eq_zero hmod,
      fun other hother hdvd => Nat.not_lt.mp fun hlt => ?_⟩
    rcases size_of_mem_endings hother with hone | ⟨u, hu, hsize⟩
    · have hpos := Nat.pos_of_dvd_of_pos (Nat.dvd_of_mod_eq_zero hmod) (Nat.pos_of_ne_zero hn)
      exact Nat.lt_irrefl 1 (Nat.lt_of_le_of_lt hpos (hone ▸ hlt))
    · exact (unit?_largest hunit).2 u hu (hsize ▸ hlt) (hsize ▸ Nat.mod_eq_zero_of_dvd hdvd)

/-- A size is read back as it was written.  The texts that are read are, between white space, those
of an optional sign, digits that come to an amount and an optional unit, and they are read as that
many units or the largest size.  Every other text is refused as its part before the unit is refused
as an amount.  The unit that is written is the largest one that divides the size. -/
theorem read_and_written :
    (∀ n ≤ Amount.limit, parse (render n).toList = .ok n) ∧
      (∀ s n, parse s = .ok n ↔ ∃ sign digits, ∃ unit ∈ endings,
        Text.trimChars s = sign ++ digits ++ unit.1 ∧ (sign = [] ∨ sign = ['+']) ∧
          Amount.AllDigits digits ∧ Nat.ofDigitChars 10 digits 0 ≤ Amount.limit ∧
            n = min (Nat.ofDigitChars 10 digits 0 * unit.2) Amount.limit) ∧
      (∀ s e, parse s = .error e ↔ ∃ amount unit, Cut (Text.trimChars s) amount unit ∧
        Amount.parse amount = .error e ∧ Amount.Refuses amount e) ∧
      ∀ n, n ≠ 0 → ∃ unit ∈ endings,
        render n = toString (n / unit.2) ++ String.ofList unit.1 ∧ unit.2 ∣ n ∧
          ∀ other ∈ endings, other.2 ∣ n → other.2 ≤ unit.2 :=
  ⟨fun _ hn => parse_render hn, fun _ _ => parse_eq_ok_iff, fun _ _ => parse_eq_error_iff,
    fun _ hn => render_eq hn⟩

/-- The largest size that is written in the largest unit, and a text that is cut down to the largest
size of all. -/
theorem largest_read_and_written :
    let n := 18446744072635809792
    let text := "\u3000+18014398509481984K\n".toList
    render n = "17179869183G" ∧ parse (render n).toList = .ok n ∧
      parse text = .ok 18446744073709551615 ∧
      (∃ unit ∈ endings, render n = toString (n / unit.2) ++ String.ofList unit.1 ∧
        unit.2 ∣ n ∧ ∀ other ∈ endings, other.2 ∣ n → other.2 ≤ unit.2) := by
  intro n text
  refine ⟨by decide +kernel, read_and_written.1 n (by decide +kernel), ?_,
    read_and_written.2.2.2 n (by decide)⟩
  have hdigits : Amount.AllDigits "18014398509481984".toList := by decide +kernel
  have htrim : Text.trimChars text = ['+'] ++ "18014398509481984".toList ++ ['K'] := by
    decide +kernel
  exact (read_and_written.2.1 text _).mpr
    ⟨['+'], "18014398509481984".toList, (['K'], 1024), by simp [endings], htrim, .inr rfl,
      hdigits, by decide +kernel, by decide +kernel⟩

end Overseer.ByteSize

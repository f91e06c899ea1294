import Overseer.ByteSize

/-!
Numerals: an amount and a byte size are read back as they were written, and nothing that is read
passes the largest amount.
-/

namespace Overseer

namespace Numeral

theorem readDigits_append (base bound acc : Nat) (s t : List Char) :
    readDigits base bound acc (s ++ t) =
      (readDigits base bound acc s).bind fun n => readDigits base bound n t := by
  induction s generalizing acc with
  | nil => rfl
  | cons c s ih =>
    rw [List.cons_append, readDigits, readDigits]
    split
    · rfl
    · split
      · exact ih _
      · rfl

theorem digit?_digitChar {d : Nat} (hd : d < 10) : digit? 10 d.digitChar = some d := by
  have hall : ∀ d < 10, digit? 10 d.digitChar = some d := by decide
  exact hall d hd

theorem readDigits_digitChar {bound acc d : Nat} (hd : d < 10) (hle : acc * 10 + d ≤ bound) :
    readDigits 10 bound acc [d.digitChar] = .ok (acc * 10 + d) := by
  rw [readDigits, digit?_digitChar hd]
  simp only [if_pos hle, readDigits]

/-- The digits of a number are read back as the number. -/
theorem readDigits_toDigits {bound : Nat} (n : Nat) (hn : n ≤ bound) :
    readDigits 10 bound 0 (Nat.toDigits 10 n) = .ok n := by
  induction n using Nat.strongRecOn with
  | ind n ih =>
    by_cases hlt : n < 10
    · rw [Nat.toDigits_of_lt_base hlt, readDigits_digitChar hlt (by omega)]
      simp
    · have htens := ih (n / 10) (by omega) (by omega)
      rw [Nat.toDigits_of_base_le (by omega) (by omega), readDigits_append, htens]
      have hvalue : n / 10 * 10 + n % 10 = n := by omega
      show readDigits 10 bound (n / 10) [(n % 10).digitChar] = .ok n
      rw [readDigits_digitChar (by omega) (by omega), hvalue]

theorem readDigits_le {base bound acc n : Nat} {s : List Char} (hacc : acc ≤ bound)
    (h : readDigits base bound acc s = .ok n) : n ≤ bound := by
  induction s generalizing acc with
  | nil =>
    cases h
    exact hacc
  | cons c s ih =>
    rw [readDigits] at h
    split at h
    · cases h
    · split at h
      · rename_i hle
        exact ih hle h
      · cases h

theorem read_le {base bound n : Nat} {s : List Char} (h : read base bound s = .ok n) :
    n ≤ bound := by
  unfold read at h
  split at h
  · cases h
  · cases h
  · exact readDigits_le (Nat.zero_le _) h
  · exact readDigits_le (Nat.zero_le _) h

/-- A numeral starts with a digit and not with a sign. -/
theorem read_of_digit {base bound : Nat} {c : Char} {s : List Char} (hc : c.isDigit) :
    read base bound (c :: s) = readDigits base bound 0 (c :: s) := by
  have hplus : c ≠ '+' := by
    rintro rfl
    exact absurd hc (by decide)
  unfold read
  split
  · rename_i heq
    cases heq
  · rename_i heq
    cases heq
    exact absurd rfl hplus
  · rename_i heq
    cases heq
    exact absurd rfl hplus
  · rfl

end Numeral

/-! ## Amounts -/

theorem isDigit_of_mem_toString {n : Nat} {c : Char} (hc : c ∈ (toString n).toList) :
    c.isDigit := by
  rw [Nat.toString_eq_repr, Nat.toList_repr] at hc
  exact Nat.isDigit_of_mem_toDigits (by omega) (by omega) hc

theorem toString_toList_ne_nil (n : Nat) : (toString n).toList ≠ [] := by
  rw [Nat.toString_eq_repr, Nat.toList_repr]
  exact Nat.toDigits_ne_nil

theorem isWhiteSpace_of_isDigit {c : Char} (hc : c.isDigit) : Text.isWhiteSpace c = false := by
  have hrange : 48 ≤ c.toNat ∧ c.toNat ≤ 57 := by
    simpa [Char.isDigit, UInt32.le_iff_toNat_le] using hc
  simp [Text.isWhiteSpace]
  omega

namespace Amount

theorem le_of_parse {s : List Char} {n : Nat} (h : parse s = .ok n) : n ≤ limit :=
  Numeral.read_le h

/-- An amount is read back as it was written. -/
theorem parse_toString {n : Nat} (hn : n ≤ limit) : parse (toString n).toList = .ok n := by
  have hread := Numeral.readDigits_toDigits n hn
  rw [← Nat.toList_repr, ← Nat.toString_eq_repr] at hread
  cases hs : (toString n).toList with
  | nil => exact absurd hs (toString_toList_ne_nil n)
  | cons c s =>
    have hmem : c ∈ (toString n).toList := hs ▸ List.mem_cons_self ..
    have hc : c.isDigit := isDigit_of_mem_toString hmem
    rw [parse, Numeral.read_of_digit hc, ← hs, hread]

theorem trimChars_toString (n : Nat) :
    Text.trimChars (toString n).toList = (toString n).toList := by
  refine Text.trimChars_eq_self _ ?_ ?_
  · intro c hc
    exact isWhiteSpace_of_isDigit (isDigit_of_mem_toString (List.mem_of_mem_head? hc))
  · intro c hc
    exact isWhiteSpace_of_isDigit (isDigit_of_mem_toString (List.mem_of_mem_getLast? hc))

end Amount

/-! ## Byte sizes -/

namespace ByteSize

theorem le_of_parse {s : List Char} {n : Nat} (h : parse s = .ok n) : n ≤ Amount.limit := by
  unfold parse at h
  dsimp only at h
  split at h
  · rename_i factor _
    cases hamount : Amount.parse (Text.trimChars s).dropLast with
    | error e =>
      rw [hamount] at h
      cases h
    | ok m =>
      rw [hamount] at h
      cases h
      exact Amount.clamp_le _
  · exact Amount.le_of_parse h

theorem unit?_cases {n factor : Nat} {letter : String} (h : unit? n = some (factor, letter)) :
    n % factor = 0 ∧ ∃ c, letter = String.singleton c ∧ factor? c = some factor ∧
      Text.isWhiteSpace c = false := by
  refine ⟨(unit?_largest h).1, ?_⟩
  have hmem : (factor, letter) ∈ units := by
    unfold unit? at h
    split at h
    · cases h
    · exact List.mem_of_find?_eq_some h
  simp only [units, List.mem_cons, Prod.mk.injEq, List.not_mem_nil, or_false] at hmem
  rcases hmem with ⟨rfl, rfl⟩ | ⟨rfl, rfl⟩ | ⟨rfl, rfl⟩
  · exact ⟨'G', rfl, rfl, by decide⟩
  · exact ⟨'M', rfl, rfl, by decide⟩
  · exact ⟨'K', rfl, rfl, by decide⟩

theorem factor?_of_isDigit {c : Char} (hc : c.isDigit) : factor? c = none := by
  unfold factor?
  split
  · exact absurd hc (by decide)
  · exact absurd hc (by decide)
  · exact absurd hc (by decide)
  · rfl

theorem trimChars_render (n : Nat) :
    Text.trimChars (render n).toList = (render n).toList := by
  unfold render
  split
  · rename_i factor letter hunit
    obtain ⟨_, c, rfl, _, hc⟩ := unit?_cases hunit
    refine Text.trimChars_eq_self _ ?_ ?_
    · intro d hd
      obtain ⟨e, hhead⟩ := Option.isSome_iff_exists.mp
        (List.isSome_head?.mpr (toString_toList_ne_nil (n / factor)))
      rw [String.toList_append, List.head?_append, hhead] at hd
      cases hd
      exact isWhiteSpace_of_isDigit (isDigit_of_mem_toString (List.mem_of_mem_head? hhead))
    · intro d hd
      simp at hd
      exact hd ▸ hc
  · exact Amount.trimChars_toString n

/-- A byte size is read back as it was written. -/
theorem parse_render {n : Nat} (hn : n ≤ Amount.limit) : parse (render n).toList = .ok n := by
  rw [parse, trimChars_render, render]
  cases hunit : unit? n with
  | none =>
    dsimp only
    have hlast : (toString n).toList.getLast?.bind factor? = none := by
      cases hs : (toString n).toList.getLast? with
      | none => rfl
      | some c => exact factor?_of_isDigit (isDigit_of_mem_toString (List.mem_of_mem_getLast? hs))
    rw [hlast]
    exact Amount.parse_toString hn
  | some unit =>
    obtain ⟨factor, letter⟩ := unit
    obtain ⟨hdvd, c, rfl, hfactor, _⟩ := unit?_cases hunit
    have hquot : n / factor ≤ Amount.limit := Nat.le_trans (Nat.div_le_self _ _) hn
    have hmul : n / factor * factor = n := Nat.div_mul_cancel (Nat.dvd_of_mod_eq_zero hdvd)
    have htext : (toString (n / factor) ++ String.singleton c).toList =
        (toString (n / factor)).toList ++ [c] := by simp
    dsimp only
    rw [htext, List.getLast?_concat, Option.bind_some, hfactor, List.dropLast_concat,
      Amount.parse_toString hquot]
    show Except.ok (Amount.mul (n / factor) factor) = _
    rw [Amount.mul, hmul, Amount.clamp_of_le hn]

end ByteSize

end Overseer

import Mathlib.Data.List.TakeWhile
import Overseer.Proofs.Numeral

/-!
What is read as a numeral.  The digits with which a text begins decide: if they pass the bound, the
text is refused for that whatever follows, and if they do not, it is refused just if anything
follows (`Numeral.read_eq`).  `Numeral.Denotes` says which texts are numerals, and `Amount.Refuses`
what a text is refused for that is no amount.
-/

namespace Overseer

namespace Numeral

variable {base bound n : Nat} {s : List Char}

def isDigit (base : Nat) (c : Char) : Bool := (digit? base c).isSome

/-- The number that digits come to when they follow those of `n`. -/
def valueFrom (base n : Nat) (digits : List Char) : Nat :=
  digits.foldl (fun n c => n * base + (digit? base c).getD 0) n

def value (base : Nat) (digits : List Char) : Nat := valueFrom base 0 digits

/-- One digit or more, and nothing else. -/
def allDigits (base : Nat) (s : List Char) : Bool := !s.isEmpty && s.all (isDigit base)

/-- A numeral without its sign. -/
def unsigned : List Char → List Char
  | '+' :: s => s
  | s => s

/-- A text is a numeral of a number: at most a sign, and then one digit or more. -/
inductive Denotes (base : Nat) : List Char → Nat → Prop where
  | intro {sign digits : List Char} (hsign : sign = [] ∨ sign = ['+']) (hne : digits ≠ [])
      (hdigits : ∀ c ∈ digits, isDigit base c = true) :
      Denotes base (sign ++ digits) (value base digits)

theorem allDigits_iff :
    allDigits base s = true ↔ s ≠ [] ∧ ∀ c ∈ s, isDigit base c = true := by
  rw [allDigits, Bool.and_eq_true, Bool.not_eq_true', List.isEmpty_eq_false_iff, List.all_eq_true]

theorem allDigits_of_ne_nil (h : s ≠ []) : allDigits base s = s.all (isDigit base) := by
  rw [allDigits, List.isEmpty_eq_false_iff.mpr h, Bool.not_false, Bool.true_and]

theorem valueFrom_nil (base n : Nat) : valueFrom base n [] = n := rfl

theorem valueFrom_cons {c : Char} {d : Nat} (hdigit : digit? base c = some d) :
    valueFrom base n (c :: s) = valueFrom base (n * base + d) s := by
  rw [valueFrom, List.foldl_cons, hdigit, Option.getD_some, ← valueFrom]

theorem le_valueFrom (hbase : 0 < base) (n : Nat) (digits : List Char) :
    n ≤ valueFrom base n digits := by
  induction digits generalizing n with
  | nil => exact Nat.le_refl n
  | cons c digits ih =>
    calc
      n ≤ n * base := Nat.le_mul_of_pos_right n hbase
      _ ≤ n * base + (digit? base c).getD 0 := Nat.le_add_right ..
      _ ≤ valueFrom base n (c :: digits) := ih _

theorem readDigits_eq (hbase : 0 < base) (hn : n ≤ bound) :
    readDigits base bound n s =
      if bound < valueFrom base n (s.takeWhile (isDigit base)) then .error .overflow
      else if s.all (isDigit base) then .ok (valueFrom base n s)
      else .error .invalidDigit := by
  induction s generalizing n with
  | nil =>
    rw [List.takeWhile_nil, valueFrom_nil, if_neg (Nat.not_lt.mpr hn), List.all_nil, if_pos rfl]
    rfl
  | cons c s ih =>
    rw [readDigits]
    cases hdigit : digit? base c with
    | none =>
      have hno : isDigit base c = false := by rw [isDigit, hdigit, Option.isSome_none]
      rw [List.takeWhile_cons_of_neg (by rw [hno]; decide), valueFrom_nil,
        if_neg (Nat.not_lt.mpr hn), List.all_cons, hno, Bool.false_and, if_neg Bool.false_ne_true]
    | some d =>
      have hyes : isDigit base c = true := by rw [isDigit, hdigit, Option.isSome_some]
      rw [List.takeWhile_cons_of_pos hyes, valueFrom_cons hdigit, valueFrom_cons hdigit,
        List.all_cons, hyes, Bool.true_and]
      dsimp only
      split
      · rename_i hle
        exact ih hle
      · -- what is past the bound stays there
        rename_i hover
        rw [if_pos (Nat.lt_of_lt_of_le (Nat.not_le.mp hover) (le_valueFrom hbase _ _))]

theorem unsigned_of_ne (h : s.head? ≠ some '+') : unsigned s = s := by
  unfold unsigned
  split
  · exact absurd rfl h
  · rfl

theorem read_eq (hbase : 0 < base) :
    read base bound s =
      if s = [] then .error .empty
      else if bound < value base ((unsigned s).takeWhile (isDigit base)) then .error .overflow
      else if allDigits base (unsigned s) then .ok (value base (unsigned s))
      else .error .invalidDigit := by
  unfold read
  split
  · rfl
  · -- a sign alone
    have hsmall : ¬ bound < value base ((unsigned ['+']).takeWhile (isDigit base)) :=
      Nat.not_lt_zero bound
    rw [if_neg (by simp), if_neg hsmall]
    rfl
  · rename_i r hne
    have hsome : r ≠ [] := fun h => hne (by rw [h])
    rw [if_neg (by simp), readDigits_eq hbase (Nat.zero_le bound), unsigned, ← value, ← value,
      allDigits_of_ne_nil hsome]
  · rename_i hempty hsign hplus
    have hself : unsigned s = s := by
      refine unsigned_of_ne fun h => ?_
      obtain ⟨r, hr⟩ := List.head?_eq_some_iff.mp h
      exact hplus r hr
    have hsome : s ≠ [] := fun h => hempty h
    rw [if_neg hsome, readDigits_eq hbase (Nat.zero_le bound), hself, ← value, ← value,
      allDigits_of_ne_nil hsome]

theorem denotes_iff : Denotes base s n ↔
    allDigits base (unsigned s) = true ∧ value base (unsigned s) = n := by
  rw [allDigits_iff]
  constructor
  · rintro ⟨rfl | rfl, hne, hdigits⟩
    · rename_i digits
      have hself : unsigned digits = digits := by
        refine unsigned_of_ne fun h => ?_
        have hplus : isDigit base '+' = false := rfl
        exact Bool.false_ne_true (hplus.symm.trans (hdigits '+' (List.mem_of_mem_head? h)))
      rw [List.nil_append, hself]
      exact ⟨⟨hne, hdigits⟩, rfl⟩
    · exact ⟨⟨hne, hdigits⟩, rfl⟩
  · rintro ⟨⟨hne, hdigits⟩, rfl⟩
    by_cases hsign : s.head? = some '+'
    · obtain ⟨r, rfl⟩ := List.head?_eq_some_iff.mp hsign
      exact .intro (.inr rfl) hne hdigits
    · rw [unsigned_of_ne hsign] at hne hdigits ⊢
      exact .intro (.inl rfl) hne hdigits

instance (base : Nat) (s : List Char) (n : Nat) : Decidable (Denotes base s n) :=
  decidable_of_iff _ denotes_iff.symm

theorem Denotes.unique {m : Nat} (hm : Denotes base s m) (hn : Denotes base s n) : m = n :=
  (denotes_iff.mp hm).2.symm.trans (denotes_iff.mp hn).2

theorem mem_of_denotes {c : Char} (h : Denotes base s n) (hc : c ∈ s) :
    c = '+' ∨ isDigit base c = true := by
  obtain ⟨hsign, _, hdigits⟩ := h
  rcases List.mem_append.mp hc with hc | hc
  · rcases hsign with rfl | rfl
    · cases hc
    · exact .inl (List.mem_singleton.mp hc)
  · exact .inr (hdigits c hc)

/-- What is read is a numeral of at most the bound. -/
theorem read_eq_ok_iff (hbase : 0 < base) :
    read base bound s = .ok n ↔ Denotes base s n ∧ n ≤ bound := by
  constructor
  · intro h
    refine ⟨?_, read_le h⟩
    rw [read_eq hbase] at h
    split at h
    · cases h
    · split at h
      · cases h
      · split at h
        · rename_i hdigits
          cases h
          exact denotes_iff.mpr ⟨hdigits, rfl⟩
        · cases h
  · rintro ⟨hdenotes, hle⟩
    obtain ⟨hall, rfl⟩ := denotes_iff.mp hdenotes
    obtain ⟨hne, hdigits⟩ := allDigits_iff.mp hall
    have hsome : s ≠ [] := by
      rintro rfl
      exact hne rfl
    rw [read_eq hbase, if_neg hsome, List.takeWhile_eq_self_iff.mpr hdigits,
      if_neg (Nat.not_lt.mpr hle), if_pos hall]

/-! ## Decimals -/

theorem digit?_ten (c : Char) :
    digit? 10 c = if c.isDigit then some (c.toNat - '0'.toNat) else none := by
  have hdecimal : c.isDigit = true ↔ '0' ≤ c ∧ c ≤ '9' := by
    rw [Char.isDigit, Bool.and_eq_true, decide_eq_true_iff, decide_eq_true_iff]
    rfl
  unfold digit?
  simp only [Bool.and_eq_true, decide_eq_true_eq, hdecimal]
  split
  · rename_i h
    have hle : c.toNat ≤ 57 := h.2
    rw [Option.filter_some, if_pos (by simp; omega)]
    rfl
  -- a letter stands for ten at least
  split
  · rename_i h
    have hle : 97 ≤ c.toNat := h.1
    rw [Option.filter_some, if_neg (by simp; omega)]
  split
  · rename_i h
    have hle : 65 ≤ c.toNat := h.1
    rw [Option.filter_some, if_neg (by simp; omega)]
  · rfl

theorem isDigit_ten (c : Char) : isDigit 10 c = c.isDigit := by
  rw [isDigit, digit?_ten]
  split
  · rename_i h
    rw [h, Option.isSome_some]
  · rename_i h
    rw [Bool.eq_false_iff.mpr h, Option.isSome_none]

theorem value_ten (hdigits : ∀ c ∈ s, c.isDigit = true) : value 10 s = Nat.ofDigitChars 10 s 0 := by
  suffices hfrom : ∀ n, valueFrom 10 n s = Nat.ofDigitChars 10 s n from hfrom 0
  induction s with
  | nil => exact fun n => rfl
  | cons c s ih =>
    intro n
    obtain ⟨hc, hs⟩ := List.forall_mem_cons.mp hdigits
    rw [valueFrom_cons (by rw [digit?_ten, if_pos hc]), ih hs, Nat.ofDigitChars_cons, Nat.mul_comm]

end Numeral

namespace Amount

variable {text : List Char} {n : Nat}

/-- One decimal digit or more, and nothing else. -/
def AllDigits (s : List Char) : Prop := s ≠ [] ∧ ∀ c ∈ s, c.isDigit = true

theorem allDigits_ten {s : List Char} : Numeral.allDigits 10 s = true ↔ AllDigits s := by
  rw [Numeral.allDigits_iff, funext Numeral.isDigit_ten]
  rfl

instance (s : List Char) : Decidable (AllDigits s) := decidable_of_iff _ allDigits_ten

/-- The number of the digits with which a text begins after its sign. -/
def leading (text : List Char) : Nat :=
  Nat.ofDigitChars 10 ((Numeral.unsigned text).takeWhile Char.isDigit) 0

/-- What a text is refused for that is no amount.  Digits that are too large are refused whatever
follows them. -/
def Refuses (text : List Char) : NumeralError → Prop
  | .empty => text = []
  | .overflow => limit < leading text
  | .invalidDigit => text ≠ [] ∧ leading text ≤ limit ∧ ¬ AllDigits (Numeral.unsigned text)

theorem parse_eq (text : List Char) :
    parse text =
      if text = [] then .error .empty
      else if limit < leading text then .error .overflow
      else if AllDigits (Numeral.unsigned text) then .ok (leading text)
      else .error .invalidDigit := by
  have hleading : Numeral.value 10 ((Numeral.unsigned text).takeWhile Char.isDigit) =
      leading text := Numeral.value_ten fun c hc => List.mem_takeWhile_imp hc
  have hdigit : Numeral.isDigit 10 = Char.isDigit := funext Numeral.isDigit_ten
  rw [parse, Numeral.read_eq (by decide), hdigit, hleading]
  refine ite_congr rfl (fun _ => rfl) fun _ => ite_congr rfl (fun _ => rfl) fun _ =>
    ite_congr (propext allDigits_ten) (fun hdigits => ?_) fun _ => rfl
  rw [← hleading, List.takeWhile_eq_self_iff.mpr hdigits.2]

theorem parse_eq_error_iff {e : NumeralError} : parse text = .error e ↔ Refuses text e := by
  rw [parse_eq]
  by_cases hempty : text = []
  · have hsmall : leading [] ≤ limit := Nat.zero_le limit
    rw [if_pos hempty]
    cases e <;> simp [Refuses, hempty, hsmall]
  by_cases hsmall : leading text ≤ limit
  · rw [if_neg hempty, if_neg (Nat.not_lt.mpr hsmall)]
    by_cases hdigits : AllDigits (Numeral.unsigned text)
    · rw [if_pos hdigits]
      cases e <;> simp [Refuses, hempty, hsmall, hdigits]
    · rw [if_neg hdigits]
      cases e <;> simp [Refuses, hempty, hsmall, hdigits]
  · have hover : limit < leading text := Nat.not_le.mp hsmall
    rw [if_neg hempty, if_pos hover]
    cases e <;> simp [Refuses, hempty, hover, hsmall]

-- the digits are too large before the blank is met
example : parse "18446744073709551616 K".toList = .error .overflow := by decide +kernel

theorem parse_eq_ok_iff : parse text = .ok n ↔
    ∃ sign digits, text = sign ++ digits ∧ (sign = [] ∨ sign = ['+']) ∧ AllDigits digits ∧
      Nat.ofDigitChars 10 digits 0 = n ∧ n ≤ limit := by
  rw [parse, Numeral.read_eq_ok_iff (by decide)]
  constructor
  · rintro ⟨⟨hsign, hne, hall⟩, hle⟩
    rename_i sign digits
    have hdigits : ∀ c ∈ digits, c.isDigit = true :=
      fun c hc => (Numeral.isDigit_ten c).symm.trans (hall c hc)
    exact ⟨sign, digits, rfl, hsign, ⟨hne, hdigits⟩, (Numeral.value_ten hdigits).symm, hle⟩
  · rintro ⟨sign, digits, rfl, hsign, ⟨hne, hdigits⟩, rfl, hle⟩
    have hall : ∀ c ∈ digits, Numeral.isDigit 10 c = true :=
      fun c hc => (Numeral.isDigit_ten c).trans (hdigits c hc)
    rw [← Numeral.value_ten hdigits] at hle ⊢
    exact ⟨.intro hsign hne hall, hle⟩

end Amount

end Overseer

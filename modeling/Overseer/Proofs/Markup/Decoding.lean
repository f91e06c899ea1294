import Overseer.Markup.Reference
import Overseer.Proofs.Digits

/-!
References are decoded from left to right, and each of them once.  `Names` says what the text
between `&` and `;` stands for and `Decodes` what is read piece by piece, and decoding is that
(`decode_eq_iff`).  A text in which every `&` is followed by a `;` is decoded alone, whatever comes
behind it (`decode_append`).
-/

namespace Overseer.Markup.Reference

/-! ## Names of characters -/

/-- What stands behind `#` is the numeral of a code, in hexadecimal after an `x` and else in
decimal.  Like any numeral it may have a sign, and zeros in front. -/
inductive Code : List Char → Nat → Prop where
  | decimal {numeral : List Char} {n : Nat} (hn : Numeral.Denotes 10 numeral n) : Code numeral n
  | hexadecimal {x : Char} {numeral : List Char} {n : Nat} (hx : x = 'x' ∨ x = 'X')
      (hn : Numeral.Denotes 16 numeral n) : Code (x :: numeral) n

/-- What stands between `&` and `;` names a character, by one of five names or by its code. -/
inductive Names : List Char → Char → Prop where
  | amp : Names ['a', 'm', 'p'] '&'
  | lt : Names ['l', 't'] '<'
  | gt : Names ['g', 't'] '>'
  | quot : Names ['q', 'u', 'o', 't'] '"'
  | apos : Names ['a', 'p', 'o', 's'] '\''
  | code {s : List Char} {n : Nat} (hn : Code s n) (hvalid : n.isValidChar) :
      Names ('#' :: s) (Char.ofNat n)

variable {name numeral s rest out : List Char} {c : Char} {n : Nat}

theorem charOfCode?_eq_some_iff :
    charOfCode? n = some c ↔ n.isValidChar ∧ Char.ofNat n = c := by
  rw [charOfCode?]
  split
  · rename_i hvalid
    rw [Option.some.injEq, and_iff_right hvalid]
  · rename_i hvalid
    exact iff_of_false (by simp) fun h => hvalid h.1

theorem le_codeLimit (hvalid : n.isValidChar) : n ≤ codeLimit := by
  rw [codeLimit]
  rcases hvalid with h | h <;> omega

theorem not_denotes_of_x {x : Char} (hx : x = 'x' ∨ x = 'X') :
    ¬ Numeral.Denotes 10 (x :: numeral) n := by
  intro h
  rcases Numeral.mem_of_denotes h List.mem_cons_self with hsign | hdigit
  · rcases hx with rfl | rfl <;> exact absurd hsign (by decide)
  · rcases hx with rfl | rfl <;> exact absurd hdigit (by decide)

theorem readCode_hexadecimal {x : Char} (hx : x = 'x' ∨ x = 'X') (numeral : List Char) :
    readCode (x :: numeral) = Numeral.read 16 codeLimit numeral := by
  rcases hx with rfl | rfl <;> rfl

theorem readCode_decimal (hs : ∀ x, x = 'x' ∨ x = 'X' → s.head? ≠ some x) :
    readCode s = Numeral.read 10 codeLimit s := by
  unfold readCode
  split
  · exact absurd rfl (hs 'x' (.inl rfl))
  · exact absurd rfl (hs 'X' (.inr rfl))
  · rfl

theorem readCode_eq_ok_iff : readCode s = .ok n ↔ Code s n ∧ n ≤ codeLimit := by
  by_cases hs : ∀ x, x = 'x' ∨ x = 'X' → s.head? ≠ some x
  · rw [readCode_decimal hs, Numeral.read_eq_ok_iff (by decide)]
    refine and_congr_left fun _ => ⟨.decimal, ?_⟩
    rintro (hn | ⟨hx, _⟩)
    · exact hn
    · exact absurd rfl (hs _ hx)
  · simp only [not_forall, not_not] at hs
    obtain ⟨x, hx, hhead⟩ := hs
    obtain ⟨numeral, rfl⟩ := List.head?_eq_some_iff.mp hhead
    rw [readCode_hexadecimal hx, Numeral.read_eq_ok_iff (by decide)]
    refine and_congr_left fun _ => ⟨.hexadecimal hx, ?_⟩
    rintro (hn | ⟨_, hn⟩)
    · exact absurd hn (not_denotes_of_x hx)
    · exact hn

theorem Code.unique {m : Nat} (hm : Code s m) (hn : Code s n) : m = n := by
  cases hm with
  | decimal hm =>
    cases hn with
    | decimal hn => exact hm.unique hn
    | hexadecimal hx => exact absurd hm (not_denotes_of_x hx)
  | hexadecimal hx hm =>
    cases hn with
    | decimal hn => exact absurd hn (not_denotes_of_x hx)
    | hexadecimal _ hn => exact hm.unique hn

theorem names_code_iff :
    Names ('#' :: s) c ↔ ∃ n, Code s n ∧ n.isValidChar ∧ Char.ofNat n = c := by
  constructor
  · intro h
    cases h with
    | code hn hvalid => exact ⟨_, hn, hvalid, rfl⟩
  · rintro ⟨n, hn, hvalid, rfl⟩
    exact .code hn hvalid

theorem names_of_lookup (h : predefined.lookup name = some c) : Names name c := by
  obtain ⟨before, after, htable, -⟩ := List.lookup_eq_some_iff.mp h
  have hmem : (name, c) ∈ predefined := by simp [htable]
  simp only [predefined, List.mem_cons, Prod.mk.injEq, List.not_mem_nil, or_false] at hmem
  rcases hmem with ⟨rfl, rfl⟩ | ⟨rfl, rfl⟩ | ⟨rfl, rfl⟩ | ⟨rfl, rfl⟩ | ⟨rfl, rfl⟩
  · exact .amp
  · exact .lt
  · exact .gt
  · exact .quot
  · exact .apos

theorem char?_code_eq_some_iff : char? ('#' :: s) = some c ↔ Names ('#' :: s) c := by
  have hcode : char? ('#' :: s) = (readCode s).toOption.bind charOfCode? := rfl
  rw [hcode, names_code_iff]
  cases hread : readCode s with
  | error e =>
    refine iff_of_false (by simp [Except.toOption]) ?_
    rintro ⟨n, hn, hvalid, _⟩
    cases hread.symm.trans (readCode_eq_ok_iff.mpr ⟨hn, le_codeLimit hvalid⟩)
  | ok m =>
    have hm : Code s m := (readCode_eq_ok_iff.mp hread).1
    refine charOfCode?_eq_some_iff.trans ⟨fun h => ⟨m, hm, h⟩, ?_⟩
    rintro ⟨n, hn, h⟩
    exact hm.unique hn ▸ h

theorem char?_eq_some_iff : char? name = some c ↔ Names name c := by
  by_cases hcode : name.head? = some '#'
  · obtain ⟨s, rfl⟩ := List.head?_eq_some_iff.mp hcode
    exact char?_code_eq_some_iff
  constructor
  · intro h
    unfold char? at h
    split at h
    · rename_i hlookup
      cases h
      exact names_of_lookup hlookup
    · exact absurd rfl hcode
    · cases h
  · intro h
    cases h with
    | amp | lt | gt | quot | apos => rfl
    | code => exact absurd rfl hcode

theorem semicolon_not_mem_of_denotes {base : Nat} (h : Numeral.Denotes base numeral n) :
    ';' ∉ numeral := by
  intro hmem
  rcases Numeral.mem_of_denotes h hmem with hsign | hdigit
  · exact absurd hsign (by decide)
  · have hno : Numeral.isDigit base ';' = false := rfl
    exact Bool.false_ne_true (hno.symm.trans hdigit)

theorem semicolon_not_mem_of_code (h : Code s n) : ';' ∉ '#' :: s := by
  cases h with
  | decimal hn => simp [semicolon_not_mem_of_denotes hn]
  | hexadecimal hx hn => rcases hx with rfl | rfl <;> simp [semicolon_not_mem_of_denotes hn]

theorem semicolon_not_mem_of_names (h : Names name c) : ';' ∉ name := by
  cases h with
  | amp | lt | gt | quot | apos => decide
  | code hn hvalid => exact semicolon_not_mem_of_code hn

/-! ## References in a text -/

/-- A text goes on, behind a `&`, as a reference does. -/
def Opens (s : List Char) : Prop := ∃ name c rest, Names name c ∧ s = name ++ ';' :: rest

theorem read?_eq_none_of_not_mem (h : ';' ∉ s) : read? s = none := by
  have hall : ∀ c ∈ s, (c != ';') = true := by
    intro c hc
    rw [bne_iff_ne]
    exact fun e => h (e ▸ hc)
  rw [read?, List.dropWhile_eq_nil_iff.mpr hall]

theorem read?_eq_some_iff : read? s = some (c, rest) ↔
    ∃ name, Names name c ∧ s = name ++ ';' :: rest := by
  constructor
  · intro h
    by_cases hmem : ';' ∈ s
    · obtain ⟨name, rest, rfl, hname⟩ := List.eq_append_cons_of_mem hmem
      rw [read?_append name rest hname] at h
      obtain ⟨d, hd, heq⟩ := Option.map_eq_some_iff.mp h
      cases heq
      exact ⟨name, char?_eq_some_iff.mp hd, rfl⟩
    · rw [read?_eq_none_of_not_mem hmem] at h
      cases h
  · rintro ⟨name, hname, rfl⟩
    rw [read?_append name rest (semicolon_not_mem_of_names hname), char?_eq_some_iff.mpr hname]
    rfl

theorem read?_eq_none_iff : read? s = none ↔ ¬ Opens s := by
  rw [← not_iff_not, not_not, ← ne_eq, Option.ne_none_iff_exists']
  simp only [Opens, Prod.exists, read?_eq_some_iff]
  constructor
  · rintro ⟨c, rest, name, h⟩
    exact ⟨name, c, rest, h⟩
  · rintro ⟨name, c, rest, h⟩
    exact ⟨c, rest, name, h⟩

theorem opens_iff (hname : ';' ∉ name) : Opens (name ++ ';' :: rest) ↔ ∃ c, Names name c := by
  constructor
  · rintro ⟨other, c, after, hother, heq⟩
    have hread : read? (name ++ ';' :: rest) = some (c, after) :=
      read?_eq_some_iff.mpr ⟨other, hother, heq⟩
    rw [read?_append name rest hname] at hread
    obtain ⟨d, hd, -⟩ := Option.map_eq_some_iff.mp hread
    exact ⟨d, char?_eq_some_iff.mp hd⟩
  · rintro ⟨c, hc⟩
    exact ⟨name, c, rest, hc, rfl⟩

/-- What comes behind the first `;` does not matter. -/
theorem opens_append_iff (h : ';' ∈ s) (t : List Char) : Opens (s ++ t) ↔ Opens s := by
  obtain ⟨name, rest, rfl, hname⟩ := List.eq_append_cons_of_mem h
  rw [List.append_assoc, List.cons_append, opens_iff hname, opens_iff hname]

/-! ## Decoding -/

theorem decode_cons (hc : c ≠ '&') (s : List Char) : decode (c :: s) = c :: decode s := by
  rw [decode, if_neg hc]

theorem decode_of_names (h : Names name c) (rest : List Char) :
    decode ('&' :: (name ++ ';' :: rest)) = c :: decode rest :=
  decode_reference (semicolon_not_mem_of_names h) (char?_eq_some_iff.mpr h)

theorem decode_of_not_opens (h : ¬ Opens s) : decode ('&' :: s) = '&' :: decode s := by
  have hread := read?_eq_none_iff.mpr h
  rw [decode, if_pos rfl]
  split
  · rename_i heq
    cases heq.symm.trans hread
  · rfl

/-- What a text is decoded to, piece by piece from the left.  Every piece is decoded alone, and what
it is decoded to is not looked at again. -/
inductive Decodes : List Char → List Char → Prop where
  | nil : Decodes [] []
  | plain {c : Char} {s out : List Char} (hc : c ≠ '&') (h : Decodes s out) :
      Decodes (c :: s) (c :: out)
  | reference {name rest out : List Char} {c : Char} (hname : Names name c)
      (h : Decodes rest out) : Decodes ('&' :: (name ++ ';' :: rest)) (c :: out)
  | kept {s out : List Char} (hs : ¬ Opens s) (h : Decodes s out) :
      Decodes ('&' :: s) ('&' :: out)

theorem decodes_decode (s : List Char) : Decodes s (decode s) := by
  fun_induction decode s with
  | case1 => exact .nil
  | case2 r d rest hread ih =>
    obtain ⟨name, hname, rfl⟩ := read?_eq_some_iff.mp hread
    exact .reference hname ih
  | case3 r hread ih => exact .kept (read?_eq_none_iff.mp hread) ih
  | case4 c r hc ih => exact .plain hc ih

theorem decode_eq_iff : decode s = out ↔ Decodes s out := by
  constructor
  · rintro rfl
    exact decodes_decode s
  · intro h
    induction h with
    | nil => rw [decode]
    | plain hc _ ih => rw [decode_cons hc, ih]
    | reference hname _ ih => rw [decode_of_names hname, ih]
    | kept hs _ ih => rw [decode_of_not_opens hs, ih]

-- the `&` that is decoded begins no reference
example : decode "&amp;lt;".toList = "&lt;".toList := by decide +kernel

/-- Every `&` is followed, somewhere, by a `;`. -/
def Terminated (s : List Char) : Prop := ∀ before after, s = before ++ '&' :: after → ';' ∈ after

theorem Terminated.of_suffix {s t : List Char} (h : Terminated s) (hsuffix : t <:+ s) :
    Terminated t := by
  obtain ⟨front, rfl⟩ := hsuffix
  rintro before after rfl
  exact h (front ++ before) after (List.append_assoc ..).symm

theorem terminated_nil : Terminated [] := by
  intro before after h
  cases before <;> cases h

theorem terminated_cons_iff : Terminated (c :: s) ↔ (c = '&' → ';' ∈ s) ∧ Terminated s := by
  constructor
  · intro h
    refine ⟨?_, h.of_suffix (List.suffix_cons c s)⟩
    rintro rfl
    exact h [] s rfl
  · rintro ⟨hc, hs⟩ before after heq
    cases before with
    | nil =>
      obtain ⟨rfl, rfl⟩ := List.cons.inj heq
      exact hc rfl
    | cons d before => exact hs before after (List.cons.inj heq).2

instance decidableTerminated : (s : List Char) → Decidable (Terminated s)
  | [] => .isTrue terminated_nil
  | _ :: s =>
    have := decidableTerminated s
    decidable_of_iff _ terminated_cons_iff.symm

/-- A text is decoded alone if what is behind it cannot end a reference that begins in it. -/
theorem decode_append (h : Terminated s) (t : List Char) :
    decode (s ++ t) = decode s ++ decode t := by
  suffices happend : ∀ out, Decodes s out → decode (s ++ t) = out ++ decode t from
    happend _ (decodes_decode s)
  intro out hdecodes
  induction hdecodes with
  | nil => rfl
  | @plain c s out hc _ ih =>
    rw [List.cons_append, decode_cons hc, ih (h.of_suffix (List.suffix_cons c s)), List.cons_append]
  | @reference name rest out c hname _ ih =>
    have hsuffix : rest <:+ '&' :: (name ++ ';' :: rest) := ⟨'&' :: name ++ [';'], by simp⟩
    have htext : '&' :: (name ++ ';' :: rest) ++ t = '&' :: (name ++ ';' :: (rest ++ t)) := by
      simp
    rw [htext, decode_of_names hname, ih (h.of_suffix hsuffix), List.cons_append]
  | @kept s out hs _ ih =>
    have hmem : ';' ∈ s := h [] s rfl
    rw [List.cons_append, decode_of_not_opens (mt (opens_append_iff hmem t).mp hs),
      ih (h.of_suffix (List.suffix_cons '&' s)), List.cons_append]

/-! ## What is no reference -/

/-- A text that goes on, behind a `&`, without a `;`, with an unknown name, or with a code that no
character has, which is that of a surrogate or past the last one. -/
inductive Broken : List Char → Prop where
  | unterminated {s : List Char} (hs : ';' ∉ s) : Broken s
  | unknown {name rest : List Char} (hend : ';' ∉ name) (hcode : name.head? ≠ some '#')
      (hname : String.ofList name ∉ ["amp", "lt", "gt", "quot", "apos"]) :
      Broken (name ++ ';' :: rest)
  | code {s rest : List Char} {n : Nat} (hn : Code s n)
      (hinvalid : 0xD800 ≤ n ∧ n ≤ 0xDFFF ∨ 0x10FFFF < n) : Broken ('#' :: s ++ ';' :: rest)

theorem isValidChar_iff : n.isValidChar ↔ ¬ (0xD800 ≤ n ∧ n ≤ 0xDFFF ∨ 0x10FFFF < n) := by
  rw [Nat.isValidChar]
  omega

theorem not_opens_of_broken (h : Broken s) : ¬ Opens s := by
  cases h with
  | unterminated hs =>
    rintro ⟨name, c, rest, _, rfl⟩
    exact hs (by simp)
  | unknown hend hcode hname =>
    rw [opens_iff hend]
    rintro ⟨c, hc⟩
    cases hc with
    | amp | lt | gt | quot | apos => exact absurd hname (by decide)
    | code => exact hcode rfl
  | code hn hinvalid =>
    rw [opens_iff (semicolon_not_mem_of_code hn)]
    rintro ⟨c, hc⟩
    obtain ⟨m, hm, hvalid, _⟩ := names_code_iff.mp hc
    exact isValidChar_iff.mp hvalid (hm.unique hn ▸ hinvalid)

/-- Decoding goes from left to right and over each piece once.  A text in which every `&` is
followed by a `;` is decoded apart from what comes behind it; what is encoded is decoded back; a
reference comes to its character, which is not looked at again; and a `&` that begins none is kept,
and what is behind it is decoded as if it were alone. -/
theorem decoded_once :
    (∀ s out, decode s = out ↔ Decodes s out) ∧
      (∀ s t, Terminated s → decode (s ++ t) = decode s ++ decode t) ∧
      (∀ s, decode (encode s) = s) ∧
      (∀ s t, Terminated s → decode (s ++ encode t) = decode s ++ t) ∧
      (∀ s name c t, Terminated s → Names name c →
        decode (s ++ '&' :: (name ++ ';' :: t)) = decode s ++ c :: decode t) ∧
      (∀ s t, Terminated s → ¬ Opens t → decode (s ++ '&' :: t) = decode s ++ '&' :: decode t) ∧
      ∀ t, Broken t → ¬ Opens t := by
  refine ⟨fun s out => decode_eq_iff, fun s t hs => decode_append hs t, decode_encode,
    fun s t hs => ?_, fun s name c t hs hname => ?_, fun s t hs ht => ?_,
    fun t => not_opens_of_broken⟩
  · rw [decode_append hs, decode_encode]
  · rw [decode_append hs, decode_of_names hname]
  · rw [decode_append hs, decode_of_not_opens ht]

/-- The first `&` of the text is kept, and the reference that its name would hold is decoded.
Behind it stand an encoded text, a reference that comes to a `&` and the numeral of a surrogate. -/
theorem nested_decoded_once :
    let s := "&bogus &amp;".toList
    let surrogate := "#xD800;&lt;".toList
    decode s = "&bogus &".toList ∧ Terminated s ∧ Names "amp".toList '&' ∧ Broken surrogate ∧
      decode (s ++ encode "<&amp;>".toList) = decode s ++ "<&amp;>".toList ∧
      decode (s ++ '&' :: ("amp".toList ++ ';' :: "lt;".toList)) =
        decode s ++ '&' :: decode "lt;".toList ∧
      decode (s ++ '&' :: surrogate) = decode s ++ '&' :: decode surrogate := by
  intro s surrogate
  have hs : Terminated s := by decide +kernel
  have hcode : Code ('x' :: "D800".toList) 0xD800 := .hexadecimal (.inl rfl) (by decide +kernel)
  have hbroken : Broken ('#' :: 'x' :: "D800".toList ++ ';' :: "&lt;".toList) :=
    .code hcode (by decide)
  have hsurrogate : ¬ Opens surrogate := decoded_once.2.2.2.2.2.2 surrogate hbroken
  exact ⟨by decide +kernel, hs, .amp, hbroken, decoded_once.2.2.2.1 s _ hs,
    decoded_once.2.2.2.2.1 s _ _ _ hs .amp, decoded_once.2.2.2.2.2.1 s _ hs hsurrogate⟩

end Overseer.Markup.Reference

import Overseer.Amount

/-!
Character references in attribute values.  `decode` replaces the five predefined references and the
numeric ones from left to right and keeps any other `&` as it is; `encode` writes four characters
as references.  `decode_encode`: decoding undoes encoding.
-/

namespace Overseer.Markup.Reference

def predefined : List (List Char × Char) :=
  [(['a', 'm', 'p'], '&'), (['l', 't'], '<'), (['g', 't'], '>'), (['q', 'u', 'o', 't'], '"'),
   (['a', 'p', 'o', 's'], '\'')]

/-- The character with a code point, of which surrogates have none. -/
def charOfCode? (n : Nat) : Option Char := if n.isValidChar then some (Char.ofNat n) else none

/-- Numerals up to 32 bits are read; most of them are no code points. -/
def codeLimit : Nat := 0xFFFFFFFF

/-- A numeral in hexadecimal after `x`, else in decimal. -/
def readCode : List Char → Except NumeralError Nat
  | 'x' :: digits => Numeral.read 16 codeLimit digits
  | 'X' :: digits => Numeral.read 16 codeLimit digits
  | digits => Numeral.read 10 codeLimit digits

/-- The character that the text between `&` and `;` stands for. -/
def char? (name : List Char) : Option Char :=
  match predefined.lookup name, name with
  | some c, _ => some c
  | none, '#' :: code => (readCode code).toOption.bind charOfCode?
  | none, _ => none

/-- The character of the reference whose `&` stands before the text, and what follows its `;`. -/
def read? (s : List Char) : Option (Char × List Char) :=
  match s.dropWhile (· != ';') with
  | [] => none
  | _ :: rest => (char? (s.takeWhile (· != ';'))).map (·, rest)

theorem read?_length {s rest : List Char} {c : Char} (h : read? s = some (c, rest)) :
    rest.length < s.length := by
  have hle := (List.dropWhile_suffix (l := s) (· != ';')).length_le
  unfold read? at h
  split at h
  · simp at h
  · rename_i hd
    obtain ⟨_, _, hr⟩ := Option.map_eq_some_iff.mp h
    rw [hd, List.length_cons, (Prod.mk.inj hr).2] at hle
    exact hle

def decode (s : List Char) : List Char :=
  match s with
  | [] => []
  | c :: r =>
    if c = '&' then
      match _h : read? r with
      | some (d, rest) => d :: decode rest
      | none => '&' :: decode r
    else c :: decode r
termination_by s.length
decreasing_by
  · have := read?_length _h
    simp
    omega
  all_goals simp

def encodeChar (c : Char) : List Char :=
  if c = '&' then ['&', 'a', 'm', 'p', ';']
  else if c = '<' then ['&', 'l', 't', ';']
  else if c = '>' then ['&', 'g', 't', ';']
  else if c = '"' then ['&', 'q', 'u', 'o', 't', ';']
  else [c]

def encode (s : List Char) : List Char := s.flatMap encodeChar

/-- A name without `;` is read up to the first one. -/
theorem read?_append (name s : List Char) (h : ';' ∉ name) :
    read? (name ++ ';' :: s) = (char? name).map (·, s) := by
  have hp : ∀ c ∈ name, (c != ';') = true := by
    intro c hc
    simp only [bne_iff_ne, ne_eq]
    exact fun e => h (e ▸ hc)
  rw [read?, List.dropWhile_append_of_pos hp, List.takeWhile_append_of_pos hp]
  simp

theorem decode_reference {name s : List Char} {c : Char} (h : ';' ∉ name)
    (hc : char? name = some c) : decode ('&' :: name ++ ';' :: s) = c :: decode s := by
  have hr := read?_append name s h
  rw [hc, Option.map_some] at hr
  rw [List.cons_append, decode, if_pos rfl]
  split
  · rename_i heq
    rw [hr] at heq
    simp at heq
    rw [heq.1, heq.2]
  · rename_i heq
    rw [hr] at heq
    simp at heq

/-- A character encoded in front of a text is decoded alone. -/
theorem decode_encodeChar (c : Char) (s : List Char) :
    decode (encodeChar c ++ s) = c :: decode s := by
  unfold encodeChar
  split
  · rename_i h
    rw [h]
    exact decode_reference (by decide : ';' ∉ ['a', 'm', 'p']) (by decide)
  split
  · rename_i h
    rw [h]
    exact decode_reference (by decide : ';' ∉ ['l', 't']) (by decide)
  split
  · rename_i h
    rw [h]
    exact decode_reference (by decide : ';' ∉ ['g', 't']) (by decide)
  split
  · rename_i h
    rw [h]
    exact decode_reference (by decide : ';' ∉ ['q', 'u', 'o', 't']) (by decide)
  · rename_i h _ _ _
    rw [List.singleton_append, decode, if_neg h]

/-- Decoding undoes encoding. -/
theorem decode_encode (s : List Char) : decode (encode s) = s := by
  induction s with
  | nil => simp [encode, decode]
  | cons c s ih =>
    rw [encode, List.flatMap_cons, decode_encodeChar, ← encode, ih]

end Overseer.Markup.Reference

import Overseer.Markup.Element

/-!
Tokens of element content, read one at a time from the front of a text.  Reading takes the longest
name and the longest run of blanks.  `nextToken_length`: a token uses up at least one character.
-/

namespace Overseer.Markup

/-- What is wrong with a text, located by what is left of it from there on. -/
inductive Fault where
  | unexpectedEnd
  | malformed (rest : List Char) (reason : String)
  | mismatchedTag (rest : List Char) (expected found : List Char)
  deriving DecidableEq, Repr

inductive Token where
  | char (c : Char)
  | markup (text : List Char)
  | empty (tag : Tag)
  | opening (tag : Tag)
  | closing (name gap : List Char)
  deriving DecidableEq, Repr

def Token.render : Token → List Char
  | .char c => [c]
  | .markup text => text
  | .empty tag => tag.render ++ ['/', '>']
  | .opening tag => tag.render ++ ['>']
  | .closing name gap => '<' :: '/' :: name ++ gap ++ ['>']

/-! ## Parts of a tag -/

/-- Take the character `c` from the front. -/
def expect (c : Char) (reason : String) : List Char → Except Fault (List Char)
  | [] => .error .unexpectedEnd
  | d :: r => if d = c then .ok r else .error (.malformed (d :: r) reason)

def readQuote : List Char → Except Fault (Quote × List Char)
  | [] => .error .unexpectedEnd
  | c :: r =>
    if c = '"' then .ok (.double, r)
    else if c = '\'' then .ok (.single, r)
    else .error (.malformed (c :: r) "expected quoted attribute value")

/-- The text up to the next quote character. -/
def readValue (quote : Quote) (s : List Char) : Except Fault (List Char × List Char) :=
  match s.dropWhile (· != quote.char) with
  | [] => .error .unexpectedEnd
  | _ :: rest => .ok (s.takeWhile (· != quote.char), rest)

/-- Read an attribute whose leading blanks are read already. -/
def readAttribute (lead s : List Char) : Except Fault (Attribute × List Char) :=
  let name := s.takeWhile isNameChar
  let afterName := s.dropWhile isNameChar
  if name = [] then .error (.malformed afterName "expected attribute name")
  else do
    let s ← expect '=' "expected '=' after attribute name" (afterName.dropWhile isBlank)
    let (quote, r) ← readQuote (s.dropWhile isBlank)
    let (value, rest) ← readValue quote r
    .ok (⟨lead, name, afterName.takeWhile isBlank, s.takeWhile isBlank, quote, value⟩, rest)

theorem expect_length {c : Char} {reason : String} {s r : List Char}
    (h : expect c reason s = .ok r) : r.length < s.length := by
  fun_cases expect c reason s <;> simp_all [expect]

theorem readQuote_length {s r : List Char} {q : Quote} (h : readQuote s = .ok (q, r)) :
    r.length < s.length := by
  fun_cases readQuote s <;> simp_all [readQuote]

theorem readValue_length {q : Quote} {s v r : List Char} (h : readValue q s = .ok (v, r)) :
    r.length < s.length := by
  have hle := (List.dropWhile_suffix (l := s) (· != q.char)).length_le
  unfold readValue at h
  split at h
  · simp at h
  · rename_i hd
    simp at h
    rw [hd, h.2] at hle
    exact hle

theorem readAttribute_length {lead s r : List Char} {a : Attribute}
    (h : readAttribute lead s = .ok (a, r)) : r.length < s.length := by
  simp only [readAttribute, bind, Except.bind] at h
  split at h
  · simp at h
  split at h
  · simp at h
  rename_i s₁ h₁
  split at h
  · simp at h
  rename_i h₂
  split at h
  · simp at h
  rename_i h₃
  simp at h
  have e₁ := expect_length h₁
  have e₂ := readQuote_length h₂
  have e₃ := readValue_length h₃
  have d₁ := (List.dropWhile_suffix (l := s) isNameChar).length_le
  have d₂ := (List.dropWhile_suffix (l := s.dropWhile isNameChar) isBlank).length_le
  have d₃ := (List.dropWhile_suffix (l := s₁) isBlank).length_le
  rw [← h.2]
  omega

/-- The attributes of a tag and the blanks after the last one, up to `/` or `>`. -/
def readAttributes (s : List Char) : Except Fault (List Attribute × List Char × List Char) :=
  let gap := s.takeWhile isBlank
  match s.dropWhile isBlank with
  | [] => .error .unexpectedEnd
  | c :: r =>
    if c = '/' ∨ c = '>' then .ok ([], gap, c :: r)
    else match _h : readAttribute gap (s.dropWhile isBlank) with
      | .error f => .error f
      | .ok (a, rest) => do
        let (as, gap, rest) ← readAttributes rest
        .ok (a :: as, gap, rest)
termination_by s.length
decreasing_by
  have := readAttribute_length _h
  have := (List.dropWhile_suffix (l := s) isBlank).length_le
  omega

/-- Read a start tag, of which `<` is read already, and say whether it closes itself. -/
def readTag (s : List Char) : Except Fault ((Tag × Bool) × List Char) :=
  let name := s.takeWhile isNameChar
  let afterName := s.dropWhile isNameChar
  if name = [] then .error (.malformed afterName "expected element name")
  else do
    let (attributes, gap, r) ← readAttributes afterName
    match r with
    | '/' :: r =>
      let rest ← expect '>' "expected '>' after '/'" r
      .ok ((⟨name, attributes, gap⟩, true), rest)
    | r => .ok ((⟨name, attributes, gap⟩, false), r.tail)

theorem readAttributes_length {s : List Char} {as : List Attribute} {gap r : List Char}
    (h : readAttributes s = .ok (as, gap, r)) : r.length ≤ s.length := by
  fun_induction readAttributes s generalizing as gap r with
  | case1 => simp at h
  | case2 s gap c r hs =>
    have := (List.dropWhile_suffix (l := s) isBlank).length_le
    simp at h
    rw [← h.2.2, ← hs]
    exact this
  | case3 => simp at h
  | case4 s gap c r hs hc a rest ha =>
    rename_i ih
    have e₁ := readAttribute_length ha
    have e₂ := (List.dropWhile_suffix (l := s) isBlank).length_le
    simp only [bind, Except.bind] at h
    split at h
    · simp at h
    rename_i h₁
    have e₃ := ih h₁
    simp only [Except.ok.injEq, Prod.mk.injEq] at h
    rw [← h.2.2]
    omega

theorem readTag_length {s r : List Char} {t : Tag × Bool} (h : readTag s = .ok (t, r)) :
    r.length ≤ s.length := by
  simp only [readTag, bind, Except.bind] at h
  have d := (List.dropWhile_suffix (l := s) isNameChar).length_le
  split at h
  · simp at h
  split at h
  · simp at h
  rename_i h₁
  have e₁ := readAttributes_length h₁
  split at h
  · rename_i hr
    rw [hr] at e₁
    split at h
    · simp at h
    rename_i h₂
    have e₂ := expect_length h₂
    simp at h e₁
    rw [← h.2]
    omega
  · simp at h
    rw [← h.2, List.length_tail]
    omega

/-! ## Comments, sections and declarations -/

/-- How an item of markup that is not an element starts and ends.  The first start that fits
decides. -/
def markupForms : List (List Char × List Char) :=
  [(['<', '!', '-', '-'], ['-', '-', '>']),
   (['<', '!', '[', 'C', 'D', 'A', 'T', 'A', '['], [']', ']', '>']),
   (['<', '?'], ['?', '>']),
   (['<', '!'], ['>'])]

/-- The end of the markup item that starts here, if one does. -/
def markupEnd? (s : List Char) : Option (List Char) :=
  (markupForms.find? (·.1.isPrefixOf s)).map (·.2)

/-- Split after the first occurrence of `mark`. -/
def splitPast (mark : List Char) : List Char → Option (List Char × List Char)
  | [] => none
  | c :: r =>
    if mark.isPrefixOf (c :: r) then some (mark, (c :: r).drop mark.length)
    else (splitPast mark r).map fun (before, after) => (c :: before, after)

/-- Read the markup item that starts here.  Its end may overlap its start. -/
def readMarkup (stop s : List Char) : Except Fault (List Char × List Char) :=
  match splitPast stop s with
  | none => .error .unexpectedEnd
  | some split => .ok split

theorem splitPast_append {mark s before after : List Char}
    (h : splitPast mark s = some (before, after)) : before ++ after = s := by
  induction s generalizing before with
  | nil => simp [splitPast] at h
  | cons c r ih =>
    unfold splitPast at h
    split at h
    · rename_i hm
      simp at h
      rw [← h.1, ← h.2]
      obtain ⟨tail, ht⟩ := List.isPrefixOf_iff_prefix.mp hm
      rw [← ht, List.drop_left]
    · simp only [Option.map_eq_some_iff, Prod.mk.injEq, Prod.exists] at h
      obtain ⟨b, a, hs, hb, ha⟩ := h
      rw [← hb, List.cons_append, ih (ha ▸ hs)]

theorem splitPast_ne_nil {mark s before after : List Char} (hm : mark ≠ [])
    (h : splitPast mark s = some (before, after)) : before ≠ [] := by
  cases s with
  | nil => simp [splitPast] at h
  | cons c r =>
    unfold splitPast at h
    split at h
    · simp at h
      exact h.1 ▸ hm
    · simp only [Option.map_eq_some_iff, Prod.mk.injEq, Prod.exists] at h
      obtain ⟨_, _, _, hb, _⟩ := h
      simp [← hb]

theorem markupEnd?_ne_nil {s stop : List Char} (h : markupEnd? s = some stop) : stop ≠ [] := by
  simp only [markupEnd?, Option.map_eq_some_iff] at h
  obtain ⟨form, hf, hs⟩ := h
  have := List.mem_of_find?_eq_some hf
  simp [markupForms] at this
  rcases this with h | h | h | h <;> simp [← hs, h]

theorem readMarkup_length {s stop text r : List Char} (hs : stop ≠ [])
    (h : readMarkup stop s = .ok (text, r)) : r.length < s.length := by
  unfold readMarkup at h
  split at h
  · simp at h
  · rename_i split hp
    simp at h
    rw [h] at hp
    have hn := List.length_pos_iff.mpr (splitPast_ne_nil hs hp)
    rw [← splitPast_append hp, List.length_append]
    omega

/-! ## Tokens -/

/-- Read a closing tag, of which `</` is read already. -/
def readClosing (s : List Char) : Except Fault (Token × List Char) :=
  let afterName := s.dropWhile isNameChar
  do
    let rest ← expect '>' "expected '>' in closing tag" (afterName.dropWhile isBlank)
    .ok (.closing (s.takeWhile isNameChar) (afterName.takeWhile isBlank), rest)

/-- The token at the front of a text. -/
def nextToken (s : List Char) : Except Fault (Token × List Char) :=
  match s with
  | [] => .error .unexpectedEnd
  | c :: r =>
    if c ≠ '<' then .ok (.char c, r)
    else if r.head? = some '/' then readClosing r.tail
    else match markupEnd? s with
      | some stop => do
        let (text, rest) ← readMarkup stop s
        .ok (.markup text, rest)
      | none => do
        let ((tag, closesItself), rest) ← readTag r
        .ok (if closesItself then .empty tag else .opening tag, rest)

theorem readClosing_length {s r : List Char} {t : Token} (h : readClosing s = .ok (t, r)) :
    r.length < s.length := by
  simp only [readClosing, bind, Except.bind] at h
  split at h
  · simp at h
  rename_i h₁
  have e₁ := expect_length h₁
  have d₁ := (List.dropWhile_suffix (l := s) isNameChar).length_le
  have d₂ := (List.dropWhile_suffix (l := s.dropWhile isNameChar) isBlank).length_le
  simp at h
  rw [← h.2]
  omega

/-- A token uses up at least one character. -/
theorem nextToken_length {s r : List Char} {t : Token} (h : nextToken s = .ok (t, r)) :
    r.length < s.length := by
  cases s with
  | nil => simp [nextToken] at h
  | cons c s =>
    simp only [nextToken, bind, Except.bind] at h
    rw [List.length_cons]
    split at h
    · simp at h
      rw [h.2]
      omega
    split at h
    · have := readClosing_length h
      rw [List.length_tail] at this
      omega
    split at h
    · rename_i stop hstop
      split at h
      · simp at h
      rename_i h₁
      simp at h
      rw [← h.2]
      exact readMarkup_length (markupEnd?_ne_nil hstop) h₁
    · split at h
      · simp at h
      rename_i h₁
      have := readTag_length h₁
      simp at h
      rw [← h.2]
      omega

end Overseer.Markup

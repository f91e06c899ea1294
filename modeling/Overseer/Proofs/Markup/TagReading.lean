import Mathlib.Data.List.Basic
import Mathlib.Data.List.TakeWhile
import Overseer.Proofs.Markup.Grammar
import Overseer.Proofs.Trimming

/-!
Tags are read as the grammar has them.  For every reader one lemma says what it reads off a text
that it accepts, and one that a text of the grammar is read as it should be, whatever follows.
-/

namespace Overseer.Markup

/-! ## Runs of characters -/

theorem takeWhile_run {p : Char → Bool} {s t : List Char} (hs : ∀ c ∈ s, p c = true)
    (ht : ∀ c, t.head? = some c → p c = false) : (s ++ t).takeWhile p = s := by
  rw [List.takeWhile_append_of_pos hs]
  cases t with
  | nil => simp
  | cons c t => simp [ht c rfl]

theorem dropWhile_run {p : Char → Bool} {s t : List Char} (hs : ∀ c ∈ s, p c = true)
    (ht : ∀ c, t.head? = some c → p c = false) : (s ++ t).dropWhile p = t := by
  rw [List.dropWhile_append_of_pos hs]
  cases t with
  | nil => simp
  | cons c t => simp [ht c rfl]

theorem allBlank_takeWhile (s : List Char) : AllBlank (s.takeWhile isBlank) :=
  fun _ hc => List.mem_takeWhile_imp hc

/-! ## Parts of a tag -/

theorem expect_eq_ok_iff {c : Char} {reason : String} {s r : List Char} :
    expect c reason s = .ok r ↔ s = c :: r := by
  cases s with
  | nil => simp [expect]
  | cons d s =>
    by_cases h : d = c
    · simp [expect, h]
    · simp [expect, h]

theorem readQuote_eq_ok_iff {s r : List Char} {q : Quote} :
    readQuote s = .ok (q, r) ↔ s = q.char :: r := by
  cases s with
  | nil => simp [readQuote]
  | cons c s =>
    by_cases hd : c = '"'
    · cases q <;> simp [readQuote, hd, Quote.char]
    · by_cases hs : c = '\''
      · cases q <;> simp [readQuote, hs, Quote.char]
      · cases q <;> simp [readQuote, hd, hs, Quote.char]

theorem readValue_eq_ok_iff {q : Quote} {s v r : List Char} :
    readValue q s = .ok (v, r) ↔ s = v ++ q.char :: r ∧ q.char ∉ v := by
  constructor
  · intro h
    unfold readValue at h
    split at h
    · simp at h
    · rename_i c rest hd
      simp only [Except.ok.injEq, Prod.mk.injEq] at h
      obtain ⟨rfl, rfl⟩ := h
      have hc : c = q.char := by
        have := Text.head?_dropWhile_false (p := (· != q.char)) (s := s) c (by rw [hd]; rfl)
        simpa using this
      refine ⟨?_, fun hq => by simpa using List.mem_takeWhile_imp hq⟩
      rw [hc] at hd
      rw [← hd, List.takeWhile_append_dropWhile]
  · rintro ⟨rfl, hv⟩
    have hp : ∀ c ∈ v, (c != q.char) = true := by
      intro c hc
      simp only [bne_iff_ne, ne_eq]
      exact fun e => hv (e ▸ hc)
    have ht : ∀ c, (q.char :: r).head? = some c → (c != q.char) = false := by simp
    rw [readValue, dropWhile_run hp ht, takeWhile_run hp ht]

/-- The text after a name that was read as far as it goes does not extend it. -/
theorem endsName_of_append_eq {s t r : List Char} (h : t ++ r = s.dropWhile isNameChar) :
    EndsName t := by
  intro c hc
  apply Text.head?_dropWhile_false (p := isNameChar) (s := s) c
  rw [← h, List.head?_append_of_ne_nil _ (by rintro rfl; cases hc)]
  exact hc

theorem not_isBlank_eq : isBlank '=' = false := by decide

theorem not_isBlank_quote (q : Quote) : isBlank q.char = false := by cases q <;> decide

/-- What an attribute is, read back from its parts. -/
theorem readAttribute_sound {lead s r : List Char} {a : Attribute} (hlead : AllBlank lead)
    (hs : ∀ c, s.head? = some c → isBlank c = false) (h : readAttribute lead s = .ok (a, r)) :
    a.render ++ r = lead ++ s ∧ a.Formed ∧ a.Settled := by
  simp only [readAttribute, bind, Except.bind] at h
  split at h
  · simp at h
  rename_i hname
  split at h
  · simp at h
  rename_i s₁ h₁
  split at h
  · simp at h
  rename_i p h₂
  obtain ⟨q, s₂⟩ := p
  split at h
  · simp at h
  rename_i p h₃
  obtain ⟨v, rest⟩ := p
  simp only [Except.ok.injEq, Prod.mk.injEq] at h
  obtain ⟨rfl, rfl⟩ := h
  rw [expect_eq_ok_iff] at h₁
  rw [readQuote_eq_ok_iff] at h₂
  obtain ⟨h₃, hv⟩ := readValue_eq_ok_iff.mp h₃
  dsimp only at h₃ hv ⊢
  have e₁ := List.takeWhile_append_dropWhile (p := isNameChar) (l := s)
  have e₂ := List.takeWhile_append_dropWhile (p := isBlank) (l := s.dropWhile isNameChar)
  have e₃ := List.takeWhile_append_dropWhile (p := isBlank) (l := s₁)
  have hended : EndsName ((s.dropWhile isNameChar).takeWhile isBlank ++ ['=']) := by
    apply endsName_of_append_eq (s := s) (r := s₁)
    rw [List.append_assoc, List.singleton_append, ← h₁, e₂]
  refine ⟨?_, ?_, ?_⟩
  · have hs' : lead ++ s = lead ++ (s.takeWhile isNameChar ++
        ((s.dropWhile isNameChar).takeWhile isBlank ++
          '=' :: (s₁.takeWhile isBlank ++ q.char :: (v ++ q.char :: rest)))) := by
      rw [← h₃, ← h₂, e₃, ← h₁, e₂, e₁]
    rw [hs']
    simp [Attribute.render]
  · exact ⟨hlead, ⟨hname, fun _ hc => List.mem_takeWhile_imp hc⟩, hended, allBlank_takeWhile _,
      allBlank_takeWhile _, hv⟩
  · intro c hc
    apply hs c
    rw [← e₁, List.head?_append_of_ne_nil _ hname]
    exact hc

/-- An attribute of the grammar is read whatever follows it. -/
theorem readAttribute_complete {a : Attribute} (h : a.Formed) (rest : List Char) :
    ∃ s, a.render ++ rest = a.lead ++ s ∧ s.head? = a.name.head? ∧
      readAttribute a.lead s = .ok (a, rest) := by
  have hq := not_isBlank_quote a.quote
  let tail := a.afterEq ++ a.quote.char :: (a.value ++ a.quote.char :: rest)
  refine ⟨a.name ++ (a.beforeEq ++ '=' :: tail), ?_, List.head?_append_of_ne_nil _ h.name.1, ?_⟩
  · simp [Attribute.render, tail]
  · have hended : ∀ c, (a.beforeEq ++ '=' :: tail).head? = some c → isNameChar c = false := by
      intro c hc
      apply h.ended c
      cases hb : a.beforeEq <;> simpa [hb] using hc
    have heq : ∀ c, ('=' :: tail).head? = some c → isBlank c = false := by
      simp [not_isBlank_eq]
    have hquote : ∀ c, (a.quote.char :: (a.value ++ a.quote.char :: rest)).head? = some c →
        isBlank c = false := by
      simp [not_isBlank_quote]
    have hvalue : readValue a.quote (a.value ++ a.quote.char :: rest) = .ok (a.value, rest) :=
      readValue_eq_ok_iff.mpr ⟨rfl, h.value⟩
    simp only [readAttribute, bind, Except.bind, takeWhile_run h.name.2 hended,
      dropWhile_run h.name.2 hended, if_neg h.name.1, dropWhile_run h.beforeEq heq,
      takeWhile_run h.beforeEq heq, expect_eq_ok_iff.mpr rfl, tail,
      dropWhile_run h.afterEq hquote, takeWhile_run h.afterEq hquote,
      readQuote_eq_ok_iff.mpr rfl, hvalue]

/-! ## Tags -/

theorem readAttributes_sound {s r : List Char} {as : List Attribute} {gap : List Char}
    (h : readAttributes s = .ok (as, gap, r)) :
    as.flatMap Attribute.render ++ gap ++ r = s ∧ (∀ a ∈ as, a.Formed ∧ a.Settled) ∧
      AllBlank gap ∧ (r.head? = some '/' ∨ r.head? = some '>') := by
  fun_induction readAttributes s generalizing as gap r with
  | case1 => simp at h
  | case2 s _ c r' hs =>
    rename_i hc
    simp only [Except.ok.injEq, Prod.mk.injEq] at h
    obtain ⟨rfl, rfl, rfl⟩ := h
    refine ⟨?_, by simp, allBlank_takeWhile s, by simpa using hc⟩
    rw [List.flatMap_nil, List.nil_append, ← hs, List.takeWhile_append_dropWhile]
  | case3 => simp at h
  | case4 s _ c r' hs hc a rest ha =>
    rename_i ih
    simp only [bind, Except.bind] at h
    split at h
    · simp at h
    rename_i p hp
    obtain ⟨as', gap'', r''⟩ := p
    simp only [Except.ok.injEq, Prod.mk.injEq] at h
    obtain ⟨rfl, rfl, rfl⟩ := h
    obtain ⟨htext, hformed, hgap, hr⟩ := ih hp
    obtain ⟨hrender, ha'⟩ := readAttribute_sound (allBlank_takeWhile s) Text.head?_dropWhile_false ha
    rw [List.takeWhile_append_dropWhile] at hrender
    refine ⟨?_, ?_, hgap, hr⟩
    · rw [← hrender, ← htext]
      simp
    · intro b hb
      rcases List.mem_cons.mp hb with rfl | hb
      · exact ha'
      · exact hformed b hb

theorem readAttributes_complete {as : List Attribute} {gap : List Char} {c : Char}
    (has : ∀ a ∈ as, a.Formed ∧ a.Settled) (hgap : AllBlank gap) (hc : c = '/' ∨ c = '>')
    (r : List Char) :
    readAttributes (as.flatMap Attribute.render ++ gap ++ c :: r) = .ok (as, gap, c :: r) := by
  induction as with
  | nil =>
    have hstop : ∀ d, (c :: r).head? = some d → isBlank d = false := by
      rcases hc with rfl | rfl <;> simp <;> decide
    rw [List.flatMap_nil, List.nil_append, readAttributes]
    simp only [dropWhile_run hgap hstop, takeWhile_run hgap hstop, if_pos hc]
  | cons a as ih =>
    have ih := ih fun b hb => has b (List.mem_cons_of_mem _ hb)
    obtain ⟨hformed, hsettled⟩ := has a (List.mem_cons_self ..)
    obtain ⟨s, hs, hhead, hread⟩ :=
      readAttribute_complete hformed (as.flatMap Attribute.render ++ gap ++ c :: r)
    have htext : (a :: as).flatMap Attribute.render ++ gap ++ c :: r = a.lead ++ s := by
      rw [← hs]
      simp
    have hblank : ∀ d, s.head? = some d → isBlank d = false := by
      rw [hhead]
      exact hsettled
    have htake := takeWhile_run hformed.lead hblank
    have hdrop := dropWhile_run hformed.lead hblank
    rw [htext, readAttributes]
    cases s with
    | nil => exact absurd (List.head?_eq_none_iff.mp hhead.symm) hformed.name.1
    | cons d s =>
      -- a name stands here, so the attributes do not end here
      have hd : isNameChar d = true := hformed.name.2 d (List.mem_of_head? hhead.symm)
      have hopen : ¬ (d = '/' ∨ d = '>') := by
        rintro (rfl | rfl) <;> exact absurd hd (by decide)
      simp only [hdrop, if_neg hopen]
      split
      · rename_i heq
        rw [htake, hdrop, hread] at heq
        cases heq
      · rename_i heq
        rw [htake, hdrop, hread] at heq
        cases heq
        rw [ih]
        rfl

theorem endsName_of_head? {s : List Char} (h : s.head? = some '/' ∨ s.head? = some '>') :
    EndsName s := by
  intro c hc
  rcases h with h | h <;> rw [h] at hc <;> cases hc <;> decide

/-- How a start tag ends. -/
def bracket (closesItself : Bool) : List Char := if closesItself then ['/', '>'] else ['>']

theorem readTag_sound {s r : List Char} {t : Tag} {closesItself : Bool}
    (h : readTag s = .ok ((t, closesItself), r)) :
    t.render ++ bracket closesItself ++ r = '<' :: s ∧ t.Settled := by
  simp only [readTag, bind, Except.bind] at h
  split at h
  · simp at h
  rename_i hname
  split at h
  · simp at h
  rename_i p hp
  obtain ⟨as, gap, r'⟩ := p
  obtain ⟨htext, hformed, hgap, hstop⟩ := readAttributes_sound hp
  have e := List.takeWhile_append_dropWhile (p := isNameChar) (l := s)
  have hended : EndsName (as.flatMap Attribute.render ++ gap) := endsName_of_append_eq htext
  have hsettled : (⟨s.takeWhile isNameChar, as, gap⟩ : Tag).Settled :=
    ⟨⟨⟨hname, fun _ hc => List.mem_takeWhile_imp hc⟩, hended, fun a ha => (hformed a ha).1, hgap⟩,
      fun a ha => (hformed a ha).2⟩
  dsimp only at h
  split at h
  · rename_i r₁
    split at h
    · simp at h
    rename_i r₂ hr₂
    simp only [Except.ok.injEq, Prod.mk.injEq] at h
    obtain ⟨⟨rfl, rfl⟩, rfl⟩ := h
    rw [expect_eq_ok_iff] at hr₂
    refine ⟨?_, hsettled⟩
    conv => rhs; rw [← e, ← htext, hr₂]
    simp [Tag.render, bracket]
  · rename_i r₁ hne
    simp only [Except.ok.injEq, Prod.mk.injEq] at h
    obtain ⟨⟨rfl, rfl⟩, rfl⟩ := h
    refine ⟨?_, hsettled⟩
    cases r' with
    | nil => simp at hstop
    | cons c r₂ =>
      have hc : c = '>' := by
        rcases hstop with h | h
        · simp at h
          exact absurd (by rw [h]) (hne r₂)
        · simpa using h
      conv => rhs; rw [← e, ← htext, hc]
      simp [Tag.render, bracket]

theorem readTag_complete {t : Tag} (h : t.Settled) (closesItself : Bool) (r : List Char) :
    readTag (t.render.tail ++ bracket closesItself ++ r) = .ok ((t, closesItself), r) := by
  obtain ⟨c, stop, hstop, hc⟩ : ∃ c stop, bracket closesItself ++ r = c :: stop ∧
      (c = '/' ∨ c = '>') := by
    cases closesItself
    · exact ⟨'>', r, rfl, .inr rfl⟩
    · exact ⟨'/', '>' :: r, rfl, .inl rfl⟩
  have hended : ∀ d, (t.attributes.flatMap Attribute.render ++ t.gap ++ c :: stop).head? = some d →
      isNameChar d = false := by
    intro d hd
    cases hrest : t.attributes.flatMap Attribute.render ++ t.gap with
    | nil =>
      rw [hrest] at hd
      exact endsName_of_head? (s := c :: stop) (by simpa using hc) d hd
    | cons e rest =>
      apply h.ended d
      rw [hrest] at hd ⊢
      exact hd
  have htext : t.render.tail ++ bracket closesItself ++ r =
      t.name ++ (t.attributes.flatMap Attribute.render ++ t.gap ++ c :: stop) := by
    rw [← hstop]
    simp [Tag.render]
  have hread := readAttributes_complete (fun a ha => ⟨h.attributes a ha, h.settled a ha⟩) h.gap hc
    stop
  simp only [htext, readTag, takeWhile_run h.name.2 hended, dropWhile_run h.name.2 hended,
    if_neg h.name.1, bind, Except.bind, hread]
  cases closesItself
  · cases hstop
    rfl
  · cases hstop
    rfl

end Overseer.Markup

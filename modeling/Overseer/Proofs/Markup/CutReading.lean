import Overseer.Proofs.Markup.TagReading

/-!
Reading texts that were cut.  A text that is read in some way is read in the same way when it is cut
behind what is read, and else found to end too early (`CutsTo`): one lemma for each reader of tags,
since all of them look for the next character that ends what they read.
-/

namespace Overseer.Markup

/-! ## Runs of characters -/

section
variable {p : Char → Bool} {s : List Char} (h : s.dropWhile p ≠ []) (w : List Char)
include h

theorem dropWhile_cut : (s ++ w).dropWhile p = s.dropWhile p ++ w := by
  rw [List.dropWhile_append, if_neg (by simpa using h)]

theorem takeWhile_cut : (s ++ w).takeWhile p = s.takeWhile p := by
  have hsplit := List.takeWhile_append_dropWhile (p := p) (l := s)
  have hends : ∀ c, (s.dropWhile p ++ w).head? = some c → p c = false := by
    intro c hc
    rw [List.head?_append_of_ne_nil _ h] at hc
    exact Text.head?_dropWhile_false c hc
  conv => lhs; rw [← hsplit, List.append_assoc]
  exact takeWhile_run (fun _ hc => List.mem_takeWhile_imp hc) hends

end

theorem takeWhile_eq_self_of_dropWhile {p : Char → Bool} {s : List Char} (h : s.dropWhile p = []) :
    s.takeWhile p = s := by
  have hsplit := List.takeWhile_append_dropWhile (p := p) (l := s)
  rwa [h, List.append_nil] at hsplit

/-! ## Outcomes -/

/-- What comes of a text of which `w` was cut off, when reading the whole text would leave `rest`:
it ends too early, or the same is got of it, and what is left lacks just `w`. -/
def CutsTo {γ : Type} (o : Except Fault γ) (got : List Char → γ) (w rest : List Char) : Prop :=
  o = .error .unexpectedEnd ∨ ∃ r, o = .ok (got r) ∧ r ++ w = rest

namespace CutsTo

variable {γ δ : Type} {o : Except Fault γ} {got : List Char → γ} {w mid rest : List Char}

theorem intro (r : List Char) : CutsTo (.ok (got r)) got w (r ++ w) := .inr ⟨r, rfl, rfl⟩

theorem bind (h : CutsTo o got w mid) {k : γ → Except Fault δ} {got' : List Char → δ}
    (hk : ∀ r, o = .ok (got r) → r ++ w = mid → CutsTo (k (got r)) got' w rest) :
    CutsTo (o.bind k) got' w rest := by
  rcases h with hend | ⟨r, hr, hmid⟩
  · left
    rw [hend]
    rfl
  · rw [hr]
    exact hk r hr hmid

theorem map (h : CutsTo o got w rest) (f : γ → δ) :
    CutsTo (o.map f) (fun r => f (got r)) w rest := by
  rcases h with hend | ⟨r, hr, hrest⟩
  · left
    rw [hend]
    rfl
  · right
    exact ⟨r, by rw [hr]; rfl, hrest⟩

/-- Nothing can be cut off from nothing. -/
theorem ends (h : CutsTo o got w []) (hw : w ≠ []) : o = .error .unexpectedEnd :=
  h.resolve_right fun ⟨_, _, hr⟩ => hw (List.append_eq_nil_iff.mp hr).2

end CutsTo

/-! ## Readers -/

section
variable {s w rest : List Char}

theorem expect_cut {c : Char} {reason : String} (h : expect c reason (s ++ w) = .ok rest) :
    CutsTo (expect c reason s) id w rest := by
  cases s with
  | nil => exact .inl rfl
  | cons d s =>
    rw [expect_eq_ok_iff, List.cons_append, List.cons.injEq] at h
    obtain ⟨rfl, rfl⟩ := h
    exact .inr ⟨s, expect_eq_ok_iff.mpr rfl, rfl⟩

theorem expect_blanks_cut {c : Char} {reason : String}
    (h : expect c reason ((s ++ w).dropWhile isBlank) = .ok rest) :
    CutsTo (expect c reason (s.dropWhile isBlank)) id w rest := by
  by_cases hs : s.dropWhile isBlank = []
  · rw [hs]
    exact .inl rfl
  · rw [dropWhile_cut hs] at h
    exact expect_cut h

theorem readQuote_blanks_cut {q : Quote}
    (h : readQuote ((s ++ w).dropWhile isBlank) = .ok (q, rest)) :
    CutsTo (readQuote (s.dropWhile isBlank)) (q, ·) w rest := by
  by_cases hs : s.dropWhile isBlank = []
  · rw [hs]
    exact .inl rfl
  · rw [dropWhile_cut hs, readQuote_eq_ok_iff] at h
    obtain ⟨c, r, hr⟩ := List.exists_cons_of_ne_nil hs
    rw [hr, List.cons_append, List.cons.injEq] at h
    obtain ⟨rfl, rfl⟩ := h
    exact .inr ⟨r, readQuote_eq_ok_iff.mpr hr, rfl⟩

/-- Blanks before something that is read are all there. -/
theorem takeWhile_cut_of_expect {c : Char} {reason : String} {r : List Char}
    (h : expect c reason (s.dropWhile isBlank) = .ok r) :
    (s ++ w).takeWhile isBlank = s.takeWhile isBlank := by
  refine takeWhile_cut ?_ w
  rw [expect_eq_ok_iff.mp h]
  exact List.cons_ne_nil c r

theorem takeWhile_cut_of_readQuote {q : Quote} {r : List Char}
    (h : readQuote (s.dropWhile isBlank) = .ok (q, r)) :
    (s ++ w).takeWhile isBlank = s.takeWhile isBlank := by
  refine takeWhile_cut ?_ w
  rw [readQuote_eq_ok_iff.mp h]
  exact List.cons_ne_nil q.char r

theorem readValue_cut {q : Quote} {v : List Char} (h : readValue q (s ++ w) = .ok (v, rest)) :
    CutsTo (readValue q s) (v, ·) w rest := by
  by_cases hs : s.dropWhile (· != q.char) = []
  · left
    rw [readValue, hs]
  · obtain ⟨c, r, hr⟩ := List.exists_cons_of_ne_nil hs
    rw [readValue, dropWhile_cut hs, hr, takeWhile_cut hs] at h
    simp only [List.cons_append, Except.ok.injEq, Prod.mk.injEq] at h
    right
    exact ⟨r, by rw [readValue, hr, h.1], h.2⟩

theorem readAttribute_cut {lead : List Char} {a : Attribute} (hs : s ≠ [])
    (h : readAttribute lead (s ++ w) = .ok (a, rest)) :
    CutsTo (readAttribute lead s) (a, ·) w rest := by
  by_cases hafter : s.dropWhile isNameChar = []
  · -- the name goes on to the end
    left
    simp only [readAttribute, hafter, takeWhile_eq_self_of_dropWhile hafter, if_neg hs]
    rfl
  simp only [readAttribute, takeWhile_cut hafter, dropWhile_cut hafter, bind, Except.bind] at h
  split at h
  · simp at h
  rename_i hname
  split at h
  · simp at h
  rename_i s₁ h₁
  split at h
  · simp at h
  rename_i p₂ h₂
  obtain ⟨q, s₂⟩ := p₂
  split at h
  · simp at h
  rename_i p₃ h₃
  obtain ⟨v, s₃⟩ := p₃
  simp only [Except.ok.injEq, Prod.mk.injEq] at h
  obtain ⟨rfl, rfl⟩ := h
  simp only [readAttribute, if_neg hname]
  refine (expect_blanks_cut h₁).bind fun r₁ hr₁ hs₁ => ?_
  rw [id] at hr₁
  subst hs₁
  refine (readQuote_blanks_cut h₂).bind fun r₂ hr₂ hs₂ => ?_
  subst hs₂
  refine (readValue_cut h₃).bind fun r₃ _ hs₃ => ?_
  subst hs₃
  rw [takeWhile_cut_of_expect hr₁, takeWhile_cut_of_readQuote hr₂]
  exact .intro r₃

theorem readAttributes_stop {c : Char} {r : List Char} (hs : s.dropWhile isBlank = c :: r)
    (hc : c = '/' ∨ c = '>') : readAttributes s = .ok ([], s.takeWhile isBlank, c :: r) := by
  rw [readAttributes]
  simp only [hs, if_pos hc]

theorem readAttributes_step {c : Char} {r : List Char} (hs : s.dropWhile isBlank = c :: r)
    (hc : ¬ (c = '/' ∨ c = '>')) :
    readAttributes s = (readAttribute (s.takeWhile isBlank) (c :: r)).bind fun p =>
      (readAttributes p.2).map fun q => (p.1 :: q.1, q.2) := by
  rw [readAttributes]
  simp only [hs, if_neg hc]
  split <;> rename_i heq <;> rw [hs] at heq <;> rw [heq]
  · rfl
  · rename_i a rest
    change _ = (readAttributes rest).map _
    cases readAttributes rest <;> rfl

theorem readAttributes_cut {as : List Attribute} {gap : List Char}
    (h : readAttributes (s ++ w) = .ok (as, gap, rest)) :
    CutsTo (readAttributes s) (as, gap, ·) w rest := by
  induction hn : s.length using Nat.strongRecOn generalizing s as with
  | ind n ih =>
    by_cases hs : s.dropWhile isBlank = []
    · left
      rw [readAttributes]
      simp only [hs]
    obtain ⟨c, r, hr⟩ := List.exists_cons_of_ne_nil hs
    have hfull : (s ++ w).dropWhile isBlank = c :: (r ++ w) := by
      rw [dropWhile_cut hs, hr, List.cons_append]
    by_cases hc : c = '/' ∨ c = '>'
    · rw [readAttributes_stop hfull hc, takeWhile_cut hs] at h
      simp only [Except.ok.injEq, Prod.mk.injEq] at h
      obtain ⟨rfl, rfl, rfl⟩ := h
      exact .inr ⟨c :: r, readAttributes_stop hr hc, rfl⟩
    rw [readAttributes_step hfull hc, takeWhile_cut hs] at h
    rw [readAttributes_step hr hc]
    cases hfirst : readAttribute (s.takeWhile isBlank) (c :: (r ++ w)) with
    | error f => simp [hfirst, Except.bind] at h
    | ok p =>
      obtain ⟨a, mid⟩ := p
      simp only [hfirst, Except.bind] at h
      cases hothers : readAttributes mid with
      | error f => simp [hothers, Except.map] at h
      | ok p =>
        obtain ⟨as', gap', rest'⟩ := p
        simp only [hothers, Except.map, Except.ok.injEq, Prod.mk.injEq] at h
        obtain ⟨rfl, rfl, rfl⟩ := h
        refine (readAttribute_cut (List.cons_ne_nil c r) hfirst).bind fun r₁ hr₁ hmid => ?_
        subst hmid
        have hshorter : r₁.length < n := by
          have hless := readAttribute_length hr₁
          have hle := List.length_dropWhile_le isBlank s
          rw [hr] at hle
          omega
        exact (ih r₁.length hshorter hothers rfl).map _

theorem readTag_slash {as : List Attribute} {gap r : List Char}
    (hname : s.takeWhile isNameChar ≠ [])
    (h : readAttributes (s.dropWhile isNameChar) = .ok (as, gap, '/' :: r)) :
    readTag s = (expect '>' "expected '>' after '/'" r).map fun rest =>
      ((⟨s.takeWhile isNameChar, as, gap⟩, true), rest) := by
  simp only [readTag, if_neg hname, h, bind, Except.bind]
  cases expect '>' "expected '>' after '/'" r <;> rfl

theorem readTag_bracket {as : List Attribute} {gap r : List Char}
    (hname : s.takeWhile isNameChar ≠ [])
    (h : readAttributes (s.dropWhile isNameChar) = .ok (as, gap, '>' :: r)) :
    readTag s = .ok ((⟨s.takeWhile isNameChar, as, gap⟩, false), r) := by
  simp only [readTag, if_neg hname, h, bind, Except.bind]
  rfl

/-- Only without any text a name is missed. -/
theorem readTag_cut {tag : Tag} {closesItself : Bool} (hs : s ≠ [])
    (h : readTag (s ++ w) = .ok ((tag, closesItself), rest)) :
    CutsTo (readTag s) ((tag, closesItself), ·) w rest := by
  by_cases hafter : s.dropWhile isNameChar = []
  · left
    simp only [readTag, hafter, takeWhile_eq_self_of_dropWhile hafter, if_neg hs]
    rw [readAttributes]
    rfl
  have hname : s.takeWhile isNameChar ≠ [] := by
    intro hnone
    simp [readTag, takeWhile_cut hafter, hnone] at h
  have hname' : (s ++ w).takeWhile isNameChar ≠ [] := by rwa [takeWhile_cut hafter]
  cases hattributes : readAttributes ((s ++ w).dropWhile isNameChar) with
  | error f => simp [readTag, hname', hattributes, bind, Except.bind] at h
  | ok p =>
    obtain ⟨as, gap, mid⟩ := p
    have hcut := hattributes
    rw [dropWhile_cut hafter] at hcut
    rcases readAttributes_cut hcut with hend | ⟨r, hr, rfl⟩
    · left
      simp only [readTag, if_neg hname, hend, bind, Except.bind]
    obtain ⟨_, _, _, hstop⟩ := readAttributes_sound hr
    cases r with
    | nil => simp at hstop
    | cons c r =>
      simp only [List.head?_cons, Option.some.injEq] at hstop
      rcases hstop with rfl | rfl
      · rw [readTag_slash (r := r ++ w) hname' hattributes, takeWhile_cut hafter] at h
        rw [readTag_slash hname hr]
        cases hclose : expect '>' "expected '>' after '/'" (r ++ w) with
        | error f => simp [hclose, Except.map] at h
        | ok rest' =>
          simp only [hclose, Except.map, Except.ok.injEq, Prod.mk.injEq] at h
          obtain ⟨⟨rfl, rfl⟩, rfl⟩ := h
          exact (expect_cut hclose).map _
      · rw [readTag_bracket hname' hattributes, takeWhile_cut hafter] at h
        simp only [Except.ok.injEq, Prod.mk.injEq] at h
        obtain ⟨⟨rfl, rfl⟩, rfl⟩ := h
        rw [readTag_bracket hname hr]
        exact .intro r

theorem readClosing_cut {t : Token} (h : readClosing (s ++ w) = .ok (t, rest)) :
    CutsTo (readClosing s) (t, ·) w rest := by
  by_cases hafter : s.dropWhile isNameChar = []
  · left
    rw [readClosing, hafter]
    rfl
  simp only [readClosing, takeWhile_cut hafter, dropWhile_cut hafter, bind, Except.bind] at h
  split at h
  · simp at h
  rename_i s₁ hclose
  simp only [Except.ok.injEq, Prod.mk.injEq] at h
  obtain ⟨rfl, rfl⟩ := h
  refine (expect_blanks_cut hclose).bind fun r hr hs₁ => ?_
  subst hs₁
  rw [takeWhile_cut_of_expect hr]
  exact .intro r

end

end Overseer.Markup

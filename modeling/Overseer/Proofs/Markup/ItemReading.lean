import Overseer.Proofs.Markup.Grammar

/-!
Markup items: what is read at the start of an item is the item of the grammar
(`readMarkup_eq_ok_iff`).
-/

namespace Overseer.Markup

/-! ## Up to a mark -/

theorem upTo_of_splitPast {mark s before after : List Char}
    (h : splitPast mark s = some (before, after)) : UpTo mark before := by
  induction s generalizing before with
  | nil => simp [splitPast] at h
  | cons c r ih =>
    have hs := splitPast_append h
    unfold splitPast at h
    split at h
    · simp only [Option.some.injEq, Prod.mk.injEq] at h
      rw [← h.1]
      refine ⟨List.suffix_rfl, fun v w hvw => ?_⟩
      have hlen := congrArg List.length hvw
      simp only [List.length_append] at hlen
      exact List.length_eq_zero_iff.mp (by omega)
    · rename_i hprefix
      simp only [Option.map_eq_some_iff, Prod.mk.injEq, Prod.exists] at h
      obtain ⟨b, a, hsplit, rfl, rfl⟩ := h
      obtain ⟨⟨u, hu⟩, hfirst⟩ := ih hsplit
      refine ⟨⟨c :: u, by rw [← hu]; rfl⟩, fun v w hvw => ?_⟩
      cases v with
      | nil =>
        -- the mark would stand at the front, where the reader looked for it
        have hfront : mark <+: c :: r := by
          rw [← hs, hvw]
          exact ⟨w ++ a, by simp⟩
        exact absurd (List.isPrefixOf_iff_prefix.mpr hfront) hprefix
      | cons d v =>
        simp only [List.cons_append, List.cons.injEq] at hvw
        exact hfirst v w hvw.2

/-- A mark that occurs first at the end does not stand at the front of a longer text. -/
theorem UpTo.not_prefix {mark u : List Char} {c : Char} (h : UpTo mark (c :: (u ++ mark)))
    (after : List Char) : ¬ mark <+: c :: (u ++ mark ++ after) := by
  intro hp
  have hlong : c :: (u ++ mark) <+: c :: (u ++ mark ++ after) := ⟨after, by simp⟩
  have hle : mark.length ≤ (c :: (u ++ mark)).length := by
    rw [List.length_cons, List.length_append]
    omega
  obtain ⟨w, hw⟩ := List.prefix_of_prefix_length_le hp hlong hle
  have hnil := h.2 [] w hw.symm
  have hlen := congrArg List.length hw
  rw [hnil, List.append_nil, List.length_cons, List.length_append] at hlen
  omega

theorem UpTo.tail {mark u : List Char} {c : Char} (h : UpTo mark (c :: (u ++ mark))) :
    UpTo mark (u ++ mark) := by
  refine ⟨List.suffix_append u mark, fun v w hvw => h.2 (c :: v) w ?_⟩
  rw [hvw]
  rfl

theorem splitPast_of_upTo {mark before : List Char} (hm : mark ≠ []) (h : UpTo mark before)
    (after : List Char) : splitPast mark (before ++ after) = some (before, after) := by
  obtain ⟨u, rfl⟩ := h.1
  induction u with
  | nil =>
    cases mark with
    | nil => exact absurd rfl hm
    | cons d mark => simp [splitPast]
  | cons c u ih =>
    have hnot := h.not_prefix after
    have hrest := ih h.tail
    rw [← List.isPrefixOf_iff_prefix] at hnot
    simp only [List.cons_append]
    rw [splitPast, if_neg hnot, hrest]
    rfl

theorem splitPast_eq_some_iff {mark s before after : List Char} (hm : mark ≠ []) :
    splitPast mark s = some (before, after) ↔ UpTo mark before ∧ before ++ after = s := by
  constructor
  · intro h
    exact ⟨upTo_of_splitPast h, splitPast_append h⟩
  · rintro ⟨h, rfl⟩
    exact splitPast_of_upTo hm h after

/-! ## Starts and ends -/

theorem mem_of_upTo {mark s : List Char} {c : Char} (h : UpTo mark s) (hc : c ∈ mark) : c ∈ s :=
  h.1.subset hc

/-- A start that has no bracket stands in an item or not at all. -/
theorem prefix_item_iff {start text rest : List Char} (hstart : '>' ∉ start) (htext : '>' ∈ text) :
    start <+: text ++ rest ↔ start <+: text := by
  constructor
  · intro h
    rcases List.prefix_or_prefix_of_prefix h (List.prefix_append text rest) with h | h
    · exact h
    · exact absurd (h.subset htext) hstart
  · exact fun h => h.trans (List.prefix_append text rest)

theorem markupEnd?_eq_some_iff {s stop : List Char} : markupEnd? s = some stop ↔
    ['<', '!', '-', '-'] <+: s ∧ stop = ['-', '-', '>'] ∨
    ['<', '!', '[', 'C', 'D', 'A', 'T', 'A', '['] <+: s ∧ stop = [']', ']', '>'] ∨
    ['<', '?'] <+: s ∧ stop = ['?', '>'] ∨
    ['<', '!'] <+: s ∧ ¬ ['<', '!', '-', '-'] <+: s ∧
      ¬ ['<', '!', '[', 'C', 'D', 'A', 'T', 'A', '['] <+: s ∧ stop = ['>'] := by
  have hcomment : ['<', '!', '-', '-'] <+: s →
      ¬ ['<', '!', '[', 'C', 'D', 'A', 'T', 'A', '['] <+: s ∧ ¬ ['<', '?'] <+: s := by
    rintro ⟨t, rfl⟩
    simp
  have hcdata : ['<', '!', '[', 'C', 'D', 'A', 'T', 'A', '['] <+: s → ¬ ['<', '?'] <+: s := by
    rintro ⟨t, rfl⟩
    simp
  have hinstruction : ['<', '?'] <+: s → ¬ ['<', '!'] <+: s := by
    rintro ⟨t, rfl⟩
    simp
  simp only [markupEnd?, markupForms, List.find?_cons, List.find?_nil]
  by_cases h₁ : ['<', '!', '-', '-'] <+: s
  · have h := hcomment h₁
    simp [List.isPrefixOf_iff_prefix.mpr h₁, h₁, h, eq_comm]
  rw [Bool.eq_false_iff.mpr (fun h => h₁ (List.isPrefixOf_iff_prefix.mp h))]
  by_cases h₂ : ['<', '!', '[', 'C', 'D', 'A', 'T', 'A', '['] <+: s
  · have h := hcdata h₂
    simp [List.isPrefixOf_iff_prefix.mpr h₂, h₁, h₂, h, eq_comm]
  rw [Bool.eq_false_iff.mpr (fun h => h₂ (List.isPrefixOf_iff_prefix.mp h))]
  by_cases h₃ : ['<', '?'] <+: s
  · have h := hinstruction h₃
    simp [List.isPrefixOf_iff_prefix.mpr h₃, h₁, h₂, h₃, h, eq_comm]
  rw [Bool.eq_false_iff.mpr (fun h => h₃ (List.isPrefixOf_iff_prefix.mp h))]
  by_cases h₄ : ['<', '!'] <+: s
  · simp [List.isPrefixOf_iff_prefix.mpr h₄, h₁, h₂, h₃, h₄, eq_comm]
  · rw [Bool.eq_false_iff.mpr (fun h => h₄ (List.isPrefixOf_iff_prefix.mp h))]
    simp [h₁, h₂, h₃, h₄]

/-- A markup item is what is read up to the end that its start asks for. -/
theorem readMarkup_eq_ok_iff {s text rest : List Char} :
    (∃ stop, markupEnd? s = some stop ∧ readMarkup stop s = .ok (text, rest)) ↔
      IsMarkup text ∧ text ++ rest = s := by
  have hread : ∀ stop : List Char, stop ≠ [] →
      (readMarkup stop s = .ok (text, rest) ↔ UpTo stop text ∧ text ++ rest = s) := by
    intro stop hstop
    rw [← splitPast_eq_some_iff hstop, readMarkup]
    cases splitPast stop s <;> simp
  constructor
  · rintro ⟨stop, hend, h⟩
    obtain ⟨hupTo, rfl⟩ := (hread stop (markupEnd?_ne_nil hend)).mp h
    refine ⟨?_, rfl⟩
    have hmem : ∀ start : List Char, '>' ∉ start → '>' ∈ stop →
        (start <+: text ++ rest ↔ start <+: text) :=
      fun start hstart hstop => prefix_item_iff hstart (mem_of_upTo hupTo hstop)
    rcases markupEnd?_eq_some_iff.mp hend with ⟨hs, rfl⟩ | ⟨hs, rfl⟩ | ⟨hs, rfl⟩ | ⟨hs, h₁, h₂, rfl⟩
    · exact .comment ((hmem _ (by decide) (by decide)).mp hs) hupTo
    · exact .cdata ((hmem _ (by decide) (by decide)).mp hs) hupTo
    · exact .instruction ((hmem _ (by decide) (by decide)).mp hs) hupTo
    · rw [hmem _ (by decide) (by decide)] at hs h₁ h₂
      exact .declaration hs h₁ h₂ hupTo
  · rintro ⟨hmarkup, rfl⟩
    have hpre : ∀ start : List Char, start <+: text → start <+: text ++ rest :=
      fun start h => h.trans (List.prefix_append text rest)
    cases hmarkup with
    | comment hs hu =>
      exact ⟨_, markupEnd?_eq_some_iff.mpr (.inl ⟨hpre _ hs, rfl⟩),
        (hread _ (by simp)).mpr ⟨hu, rfl⟩⟩
    | cdata hs hu =>
      exact ⟨_, markupEnd?_eq_some_iff.mpr (.inr (.inl ⟨hpre _ hs, rfl⟩)),
        (hread _ (by simp)).mpr ⟨hu, rfl⟩⟩
    | instruction hs hu =>
      exact ⟨_, markupEnd?_eq_some_iff.mpr (.inr (.inr (.inl ⟨hpre _ hs, rfl⟩))),
        (hread _ (by simp)).mpr ⟨hu, rfl⟩⟩
    | declaration hs h₁ h₂ hu =>
      have hgt := mem_of_upTo hu (List.mem_singleton.mpr rfl)
      refine ⟨_, markupEnd?_eq_some_iff.mpr (.inr (.inr (.inr ⟨hpre _ hs, ?_, ?_, rfl⟩))),
        (hread _ (by simp)).mpr ⟨hu, rfl⟩⟩
      · rwa [prefix_item_iff (by decide) hgt]
      · rwa [prefix_item_iff (by decide) hgt]

/-- No markup item starts like an element whose name starts with neither `!` nor `?`. -/
theorem markupEnd?_eq_none_iff {c : Char} {s : List Char} :
    markupEnd? ('<' :: c :: s) = none ↔ c ≠ '!' ∧ c ≠ '?' := by
  constructor
  · intro h
    rw [Option.eq_none_iff_forall_ne_some] at h
    constructor
    · rintro rfl
      by_cases h₁ : ['<', '!', '-', '-'] <+: '<' :: '!' :: s
      · exact h _ (markupEnd?_eq_some_iff.mpr (.inl ⟨h₁, rfl⟩))
      by_cases h₂ : ['<', '!', '[', 'C', 'D', 'A', 'T', 'A', '['] <+: '<' :: '!' :: s
      · exact h _ (markupEnd?_eq_some_iff.mpr (.inr (.inl ⟨h₂, rfl⟩)))
      · exact h _ (markupEnd?_eq_some_iff.mpr (.inr (.inr (.inr ⟨⟨s, rfl⟩, h₁, h₂, rfl⟩))))
    · rintro rfl
      exact h _ (markupEnd?_eq_some_iff.mpr (.inr (.inr (.inl ⟨⟨s, rfl⟩, rfl⟩))))
  · rintro ⟨hbang, hquestion⟩
    rw [Option.eq_none_iff_forall_ne_some]
    intro stop h
    rcases markupEnd?_eq_some_iff.mp h with ⟨h, _⟩ | ⟨h, _⟩ | ⟨h, _⟩ | ⟨h, _⟩ <;>
      simp [Ne.symm hbang, Ne.symm hquestion] at h

theorem IsMarkup.exists_cons {text : List Char} (h : IsMarkup text) :
    ∃ c s, text = '<' :: c :: s ∧ c ≠ '/' := by
  cases h with
  | comment h _ | cdata h _ | instruction h _ | declaration h _ _ _ =>
    obtain ⟨t, rfl⟩ := h
    exact ⟨_, _, rfl, by decide⟩

end Overseer.Markup

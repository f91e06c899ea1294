import Overseer.Label
import Overseer.Proofs.Trimming

/-!
Labels in text.  A label that is read has segments without white space around them and without a
delimiter in them, and is not a single empty segment (`Label.Canonical`).  The text of such a label
is read back as the label, so that labels are told apart by their texts (`canonical_text`).
-/

namespace Overseer.Label

/-! ## Parts -/

/-- There is a delimiter somewhere in the text. -/
def Divided (s : List Char) : Prop := ['-', '>'] <:+: s

instance (s : List Char) : Decidable (Divided s) := inferInstanceAs (Decidable (_ <:+: _))

theorem divided_cons_iff {c : Char} {s : List Char} :
    Divided (c :: s) ↔ c = '-' ∧ s.head? = some '>' ∨ Divided s := by
  have hhead : ['>'] <+: s ↔ s.head? = some '>' := by
    cases s with
    | nil => simp
    | cons d s => simp [List.cons_prefix_cons, eq_comm]
  rw [Divided, List.infix_cons_iff, List.cons_prefix_cons, hhead, eq_comm, ← Divided]

theorem divided_concat_iff {c : Char} {s : List Char} (hc : c ≠ '>') :
    Divided (s ++ [c]) ↔ Divided s := by
  rw [Divided, List.infix_concat_iff, ← Divided, or_iff_right]
  rintro ⟨front, hfront⟩
  have hlast := congrArg List.getLast? hfront
  simp at hlast
  exact hc hlast.symm

/-- Splitting a text takes nothing from it but the delimiters. -/
theorem intercalate_parts (s : List Char) : ['-', '>'].intercalate (parts s) = s := by
  fun_induction parts s with
  | case1 => rfl
  | case2 r ih => rw [List.intercalate_cons_of_ne_nil (parts_ne_nil r), ih]; rfl
  | case3 c r hne hr => exact absurd hr (parts_ne_nil r)
  | case4 c r hne p ps hr ih => rw [List.intercalate_cons_cons_left, ← hr, ih]

theorem head?_of_parts {s p : List Char} {ps : List (List Char)} (h : parts s = p :: ps) {c : Char}
    (hc : p.head? = some c) : s.head? = some c := by
  obtain ⟨r, rfl⟩ := List.head?_eq_some_iff.mp hc
  rw [← intercalate_parts s, h, List.intercalate_cons_cons_left, List.head?_cons]

/-- No delimiter is left in a part. -/
theorem not_divided_of_mem_parts {s p : List Char} (hp : p ∈ parts s) : ¬ Divided p := by
  fun_induction parts s generalizing p with
  | case1 =>
    cases List.mem_singleton.mp hp
    simp [Divided]
  | case2 r ih =>
    rcases List.mem_cons.mp hp with rfl | hp
    · simp [Divided]
    · exact ih hp
  | case3 c r hne hr => exact absurd hr (parts_ne_nil r)
  | case4 c r hne q qs hr ih =>
    rcases List.mem_cons.mp hp with rfl | hp
    · rw [divided_cons_iff]
      rintro (⟨hc, hhead⟩ | hdivided)
      · obtain ⟨r', hr'⟩ := List.head?_eq_some_iff.mp (head?_of_parts hr hhead)
        exact hne r' hc hr'
      · exact ih (hr ▸ List.mem_cons_self) hdivided
    · exact ih (hr ▸ List.mem_cons_of_mem q hp)

theorem parts_of_not_divided {s : List Char} (h : ¬ Divided s) : parts s = [s] := by
  fun_induction parts s with
  | case1 => rfl
  | case2 r ih => exact absurd (divided_cons_iff.mpr (.inl ⟨rfl, rfl⟩)) h
  | case3 c r hne hr => exact absurd hr (parts_ne_nil r)
  | case4 c r hne p ps hr ih =>
    have hparts := ih fun hdivided => h (divided_cons_iff.mpr (.inr hdivided))
    rw [hr] at hparts
    cases hparts
    rfl

theorem parts_of_white {s : List Char} (h : Text.AllWhite s) : parts s = [s] := by
  refine parts_of_not_divided fun hdivided => ?_
  exact absurd (h '-' (hdivided.subset List.mem_cons_self)) (by decide)

/-- White space around a text makes no delimiter. -/
theorem divided_padded_iff {before s after : List Char} (hbefore : Text.AllWhite before)
    (hafter : Text.AllWhite after) : Divided (before ++ s ++ after) ↔ Divided s := by
  induction before with
  | nil =>
    rw [List.nil_append]
    induction after generalizing s with
    | nil => rw [List.append_nil]
    | cons c after ih =>
      obtain ⟨hc, hafter⟩ := List.forall_mem_cons.mp hafter
      rw [← List.singleton_append, ← List.append_assoc, ih hafter,
        divided_concat_iff (Text.ne_of_isWhiteSpace hc (by decide))]
  | cons c before ih =>
    obtain ⟨hc, hbefore⟩ := List.forall_mem_cons.mp hbefore
    have hdash : c ≠ '-' := Text.ne_of_isWhiteSpace hc (by decide)
    rw [List.cons_append, List.cons_append, divided_cons_iff, ih hbefore, or_iff_right]
    exact fun h => hdash h.1

/-! ## Canonical labels -/

/-- No white space around it and no delimiter in it. -/
structure IsSegment (s : List Char) : Prop where
  trimmed : Text.Trimmed s
  undivided : ¬ Divided s

instance (s : List Char) : Decidable (IsSegment s) :=
  decidable_of_iff (Text.Trimmed s ∧ ¬ Divided s) ⟨fun h => ⟨h.1, h.2⟩, fun h => ⟨h.1, h.2⟩⟩

/-- The labels that are read.  A single empty segment is none, for its text is blank and a blank
text is the label without segments. -/
structure Canonical (l : Label) : Prop where
  segments : ∀ s ∈ l.segments, IsSegment s.toList
  ne_blank : l.segments ≠ [""]

theorem isSegment_of_mem_parse {text s : String} (hs : s ∈ (parse text).segments) :
    IsSegment s.toList := by
  rw [parse] at hs
  split at hs
  · cases hs
  · obtain ⟨p, hp, rfl⟩ := List.mem_map.mp hs
    obtain ⟨before, after, hcut, _, _⟩ := Text.exists_trimChars p
    have hinfix : Text.trimChars p <:+: p := ⟨before, after, hcut.symm⟩
    rw [String.toList_ofList]
    exact ⟨Text.trimmed_trimChars p,
      fun hdivided => not_divided_of_mem_parts hp (hdivided.trans hinfix)⟩

theorem canonical_parse (text : String) : Canonical (parse text) := by
  refine ⟨fun s hs => isSegment_of_mem_parse hs, fun hblank => ?_⟩
  rw [parse] at hblank
  split at hblank
  · cases hblank
  · rename_i hsome
    obtain ⟨p, hp, hempty⟩ := List.map_eq_singleton_iff.mp hblank
    -- an only part is the text itself
    have hself : p = text.toList := by
      rw [← intercalate_parts text.toList, hp, List.intercalate_singleton]
    apply hsome
    rw [← hself, ← String.toList_ofList (l := Text.trimChars p), hempty]
    rfl

/-- Segments that are joined with delimiters between spaces are the parts again, but for white space
around them. -/
theorem map_trimChars_parts {before p : List Char} {ps : List (List Char)}
    (hbefore : Text.AllWhite before) (hsegments : ∀ q ∈ p :: ps, IsSegment q) :
    (parts (before ++ [' ', '-', '>', ' '].intercalate (p :: ps))).map Text.trimChars =
      p :: ps := by
  have hspace : Text.AllWhite [' '] := by
    intro c hc
    rw [List.mem_singleton.mp hc]
    rfl
  induction ps generalizing before p with
  | nil =>
    have hp := hsegments p List.mem_cons_self
    have hnone : Text.AllWhite [] := List.forall_mem_nil _
    have hundivided : ¬ Divided (before ++ p ++ []) :=
      mt (divided_padded_iff hbefore hnone).mp hp.undivided
    rw [List.intercalate_singleton, ← List.append_nil (before ++ p),
      parts_of_not_divided hundivided, List.map_singleton,
      Text.trimChars_eq_iff.mpr ⟨hp.trimmed, before, [], rfl, hbefore, hnone⟩]
  | cons q qs ih =>
    obtain ⟨hp, hrest⟩ := List.forall_mem_cons.mp hsegments
    have hundivided : ¬ Divided (before ++ p ++ [' ']) :=
      mt (divided_padded_iff hbefore hspace).mp hp.undivided
    have htext : before ++ [' ', '-', '>', ' '].intercalate (p :: q :: qs) =
        (before ++ p ++ [' ']) ++ '-' :: '>' ::
          ([' '] ++ [' ', '-', '>', ' '].intercalate (q :: qs)) := by
      simp [List.intercalate_cons_cons]
    rw [htext, parts_append _ _ (parts_of_not_divided hundivided) (by simp), List.map_cons,
      Text.trimChars_eq_iff.mpr ⟨hp.trimmed, before, [' '], rfl, hbefore, hspace⟩, ih hspace hrest]

theorem parse_render {l : Label} (h : Canonical l) : parse l.render = l := by
  obtain ⟨segments⟩ := l
  cases segments with
  | nil => rfl
  | cons s ss =>
    have htext : (render ⟨s :: ss⟩).toList =
        [] ++ [' ', '-', '>', ' '].intercalate (s.toList :: ss.map String.toList) := by
      rw [render, String.toList_intercalate]
      rfl
    have hsegments : ∀ q ∈ s.toList :: ss.map String.toList, IsSegment q := by
      rw [← List.map_cons]
      intro q hq
      obtain ⟨r, hr, rfl⟩ := List.mem_map.mp hq
      exact h.segments r hr
    have hparts := map_trimChars_parts (List.forall_mem_nil _) hsegments
    rw [← htext] at hparts
    rw [parse, if_neg]
    · have hback := congrArg (List.map String.ofList) hparts
      rw [← List.map_cons, List.map_map, List.map_map] at hback
      simp only [Function.comp_def, String.ofList_toList, List.map_id'] at hback
      rw [hback]
    · -- a blank text has one part, and that is empty
      intro hblank
      rw [parts_of_white (Text.trimChars_eq_nil_iff.mp hblank), List.map_singleton,
        hblank] at hparts
      obtain ⟨hs, hss⟩ := List.cons.inj hparts
      have hempty : s = "" := String.toList_inj.mp (hs.symm.trans String.toList_empty.symm)
      exact h.ne_blank (by rw [hempty, List.map_eq_nil_iff.mp hss.symm])

/-- A label that is read is read back from its text, and its segments have no white space around
them and no delimiter in them.  So is every label of such segments except that of a single empty
one, and two of these labels are equal just if their texts are. -/
theorem canonical_text :
    (∀ text, parse (parse text).render = parse text) ∧
      (∀ text, ∀ s ∈ (parse text).segments, IsSegment s.toList) ∧
      (∀ segments : List String, (∀ s ∈ segments, IsSegment s.toList) → segments ≠ [""] →
        (parse (render ⟨segments⟩)).segments = segments) ∧
      (∀ l m, Canonical l → Canonical m → (l = m ↔ l.render = m.render)) ∧
      ∀ text other, parse text = parse other ↔ (parse text).render = (parse other).render := by
  have hinjective (l m : Label) (hl : Canonical l) (hm : Canonical m) :
      l = m ↔ l.render = m.render := by
    refine ⟨congrArg render, fun h => ?_⟩
    rw [← parse_render hl, h, parse_render hm]
  refine ⟨fun text => parse_render (canonical_parse text), fun _ _ => isSegment_of_mem_parse,
    fun segments hsegments hne => ?_, hinjective,
    fun text other => hinjective _ _ (canonical_parse text) (canonical_parse other)⟩
  rw [parse_render ⟨hsegments, hne⟩]

/-- Segments that look like halves of a delimiter, and an empty one among them. -/
theorem halves_canonical_text :
    let segments := ["a-", ">b", "", "- >"]
    (∀ s ∈ segments, IsSegment s.toList) ∧ segments ≠ [""] ∧
      render ⟨segments⟩ = "a- -> >b ->  -> - >" ∧
      (parse (render ⟨segments⟩)).segments = segments ∧
      ((⟨segments⟩ : Label) = ⟨[]⟩ ↔ render ⟨segments⟩ = render ⟨[]⟩) := by
  intro segments
  have hsegments : ∀ s ∈ segments, IsSegment s.toList := by decide +kernel
  have hne : segments ≠ [""] := by decide
  exact ⟨hsegments, hne, by decide +kernel, canonical_text.2.2.1 segments hsegments hne,
    canonical_text.2.2.2.1 _ _ ⟨hsegments, hne⟩ ⟨List.forall_mem_nil _, by decide⟩⟩

end Overseer.Label

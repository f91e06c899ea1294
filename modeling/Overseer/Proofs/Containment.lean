import Overseer.Proofs.Histories
import Overseer.Proofs.Trimming

/-!
Which slice a failure is charged to: the one that is named, or else the first one whose segments the
label begins with, or else none (`failure_charged`).  A blank name is a label without segments, with
which every label begins, so that a slice of such a name is charged with whatever nobody else is
(`blank_slice_charged`).
-/

namespace Overseer

/-! ## Labels -/

/-- The label begins with the segments of the other, and there are some. -/
structure Label.Above (above l : Label) : Prop where
  first : ∃ segment, above.segments.head? = some segment ∧ l.segments.head? = some segment
  segments : above.segments <+: l.segments

theorem Label.segments_parse_eq_nil_iff {text : String} :
    (Label.parse text).segments = [] ↔ ∀ c ∈ text.toList, Text.isWhiteSpace c = true := by
  refine Iff.trans ?_ Text.trimChars_eq_nil_iff
  rw [Label.parse]
  split
  · rename_i hblank
    exact iff_of_true rfl hblank
  · rename_i hblank
    refine iff_of_false (fun h => ?_) hblank
    exact parts_ne_nil _ (List.map_eq_nil_iff.mp h)

theorem Label.startsWith_iff {l other : Label} :
    l.startsWith other = true ↔ other.segments = [] ∨ other.Above l := by
  rw [startsWith, List.isPrefixOf_iff_prefix]
  constructor
  · intro hstarts
    cases hsegments : other.segments with
    | nil => exact .inl rfl
    | cons segment rest =>
      obtain ⟨below, hbelow⟩ := hstarts
      refine .inr ⟨⟨segment, by rw [hsegments, List.head?_cons], ?_⟩, below, hbelow⟩
      rw [← hbelow, hsegments, List.cons_append, List.head?_cons]
  · rintro (hnone | habove)
    · rw [hnone]
      exact List.nil_prefix
    · exact habove.segments

namespace Slice

/-- The name is white space or nothing at all. -/
def Blank (s : Slice) : Prop := ∀ c ∈ s.name.toList, Text.isWhiteSpace c = true

/-- The component with this label lies in the slice, or is the slice. -/
def Contains (s : Slice) (label : String) : Prop := (Label.parse s.name).Above (Label.parse label)

theorem startsWith_name_iff {s : Slice} {label : String} :
    (Label.parse label).startsWith (Label.parse s.name) = true ↔ s.Blank ∨ s.Contains label := by
  rw [Label.startsWith_iff, Label.segments_parse_eq_nil_iff]
  rfl

end Slice

/-! ## Charges -/

namespace Registry

/-- What a mark comes to.  The slice of the name is charged, or if there is none, the first slice
that fits; if there is none of these either, the component is unknown and nothing changes. -/
def ChargesBy (fits : Slice → Prop) (reg : Registry) (name label : String) (f : Failure) : Prop :=
  match reg.markRestart name label f with
  | .ok changed => ∃ before s after, reg = before ++ s :: after ∧
      changed = before ++ s.markRestart label f :: after ∧
      (reg.find? name = some s ∨
        reg.find? name = none ∧ fits s ∧ ∀ t ∈ before, ¬ fits t)
  | .error p => p = .unknownComponent label ∧
      reg.perform (.markRestart name label f) = reg ∧
      reg.find? name = none ∧ ∀ s ∈ reg, ¬ fits s

variable {reg : Registry} {name label : String} {f : Failure}

theorem isCharged_of_find? {s : Slice} (h : reg.find? name = some s) (t : Slice) :
    reg.isCharged name label t = true ↔ t.name = name := by
  rw [isCharged, if_pos (contains_iff.mpr (mem_names_of_find? h)), beq_iff_eq]

theorem isCharged_of_missing (h : reg.find? name = none) (t : Slice) :
    reg.isCharged name label t = true ↔ t.Blank ∨ t.Contains label := by
  rw [isCharged, if_neg (mt contains_iff.mp (find?_eq_none_iff.mp h)), Slice.startsWith_name_iff]

/-- The first slice of a name is the one that is found under it. -/
theorem find?_of_split {before after : Registry} {s : Slice} (hreg : reg = before ++ s :: after)
    (hs : s.name = name) (hbefore : ∀ t ∈ before, t.name ≠ name) : reg.find? name = some s := by
  have hnone : find? before name = none := by
    rw [find?_eq_none_iff, names, List.mem_map]
    rintro ⟨t, ht, hname⟩
    exact hbefore t ht hname
  rw [hreg, find?_append, hnone, Option.none_or, find?_cons, if_pos hs]

theorem chargesBy_blank_or_contains (reg : Registry) (name label : String) (f : Failure) :
    ChargesBy (fun s => s.Blank ∨ s.Contains label) reg name label f := by
  unfold ChargesBy
  split
  · rename_i changed hok
    obtain ⟨before, s, after, hreg, hchanged, hs, hbefore⟩ := exists_split_of_markRestart hok
    refine ⟨before, s, after, hreg, hchanged, ?_⟩
    cases hfind : reg.find? name with
    | some t =>
      have hname := (isCharged_of_find? hfind s).mp hs
      refine .inl (hfind.symm.trans (find?_of_split hreg hname fun u hu hother => ?_))
      exact Bool.eq_false_iff.mp (hbefore u hu) ((isCharged_of_find? hfind u).mpr hother)
    | none =>
      refine .inr ⟨rfl, (isCharged_of_missing hfind s).mp hs, fun u hu hfits => ?_⟩
      exact Bool.eq_false_iff.mp (hbefore u hu) ((isCharged_of_missing hfind u).mpr hfits)
  · rename_i p herror
    have hsame : reg.perform (.markRestart name label f) = reg := by
      rw [perform, herror]
    rw [markRestart] at herror
    split at herror
    · cases herror
    · rename_i hmodify
      cases herror
      have hnone := modifyFirst_eq_none_iff.mp hmodify
      have hmissing : reg.find? name = none := by
        cases hfind : reg.find? name with
        | none => rfl
        | some s =>
          have hcharged : reg.isCharged name label s = true :=
            (isCharged_of_find? hfind s).mpr (name_of_find? hfind)
          exact absurd hcharged (Bool.eq_false_iff.mp (hnone s (mem_of_find? hfind)))
      refine ⟨rfl, hsame, hmissing, fun s hs hfits => ?_⟩
      exact Bool.eq_false_iff.mp (hnone s hs) ((isCharged_of_missing hmissing s).mpr hfits)

/-- A failure is charged to the slice that is named, or else to the first one that contains the
component; all others are refused, with the label, and change nothing.  So it is in every registry,
except that a slice with a blank name is charged with each failure for which no slice is named and
none in front contains the component. -/
theorem failure_charged (history : List Operation) (name label : String) (f : Failure) :
    let reg := built history
    ChargesBy (fun s => s.Blank ∨ s.Contains label) reg name label f ∧
      ((∀ before s after, reg = before ++ s :: after → s.Blank → reg.find? name = none →
        ∃ t ∈ before, t.Contains label) →
        ChargesBy (fun s => s.Contains label) reg name label f) := by
  intro reg
  have hcharges := chargesBy_blank_or_contains reg name label f
  refine ⟨hcharges, fun hblank => ?_⟩
  unfold ChargesBy at hcharges ⊢
  split at hcharges
  · obtain ⟨before, s, after, hreg, hchanged, hcharged⟩ := hcharges
    refine ⟨before, s, after, hreg, hchanged, hcharged.imp_right ?_⟩
    rintro ⟨hmissing, hfits, hbefore⟩
    refine ⟨hmissing, hfits.resolve_left fun hs => ?_, fun t ht hin => hbefore t ht (.inr hin)⟩
    obtain ⟨t, ht, hin⟩ := hblank before s after hreg hs hmissing
    exact hbefore t ht (.inr hin)
  · obtain ⟨hp, hsame, hmissing, hnone⟩ := hcharges
    exact ⟨hp, hsame, hmissing, fun s hs hin => hnone s hs (.inr hin)⟩

/-- `web` contains the component, and the slice behind it has a blank name. -/
theorem web_failure_charged :
    let reg := built [.addNamed "web", .addNamed " "]
    let failed : Slice :=
      { name := "web", restartPending := true,
        failures := [{ label := "web -> init -> log", caps := 1 }] }
    reg.find? "init" = none ∧
      reg.markRestart "init" "web -> init -> log" .capsRequest = .ok [failed, { name := " " }] ∧
      ChargesBy (fun s => s.Contains "web -> init -> log") reg "init" "web -> init -> log"
        .capsRequest := by
  intro reg failed
  have hparse : (Label.parse "web").segments = ["web"] := by decide +kernel
  have hlabel : (Label.parse "web -> init -> log").segments = ["web", "init", "log"] := by
    decide +kernel
  have hweb : Slice.Contains { name := "web" } "web -> init -> log" :=
    ⟨⟨"web", by rw [hparse]; rfl, by rw [hlabel]; rfl⟩, by rw [hparse, hlabel]; decide⟩
  refine ⟨by decide +kernel, by decide +kernel,
    (failure_charged _ "init" "web -> init -> log" .capsRequest).2 ?_⟩
  intro before s after hreg hblank _
  have hslices : built [.addNamed "web", .addNamed " "] = [{ name := "web" }, { name := " " }] := by
    decide +kernel
  rw [hslices] at hreg
  cases before with
  | nil =>
    cases (List.cons.inj hreg).1
    exact absurd (hblank 'w' (by decide)) (by decide)
  | cons t before =>
    cases (List.cons.inj hreg).1
    exact ⟨_, List.mem_cons_self, hweb⟩

/-- The only slice has no name, and it is to restart for a component of another. -/
theorem blank_slice_charged :
    let reg := built [.addNamed ""]
    (Label.parse "ghost").segments = ["ghost"] ∧
      reg.markRestart "ghost" "ghost" .cpuFault =
        .ok [{ name := "", restartPending := true,
               failures := [{ label := "ghost", cpu := 1 }] }] ∧
      ¬ ChargesBy (fun s => s.Contains "ghost") reg "ghost" "ghost" .cpuFault := by
  intro reg
  have hmark : (built [.addNamed ""]).markRestart "ghost" "ghost" .cpuFault =
      .ok [{ name := "", restartPending := true,
             failures := [{ label := "ghost", cpu := 1 }] }] := by decide +kernel
  refine ⟨by decide +kernel, hmark, fun hcharges => ?_⟩
  rw [ChargesBy, hmark] at hcharges
  obtain ⟨before, s, after, hreg, _, hcharged⟩ := hcharges
  have hs : s ∈ reg := hreg ▸ List.mem_append_right before List.mem_cons_self
  cases List.mem_singleton.mp hs
  rcases hcharged with hfind | ⟨_, ⟨⟨segment, hsegment, _⟩, _⟩, _⟩
  · exact absurd hfind (by decide +kernel)
  · have hempty : (Label.parse "").segments = [] := by decide +kernel
    rw [hempty] at hsegment
    cases hsegment

end Registry

end Overseer

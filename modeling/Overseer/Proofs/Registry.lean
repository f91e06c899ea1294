import Overseer.Finding
import Overseer.Reallocator

/-!
The registry as a map from names: what each operation does to the slice under a name
(`find?_add`, `find?_modifyFirst`, `find?_filter`) and to the list of names.
-/

namespace Overseer

namespace Registry

def names (reg : Registry) : List String := reg.map Slice.name

theorem find?_nil (name : String) : find? [] name = none := rfl

theorem find?_cons (s : Slice) (reg : Registry) (name : String) :
    find? (s :: reg) name = if s.name = name then some s else reg.find? name := by
  by_cases h : s.name = name
  · simp [find?, h]
  · simp [find?, h]

theorem name_of_find? {reg : Registry} {name : String} {s : Slice} (h : reg.find? name = some s) :
    s.name = name := by
  have hname := List.find?_some h
  simpa using hname

theorem mem_of_find? {reg : Registry} {name : String} {s : Slice} (h : reg.find? name = some s) :
    s ∈ reg := List.mem_of_find?_eq_some h

theorem find?_eq_none_iff {reg : Registry} {name : String} :
    reg.find? name = none ↔ name ∉ reg.names := by
  simp [find?, names, List.find?_eq_none]

theorem exists_find? {reg : Registry} {name : String} (h : name ∈ reg.names) :
    ∃ s, reg.find? name = some s := by
  cases hfind : reg.find? name with
  | none => exact absurd h (find?_eq_none_iff.mp hfind)
  | some s => exact ⟨s, rfl⟩

theorem mem_names_of_find? {reg : Registry} {name : String} {s : Slice}
    (h : reg.find? name = some s) : name ∈ reg.names := by
  rw [← name_of_find? h]
  exact List.mem_map_of_mem (mem_of_find? h)

/-- With each name once, a slice is found under its name. -/
theorem find?_of_mem {reg : Registry} (hnodup : reg.names.Nodup) {s : Slice} (hs : s ∈ reg) :
    reg.find? s.name = some s := by
  induction reg with
  | nil => cases hs
  | cons t reg ih =>
    rw [names, List.map_cons, List.nodup_cons] at hnodup
    rw [find?_cons]
    rcases List.mem_cons.mp hs with rfl | hs
    · rw [if_pos rfl]
    · have hne : t.name ≠ s.name := fun e => hnodup.1 (e ▸ List.mem_map_of_mem hs)
      rw [if_neg hne]
      exact ih hnodup.2 hs

/-! ## Adding -/

theorem contains_iff {reg : Registry} {name : String} :
    reg.contains name = true ↔ name ∈ reg.names := by
  simp [contains, names]

theorem find?_append (reg more : Registry) (name : String) :
    find? (reg ++ more) name = (reg.find? name).or (more.find? name) := List.find?_append

theorem find?_add (reg : Registry) (name n : String) :
    (reg.add name).find? n =
      (reg.find? n).or (if name = n then some { name := name } else none) := by
  unfold add
  split
  · rename_i hin
    obtain ⟨s, hs⟩ := exists_find? (contains_iff.mp hin)
    by_cases hn : name = n
    · rw [← hn, hs]
      rfl
    · rw [if_neg hn, Option.or_none]
  · rw [find?_append, find?_cons, find?_nil]

theorem names_add (reg : Registry) (name : String) :
    (reg.add name).names = if name ∈ reg.names then reg.names else reg.names ++ [name] := by
  unfold add
  by_cases hin : name ∈ reg.names
  · rw [if_pos (contains_iff.mpr hin), if_pos hin]
  · rw [if_neg (mt contains_iff.mp hin), if_neg hin]
    simp [names]

theorem nodup_names_add {reg : Registry} (h : reg.names.Nodup) (name : String) :
    (reg.add name).names.Nodup := by
  rw [names_add]
  split
  · exact h
  · rename_i hin
    rw [List.nodup_append]
    refine ⟨h, by simp, ?_⟩
    intro a ha b hb
    rw [List.mem_singleton.mp hb]
    rintro rfl
    exact hin ha

/-! ## Changing one slice -/

variable {p : Slice → Bool} {f : Slice → Slice} {reg changed : Registry}

theorem names_modifyFirst (hf : ∀ s, p s = true → (f s).name = s.name)
    (h : modifyFirst p f reg = some changed) : changed.names = reg.names := by
  induction reg generalizing changed with
  | nil => cases h
  | cons s reg ih =>
    rw [modifyFirst] at h
    split at h
    · rename_i hp
      cases h
      simp [names, hf s hp]
    · obtain ⟨rest, hrest, rfl⟩ := Option.map_eq_some_iff.mp h
      have hnames := ih hrest
      simp only [names, List.map_cons] at hnames ⊢
      rw [hnames]

theorem exists_split_of_modifyFirst (h : modifyFirst p f reg = some changed) :
    ∃ before s after, reg = before ++ s :: after ∧ changed = before ++ f s :: after ∧
      p s = true ∧ ∀ t ∈ before, p t = false := by
  induction reg generalizing changed with
  | nil => cases h
  | cons s reg ih =>
    rw [modifyFirst] at h
    split at h
    · rename_i hp
      cases h
      exact ⟨[], s, reg, rfl, rfl, hp, List.forall_mem_nil _⟩
    · rename_i hp
      obtain ⟨rest, hrest, rfl⟩ := Option.map_eq_some_iff.mp h
      obtain ⟨before, t, after, rfl, rfl, ht, hbefore⟩ := ih hrest
      exact ⟨s :: before, t, after, rfl, rfl, ht,
        List.forall_mem_cons.mpr ⟨Bool.eq_false_iff.mpr hp, hbefore⟩⟩

/-- When the choice depends on names alone, the slice under a name changes just if it is the one
chosen. -/
theorem find?_modifyFirst (hf : ∀ s, p s = true → (f s).name = s.name)
    (hp : ∀ s t : Slice, s.name = t.name → p s = p t) (h : modifyFirst p f reg = some changed)
    (name : String) :
    changed.find? name = (reg.find? name).map fun s =>
      if (List.find? p reg).map Slice.name = some name then f s else s := by
  induction reg generalizing changed with
  | nil => cases h
  | cons s reg ih =>
    rw [modifyFirst] at h
    split at h
    · rename_i hs
      cases h
      rw [find?_cons, find?_cons, hf s hs, List.find?_cons_of_pos hs]
      by_cases hname : s.name = name
      · simp [hname]
      · simp [hname]
    · rename_i hs
      obtain ⟨rest, hrest, rfl⟩ := Option.map_eq_some_iff.mp h
      rw [find?_cons, find?_cons, List.find?_cons_of_neg hs]
      by_cases hname : s.name = name
      · -- the chosen slice has another name: otherwise `s` would have been chosen
        have hother : (List.find? p reg).map Slice.name ≠ some name := by
          intro hchosen
          obtain ⟨t, ht, htname⟩ := Option.map_eq_some_iff.mp hchosen
          have hpt := List.find?_some ht
          rw [hp t s (htname.trans hname.symm)] at hpt
          exact hs hpt
        rw [if_pos hname, if_pos hname, Option.map_some, if_neg hother]
      · rw [if_neg hname, if_neg hname]
        exact ih hrest

theorem find?_filter (hp : ∀ s t : Slice, s.name = t.name → p s = p t) (name : String) :
    find? (reg.filter p) name = (reg.find? name).filter p := by
  induction reg with
  | nil => rfl
  | cons s reg ih =>
    by_cases hname : s.name = name
    · by_cases hs : p s = true
      · rw [List.filter_cons_of_pos hs, find?_cons, find?_cons, if_pos hname, if_pos hname,
          Option.filter_some_pos hs]
      · -- no other slice of the name is left either
        have hnone : (find? reg name).filter p = none := by
          rw [Option.filter_eq_none_iff]
          intro t ht
          rw [hp t s ((name_of_find? ht).trans hname.symm)]
          exact hs
        rw [List.filter_cons_of_neg hs, ih, hnone, find?_cons, if_pos hname,
          Option.filter_some_neg (by simpa using hs)]
    · by_cases hs : p s = true
      · rw [List.filter_cons_of_pos hs, find?_cons, find?_cons, if_neg hname, if_neg hname, ih]
      · rw [List.filter_cons_of_neg hs, find?_cons, if_neg hname, ih]

theorem nodup_names_filter (h : reg.names.Nodup) : (names (reg.filter p)).Nodup :=
  h.sublist (List.filter_sublist.map Slice.name)

theorem exists_update? {name : String} {s : Slice} (h : reg.find? name = some s)
    (f : Slice → Slice) : ∃ changed, reg.update? name f = some changed := by
  cases hupdate : reg.update? name f with
  | some changed => exact ⟨changed, rfl⟩
  | none =>
    have hnone := modifyFirst_eq_none_iff.mp hupdate s (mem_of_find? h)
    simp [name_of_find? h] at hnone

theorem replace_cons (s t : Slice) (reg : Registry) (name : String) :
    (update? (s :: reg) name fun _ => t).getD (s :: reg) =
      if s.name = name then t :: reg else s :: (reg.update? name fun _ => t).getD reg := by
  rw [update?, modifyFirst, ← update?]
  by_cases hs : s.name = name
  · rw [if_pos hs, if_pos (beq_iff_eq.mpr hs)]
    rfl
  · rw [if_neg hs, if_neg (by simpa using hs)]
    cases reg.update? name fun _ => t <;> rfl

/-- Replace the slice under a name. -/
theorem find?_replace {name : String} {s t : Slice} (h : reg.find? name = some s)
    (ht : t.name = name) (n : String) :
    ((reg.update? name fun _ => t).getD reg).find? n =
      if name = n then some t else reg.find? n := by
  obtain ⟨changed, hchanged⟩ := exists_update? h fun _ => t
  have hfind := find?_modifyFirst (fun u hu => ht.trans (beq_iff_eq.mp hu).symm)
    (fun u v huv => by rw [huv]) hchanged n
  have hchosen : (List.find? (·.name == name) reg).map Slice.name = some name := by
    have hs : List.find? (·.name == name) reg = some s := h
    rw [hs, Option.map_some, name_of_find? h]
  rw [hchanged, Option.getD_some, hfind, hchosen]
  by_cases hn : name = n
  · subst hn
    simp [h]
  · simp [hn]

theorem names_replace {name : String} {t : Slice} (ht : t.name = name) :
    names ((reg.update? name fun _ => t).getD reg) = reg.names := by
  cases hupdate : reg.update? name fun _ => t with
  | none => rfl
  | some changed =>
    exact names_modifyFirst (fun u hu => ht.trans (beq_iff_eq.mp hu).symm) hupdate

/-! ## Charging -/

/-- The name of the slice that a finding marks for a restart. -/
def marked? (reg : Registry) (f : Finding) : Option String :=
  match f.failure with
  | none => none
  | some failure =>
    match reg.markRestart f.slice f.label failure with
    | .ok _ => (List.find? (reg.isCharged f.slice f.label) reg).map Slice.name
    | .error _ => none

/-- The names of the slices marked while findings are charged one after the other. -/
def marks : Registry → List Finding → List String
  | _, [] => []
  | reg, f :: fs => (reg.marked? f).toList ++ marks (reg.charge f).1 fs

theorem isCharged_congr (reg : Registry) (name label : String) {s t : Slice}
    (h : s.name = t.name) : reg.isCharged name label s = reg.isCharged name label t := by
  simp only [isCharged, h]

theorem name_markRestart (s : Slice) (label : String) (f : Failure) :
    (s.markRestart label f).name = s.name := rfl

/-- A finding marks nothing and changes nothing, or it marks the first slice that it can be charged
to. -/
theorem charge_cases (reg : Registry) (f : Finding) :
    reg.marked? f = none ∧ (reg.charge f).1 = reg ∨
      ∃ failure, f.failure = some failure ∧
        modifyFirst (reg.isCharged f.slice f.label) (·.markRestart f.label failure) reg =
          some (reg.charge f).1 ∧
        reg.marked? f = (List.find? (reg.isCharged f.slice f.label) reg).map Slice.name := by
  unfold marked? charge
  cases f.failure with
  | none => exact .inl ⟨rfl, rfl⟩
  | some failure =>
    simp only [schedule, markRestart]
    cases hmodify : modifyFirst (reg.isCharged f.slice f.label)
        (fun s => s.markRestart f.label failure) reg with
    | none => exact .inl ⟨rfl, rfl⟩
    | some changed => exact .inr ⟨failure, rfl, hmodify, rfl⟩

theorem names_charge (reg : Registry) (f : Finding) : (reg.charge f).1.names = reg.names := by
  rcases charge_cases reg f with ⟨_, hsame⟩ | ⟨failure, _, hmodify, _⟩
  · rw [hsame]
  · exact names_modifyFirst (fun s _ => name_markRestart s f.label failure) hmodify

theorem find?_charge {reg : Registry} {name : String} {s : Slice} (h : reg.find? name = some s)
    (f : Finding) : ∃ failures, (reg.charge f).1.find? name = some { s with
      failures, restartPending := s.restartPending || reg.marked? f == some name } := by
  rcases charge_cases reg f with ⟨hnone, hsame⟩ | ⟨failure, _, hmodify, hmarked⟩
  · rw [hsame, h, hnone]
    exact ⟨s.failures, by simp⟩
  · have hfind := find?_modifyFirst (fun s _ => name_markRestart s f.label failure)
      (fun _ _ => isCharged_congr reg f.slice f.label) hmodify name
    rw [← hmarked, h, Option.map_some] at hfind
    rw [hfind]
    by_cases hname : reg.marked? f = some name
    · exact ⟨tally f.label failure s.failures, by simp [hname, Slice.markRestart]⟩
    · have hother : (reg.marked? f == some name) = false := by simpa using hname
      exact ⟨s.failures, by simp [hname, hother]⟩

theorem names_chargeAll (reg : Registry) (fs : List Finding) :
    (reg.chargeAll fs).1.names = reg.names := by
  induction fs generalizing reg with
  | nil => rfl
  | cons f fs ih =>
    have hrest := ih (reg.charge f).1
    rw [names_charge] at hrest
    exact hrest

/-- Charging findings changes no more of a slice than its failures, and whether it is to restart:
that is so afterwards if it was so before or the slice was marked. -/
theorem find?_chargeAll {reg : Registry} {name : String} {s : Slice} (h : reg.find? name = some s)
    (fs : List Finding) : ∃ failures, (reg.chargeAll fs).1.find? name = some { s with
      failures, restartPending := s.restartPending || (reg.marks fs).contains name } := by
  induction fs generalizing reg s with
  | nil => exact ⟨s.failures, by simp [chargeAll, marks, h]⟩
  | cons f fs ih =>
    obtain ⟨failures, hcharge⟩ := find?_charge h f
    obtain ⟨rest, hrest⟩ := ih hcharge
    refine ⟨rest, ?_⟩
    show find? ((reg.charge f).1.chargeAll fs).1 name = _
    rw [hrest]
    cases hmarked : reg.marked? f with
    | none => simp [marks, hmarked]
    | some n =>
      by_cases hn : n = name
      · simp [marks, hmarked, hn]
      · have hother : (n == name) = false := by simpa using hn
        simp [marks, hmarked, hother, Ne.symm hn]

theorem mem_names_of_mem_marks {reg : Registry} {fs : List Finding} {name : String}
    (h : name ∈ reg.marks fs) : name ∈ reg.names := by
  induction fs generalizing reg with
  | nil => cases h
  | cons f fs ih =>
    rw [marks, List.mem_append, Option.mem_toList] at h
    rcases h with h | h
    · rcases charge_cases reg f with ⟨hnone, _⟩ | ⟨_, _, _, hmarked⟩
      · rw [hnone] at h
        cases h
      · rw [hmarked] at h
        obtain ⟨s, hs, rfl⟩ := Option.map_eq_some_iff.mp h
        exact List.mem_map_of_mem (List.mem_of_find?_eq_some hs)
    · rw [← names_charge reg f]
      exact ih h

/-- Whatever is marked is still to restart when all findings are charged. -/
theorem marks_of_not_restartRequired {reg : Registry} {fs : List Finding}
    (h : (reg.chargeAll fs).1.restartRequired = false) : reg.marks fs = [] := by
  rw [List.eq_nil_iff_forall_not_mem]
  intro name hname
  obtain ⟨s, hs⟩ := exists_find? (mem_names_of_mem_marks hname)
  obtain ⟨failures, hcharged⟩ := find?_chargeAll hs fs
  have hidle := List.any_eq_false.mp h _ (mem_of_find? hcharged)
  simp [hname] at hidle

theorem chargeAll_of_marks_nil {reg : Registry} {fs : List Finding} (h : reg.marks fs = []) :
    (reg.chargeAll fs).1 = reg := by
  induction fs with
  | nil => rfl
  | cons f fs ih =>
    rw [marks, List.append_eq_nil_iff] at h
    have hsame : (reg.charge f).1 = reg := by
      rcases charge_cases reg f with ⟨_, hsame⟩ | ⟨failure, _, hmodify, hmarked⟩
      · exact hsame
      · have hnone : reg.marked? f = none := by simpa using h.1
        rw [hnone, eq_comm, Option.map_eq_none_iff, List.find?_eq_none] at hmarked
        have hunchanged : modifyFirst (reg.isCharged f.slice f.label)
            (fun s => s.markRestart f.label failure) reg = none :=
          modifyFirst_eq_none_iff.mpr fun s hs => by simpa using hmarked s hs
        cases hunchanged.symm.trans hmodify
    show ((reg.charge f).1.chargeAll fs).1 = reg
    rw [hsame] at h ⊢
    exact ih h.2

end Registry

end Overseer

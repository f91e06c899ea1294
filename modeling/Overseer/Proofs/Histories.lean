import Mathlib.Data.List.Induction
import Mathlib.Logic.ExistsUnique
import Overseer.Proofs.Failures
import Overseer.Proofs.Markup.RoundTrip

/-!
Histories of a registry.  Whatever was added, marked and removed, the registry holds just the names
that were added and not removed since, each once and in the order of their last insertions, and a
mark raises one counter of one record of one slice (`ordered_map`).
-/

namespace Overseer

open Markup

/-! ## Operations -/

/-- What is done to a registry. -/
inductive Operation where
  | add (start : Element)
  | addNamed (name : String)
  | markRestart (name label : String) (f : Failure)
  | removeOutdated (config : Element)

namespace Operation

/-- The operation adds the name, unless it is there. -/
def Adds (name : String) : Operation → Prop
  | .add start => start.startName = name
  | .addNamed n => n = name
  | .markRestart .. | .removeOutdated _ => False

/-- The operation removes the name: no start entry of the configuration states it. -/
def Removes (name : String) : Operation → Prop
  | .removeOutdated config => ∀ start ∈ config.starts, start.attribute? "name" ≠ some name
  | .add _ | .addNamed _ | .markRestart .. => False

theorem Adds.not_removes {op : Operation} {name : String} (h : op.Adds name) :
    ¬ op.Removes name := by
  cases op with
  | add start => exact id
  | addNamed n => exact id
  | markRestart n label f => exact h.elim
  | removeOutdated config => exact h.elim

end Operation

namespace Registry

/-- A mark that is refused leaves the registry as it is. -/
def perform (reg : Registry) : Operation → Registry
  | .add start => reg.add start.startName
  | .addNamed name => reg.add name
  | .markRestart name label f =>
    match reg.markRestart name label f with
    | .ok changed => changed
    | .error _ => reg
  | .removeOutdated config => (reg.removeOutdated config).1

/-- The registry after some operations. -/
def built (history : List Operation) : Registry := history.foldl perform []

theorem built_concat (history : List Operation) (op : Operation) :
    built (history ++ [op]) = (built history).perform op := by
  rw [built, List.foldl_append]
  rfl

/-! ## Histories -/

/-- The name was added in the course of the history and not removed since. -/
def Held (history : List Operation) (name : String) : Prop :=
  ∃ before op after, history = before ++ op :: after ∧ op.Adds name ∧
    ∀ later ∈ after, ¬ later.Removes name

/-- The operation with this number added the name, which was not there; it was not removed since. -/
def InsertedAt (history : List Operation) (name : String) (i : Nat) : Prop :=
  ∃ before op after, history = before ++ op :: after ∧ before.length = i ∧ op.Adds name ∧
    ¬ Held before name ∧ ∀ later ∈ after, ¬ later.Removes name

theorem not_held_nil (name : String) : ¬ Held [] name := by
  rintro ⟨before, op, after, hsplit, _⟩
  simp at hsplit

variable {history : List Operation} {op : Operation} {name : String} {i j : Nat}

/-- Where a history may be split: before its last operation, or further back. -/
theorem split_concat {before after : List Operation} {first last : Operation}
    (h : history ++ [last] = before ++ first :: after) :
    (before = history ∧ first = last ∧ after = []) ∨
      ∃ rest, after = rest ++ [last] ∧ history = before ++ first :: rest := by
  rcases List.eq_nil_or_concat after with rfl | ⟨rest, op, rfl⟩
  · obtain ⟨rfl, hlast⟩ := List.append_inj' h rfl
    exact .inl ⟨rfl, (List.singleton_inj.mp hlast).symm, rfl⟩
  · rw [List.concat_eq_append] at h ⊢
    have hassoc : before ++ first :: (rest ++ [op]) = (before ++ first :: rest) ++ [op] := by simp
    obtain ⟨rfl, hlast⟩ := List.append_inj' (h.trans hassoc) rfl
    rw [List.singleton_inj.mp hlast]
    exact .inr ⟨rest, rfl, rfl⟩

theorem not_removes_concat {after : List Operation} :
    (∀ later ∈ after ++ [op], ¬ later.Removes name) ↔
      (∀ later ∈ after, ¬ later.Removes name) ∧ ¬ op.Removes name := by
  rw [List.forall_mem_append, List.forall_mem_singleton]

theorem held_concat : Held (history ++ [op]) name ↔
    op.Adds name ∨ Held history name ∧ ¬ op.Removes name := by
  constructor
  · rintro ⟨before, first, after, hsplit, hadds, hkept⟩
    rcases split_concat hsplit with ⟨rfl, rfl, rfl⟩ | ⟨rest, rfl, rfl⟩
    · exact .inl hadds
    · obtain ⟨hrest, hlast⟩ := not_removes_concat.mp hkept
      exact .inr ⟨⟨before, first, rest, rfl, hadds, hrest⟩, hlast⟩
  · rintro (hadds | ⟨⟨before, first, rest, rfl, hadds, hrest⟩, hlast⟩)
    · exact ⟨history, op, [], rfl, hadds, nofun⟩
    · exact ⟨before, first, rest ++ [op], by simp, hadds, not_removes_concat.mpr ⟨hrest, hlast⟩⟩

theorem insertedAt_concat : InsertedAt (history ++ [op]) name i ↔
    (i = history.length ∧ op.Adds name ∧ ¬ Held history name) ∨
      InsertedAt history name i ∧ ¬ op.Removes name := by
  constructor
  · rintro ⟨before, first, after, hsplit, hi, hadds, hnew, hkept⟩
    rcases split_concat hsplit with ⟨rfl, rfl, rfl⟩ | ⟨rest, rfl, rfl⟩
    · exact .inl ⟨hi.symm, hadds, hnew⟩
    · obtain ⟨hrest, hlast⟩ := not_removes_concat.mp hkept
      exact .inr ⟨⟨before, first, rest, rfl, hi, hadds, hnew, hrest⟩, hlast⟩
  · rintro (⟨hi, hadds, hnew⟩ | ⟨⟨before, first, rest, rfl, hi, hadds, hnew, hrest⟩, hlast⟩)
    · exact ⟨history, op, [], rfl, hi.symm, hadds, hnew, nofun⟩
    · exact ⟨before, first, rest ++ [op], by simp, hi, hadds, hnew,
        not_removes_concat.mpr ⟨hrest, hlast⟩⟩

theorem InsertedAt.held (h : InsertedAt history name i) : Held history name := by
  obtain ⟨before, op, after, hsplit, _, hadds, _, hkept⟩ := h
  exact ⟨before, op, after, hsplit, hadds, hkept⟩

theorem InsertedAt.lt (h : InsertedAt history name i) : i < history.length := by
  obtain ⟨before, op, after, rfl, rfl, _⟩ := h
  simp

/-- A name that is held was inserted once. -/
theorem existsUnique_insertedAt (h : Held history name) : ∃! i, InsertedAt history name i := by
  induction history using List.reverseRecOn with
  | nil => exact (not_held_nil name h).elim
  | append_singleton history op ih =>
    by_cases hold : Held history name
    · obtain ⟨i, hi, hunique⟩ := ih hold
      have hkept : ¬ op.Removes name := by
        rcases held_concat.mp h with hadds | ⟨_, hkept⟩
        · exact hadds.not_removes
        · exact hkept
      refine ⟨i, insertedAt_concat.mpr (.inr ⟨hi, hkept⟩), fun j hj => ?_⟩
      rcases insertedAt_concat.mp hj with ⟨_, _, hnew⟩ | ⟨hj, _⟩
      · exact absurd hold hnew
      · exact hunique j hj
    · have hadds : op.Adds name := by
        rcases held_concat.mp h with hadds | ⟨hheld, _⟩
        · exact hadds
        · exact absurd hheld hold
      refine ⟨history.length, insertedAt_concat.mpr (.inl ⟨rfl, hadds, hold⟩), fun j hj => ?_⟩
      rcases insertedAt_concat.mp hj with ⟨hj, _⟩ | ⟨hj, _⟩
      · exact hj
      · exact absurd hj.held hold

/-! ## Names -/

variable {reg changed : Registry} {label : String} {f : Failure}

theorem isStarted_iff {config : Element} {s : Slice} :
    isStarted config s = true ↔ ¬ (Operation.removeOutdated config).Removes s.name := by
  simp [isStarted, Operation.Removes]

/-- A mark that is accepted changes the first slice that may be charged. -/
theorem exists_split_of_markRestart (h : reg.markRestart name label f = .ok changed) :
    ∃ before s after, reg = before ++ s :: after ∧
      changed = before ++ s.markRestart label f :: after ∧
      reg.isCharged name label s = true ∧ ∀ t ∈ before, reg.isCharged name label t = false := by
  unfold markRestart at h
  split at h
  · rename_i hmodify
    cases h
    exact exists_split_of_modifyFirst hmodify
  · cases h

theorem names_perform_markRestart (reg : Registry) (name label : String) (f : Failure) :
    (reg.perform (.markRestart name label f)).names = reg.names := by
  rw [perform]
  split
  · rename_i hok
    obtain ⟨before, s, after, rfl, rfl, _⟩ := exists_split_of_markRestart hok
    simp [names, name_markRestart]
  · rfl

/-- An operation drops some names and may put one new name behind the others. -/
theorem names_perform (reg : Registry) (op : Operation) :
    ∃ kept new, (reg.perform op).names = kept ++ new ∧ kept.Sublist reg.names ∧
      (∀ name ∈ new, name ∉ reg.names) ∧ new.length ≤ 1 := by
  have hadd (name : String) : ∃ kept new, (reg.add name).names = kept ++ new ∧
      kept.Sublist reg.names ∧ (∀ n ∈ new, n ∉ reg.names) ∧ new.length ≤ 1 := by
    rw [names_add]
    by_cases hin : name ∈ reg.names
    · rw [if_pos hin]
      exact ⟨reg.names, [], by simp, .refl _, nofun, Nat.zero_le _⟩
    · rw [if_neg hin]
      exact ⟨reg.names, [name], rfl, .refl _, List.forall_mem_singleton.mpr hin, Nat.le_refl _⟩
  cases op with
  | add start => exact hadd start.startName
  | addNamed name => exact hadd name
  | markRestart name label f =>
    exact ⟨reg.names, [], by rw [names_perform_markRestart, List.append_nil], .refl _, nofun,
      Nat.zero_le _⟩
  | removeOutdated config =>
    refine ⟨_, [], (List.append_nil _).symm, ?_, nofun, Nat.zero_le _⟩
    exact List.filter_sublist.map Slice.name

theorem mem_names_perform :
    name ∈ (reg.perform op).names ↔ op.Adds name ∨ name ∈ reg.names ∧ ¬ op.Removes name := by
  have hadd (n : String) : name ∈ (reg.add n).names ↔ n = name ∨ name ∈ reg.names ∧ ¬ False := by
    rw [names_add]
    by_cases hin : n ∈ reg.names
    · rw [if_pos hin, not_false_eq_true, and_true]
      exact ⟨.inr, fun h => h.elim (fun e => e ▸ hin) id⟩
    · rw [if_neg hin, List.mem_append, List.mem_singleton, not_false_eq_true, and_true, or_comm,
        eq_comm]
  cases op with
  | add start => exact hadd start.startName
  | addNamed n => exact hadd n
  | markRestart n label f =>
    rw [names_perform_markRestart]
    simp [Operation.Adds, Operation.Removes]
  | removeOutdated config =>
    simp only [Operation.Adds, false_or]
    simp only [perform, removeOutdated, names, List.mem_map, List.mem_filter]
    constructor
    · rintro ⟨s, ⟨hs, hstarted⟩, rfl⟩
      exact ⟨⟨s, hs, rfl⟩, isStarted_iff.mp hstarted⟩
    · rintro ⟨⟨s, hs, rfl⟩, hkept⟩
      exact ⟨s, ⟨hs, isStarted_iff.mpr hkept⟩, rfl⟩

theorem mem_names_built : name ∈ (built history).names ↔ Held history name := by
  induction history using List.reverseRecOn with
  | nil => exact ⟨nofun, fun h => (not_held_nil name h).elim⟩
  | append_singleton history op ih => rw [built_concat, mem_names_perform, held_concat, ih]

theorem pairwise_of_length_le_one {r : String → String → Prop} {names : List String}
    (h : names.length ≤ 1) : names.Pairwise r := by
  match names, h with
  | [], _ => exact .nil
  | [name], _ => exact List.pairwise_singleton r name

theorem nodup_names_built (history : List Operation) : (built history).names.Nodup := by
  induction history using List.reverseRecOn with
  | nil => exact List.nodup_nil
  | append_singleton history op ih =>
    obtain ⟨kept, new, hnames, hkept, hnew, hlength⟩ := (built history).names_perform op
    rw [built_concat, hnames, List.nodup_append]
    refine ⟨ih.sublist hkept, pairwise_of_length_le_one hlength, ?_⟩
    rintro a ha b hb rfl
    exact hnew a hb (hkept.subset ha)

/-- One name comes before another just if it was inserted before. -/
theorem names_built_ordered (history : List Operation) : (built history).names.Pairwise fun a b =>
    ∀ i j, InsertedAt history a i → InsertedAt history b j → i < j := by
  induction history using List.reverseRecOn with
  | nil => exact .nil
  | append_singleton history op ih =>
    obtain ⟨kept, new, hnames, hkept, hnew, hlength⟩ := (built history).names_perform op
    -- a name that was there was inserted before the last operation
    have hbefore : ∀ {a i}, a ∈ kept → InsertedAt (history ++ [op]) a i →
        InsertedAt history a i := by
      intro a i ha hi
      rcases insertedAt_concat.mp hi with ⟨_, _, hfresh⟩ | ⟨hi, _⟩
      · exact absurd (mem_names_built.mp (hkept.subset ha)) hfresh
      · exact hi
    rw [built_concat, hnames, List.pairwise_append]
    refine ⟨?_, pairwise_of_length_le_one hlength, ?_⟩
    · refine List.Pairwise.imp_of_mem ?_ (ih.sublist hkept)
      intro a b ha hb hlt i j hi hj
      exact hlt i j (hbefore ha hi) (hbefore hb hj)
    · intro a ha b hb i j hi hj
      rcases insertedAt_concat.mp hj with ⟨rfl, _, _⟩ | ⟨hj, _⟩
      · exact (hbefore ha hi).lt
      · exact absurd (mem_names_built.mpr hj.held) (hnew b hb)

end Registry

/-! ## Marks -/

/-- One counter of a record is raised by one. -/
structure FailureRecord.Counted (f : Failure) (r r' : FailureRecord) : Prop where
  label : r'.label = r.label
  counts : ∀ g, r'.count g = r.count g + if f = g then 1 else 0

theorem FailureRecord.counted_add (r : FailureRecord) (f : Failure) : Counted f r (r.add f) :=
  ⟨r.label_add f, r.count_add f⟩

/-- A failure is counted once: in the record of its label, or else in a new one at the end. -/
inductive Tallied (label : String) (f : Failure) :
    List FailureRecord → List FailureRecord → Prop where
  | again (before : List FailureRecord) {after : List FailureRecord} {r r' : FailureRecord}
      (hlabel : r.label = label) (hcounted : FailureRecord.Counted f r r') :
      Tallied label f (before ++ r :: after) (before ++ r' :: after)
  | first (rs : List FailureRecord) {r : FailureRecord} (hnew : label ∉ labelsOf rs)
      (hcounted : FailureRecord.Counted f { label := label } r) : Tallied label f rs (rs ++ [r])

theorem tallied_tally (label : String) (f : Failure) (rs : List FailureRecord) :
    Tallied label f rs (tally label f rs) := by
  induction rs with
  | nil => exact .first [] List.not_mem_nil (FailureRecord.counted_add _ f)
  | cons r rs ih =>
    rw [tally]
    by_cases hlabel : r.label = label
    · rw [if_pos (beq_iff_eq.mpr hlabel)]
      exact .again [] hlabel (r.counted_add f)
    · rw [if_neg (by simpa using hlabel)]
      generalize tally label f rs = counted at ih
      cases ih with
      | again before hsame hcounted => exact .again (r :: before) hsame hcounted
      | first _ hnew hcounted =>
        exact .first (r :: rs) (by simpa [labelsOf, Ne.symm hlabel] using hnew) hcounted

/-- A failure is counted for one slice, which is to restart; nothing else changes. -/
def Registry.Marked (label : String) (f : Failure) (reg changed : Registry) : Prop :=
  ∃ before s failures after, reg = before ++ s :: after ∧
    changed = before ++ { s with failures, restartPending := true } :: after ∧
    Tallied label f s.failures failures

namespace Registry

theorem marked_markRestart {reg changed : Registry} {name label : String} {f : Failure}
    (h : reg.markRestart name label f = .ok changed) : Marked label f reg changed := by
  obtain ⟨before, s, after, hreg, hchanged, _⟩ := exists_split_of_markRestart h
  exact ⟨before, s, _, after, hreg, hchanged, tallied_tally label f s.failures⟩

/-! ## Labels -/

/-- No slice has two records for a label. -/
def Distinguished (reg : Registry) : Prop := ∀ s ∈ reg, (labelsOf s.failures).Nodup

theorem Distinguished.add {reg : Registry} (h : reg.Distinguished) (name : String) :
    (reg.add name).Distinguished := by
  unfold Registry.add
  split
  · exact h
  · exact List.forall_mem_append.mpr ⟨h, List.forall_mem_singleton.mpr List.nodup_nil⟩

theorem Distinguished.markRestart {reg changed : Registry} (h : reg.Distinguished)
    {name label : String} {f : Failure} (hok : reg.markRestart name label f = .ok changed) :
    changed.Distinguished := by
  obtain ⟨before, s, after, rfl, rfl, _⟩ := exists_split_of_markRestart hok
  obtain ⟨hbefore, hrest⟩ := List.forall_mem_append.mp h
  obtain ⟨hs, hafter⟩ := List.forall_mem_cons.mp hrest
  have hmarked : (labelsOf (tally label f s.failures)).Nodup :=
    nodup_tallyAll [{ slice := name, label, failure := f }] hs
  exact List.forall_mem_append.mpr ⟨hbefore, List.forall_mem_cons.mpr ⟨hmarked, hafter⟩⟩

theorem Distinguished.perform {reg : Registry} (h : reg.Distinguished) (op : Operation) :
    (reg.perform op).Distinguished := by
  cases op with
  | add start => exact h.add start.startName
  | addNamed name => exact h.add name
  | markRestart name label f =>
    rw [Registry.perform]
    split
    · rename_i hok
      exact h.markRestart hok
    · exact h
  | removeOutdated config => exact fun s hs => h s (List.mem_filter.mp hs).1

theorem distinguished_built (history : List Operation) : (built history).Distinguished := by
  induction history using List.reverseRecOn with
  | nil => exact nofun
  | append_singleton history op ih =>
    rw [built_concat]
    exact ih.perform op

/-! ## The map -/

/-- The registry is the map that the history says: from the names that are held, each once and in
the order of their insertions, to slices with one record for a label. -/
structure OrderedMap (history : List Operation) (reg : Registry) : Prop where
  names : reg.names.Nodup
  labels : ∀ s ∈ reg, (labelsOf s.failures).Nodup
  held : ∀ name, (reg.find? name).isSome = true ↔ Held history name
  inserted : ∀ name ∈ reg.names, ∃! i, InsertedAt history name i
  ordered : reg.names.Pairwise fun a b =>
    ∀ i j, InsertedAt history a i → InsertedAt history b j → i < j

theorem orderedMap_built (history : List Operation) : OrderedMap history (built history) where
  names := nodup_names_built history
  labels := distinguished_built history
  held := by
    intro name
    rw [← mem_names_built, Option.isSome_iff_ne_none, ne_eq, find?_eq_none_iff, Classical.not_not]
  inserted := fun _ hname => existsUnique_insertedAt (mem_names_built.mp hname)
  ordered := names_built_ordered history

/-- After any operations a registry is a map from names in the order of insertion.  To remove slices
keeps the others as they are and in their order; a mark counts one failure for one slice, and if it is
refused it changes nothing. -/
theorem ordered_map (history : List Operation) :
    let reg := built history
    OrderedMap history reg ∧
    (∀ config, (reg.perform (.removeOutdated config)).Sublist reg ∧
      ∀ s ∈ reg, s ∈ reg.perform (.removeOutdated config) ↔
        ¬ (Operation.removeOutdated config).Removes s.name) ∧
    ∀ name label f, match reg.markRestart name label f with
      | .ok changed => reg.perform (.markRestart name label f) = changed ∧
          Marked label f reg changed
      | .error _ => reg.perform (.markRestart name label f) = reg := by
  intro reg
  refine ⟨orderedMap_built history, fun config => ⟨List.filter_sublist, fun s hs => ?_⟩, ?_⟩
  · rw [perform, removeOutdated, List.mem_filter, isStarted_iff, and_iff_right hs]
  · intro name label f
    rw [perform]
    split
    · rename_i hok
      exact ⟨rfl, marked_markRestart hok⟩
    · rfl

def onlyBatch : Element :=
  (Markup.Tree.node "config" [] [.node "start" [("name", "batch")] []]).element

/-- `web` fails, is removed and comes back. -/
def comeback : List Operation :=
  [.addNamed "web", .addNamed "batch", .markRestart "web" "web" .cpuFault,
    .removeOutdated onlyBatch, .addNamed "web"]

theorem comeback_ordered_map :
    let reg := built comeback
    let failed : Slice :=
      { name := "web", restartPending := true, failures := [{ label := "web -> disk", cpu := 1 }] }
    OrderedMap comeback reg ∧ reg = [{ name := "batch" }, { name := "web" }] ∧
      InsertedAt comeback "batch" 1 ∧ InsertedAt comeback "web" 4 ∧
      { name := "batch" } ∈ reg.perform (.removeOutdated onlyBatch) ∧
      reg.markRestart "disk" "web -> disk" .cpuFault = .ok [{ name := "batch" }, failed] ∧
      Marked "web -> disk" .cpuFault reg [{ name := "batch" }, failed] := by
  intro reg failed
  have hreg : built comeback = [{ name := "batch" }, { name := "web" }] := by decide +kernel
  have hmark : (built comeback).markRestart "disk" "web -> disk" .cpuFault =
      .ok [{ name := "batch" }, failed] := by decide +kernel
  obtain ⟨hmap, hremoved, hmarked⟩ := ordered_map comeback
  have hdisk := hmarked "disk" "web -> disk" .cpuFault
  rw [hmark] at hdisk
  have hfresh (n : Nat) (name : String) (h : name ∉ (built (comeback.take n)).names) :
      ¬ Held (comeback.take n) name := mt mem_names_built.mpr h
  have hbatch : ∃ start ∈ onlyBatch.starts, start.attribute? "name" = some "batch" := by
    decide +kernel
  obtain ⟨start, hstart, hname⟩ := hbatch
  have hkept : ¬ (Operation.removeOutdated onlyBatch).Removes "batch" :=
    fun h => h start hstart hname
  refine ⟨hmap, hreg, ?_, ?_, ?_, hmark, hdisk.2⟩
  · refine ⟨comeback.take 1, _, _, rfl, rfl, rfl, hfresh 1 "batch" (by decide +kernel), ?_⟩
    exact List.forall_mem_cons.mpr ⟨id, List.forall_mem_cons.mpr ⟨hkept,
      List.forall_mem_singleton.mpr id⟩⟩
  · exact ⟨comeback.take 4, _, [], rfl, rfl, rfl, hfresh 4 "web" (by decide +kernel), nofun⟩
  · refine ((hremoved onlyBatch).2 { name := "batch" } ?_).mpr hkept
    rw [hreg]
    exact List.mem_cons_self

end Registry

end Overseer

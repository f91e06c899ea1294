import Overseer.Reporter
import Overseer.Proofs.Markup.Cutting

/-!
Generations of reports.  The buffer is doubled until it holds what would be written with room for
everything, and the generation ends as that does (`exists_ends`).  A report that can be written at
all is therefore written whole and once, whatever the buffer holds at first (`generate_eq_ok`).
-/

namespace Overseer

open Markup (Draft Instr Writer runText runState)

/-- Effects that only tell of a step in detail. -/
def Effect.IsDebug (e : Effect) : Prop := ∃ text, e = .debug text

namespace Reporter

/-! ## Attempts -/

theorem attempt_outcome (r : Reporter) (draft : Draft) :
    (r.attempt draft).outcome = runText ((Instr.node r.root draft).run (.new r.room)) := by
  rw [attempt, Instr.run]
  cases hopen : Markup.openNode r.root (.new r.room) with
  | error e w =>
    rw [Markup.bind_error hopen]
    rfl
  | ok _ w =>
    rw [Markup.bind_ok hopen]
    dsimp only
    cases (do Markup.runDraft draft; Markup.closeNode r.root : Markup.WriteM Unit) w <;> rfl

/-- The report as it is written where there is room for everything. -/
def whole (root : String) (draft : Draft) : Markup.Run := (Instr.node root draft).run (.new none)

/-- The bytes that a buffer needs to hold it.  The lengths of texts are amounts. -/
def wholeLength (root : String) (draft : Draft) : Nat :=
  Amount.clamp (runState (whole root draft)).text.utf8ByteSize

/-- The bytes that a buffer needs to hold the root tag up to its name. -/
def rootLength (root : String) : Nat := Amount.clamp (1 + root.utf8ByteSize)

/-- What is carried out within a buffer ends as it would with room for everything, or the buffer is
too small. -/
theorem runText_room {a : Markup.WriteM Unit} (ha : Markup.Limitable a) (r : Reporter) :
    runText (a (.new r.room)) =
      if Amount.clamp (runState (a (.new none))).text.utf8ByteSize ≤ r.bufferSize then
        runText (a (.new none))
      else .error (.bufferExceeded r.bufferSize) := by
  rw [room]
  by_cases hsize : r.bufferSize < Amount.limit
  · have hclamp : Amount.clamp (runState (a (.new none))).text.utf8ByteSize ≤ r.bufferSize ↔
        (runState (a (.new none))).text.utf8ByteSize ≤ r.bufferSize := by
      simp only [Amount.clamp]
      omega
    rw [if_pos hsize, ha.runText_eq]
    simp only [hclamp]
  · rw [if_neg hsize, if_pos (Nat.le_trans (Amount.clamp_le _) (Nat.not_lt.mp hsize))]

theorem attempt_of_plain (r : Reporter) {draft : Draft} (hplain : Markup.PlainDraft draft) :
    (r.attempt draft).outcome =
      if wholeLength r.root draft ≤ r.bufferSize then runText (whole r.root draft)
      else .error (.bufferExceeded r.bufferSize) := by
  rw [attempt_outcome]
  exact runText_room (Markup.limitable_run _ (by rwa [Instr.Plain])) r

/-- The draft is carried out if the root tag fits up to its name. -/
theorem notes_attempt (r : Reporter) (draft : Draft) :
    (r.attempt draft).notes.toList.length = if rootLength r.root ≤ r.bufferSize then 1 else 0 := by
  have hempty : "".utf8ByteSize = 0 := by decide +kernel
  have hbracket : (String.ofList ['<']).utf8ByteSize = 1 := by decide +kernel
  have hunlimited := Markup.openNode_of_unlimited (w := .new none) rfl r.root
  have hlength : (runState (Markup.openNode r.root (.new none))).text.utf8ByteSize =
      1 + r.root.utf8ByteSize := by
    rw [hunlimited]
    show ("" ++ String.ofList (['<'] ++ r.root.toList)).utf8ByteSize = _
    rw [String.ofList_append, String.ofList_toList, String.utf8ByteSize_append,
      String.utf8ByteSize_append, hempty, hbracket, Nat.zero_add]
  have hopen := runText_room (Markup.limitable_openNode r.root) r
  rw [hlength, hunlimited] at hopen
  unfold attempt
  cases hroot : Markup.openNode r.root (.new r.room) with
  | error e w =>
    rw [hroot] at hopen
    split at hopen
    · cases hopen
    · rename_i hsmall
      exact (if_neg hsmall).symm
  | ok _ w =>
    rw [hroot] at hopen
    split at hopen
    · rename_i hfits
      dsimp only
      rw [rootLength, if_pos hfits]
      cases (do Markup.runDraft draft; Markup.closeNode r.root : Markup.WriteM Unit) w <;> rfl
    · cases hopen

/-! ## Generations -/

theorem generate_of_ok {r : Reporter} {draft : Draft} {text : String}
    (h : (r.attempt draft).outcome = .ok text) : r.generate draft =
      ⟨r, .ok (r.attempt draft).notes.toList.length, [.write r.name text],
        (r.attempt draft).notes.toList⟩ := by
  rw [generate, h]

theorem generate_of_exceeded {r : Reporter} {draft : Draft} {limit : Nat}
    (h : (r.attempt draft).outcome = .error (.bufferExceeded limit))
    (hsize : r.bufferSize < Amount.limit) : ∃ line notes, r.generate draft =
      ⟨(r.grow.generate draft).reporter,
        (r.grow.generate draft).result.map (· + (r.attempt draft).notes.toList.length),
        .debug line :: (r.grow.generate draft).effects, notes⟩ := by
  rw [generate, h]
  simp only [dif_pos hsize]
  exact ⟨_, _, rfl⟩

theorem generate_of_error {r : Reporter} {draft : Draft} {e : Markup.Error}
    (h : (r.attempt draft).outcome = .error e) (he : ∀ limit, e ≠ .bufferExceeded limit) :
    r.generate draft = ⟨r, .error e, [], (r.attempt draft).notes.toList⟩ := by
  rw [generate, h]
  cases e with
  | bufferExceeded limit => exact absurd rfl (he limit)
  | _ => rfl

/-- Where there is room for everything, no draft that lets its errors pass exceeds it. -/
theorem error_ne_bufferExceeded {root : String} {draft : Draft} {e : Markup.Error}
    (hplain : Markup.PlainDraft draft) (h : runText (whole root draft) = .error e) (limit : Nat) :
    e ≠ .bufferExceeded limit := by
  have hends := Markup.endsWell_run (.node root draft) (by rwa [Instr.Plain]) (.new none) rfl
  rw [Markup.EndsWell, ← whole] at hends
  rintro rfl
  cases hrun : whole root draft with
  | ok _ w =>
    rw [hrun] at h
    cases h
  | error e w =>
    rw [hrun] at h hends
    cases h
    rcases hends with hok | hlate
    · cases hok
    · cases hlate

/-! ## Buffers -/

/-- The sizes of a buffer that is doubled again and again, up to the largest amount. -/
def bufferSizes (first : Nat) : Nat → Nat
  | 0 => first
  | n + 1 => Amount.mul (bufferSizes first n) 2

theorem bufferSizes_succ (first n : Nat) :
    bufferSizes first (n + 1) = bufferSizes (Amount.mul first 2) n := by
  induction n with
  | zero => rfl
  | succ n ih => rw [bufferSizes, ih, bufferSizes]

/-- How many of the first sizes hold so many bytes. -/
def sizesHolding (bytes first count : Nat) : Nat :=
  (List.range count).countP fun i => decide (bytes ≤ bufferSizes first i)

theorem sizesHolding_succ (bytes first count : Nat) :
    sizesHolding bytes first (count + 1) =
      sizesHolding bytes (Amount.mul first 2) count + if bytes ≤ first then 1 else 0 := by
  rw [sizesHolding, List.range_succ_eq_map, List.countP_cons, List.countP_map]
  simp only [Function.comp_def, bufferSizes_succ, decide_eq_true_eq]
  rfl

/-- How a generation ends after some retries: its effects, the buffer at the end and the result. -/
structure Ends (r : Reporter) (draft : Draft) (retries : Nat) : Prop where
  holds : wholeLength r.root draft ≤ bufferSizes r.bufferSize retries
  first : ∀ i < retries, bufferSizes r.bufferSize i < wholeLength r.root draft
  size : (r.generate draft).reporter.bufferSize = bufferSizes r.bufferSize retries
  result : (r.generate draft).result = (runText (whole r.root draft)).map fun _ =>
    sizesHolding (rootLength r.root) r.bufferSize (retries + 1)
  effects : ∃ lines : List Effect, (∀ e ∈ lines, e.IsDebug) ∧ (r.generate draft).effects =
    lines ++ ((runText (whole r.root draft)).toOption.map (Effect.write r.name)).toList

/-- The generation that needs no retry. -/
theorem ends_at_once {r : Reporter} {draft : Draft} (hplain : Markup.PlainDraft draft)
    (hfits : wholeLength r.root draft ≤ r.bufferSize) : r.Ends draft 0 := by
  have hattempt := r.attempt_of_plain hplain
  rw [if_pos hfits] at hattempt
  have hnotes : (r.attempt draft).notes.toList.length =
      sizesHolding (rootLength r.root) r.bufferSize 1 := by
    rw [notes_attempt, sizesHolding_succ]
    exact (Nat.zero_add _).symm
  have hfirst : ∀ i < 0, bufferSizes r.bufferSize i < wholeLength r.root draft :=
    fun i hi => absurd hi (Nat.not_lt_zero i)
  have hdebug : ∀ e ∈ ([] : List Effect), e.IsDebug := List.forall_mem_nil _
  rcases hwhole : runText (whole r.root draft) with e | text
  · have hgenerate := generate_of_error (hattempt.trans hwhole)
      (error_ne_bufferExceeded hplain hwhole)
    refine ⟨hfits, hfirst, ?_, ?_, [], hdebug, ?_⟩ <;> rw [hgenerate]
    · rfl
    · rw [hwhole]
      rfl
    · rw [hwhole]
      rfl
  · have hgenerate := generate_of_ok (hattempt.trans hwhole)
    refine ⟨hfits, hfirst, ?_, ?_, [], hdebug, ?_⟩ <;> rw [hgenerate]
    · rfl
    · rw [hwhole, hnotes]
      rfl
    · rw [hwhole]
      rfl

/-- A retry comes before those of the larger buffer. -/
theorem Ends.retry {r : Reporter} {draft : Draft} {limit retries : Nat}
    (h : (r.attempt draft).outcome = .error (.bufferExceeded limit))
    (hsize : r.bufferSize < Amount.limit) (hsmall : r.bufferSize < wholeLength r.root draft)
    (hends : r.grow.Ends draft retries) : r.Ends draft (retries + 1) := by
  obtain ⟨line, notes, hgenerate⟩ := generate_of_exceeded h hsize
  have hgrown : ∀ i, bufferSizes r.grow.bufferSize i = bufferSizes r.bufferSize (i + 1) :=
    fun i => (bufferSizes_succ r.bufferSize i).symm
  refine ⟨hgrown retries ▸ hends.holds, fun i hi => ?_, ?_, ?_, ?_⟩
  · cases i with
    | zero => exact hsmall
    | succ i => exact hgrown i ▸ hends.first i (Nat.lt_of_succ_lt_succ hi)
  · rw [hgenerate, ← hgrown]
    exact hends.size
  · rw [hgenerate, sizesHolding_succ, ← notes_attempt r draft]
    show (r.grow.generate draft).result.map (· + (r.attempt draft).notes.toList.length) = _
    rw [hends.result, show r.grow.root = r.root from rfl]
    cases runText (whole r.root draft) <;> rfl
  · obtain ⟨lines, hdebug, heffects⟩ := hends.effects
    refine ⟨.debug line :: lines, List.forall_mem_cons.mpr ⟨⟨line, rfl⟩, hdebug⟩, ?_⟩
    rw [hgenerate]
    show Effect.debug line :: (r.grow.generate draft).effects = _
    rw [heffects]
    rfl

/-- A generation ends with the first buffer that holds the whole report. -/
theorem exists_ends (r : Reporter) {draft : Draft} (hplain : Markup.PlainDraft draft) :
    ∃ retries, r.Ends draft retries := by
  induction r using generate.induct draft with
  | case1 r _ text ha =>
    refine ⟨0, ends_at_once hplain ?_⟩
    by_contra hsmall
    rw [attempt_of_plain r hplain, if_neg hsmall] at ha
    cases ha
  | case2 r _ limit ha hsize ih =>
    by_cases hfits : wholeLength r.root draft ≤ r.bufferSize
    · exact ⟨0, ends_at_once hplain hfits⟩
    · obtain ⟨retries, hends⟩ := ih
      exact ⟨retries + 1, hends.retry ha hsize (Nat.not_le.mp hfits)⟩
  | case3 r _ limit ha hsize =>
    exact ⟨0, ends_at_once hplain (Nat.le_trans (Amount.clamp_le _) (Nat.not_lt.mp hsize))⟩
  | case4 r _ e he ha =>
    refine ⟨0, ends_at_once hplain ?_⟩
    by_contra hsmall
    rw [attempt_of_plain r hplain, if_neg hsmall] at ha
    exact he _ (Except.error.inj ha).symm

/-- A report that has a rendering is written once and as that, after any number of attempts. -/
theorem generate_eq_ok {r : Reporter} {draft : Draft} {text : String}
    (hplain : Markup.PlainDraft draft) (h : (Instr.node r.root draft).rendering = .ok text) :
    ∃ (runs : Nat) (retries : List Effect), (r.generate draft).result = .ok runs ∧
      (r.generate draft).effects = retries ++ [.write r.name text] ∧ ∀ e ∈ retries, e.IsDebug := by
  obtain ⟨retries, hends⟩ := r.exists_ends hplain
  obtain ⟨lines, hdebug, heffects⟩ := hends.effects
  have hresult := hends.result
  have hwhole : runText (whole r.root draft) = .ok text := h
  rw [hwhole] at hresult heffects
  exact ⟨_, lines, hresult, heffects, hdebug⟩

/-- A generation writes its own report and otherwise only tells of details, whatever becomes of
it. -/
theorem effects_generate (r : Reporter) (draft : Draft) : ∀ e ∈ (r.generate draft).effects,
    e.IsDebug ∨ ∃ text, e = .write r.name text := by
  induction r using generate.induct draft with
  | case1 r _ text ha =>
    rw [generate_of_ok ha]
    intro e he
    exact .inr ⟨text, List.mem_singleton.mp he⟩
  | case2 r _ limit ha hsize ih =>
    obtain ⟨line, notes, hgenerate⟩ := generate_of_exceeded ha hsize
    rw [hgenerate]
    intro e he
    rcases List.mem_cons.mp he with rfl | he
    · exact .inl ⟨line, rfl⟩
    · exact ih e he
  | case3 r _ limit ha hsize =>
    rw [generate, ha]
    simp only [dif_neg hsize]
    simp
  | case4 r _ e he ha =>
    rw [generate_of_error ha he]
    simp

/-- The reporter that comes back writes the same report. -/
theorem reporter_generate (r : Reporter) (draft : Draft) :
    (r.generate draft).reporter.name = r.name ∧ (r.generate draft).reporter.root = r.root := by
  induction r using generate.induct draft with
  | case1 r _ text ha =>
    rw [generate_of_ok ha]
    exact ⟨rfl, rfl⟩
  | case2 r _ limit ha hsize ih =>
    obtain ⟨line, notes, hgenerate⟩ := generate_of_exceeded ha hsize
    rw [hgenerate]
    exact ih
  | case3 r _ limit ha hsize =>
    rw [generate, ha]
    simp only [dif_neg hsize, and_self]
  | case4 r _ e he ha =>
    rw [generate_of_error ha he]
    exact ⟨rfl, rfl⟩

/-- Generating always ends, and where the buffer starts decides neither the report nor the error.
The buffer ends as the first of its doublings that holds what is written where there is room for
everything.  A report that is complete there is written once, after the draft was carried out in
each buffer that held the root tag up to its name; a draft that fails there fails the same way, and
nothing is written. -/
theorem generate_settles (name root : String) (size : Nat) {draft : Draft}
    (hplain : Markup.PlainDraft draft) :
    let done := (new name root size).generate draft
    let sizes := bufferSizes (max 1 size)
    ∃ retries, wholeLength root draft ≤ sizes retries ∧
      (∀ i < retries, sizes i < wholeLength root draft) ∧
      done.reporter.name = name ∧ done.reporter.root = root ∧
      done.reporter.bufferSize = sizes retries ∧
      match runText (whole root draft) with
      | .ok text =>
        done.result = .ok (sizesHolding (rootLength root) (max 1 size) (retries + 1)) ∧
          ∃ lines : List Effect, (∀ e ∈ lines, e.IsDebug) ∧
            done.effects = lines ++ [.write name text]
      | .error e =>
        (∀ limit, e ≠ .bufferExceeded limit) ∧ done.result = .error e ∧
          ∀ e ∈ done.effects, e.IsDebug := by
  intro done sizes
  obtain ⟨retries, hends⟩ := (new name root size).exists_ends hplain
  have hreporter := (new name root size).reporter_generate draft
  obtain ⟨lines, hdebug, heffects⟩ := hends.effects
  have hresult := hends.result
  refine ⟨retries, hends.holds, hends.first, hreporter.1, hreporter.2, hends.size, ?_⟩
  change done.effects = lines ++ ((runText (whole root draft)).toOption.map _).toList at heffects
  change done.result = (runText (whole root draft)).map _ at hresult
  cases hwhole : runText (whole root draft) with
  | ok text =>
    rw [hwhole] at hresult heffects
    exact ⟨hresult, lines, hdebug, heffects⟩
  | error e =>
    rw [hwhole] at hresult heffects
    refine ⟨error_ne_bufferExceeded hplain hwhole, hresult, ?_⟩
    have hlines : done.effects = lines := heffects.trans (List.append_nil lines)
    rwa [hlines]

/-- Without a buffer to start with, a report of twenty-eight bytes takes thirty-two.  The draft is
carried out with sixteen, which hold the root tag, and with thirty-two. -/
theorem generate_settles_restarts :
    ((new "restart" "restart_info" 0).generate [.attribute "restarts" "2"]).result = .ok 2 ∧
      ((new "restart" "restart_info" 0).generate
        [.attribute "restarts" "2"]).reporter.bufferSize = 32 := by
  have hplain : Markup.PlainDraft [.attribute "restarts" "2"] := by
    simp [Markup.PlainDraft, Instr.Plain]
  have hlength : wholeLength "restart_info" [.attribute "restarts" "2"] = 28 := by decide +kernel
  have htext : runText (whole "restart_info" [.attribute "restarts" "2"]) =
      .ok "<restart_info restarts=\"2\"/>" := by decide +kernel
  obtain ⟨retries, hholds, hfirst, -, -, hsize, hend⟩ :=
    generate_settles "restart" "restart_info" 0 hplain
  rw [hlength] at hholds hfirst
  rw [htext] at hend
  have hretries : retries = 5 := by
    have hlt : ¬ 5 < retries := fun h => absurd (hfirst 5 h) (by decide)
    have hge : ∀ i < 5, bufferSizes 1 i < 28 := by decide
    by_contra hne
    exact absurd (hge retries (by omega)) (Nat.not_lt.mpr hholds)
  subst hretries
  exact ⟨hend.1.trans (by decide), hsize.trans (by decide)⟩

end Reporter

end Overseer

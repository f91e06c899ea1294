import Overseer.Proofs.Markup.Truncation
import Overseer.Session

/-!
Inputs that are rejected.  Processing one publishes the event of its problem and changes nothing
else (`process_refused`).  A report that its session cuts off before the root element ends is
rejected, also where the cut falls within a character (`refused_of_cut_off`).
-/

namespace Overseer

open Markup

/-- The problem for which an input is rejected. -/
inductive Input.RefusedFor : Input → Problem → Prop
  | undecodable {label : Label} {bytes : ByteArray} (h : String.fromUTF8? bytes = none) :
      Input.RefusedFor (.report label bytes) (.invalidUtf8 label.render)
  | malformedReport {label : Label} {bytes : ByteArray} {padded : String} {e : Markup.Error}
      (h : String.fromUTF8? bytes = some padded)
      (he : Element.parse (Monitor.dropPadding padded) = .error e) :
      Input.RefusedFor (.report label bytes) (.malformedReport label.render e)
  | malformedConfig {text : String} {e : Markup.Error} (he : Element.parse text = .error e) :
      Input.RefusedFor (.config text) (.malformedConfig e)

/-- The kind of event that tells of the rejection. -/
def Input.refusal : Input → EventKind
  | .report .. => .reportRejected
  | .config _ => .configRejected

theorem InitConfig.parse_eq_error {text : String} {e : Markup.Error}
    (h : Element.parse text = .error e) : InitConfig.parse text = .error e := by
  unfold InitConfig.parse
  split <;> rename_i heq <;> rw [h] at heq <;> cases heq
  rfl

theorem Supervisor.updateConfig_malformed {text : String} {e : Markup.Error}
    (h : Element.parse text = .error e) (s : Supervisor) :
    s.updateConfig text = (.error (.malformedConfig e), s,
      [.warn ((Problem.malformedConfig e).message ++ ", keeping the previous configuration"),
        .publish (Problem.malformedConfig e).event]) := by
  rw [updateConfig, InitConfig.parse_eq_error h]

namespace Monitor

/-- Publish an event and do nothing else. -/
def announce (m : Monitor) (e : Event) : Monitor :=
  { m with fanOut := { m.fanOut with bus := m.fanOut.bus.publish e } }

/-- A rejected input is told by its event, with log lines around it. -/
theorem handle_refused {input : Input} {p : Problem} (h : input.RefusedFor p) (m : Monitor) :
    ∃ (before : LogLine) (after : List LogLine),
      m.handle input = (m, .log before :: .publish p.event :: after.map .log) ∧
      p.event.kind = input.refusal := by
  cases h with
  | undecodable h =>
    exact ⟨_, [], by simp only [handle, handleReport, h, reject]; rfl, rfl⟩
  | malformedReport h he =>
    exact ⟨_, [], by simp only [handle, handleReport, h, he, reject]; rfl, rfl⟩
  | malformedConfig he =>
    exact ⟨_, [_], by simp only [handle, handleConfig, Supervisor.updateConfig_malformed he]; rfl,
      rfl⟩

/-- Log lines around an event are no events. -/
theorem filterMap_event?_lines (before : LogLine) (e : Event) (after : List LogLine) :
    (.log before :: .publish e :: after.map .log).filterMap Effect.event? = [e] := by
  simp [List.filterMap_cons, Effect.event?]

theorem foldl_apply_lines (lines : List LogLine) (store : ReportStore) :
    (lines.map Effect.log).foldl ReportStore.apply store = store := by
  induction lines with
  | nil => rfl
  | cons line lines ih => exact ih

theorem perform_lines (m : Monitor) (before : LogLine) (e : Event) (after : List LogLine) :
    (m.perform (.log before :: .publish e :: after.map .log)).1 = m.announce e := by
  simp only [perform, FanOut.publishAll, filterMap_event?_lines, List.foldl_cons,
    ReportStore.apply, foldl_apply_lines]
  rfl

theorem process_refused {input : Input} {p : Problem} (h : input.RefusedFor p) (m : Monitor) :
    (m.process input).1 = m.announce p.event := by
  obtain ⟨before, after, hhandle, _⟩ := handle_refused h m
  rw [process, hhandle]
  exact perform_lines m before p.event after

end Monitor

/-! ## Reports that are cut off -/

theorem fromUTF8?_eq_some_iff {bytes : ByteArray} {text : String} :
    String.fromUTF8? bytes = some text ↔ text.toByteArray = bytes := by
  constructor
  · intro h
    unfold String.fromUTF8? at h
    split at h
    · cases h
      rfl
    · cases h
  · rintro rfl
    exact dif_pos text.isValidUTF8

/-- A text in the first bytes of another starts that one. -/
theorem prefix_of_extract {text cut : String} {n : Nat} (hn : n ≤ text.toByteArray.size)
    (hcut : cut.toByteArray = text.toByteArray.extract 0 n) : cut.toList <+: text.toList := by
  refine List.isPrefix_of_utf8Encode_append_eq_utf8Encode
    (text.toByteArray.extract n text.toByteArray.size) ?_
  rw [String.utf8Encode_toList, String.utf8Encode_toList, hcut,
    ← ByteArray.extract_eq_extract_append_extract n (Nat.zero_le n) hn,
    ByteArray.extract_zero_size]

theorem prefix_dropPadding (text : String) :
    (Monitor.dropPadding text).toList <+: text.toList := by
  rw [Monitor.dropPadding, String.toList_ofList, Text.dropEndWhile, ← List.reverse_suffix,
    List.reverse_reverse]
  exact List.dropWhile_suffix _

theorem refused_of_cut_off (s : Session) {bytes : ByteArray} {padded : String} {d : Document}
    (hbytes : String.fromUTF8? bytes = some padded)
    (hparse : Document.parse (Monitor.dropPadding padded) = .ok d)
    (hshort : s.bufferSize < byteLength d.head) : ∃ p, (s.input bytes).RefusedFor p := by
  obtain rfl := fromUTF8?_eq_some_iff.mp hbytes
  unfold Session.input
  cases hdecode : String.fromUTF8? (padded.toByteArray.extract 0
      (min padded.toByteArray.size s.bufferSize)) with
  | none => exact ⟨_, .undecodable hdecode⟩
  | some cut =>
    have hcut := fromUTF8?_eq_some_iff.mp hdecode
    have hderives := documentParse_eq_ok_iff.mp hparse
    have hhead : d.head <+: padded.toList :=
      (hderives.render ▸ d.prefix_head).trans (prefix_dropPadding padded)
    have hprefix : (Monitor.dropPadding cut).toList <+: padded.toList :=
      (prefix_dropPadding cut).trans (prefix_of_extract (Nat.min_le_left ..) hcut)
    have hsize : byteLength cut.toList ≤ s.bufferSize := by
      rw [byteLength_toList, String.utf8ByteSize, hcut, ByteArray.size_extract]
      omega
    have hlength := byteLength_le_of_isPrefix (prefix_dropPadding cut)
    obtain ⟨e, he⟩ := parse_cut_off hderives.obeys hderives.plain hhead hprefix
      (Nat.lt_of_le_of_lt (Nat.le_trans hlength hsize) hshort)
    exact ⟨_, .malformedReport hdecode he⟩

/-- A rejected input publishes one event, which tells of the rejection, and changes nothing else.
Every report that a session cuts off before its root element ends is such an input. -/
theorem refused_changes_nothing :
    (∀ (m : Monitor) {input : Input} {p : Problem}, input.RefusedFor p →
      (m.process input).1 = m.announce p.event ∧
      (m.handle input).2.filterMap Effect.event? = [p.event] ∧ p.event.kind = input.refusal) ∧
    ∀ (s : Session) {bytes : ByteArray} {padded : String} {d : Document},
      String.fromUTF8? bytes = some padded →
      Document.parse (Monitor.dropPadding padded) = .ok d →
      s.bufferSize < byteLength d.head → ∃ p, (s.input bytes).RefusedFor p := by
  constructor
  · intro m input p h
    obtain ⟨before, after, hhandle, hkind⟩ := Monitor.handle_refused h m
    refine ⟨Monitor.process_refused h m, ?_, hkind⟩
    rw [hhandle]
    exact Monitor.filterMap_event?_lines before p.event after
  · intro s bytes padded d hbytes hparse hshort
    exact refused_of_cut_off s hbytes hparse hshort

/-- A document whose content is one character of two bytes. -/
def accented : Document := ⟨[], .closed ⟨['a'], [], []⟩ [.char 'é'] [], []⟩

/-- A session whose buffer ends between the bytes of that character. -/
def narrowSession : Session := ⟨⟨["init", "state"]⟩, 4⟩

/-- What such a session submits of that document and its padding. -/
def cutReport : Input := narrowSession.input "<a>é</a>\x00".toByteArray

theorem accented_derives : accented.Derives "<a>é</a>" := by
  have htag : (⟨['a'], [], []⟩ : Tag).Settled :=
    ⟨⟨by decide, by simp [EndsName], by simp, by simp [AllBlank]⟩, by simp⟩
  have hroot : accented.root.Obeys Tag.Settled := by
    rw [accented, Element.Obeys, PiecesObey, PiecesObey, Piece.Obeys]
    exact ⟨htag, ⟨by decide, trivial⟩, by simp [AllBlank], by simp [EndsName]⟩
  have hplain : ¬ accented.root.tag.OpensMarkup := by
    simp [accented, Element.tag, Tag.OpensMarkup]
  exact ⟨⟨by simp [accented], hroot, by simp [accented]⟩, hplain, by decide⟩

theorem cutReport_changes_nothing : ∃ m p, (Monitor.build {} [] none).1 = .ok m ∧
    cutReport.RefusedFor p ∧ (m.process cutReport).1 = m.announce p.event := by
  have hpadding : Monitor.dropPadding "<a>é</a>\x00" = "<a>é</a>" := by decide
  have hparse : Document.parse (Monitor.dropPadding "<a>é</a>\x00") = .ok accented := by
    rw [hpadding]
    exact documentParse_eq_ok_iff.mpr accented_derives
  obtain ⟨p, hp⟩ := refused_changes_nothing.2 narrowSession (fromUTF8?_eq_some_iff.mpr rfl) hparse
    (by decide)
  exact ⟨_, p, rfl, hp, (refused_changes_nothing.1 _ hp).1⟩

end Overseer

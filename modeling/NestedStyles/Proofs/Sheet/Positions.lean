import NestedStyles.Proofs.Json.Soundness
import NestedStyles.Proofs.Sheet.Reports

/-!
# Errors with a place and errors without

Parsing fails with a place in the text exactly for documents that are not JSON, and without one
exactly for JSON that is no sheet (`Sheet.parse_position`). Which documents are JSON, and for what
value, is said by `Json.IsSource` without reading them.
-/

namespace NestedStyles

namespace Json

/-- A new line begins behind a line feed and nowhere else. -/
theorem Position.line_advance_le (start : Position) (text : List Char) (bytes : Nat) :
    (start.advance text bytes).line ≤ start.line + text.count '\n' := by
  fun_induction Position.advance start text bytes with
  | case1 | case2 => exact Nat.le_add_right ..
  | case3 start rest bytes _ ih =>
    rw [List.count_cons_self]
    exact Nat.le_trans ih (Nat.le_of_eq (Nat.add_right_comm ..))
  | case4 start c rest bytes _ hc ih =>
    rw [List.count_cons_of_ne hc]
    exact ih

/-- A failure is placed on a line of the text. -/
theorem Failure.line_position_le (failure : Failure) (text : List Char) :
    (failure.position text).line ≤ 1 + text.count '\n' :=
  Position.line_advance_le ⟨1, 0⟩ text _

/-- No message about JSON reads as if a place began in it. -/
theorem Cause.not_placeMark_infix (cause : Cause) :
    ¬placeMark.toList <:+: cause.message.toList := by
  rw [← beforeLast_eq_none placeMark_ne_nil]
  cases cause <;> decide +kernel

end Json

namespace Sheet

variable {source : String}

/-- A document that is JSON is judged by its value. -/
theorem parse_of_isSource {v : Json} (h : Json.IsSource v source) :
    parse source = ofDocument v := by
  obtain ⟨rest, hread, hrest⟩ := Json.isSource_iff.mp h
  exact (parse_decode_of_gap hread hrest).1

/-- A document that is not JSON is rejected for that. -/
theorem parse_of_not_isSource (h : ¬∃ v, Json.IsSource v source) :
    ∃ failure : Json.Failure, parse source =
      .error (.malformed failure.cause (failure.position source.toList)) := by
  cases hread : Json.readFirst source.toList with
  | error failure => exact ⟨failure, by rw [parse, hread]; rfl⟩
  | ok found =>
    obtain ⟨value, rest⟩ := found
    have hrest : ¬Json.IsGap rest := fun hrest =>
      h ⟨value, Json.isSource_iff.mpr ⟨rest, hread, hrest⟩⟩
    obtain ⟨unread, hend⟩ := Json.exists_readEnd_of_not_gap hrest
    refine ⟨⟨.trailingCharacters, unread⟩, ?_⟩
    simp only [parse, hread, hend, located, Except.mapError, bind, Except.bind]

theorem diagnostic_of_ofDocument_error {v : Json} {e : LoadError} (h : ofDocument v = .error e) :
    ∃ first others, v.merge.violations = first :: others ∧
      e.diagnostic = ⟨first.complaint, 0, 0⟩ := by
  obtain ⟨first, others, hviolations, rfl⟩ := ofDocument_eq_error h
  refine ⟨first, others, hviolations, ?_⟩
  rw [← Located.message_shapeError]
  rfl

/-- A text is rejected as no JSON and with a place, or for a violation and without one. -/
theorem parse_error_cases {e : LoadError} (h : parse source = .error e) :
    ((¬∃ v, Json.IsSource v source) ∧ 0 < e.diagnostic.line ∧ ∃ failure : Json.Failure,
      e = .malformed failure.cause (failure.position source.toList)) ∨
    e.diagnostic.line = 0 ∧ ∃ v first others, Json.IsSource v source ∧
      v.merge.violations = first :: others ∧ e.diagnostic = ⟨first.complaint, 0, 0⟩ := by
  by_cases hsource : ∃ v, Json.IsSource v source
  · obtain ⟨v, hv⟩ := hsource
    obtain ⟨first, others, hviolations, hdiagnostic⟩ :=
      diagnostic_of_ofDocument_error (parse_of_isSource hv ▸ h)
    exact .inr ⟨by rw [hdiagnostic], v, first, others, hv, hviolations, hdiagnostic⟩
  · obtain ⟨failure, hparse⟩ := parse_of_not_isSource hsource
    cases hparse.symm.trans h
    exact .inl ⟨hsource, failure.line_position_pos source.toList, failure, rfl⟩

/-- Of a document that is not JSON the place is reported, on one of its lines, with a message that
has no mark of a place in it and from which the place has been taken off. Of JSON that is no sheet
the first violation is reported, whole and without a place. -/
theorem parse_position (source : String) :
    ((∃ e, parse source = .error e ∧ 0 < e.diagnostic.line) ↔ ¬∃ v, Json.IsSource v source) ∧
    (∀ e, parse source = .error e → 0 < e.diagnostic.line →
      ¬placeMark.toList <:+: e.diagnostic.message.toList ∧ e.report.diagnostic = e.diagnostic ∧
      1 ≤ e.diagnostic.line ∧ e.diagnostic.line ≤ 1 + source.toList.count '\n') ∧
    ((∃ e, parse source = .error e ∧ e.diagnostic.line = 0 ∧ e.diagnostic.column = 0) ↔
      ∃ v, Json.IsSource v source ∧ v.merge.violations ≠ []) ∧
    ∀ e, parse source = .error e → e.diagnostic.line = 0 →
      ∃ v first others, Json.IsSource v source ∧ v.merge.violations = first :: others ∧
        e.diagnostic = ⟨first.complaint, 0, 0⟩ := by
  have hshape {e : LoadError} (he : parse source = .error e) (h0 : e.diagnostic.line = 0) :
      ∃ v first others, Json.IsSource v source ∧ v.merge.violations = first :: others ∧
        e.diagnostic = ⟨first.complaint, 0, 0⟩ := by
    rcases parse_error_cases he with ⟨-, hpos, -⟩ | ⟨-, hshape⟩
    · exact absurd h0 hpos.ne'
    · exact hshape
  refine ⟨⟨?_, fun hnone => ?_⟩, fun e he hpos => ?_, ⟨?_, ?_⟩, fun e he h0 => hshape he h0⟩
  · rintro ⟨e, he, hpos⟩
    rcases parse_error_cases he with ⟨hnone, -⟩ | ⟨h0, -⟩
    · exact hnone
    · exact absurd h0 hpos.ne'
  · obtain ⟨failure, hparse⟩ := parse_of_not_isSource hnone
    exact ⟨_, hparse, failure.line_position_pos source.toList⟩
  · rcases parse_error_cases he with ⟨-, -, failure, rfl⟩ | ⟨h0, -⟩
    · exact ⟨failure.cause.not_placeMark_infix, LoadError.diagnostic_report_malformed _ hpos, hpos,
        failure.line_position_le source.toList⟩
    · exact absurd h0 hpos.ne'
  · rintro ⟨e, he, h0, -⟩
    obtain ⟨v, first, others, hv, hviolations, -⟩ := hshape he h0
    exact ⟨v, hv, hviolations ▸ List.cons_ne_nil first others⟩
  · rintro ⟨v, hv, hviolations⟩
    cases hdocument : ofDocument v with
    | ok t => exact absurd (ofDocument_eq_ok hdocument) hviolations
    | error e =>
      obtain ⟨_, _, -, hdiagnostic⟩ := diagnostic_of_ofDocument_error hdocument
      exact ⟨e, (parse_of_isSource hv).trans hdocument, by rw [hdiagnostic], by rw [hdiagnostic]⟩

/-- A list that the text ends in, and a sheet with a key that reads like the beginning of a place
and no rule group under it. -/
theorem parse_position_listAndKey :
    (∃ e, parse "[\n" = .error e ∧ e.diagnostic = ⟨"EOF while parsing a list", 2, 0⟩ ∧
      (¬∃ v, Json.IsSource v "[\n") ∧
      ¬placeMark.toList <:+: "EOF while parsing a list".toList ∧ 2 ≤ 1 + "[\n".toList.count '\n') ∧
    ∃ e, parse "\x7b\"a at line 3\": true\x7d" = .error e ∧
      e.diagnostic = ⟨"`a at line 3`: expected a style node object, found boolean", 0, 0⟩ ∧
      ∃ v first others, Json.IsSource v "\x7b\"a at line 3\": true\x7d" ∧
        v.merge.violations = first :: others ∧
        first.complaint = "`a at line 3`: expected a style node object, found boolean" := by
  have hlist : parse "[\n" = .error (.malformed .endInList ⟨2, 0⟩) := by decide +kernel
  have hkey : parse "\x7b\"a at line 3\": true\x7d" =
      .error (.misshapen (.group "a at line 3" .boolean)) := by decide +kernel
  constructor
  · obtain ⟨hmalformed, hplace, -⟩ := parse_position "[\n"
    obtain ⟨hmark, -, -, hline⟩ := hplace _ hlist (by decide)
    exact ⟨_, hlist, by decide +kernel, hmalformed.mp ⟨_, hlist, by decide⟩, hmark, hline⟩
  · obtain ⟨-, -, -, hshape⟩ := parse_position "\x7b\"a at line 3\": true\x7d"
    obtain ⟨v, first, others, hv, hviolations, hdiagnostic⟩ := hshape _ hkey (by decide)
    have hmessage : (LoadError.misshapen (.group "a at line 3" .boolean)).diagnostic =
        ⟨"`a at line 3`: expected a style node object, found boolean", 0, 0⟩ := by decide +kernel
    exact ⟨_, hkey, hmessage, v, first, others, hv, hviolations,
      congrArg Diagnostic.message (hdiagnostic.symm.trans hmessage)⟩

end Sheet
end NestedStyles

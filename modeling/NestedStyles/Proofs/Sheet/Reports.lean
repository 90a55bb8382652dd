import NestedStyles.Proofs.Json.Numeral
import NestedStyles.Proofs.Sheet.Loaders

/-!
# Taking reports apart

A report ends in its place, behind a mark, and `Report.diagnostic` cuts it at the last mark. Where
there is a place that gives the diagnostic back, whatever the message is
(`LoadError.diagnostic_report_malformed`). Where there is none, the message of a shape error does
not end like a place either (`ShapeError.not_endsInPlace`), but the cut may go through a key that it
quotes: `Sheet.diagnostic_of_rejected` says when.
-/

namespace NestedStyles

/-! ## Marks -/

section
variable {α : Type _} {a b c : α} {mark front text : List α}

/-- Behind its second character a mark does not begin again, unless that character does. -/
theorem not_infix_cons (hab : a ≠ b) (hb : b ∉ text) : ¬a :: b :: mark <:+: b :: text := by
  rintro ⟨before, behind, h⟩
  cases before with
  | nil => exact hab (List.cons.inj h).1
  | cons d before =>
    apply hb
    rw [← (List.cons.inj h).2]
    simp

/-- A mark stands on one side of a character that is not in it. -/
theorem infix_append_cons_iff (hmark : mark ≠ []) (hc : c ∉ mark) :
    mark <:+: front ++ c :: text ↔ mark <:+: front ∨ mark <:+: text := by
  have hfront {part : List α} (h : part <+: c :: text) (hpart : ∀ d ∈ part, d ∈ mark) :
      part = [] := by
    rcases List.prefix_cons_iff.mp h with rfl | ⟨tail, rfl, -⟩
    · rfl
    · exact absurd (hpart c List.mem_cons_self) hc
  rw [List.infix_append_iff, List.infix_cons_iff]
  constructor
  · rintro (h | (h | h) | ⟨before, behind, rfl, hbefore, hbehind⟩)
    · exact .inl h
    · exact absurd (hfront h fun _ hd => hd) hmark
    · exact .inr h
    · obtain rfl := hfront hbehind fun _ hd => List.mem_append_right _ hd
      rw [List.append_nil]
      exact .inl hbefore.isInfix
  · rintro (h | h)
    · exact .inl h
    · exact .inr (.inl (.inr h))

end

section
variable {mark text front : List Char}

theorem beforeLast_eq_none (hmark : mark ≠ []) : beforeLast mark text = none ↔ ¬mark <:+: text := by
  induction text with
  | nil => simp [beforeLast, hmark]
  | cons c rest ih =>
    rw [List.infix_cons_iff, not_or, ← ih, beforeLast]
    cases beforeLast mark rest with
    | some front => simp
    | none => simp [List.isPrefixOf_iff_prefix]

theorem prefix_of_beforeLast (h : beforeLast mark text = some front) : front ++ mark <+: text := by
  induction text generalizing front with
  | nil => cases h
  | cons c rest ih =>
    rw [beforeLast] at h
    split at h
    · rename_i inner hinner
      cases h
      exact (List.prefix_cons_inj c).mpr (ih hinner)
    · split at h
      · rename_i hfront
        cases h
        exact List.isPrefixOf_iff_prefix.mp hfront
      · cases h

/-- The cut is made at a mark behind which there is no other. -/
theorem beforeLast_append {c : Char} {behind : List Char} (h : ¬c :: mark <:+: mark ++ behind)
    (front : List Char) : beforeLast (c :: mark) (front ++ c :: mark ++ behind) = some front := by
  induction front with
  | nil =>
    have hnone := (beforeLast_eq_none (List.cons_ne_nil c mark)).mpr h
    simp [beforeLast, hnone, List.isPrefixOf_iff_prefix]
  | cons d front ih =>
    rw [List.cons_append, List.cons_append, beforeLast, ih]

end

theorem toList_placeMark : placeMark.toList = ' ' :: 'a' :: "t line ".toList := by decide +kernel

theorem placeMark_ne_nil : placeMark.toList ≠ [] := by
  rw [toList_placeMark]
  exact List.cons_ne_nil _ _

/-! ## Reports -/

theorem digits_toString (n : Nat) : Json.Digits (toString n).toList := by
  rw [Nat.toString_eq_repr, Nat.toList_repr]
  exact ⟨Nat.toDigits_ne_nil, fun _ => isDigit_of_mem_toDigits⟩

namespace Diagnostic

/-- A place is written without the second character of the mark. -/
theorem notMem_place (line column : Nat) : 'a' ∉ s!"{line} column {column}".toList := by
  have hnumber (n : Nat) : 'a' ∉ (toString n).toList := fun h =>
    absurd ((digits_toString n).isDigit _ h) (by decide)
  rw [String.toList_append, String.toList_append, List.mem_append, List.mem_append]
  rintro ((h | h) | h)
  · exact hnumber line h
  · exact absurd h (by decide)
  · exact hnumber column h

/-- The place of a report is taken off, whatever the message in front of it is. -/
theorem diagnostic_report_of_pos {d : Diagnostic} (h : 0 < d.line) : d.report.diagnostic = d := by
  have hcut : beforeLast placeMark.toList
      (d.message ++ placeMark ++ s!"{d.line} column {d.column}").toList =
        some d.message.toList := by
    rw [String.toList_append, String.toList_append, toList_placeMark]
    apply beforeLast_append
    rw [List.cons_append]
    apply not_infix_cons (by decide)
    rw [List.mem_append, not_or]
    exact ⟨by decide, notMem_place d.line d.column⟩
  rw [report, if_pos h, Report.diagnostic, hcut, Option.getD_some, String.ofList_toList]

/-- Without a place the message is kept if it has no mark in it, and cut if it has. -/
theorem diagnostic_report_iff {d : Diagnostic} (h : d.line = 0) :
    d.report.diagnostic = d ↔ ¬placeMark.toList <:+: d.message.toList := by
  rw [report, if_neg (by omega), Report.diagnostic, ← beforeLast_eq_none placeMark_ne_nil]
  cases hcut : beforeLast placeMark.toList d.message.toList with
  | none => simp
  | some front =>
    have hle := (prefix_of_beforeLast hcut).length_le
    have hmark := List.length_pos_iff.mpr placeMark_ne_nil
    rw [List.length_append] at hle
    constructor
    · intro hd
      have hfront : front = d.message.toList := by
        rw [← hd]
        simp
      rw [← hfront] at hle
      omega
    · intro hnone
      cases hnone

end Diagnostic

/-- What is said of a text that is not JSON is what is left of its report when the place is cut
off. -/
theorem LoadError.diagnostic_report_malformed (cause : Json.Cause) {position : Json.Position}
    (h : 0 < position.line) :
    (malformed cause position).report.diagnostic = (malformed cause position).diagnostic := by
  rw [report_malformed cause h]
  exact Diagnostic.diagnostic_report_of_pos h

/-! ## Places at the end -/

/-- A text with a line and a column at its end, as they stand behind the message of a report. -/
inductive EndsInPlace : List Char → Prop
  | intro (front : List Char) {line column : List Char} (hline : Json.Digits line)
      (hcolumn : Json.Digits column) :
      EndsInPlace (front ++ placeMark.toList ++ line ++ " column ".toList ++ column)

/-- A report with a place ends in it. -/
theorem LoadError.endsInPlace_report (cause : Json.Cause) (position : Json.Position) :
    EndsInPlace (malformed cause position).report.text.toList := by
  have htext : (malformed cause position).report.text = cause.message ++ placeMark ++
      (toString position.line ++ " column " ++ toString position.column) := rfl
  have hplace := EndsInPlace.intro cause.message.toList (digits_toString position.line)
    (digits_toString position.column)
  simpa only [htext, String.toList_append, List.append_assoc] using hplace

theorem EndsInPlace.any_isDigit_getLast? {text : List Char} (h : EndsInPlace text) :
    text.getLast?.any Char.isDigit := by
  obtain ⟨front, -, hcolumn⟩ := h
  rw [List.getLast?_append_of_ne_nil _ hcolumn.ne_nil,
    List.getLast?_eq_getLast_of_ne_nil hcolumn.ne_nil]
  exact hcolumn.isDigit _ (List.getLast_mem hcolumn.ne_nil)

/-! ## Complaints -/

theorem Json.Kind.any_isDigit_getLast?_word (kind : Json.Kind) :
    kind.word.toList.getLast?.any Char.isDigit = false := by
  cases kind <;> rfl

namespace ShapeError

/-- A shape error names the kind of value that it found at the end. -/
theorem exists_message_eq (error : ShapeError) :
    ∃ front kind, error.message = front ++ Json.Kind.word kind := by
  cases error with
  | root found | group _ found | entry _ found => exact ⟨_, found, rfl⟩

/-- Nothing at the end of the message of a shape error reads like a place, whatever its keys are. -/
theorem not_endsInPlace (error : ShapeError) : ¬EndsInPlace error.message.toList := by
  obtain ⟨front, kind, hmessage⟩ := error.exists_message_eq
  have hword : kind.word.toList ≠ [] := by cases kind <;> decide
  intro h
  have hlast := h.any_isDigit_getLast?
  rw [hmessage, String.toList_append, List.getLast?_append_of_ne_nil _ hword,
    kind.any_isDigit_getLast?_word] at hlast
  cases hlast

end ShapeError

namespace Located

theorem not_placeMark_infix_expected (path : List String) :
    ¬placeMark.toList <:+: (": expected " ++ expected path).toList := by
  rw [← beforeLast_eq_none placeMark_ne_nil]
  rcases path with _ | ⟨selector, _ | ⟨key, path⟩⟩
  all_goals
    simp only [expected]
    decide +kernel

theorem not_placeMark_infix_found (kind : Json.Kind) :
    ¬placeMark.toList <:+: (" found " ++ kind.word).toList := by
  rw [← beforeLast_eq_none placeMark_ne_nil]
  cases kind <;> decide +kernel

/-- The words of a complaint, which have no mark in them. -/
theorem not_placeMark_infix_words (path : List String) (kind : Json.Kind) :
    ¬placeMark.toList <:+: (": expected " ++ expected path).toList ++
      ',' :: (" found " ++ kind.word).toList := by
  have hcomma : ',' ∉ placeMark.toList := by decide +kernel
  rw [infix_append_cons_iff placeMark_ne_nil hcomma, not_or]
  exact ⟨not_placeMark_infix_expected path, not_placeMark_infix_found kind⟩

/-- There is a mark in a complaint only where the keys, as they are joined, have one. -/
theorem placeMark_infix_complaint (place : Located Json) :
    placeMark.toList <:+: place.complaint.toList ↔
      placeMark.toList <:+: (" > ".intercalate place.path).toList := by
  obtain ⟨path, value⟩ := place
  have hwords := not_placeMark_infix_words path value.kind
  by_cases hpath : path = []
  · subst hpath
    have hsuffix : (complaint ⟨[], value⟩).toList <:+ (": expected " ++ expected []).toList ++
        ',' :: (" found " ++ value.kind.word).toList :=
      ⟨[':', ' '], by simp [complaint]⟩
    refine iff_of_false (fun h => hwords (h.trans hsuffix.isInfix)) ?_
    simpa using placeMark_ne_nil
  · have hcomplaint : (complaint ⟨path, value⟩).toList =
        [] ++ '`' :: ((" > ".intercalate path).toList ++ '`' ::
          ((": expected " ++ expected path).toList ++
            ',' :: (" found " ++ value.kind.word).toList)) := by
      simp [complaint, hpath]
    have hquote : '`' ∉ placeMark.toList := by decide +kernel
    rw [hcomplaint, infix_append_cons_iff placeMark_ne_nil hquote,
      infix_append_cons_iff placeMark_ne_nil hquote]
    simp only [List.infix_nil, placeMark_ne_nil, hwords, false_or, or_false]

end Located

namespace Sheet

/-- What rejects a document is its text, with a place, or the value at its front. -/
theorem decodeText_eq_error {source : String} {r : Report} (h : decodeText source = .error r) :
    (∃ d : Diagnostic, 0 < d.line ∧ r = d.report) ∨
    ∃ value rest, Json.readFirst source.toList = .ok (value, rest) ∧
      decodeValue value = .error r := by
  rw [decodeText_eq_mapError] at h
  cases hread : Json.readFirst source.toList with
  | error failure =>
    obtain ⟨position, hline, -, hdecode⟩ := parse_decode_of_error hread
    rw [hdecode] at h
    cases h
    exact .inl ⟨_, hline, LoadError.report_malformed _ hline⟩
  | ok found =>
    obtain ⟨value, rest⟩ := found
    by_cases hrest : Json.IsGap rest
    · obtain ⟨-, hdecode⟩ := parse_decode_of_gap hread hrest
      rw [hdecode, ← decodeValue_eq_mapError] at h
      exact .inr ⟨value, rest, rfl, h⟩
    · obtain ⟨position, hline, -, hdecode⟩ := parse_decode_of_not_gap hread hrest
      rw [hdecode, mapError_bind, ← decodeValue_eq_mapError] at h
      cases hvalue : decodeValue value with
      | error r' =>
        rw [hvalue] at h
        cases h
        exact .inr ⟨value, rest, rfl, hvalue⟩
      | ok t =>
        rw [hvalue] at h
        cases h
        exact .inl ⟨_, hline, LoadError.report_malformed _ hline⟩

/-- What rejects a value is its first violation, and the report is the complaint about that. -/
theorem decodeValue_eq_error {v : Json} {r : Report} (h : decodeValue v = .error r) :
    ∃ first others, v.merge.violations = first :: others ∧ r = .ofMessage first.complaint ∧
      ofDocument v = .error (.misshapen first.shapeError) := by
  rw [decodeValue_eq_mapError] at h
  cases hdocument : ofDocument v with
  | ok t =>
    rw [hdocument] at h
    cases h
  | error e =>
    obtain ⟨first, others, hviolations, rfl⟩ := ofDocument_eq_error hdocument
    rw [hdocument] at h
    cases h
    refine ⟨first, others, hviolations, ?_, rfl⟩
    rw [← Located.message_shapeError]
    rfl

/-- A report with a place is its message with the place behind it. A report without one is about
the value at the front of the document, and taking it apart gives what is said of that value
exactly if the keys that lead to the first violation, as they are joined, have no mark in them. -/
theorem diagnostic_of_rejected (r : Report) :
    (∀ source, decodeText source = .error r →
      (0 < r.line ∧ r.text = r.diagnostic.message ++ placeMark ++
        s!"{r.diagnostic.line} column {r.diagnostic.column}") ∨
      ∃ value rest, Json.readFirst source.toList = .ok (value, rest) ∧
        decodeValue value = .error r) ∧
    ∀ v, decodeValue v = .error r →
      r.line = 0 ∧ ∃ e first others, ofDocument v = .error e ∧
        v.merge.violations = first :: others ∧ r.text = e.diagnostic.message ∧
        (r.diagnostic = e.diagnostic ↔
          ¬placeMark.toList <:+: (" > ".intercalate first.path).toList) := by
  refine ⟨fun source h => ?_, fun v h => ?_⟩
  · rcases decodeText_eq_error h with ⟨d, hline, rfl⟩ | hvalue
    · rw [Diagnostic.diagnostic_report_of_pos hline]
      exact .inl ⟨hline, if_pos hline⟩
    · exact .inr hvalue
  · obtain ⟨first, others, hviolations, rfl, hdocument⟩ := decodeValue_eq_error h
    have hreport : Report.ofMessage first.complaint =
        (LoadError.misshapen first.shapeError).diagnostic.report := by
      rw [← Located.message_shapeError]
      rfl
    refine ⟨rfl, _, first, others, hdocument, hviolations, ?_, ?_⟩
    · rw [hreport]
      rfl
    · rw [hreport, Diagnostic.diagnostic_report_iff rfl, ← Located.placeMark_infix_complaint,
        ← Located.message_shapeError]
      rfl

/-- A list that is not closed, and one that is no sheet. -/
theorem diagnostic_of_rejected_list :
    decodeText "[" = .error ⟨"EOF while parsing a list at line 1 column 1", 1, 1⟩ ∧
    "EOF while parsing a list at line 1 column 1" =
      (Report.diagnostic ⟨"EOF while parsing a list at line 1 column 1", 1, 1⟩).message ++
        placeMark ++ "1 column 1" ∧
    decodeValue (.array []) = .error ⟨"expected an object of rule groups, found array", 0, 0⟩ ∧
    ∃ e, ofDocument (.array []) = .error e ∧
      Report.diagnostic ⟨"expected an object of rule groups, found array", 0, 0⟩ =
        e.diagnostic := by
  have htext : decodeText "[" =
      .error ⟨"EOF while parsing a list at line 1 column 1", 1, 1⟩ := by decide +kernel
  have hvalue : decodeValue (.array []) =
      .error ⟨"expected an object of rule groups, found array", 0, 0⟩ := rfl
  refine ⟨htext, ?_, hvalue, ?_⟩
  · obtain ⟨htexts, hvalues⟩ := diagnostic_of_rejected _
    rcases htexts _ htext with ⟨-, hplace⟩ | ⟨_, _, -, hshape⟩
    · exact hplace
    · exact absurd (hvalues _ hshape).1 (by decide)
  · obtain ⟨-, e, first, others, hdocument, hfirst, -, hiff⟩ :=
      (diagnostic_of_rejected _).2 _ hvalue
    cases hfirst
    refine ⟨e, hdocument, hiff.mpr ?_⟩
    decide +kernel

/-- A key that reads like the beginning of a place. -/
def placeInKey : Json := .object [("a at line 3", .object [("x", .boolean true)])]

/-- The cut goes through the key, though the report has no place. -/
theorem diagnostic_cut_in_key : ∃ r e,
    decodeText "\x7b\"a at line 3\": \x7b\"x\": true\x7d\x7d" = .error r ∧
    decodeValue placeInKey = .error r ∧ ofDocument placeInKey = .error e ∧ r.line = 0 ∧
    r.diagnostic.message = "`a" ∧ r.diagnostic.message ≠ r.text ∧ r.diagnostic ≠ e.diagnostic :=
  ⟨_, _, by decide +kernel, rfl, rfl, by decide +kernel⟩

end Sheet
end NestedStyles

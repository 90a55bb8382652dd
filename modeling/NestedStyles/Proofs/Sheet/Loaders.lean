import NestedStyles.Proofs.Json.Reading
import NestedStyles.Proofs.Sheet.Violations

/-!
# Loaders

`Sheet.parse` wants a document to be JSON to its end before it judges the value, `Sheet.decodeText`
judges the value first and reports its errors. They disagree only about the error of a document that
is wrong in both ways (`Sheet.Overrun`), as `Sheet.loaders_agree` says.
-/

namespace NestedStyles

/-! ## Places -/

namespace Json

theorem Position.line_le_advance (start : Position) (text : List Char) (bytes : Nat) :
    start.line ≤ (start.advance text bytes).line := by
  fun_induction Position.advance start text bytes with
  | case1 | case2 => exact Nat.le_refl _
  | case3 start rest bytes _ ih => exact Nat.le_of_succ_le ih
  | case4 start c rest bytes _ _ ih => exact ih

/-- Lines count from one. -/
theorem Failure.line_position_pos (failure : Failure) (text : List Char) :
    0 < (failure.position text).line :=
  Position.line_le_advance ⟨1, 0⟩ text _

end Json

/-- The report that tells what a diagnostic tells. -/
def Diagnostic.report (d : Diagnostic) : Report :=
  ⟨if 0 < d.line then d.message ++ placeMark ++ s!"{d.line} column {d.column}" else d.message,
    d.line, d.column⟩

/-- An error with a place is reported with the place at the end. -/
theorem LoadError.report_malformed (cause : Json.Cause) {position : Json.Position}
    (h : 0 < position.line) :
    (malformed cause position).report = (malformed cause position).diagnostic.report := by
  rw [Diagnostic.report, diagnostic, if_pos h]
  rfl

theorem mapError_bind (f : ε → ε') (x : Except ε α) (k : α → Except ε β) :
    (x >>= k).mapError f = x.mapError f >>= fun a => (k a).mapError f := by
  cases x <;> rfl

namespace Sheet

/-- It makes no difference whether the keys of a value are merged before. -/
theorem ofDocument_merge (v : Json) : ofDocument v.merge = ofDocument v := by
  rw [ofDocument, ofDocument, (Json.uniqueKeys_merge v).merge_eq_self]

/-- To parse a sheet is to parse a value and to take it for a sheet. -/
theorem parse_eq_bind (source : String) : parse source = Json.parse source >>= ofDocument := by
  have hmerge (v : Json) : (Except.ok v.merge >>= ofDocument) = ofDocument v := ofDocument_merge v
  simp only [parse, Json.parse, bind_assoc, hmerge]

/-- A shape error is reported by its message alone. -/
theorem decodeValue_eq_mapError (v : Json) :
    decodeValue v = (ofDocument v).mapError LoadError.report := by
  rw [decodeValue, receive, ofDocument]
  cases ofJson v.merge <;> rfl

/-- A reading that gives reports is a reading whose errors are reported. -/
theorem decodeText_eq_mapError (source : String) :
    decodeText source = (decode source).mapError LoadError.report := by
  have hreceive (v : Json) :
      receive Report.ofMessage v = (ofDocument v).mapError LoadError.report :=
    decodeValue_eq_mapError v
  simp only [decodeText, decode, mapError_bind, hreceive]
  rfl

theorem ofDocument_eq_ok {v : Json} {t : Sheet} (h : ofDocument v = .ok t) :
    v.merge.violations = [] := by
  have hfailure : failure? (ofDocument v) = none := failure?_eq_none.mpr ⟨t, h⟩
  rw [ofDocument, failure?_mapError, failure?_ofJson] at hfailure
  simpa using hfailure

theorem ofDocument_eq_error {v : Json} {e : LoadError} (h : ofDocument v = .error e) :
    ∃ first others, v.merge.violations = first :: others ∧ e = .misshapen first.shapeError := by
  have hfailure := failure?_eq_some.mpr h
  rw [ofDocument, failure?_mapError, failure?_ofJson] at hfailure
  cases hviolations : v.merge.violations with
  | nil => rw [hviolations] at hfailure; cases hfailure
  | cons first others =>
    rw [hviolations] at hfailure
    exact ⟨first, others, rfl, (Option.some.inj hfailure).symm⟩

/-! ## Agreement -/

section
variable {source : String} {value : Json} {rest : List Char}

/-- Where there is no value at the front, both loaders stop for the same reason. -/
theorem parse_decode_of_error {failure : Json.Failure}
    (h : Json.readFirst source.toList = .error failure) :
    ∃ position, 0 < position.line ∧ parse source = .error (.malformed failure.cause position) ∧
      decode source = .error (.malformed failure.cause position) := by
  refine ⟨_, failure.line_position_pos source.toList, ?_, ?_⟩
  · rw [parse, h]
    rfl
  · rw [decode, h]
    rfl

/-- With nothing but space behind its value, a document is that value to both loaders. -/
theorem parse_decode_of_gap (h : Json.readFirst source.toList = .ok (value, rest))
    (hrest : Json.IsGap rest) :
    parse source = ofDocument value ∧ decode source = ofDocument value := by
  have hend : located source.toList (Json.readEnd rest) = .ok () := by
    rw [Json.readEnd_gap hrest]
    rfl
  constructor
  · simp only [parse, h, located, Except.mapError, bind, Except.bind] at hend ⊢
    rw [hend]
  · simp only [decode, h, located, Except.mapError, bind, Except.bind] at hend ⊢
    rw [hend]
    cases ofDocument value <;> rfl

/-- With something else behind the value, one loader does not look at the value and the other
does. -/
theorem parse_decode_of_not_gap (h : Json.readFirst source.toList = .ok (value, rest))
    (hrest : ¬Json.IsGap rest) :
    ∃ position, 0 < position.line ∧
      parse source = .error (.malformed .trailingCharacters position) ∧
      decode source = ofDocument value >>= fun _ =>
        .error (.malformed .trailingCharacters position) := by
  obtain ⟨unread, hend⟩ := Json.exists_readEnd_of_not_gap hrest
  refine ⟨_, Json.Failure.line_position_pos ⟨.trailingCharacters, unread⟩ source.toList, ?_, ?_⟩
  · simp only [parse, h, hend, located, Except.mapError, bind, Except.bind]
  · simp only [decode, h, hend, located, Except.mapError, bind, Except.bind]

end

/-- The value at the front of the document has the wrong shape, of which `first` is the first
violation, and more than space is behind it. -/
def Overrun (source : String) (first : Located Json) : Prop :=
  ∃ value rest others, Json.readFirst source.toList = .ok (value, rest) ∧
    value.merge.violations = first :: others ∧ ¬Json.IsGap rest

/-- All loaders give the same sheet or the same error, but for a document with more than space
behind a value of the wrong shape: there `parse` reports that there is more, and `decodeText` the
first violation. -/
theorem loaders_agree :
    (∀ source,
      (∃ t, parse source = .ok t ∧ decodeText source = .ok t) ∨
      (∃ e, parse source = .error e ∧ decodeText source = .error e.diagnostic.report ∧
        ¬∃ first, Overrun source first) ∨
      ∃ first position, Overrun source first ∧ 0 < position.line ∧
        parse source = .error (.malformed .trailingCharacters position) ∧
        decodeText source = .error (.ofMessage first.complaint)) ∧
    ∀ v,
      (∃ t, ofDocument v = .ok t ∧ decodeValue v = .ok t) ∨
      ∃ e, ofDocument v = .error e ∧ decodeValue v = .error ⟨e.diagnostic.message, 0, 0⟩ := by
  refine ⟨fun source => ?_, fun v => ?_⟩
  · rw [decodeText_eq_mapError]
    cases hread : Json.readFirst source.toList with
    | error failure =>
      obtain ⟨position, hline, hparse, hdecode⟩ := parse_decode_of_error hread
      refine .inr (.inl ⟨_, hparse, ?_, ?_⟩)
      · rw [hdecode, ← LoadError.report_malformed _ hline]
        rfl
      · rintro ⟨first, value, rest, others, hvalue, -⟩
        cases hread.symm.trans hvalue
    | ok found =>
      obtain ⟨value, rest⟩ := found
      -- the document is read in one way only
      have hoverrun : (∃ first, Overrun source first) →
          value.merge.violations ≠ [] ∧ ¬Json.IsGap rest := by
        rintro ⟨first, value', rest', others, hvalue, hviolations, hrest⟩
        cases hread.symm.trans hvalue
        exact ⟨hviolations ▸ List.cons_ne_nil _ _, hrest⟩
      by_cases hrest : Json.IsGap rest
      · obtain ⟨hparse, hdecode⟩ := parse_decode_of_gap hread hrest
        rw [hparse, hdecode]
        cases hdocument : ofDocument value with
        | ok t => exact .inl ⟨t, rfl, rfl⟩
        | error e =>
          obtain ⟨first, -, -, rfl⟩ := ofDocument_eq_error hdocument
          exact .inr (.inl ⟨_, rfl, rfl, fun h => (hoverrun h).2 hrest⟩)
      · obtain ⟨position, hline, hparse, hdecode⟩ := parse_decode_of_not_gap hread hrest
        rw [hdecode]
        cases hdocument : ofDocument value with
        | ok t =>
          refine .inr (.inl ⟨_, hparse, ?_, fun h => (hoverrun h).1 (ofDocument_eq_ok hdocument)⟩)
          rw [← LoadError.report_malformed _ hline]
          rfl
        | error e =>
          obtain ⟨first, others, hviolations, rfl⟩ := ofDocument_eq_error hdocument
          refine .inr (.inr ⟨first, position, ⟨value, rest, others, hread, hviolations, hrest⟩,
            hline, hparse, ?_⟩)
          rw [← Located.message_shapeError]
          rfl
  · rw [decodeValue_eq_mapError]
    cases hdocument : ofDocument v with
    | ok t => exact .inl ⟨t, rfl, rfl⟩
    | error e =>
      obtain ⟨first, -, -, rfl⟩ := ofDocument_eq_error hdocument
      exact .inr ⟨_, rfl, rfl⟩

example :
    parse "[1] x" = .error (.malformed .trailingCharacters ⟨1, 5⟩) ∧
    decodeText "[1] x" = .error (.ofMessage "expected an object of rule groups, found array") := by
  decide +kernel

end Sheet
end NestedStyles

import NestedStyles.Proofs.Json.Integer
import NestedStyles.Proofs.Numeric.Rank
import NestedStyles.Proofs.Sheet.Embedding

/-!
# Documents of a sheet

A document of a sheet writes its entries in order, its texts as strings and its numbers as
integers in decimal. Every sheet of texts and integers that is not nested too deep has documents,
and each of them is read as that sheet (`Sheet.parse_document`).
-/

namespace NestedStyles

/-- The integer next to a number on the side of zero. -/
def Binary64.toInt (x : Binary64) : Int :=
  if x.negative then -(x.units / unitsPerOne : Nat) else (x.units / unitsPerOne : Nat)

theorem Binary64.IsInt.toInt_eq {x : Binary64} {i : Int} (h : x.IsInt i) : x.toInt = i := by
  rw [toInt, h.units, Nat.mul_div_cancel _ unitsPerOne_pos, h.negative]
  simp only [decide_eq_true_eq]
  split <;> omega

/-- A text, or an integer no larger than `2 ^ 53`, of which zero is positive. -/
def Value.Whole : Value → Prop
  | .text _ => True
  | .number x => ∃ i : Int, i.natAbs ≤ 2 ^ 53 ∧ x.IsInt i

/-- The number as a JSON integer. -/
def Binary64.asInteger (x : Binary64) : Json.Number := .integer x.toInt

theorem Value.Whole.kept {value : Value} (h : value.Whole) : value.Kept Binary64.asInteger := by
  cases value with
  | text s => trivial
  | number x =>
    obtain ⟨i, -, hi⟩ := h
    change Binary64.ofInt x.toInt = x
    rw [hi.toInt_eq, hi.ofInt_eq]

namespace Sheet

/-- The source writes the sheet, with space around it. -/
def IsDocument (t : Sheet) (source : String) : Prop :=
  ∃ gap text gap', Json.IsGap gap ∧
    Json.IsText Json.IntegerText (t.toJson Binary64.asInteger) text ∧ Json.IsGap gap' ∧
    source.toList = gap ++ text ++ gap'

end Sheet

/-! ## Writing -/

theorem Value.Whole.exists_isText {value : Value} (h : value.Whole) :
    ∃ text, Json.IsText Json.IntegerText (value.toJson Binary64.asInteger) text := by
  cases value with
  | text s => exact Json.exists_stringText s
  | number x =>
    obtain ⟨i, hle, hi⟩ := h
    rw [← hi.toInt_eq] at hle
    exact ⟨_, .intro hle⟩

theorem Style.exists_memberTexts {s : Style} (h : ∀ value ∈ s.values, value.Whole) :
    ∀ item ∈ Json.memberTexts Json.IntegerText (s.toMembers Binary64.asInteger),
      ∃ text, item text := by
  induction s with
  | empty => exact fun _ hitem => nomatch hitem
  | declare name value rest ih =>
    obtain ⟨hvalue, hrest⟩ := List.forall_mem_cons.mp h
    exact List.forall_mem_cons.mpr ⟨Json.exists_memberText hvalue.exists_isText name, ih hrest⟩
  | nest fragment inner rest ihInner ihRest =>
    have hrest := ihRest fun v hv => h v (mem_values_nest.mpr (.inr hv))
    obtain ⟨inside, hinside⟩ := Json.exists_listed
      (ihInner fun v hv => h v (mem_values_nest.mpr (.inl hv)))
    exact List.forall_mem_cons.mpr
      ⟨Json.exists_memberText ⟨_, inside, hinside, rfl⟩ fragment, hrest⟩

namespace Sheet

/-- A sheet whose numbers are whole can be written as a document. -/
theorem exists_isDocument {t : Sheet} (h : ∀ value ∈ t.values, value.Whole) :
    ∃ source, t.IsDocument source := by
  have hgroups : ∀ item ∈ Json.memberTexts Json.IntegerText
      (t.groups.map fun group => (group.1, .object (group.2.toMembers Binary64.asInteger))),
      ∃ text, item text := by
    obtain ⟨groups⟩ := t
    induction groups with
    | nil => exact fun _ hitem => nomatch hitem
    | cons group groups ih =>
      obtain ⟨hgroup, hrest⟩ := List.forall_mem_append.mp h
      obtain ⟨inside, hinside⟩ := Json.exists_listed (Style.exists_memberTexts hgroup)
      exact List.forall_mem_cons.mpr
        ⟨Json.exists_memberText ⟨_, inside, hinside, rfl⟩ group.1, ih hrest⟩
  obtain ⟨inside, hinside⟩ := Json.exists_listed hgroups
  exact ⟨String.ofList _, [], _, [], .nil, ⟨inside, hinside, rfl⟩, .nil,
    by rw [String.toList_ofList, List.nil_append, List.append_nil]⟩

/-- A sheet of texts and integers in at most 126 levels of styles has documents, and each of them
is read as exactly this sheet. -/
theorem parse_document {t : Sheet} (hkeys : t.UniqueKeys)
    (hvalues : ∀ value ∈ t.values, value.Whole)
    (hdepth : ∀ node ∈ t.nodes, node.path.length ≤ 126) :
    (∃ source, t.IsDocument source) ∧ ∀ source, t.IsDocument source → parse source = .ok t := by
  refine ⟨exists_isDocument hvalues, ?_⟩
  rintro source ⟨gap, text, gap', hgap, htext, hgap', hsource⟩
  have hread : Json.readFirst source.toList = .ok (t.toJson Binary64.asInteger, gap') := by
    have hterminated : Json.Terminated (gap' ++ []) := .gap hgap' fun _ h => nomatch h
    rw [List.append_nil] at hterminated
    rw [hsource]
    exact (Json.finds_value Json.finds_integer _ (depth_toJson_le hdepth)).read hgap htext
      hterminated
  have hdocument : ofDocument (t.toJson Binary64.asInteger) = .ok t := by
    rw [ofDocument, hkeys.toJson.merge_eq_self, ofJson_toJson fun v hv => (hvalues v hv).kept]
    rfl
  simp only [parse, hread, Json.readEnd_gap hgap', located, Except.mapError, bind, Except.bind,
    hdocument]

section
open Json

def minusThree : Binary64 := ⟨0xC008000000000000⟩

/-- A key and a text with characters that have to be escaped, a negative number, and a group
without entries. -/
def escapedSheet : Sheet :=
  ⟨[("é\"", .declare "x" (.number minusThree)
      (.nest "& b" (.declare "" (.text "\n/") .empty) .empty)),
    ("", .empty)]⟩

/-- A document of it, in which a line feed is escaped by number and gaps stand wherever they may. -/
def escapedSource : String :=
  "\t\x7b\"é\\\"\" : \x7b\"x\":-3,\"& b\":\x7b\"\":\"\\u000A/\"\x7d\x7d ,\n\"\":\x7b \x7d\x7d\n"

theorem isDocument_escapedSource : escapedSheet.IsDocument escapedSource := by
  have hraw (c : Char) (h : c ≠ '"' ∧ c ≠ '\\' ∧ 0x20 ≤ c.toNat) : Spelling c [c] :=
    .raw h.1 h.2.1 h.2.2
  have hquote : Spelling '"' ['\\', '"'] := .letter (by decide)
  have hbreak : Spelling '\n' ['\\', 'u', '0', '0', '0', 'A'] :=
    .unit (.intro (i := 0) (j := 0) (k := 0) (l := 10) rfl rfl rfl rfl)
  have hempty : StringText "" ['"', '"'] := ⟨_, .nil, rfl⟩
  have hselector : StringText "é\"" "\"é\\\"\"".toList :=
    ⟨_, .cons (hraw 'é' (by decide)) (.cons hquote .nil), rfl⟩
  have hx : StringText "x" "\"x\"".toList := ⟨_, .cons (hraw 'x' (by decide)) .nil, rfl⟩
  have hb : StringText "& b" "\"& b\"".toList :=
    ⟨_, .cons (hraw '&' (by decide)) (.cons (hraw ' ' (by decide))
      (.cons (hraw 'b' (by decide)) .nil)), rfl⟩
  have htext : StringText "\n/" "\"\\u000A/\"".toList :=
    ⟨_, .cons hbreak (.cons (hraw '/' (by decide)) .nil), rfl⟩
  have hnumber : IntegerText minusThree.asInteger "-3".toList := by
    rw [show minusThree.asInteger = .integer (-3) by decide +kernel]
    exact .intro (by decide)
  have hinner : IsText IntegerText (.object [("", .string "\n/")])
      "\x7b\"\":\"\\u000A/\"\x7d".toList := ⟨_, .last .nil (.tight hempty htext) .nil, rfl⟩
  have hgroup : IsText IntegerText
      (.object [("x", .number minusThree.asInteger), ("& b", .object [("", .string "\n/")])])
      "\x7b\"x\":-3,\"& b\":\x7b\"\":\"\\u000A/\"\x7d\x7d".toList :=
    ⟨_, .more .nil (.tight hx hnumber) .nil (.last .nil (.tight hb hinner) .nil), rfl⟩
  have hspace : IsText IntegerText (.object []) "\x7b \x7d".toList :=
    ⟨[' '], .nothing (by decide), rfl⟩
  have hfirst : MemberText "é\"" (IsText IntegerText _) _ :=
    ⟨_, [' '], [' '], _, hselector, by decide, by decide, hgroup, rfl⟩
  have hspace' : IsGap [' '] := by decide
  have hline : IsGap ['\n'] := by decide
  have hgroups := Listed.more .nil hfirst hspace'
    (.last hline (MemberText.tight hempty hspace) .nil)
  exact ⟨['\t'], _, ['\n'], by decide, ⟨_, hgroups, rfl⟩, by decide, by decide +kernel⟩

/-- A document with gaps and escapes is read as its sheet. -/
theorem parse_document_escaped :
    escapedSheet.UniqueKeys ∧ (∀ value ∈ escapedSheet.values, value.Whole) ∧
    (∀ node ∈ escapedSheet.nodes, node.path.length ≤ 126) ∧
    escapedSheet.IsDocument escapedSource ∧ parse escapedSource = .ok escapedSheet := by
  have hkeys : escapedSheet.UniqueKeys :=
    ⟨by decide, by simp [escapedSheet, Style.UniqueKeys, Style.keys, Style.entries, Keyed.keys]⟩
  have hvalues : ∀ value ∈ escapedSheet.values, value.Whole := by
    have hvalues : escapedSheet.values = [.number minusThree, .text "\n/"] := by decide +kernel
    rw [hvalues]
    refine List.forall_mem_cons.mpr
      ⟨⟨-3, by decide, ?_, ?_, ?_⟩, List.forall_mem_singleton.mpr trivial⟩ <;> decide +kernel
  have hdepth : ∀ node ∈ escapedSheet.nodes, node.path.length ≤ 126 := by decide +kernel
  have hdocument := isDocument_escapedSource
  exact ⟨hkeys, hvalues, hdepth, hdocument,
    (parse_document hkeys hvalues hdepth).2 escapedSource hdocument⟩

end

end Sheet
end NestedStyles

import NestedStyles.Proofs.Json.Duplicates
import NestedStyles.Proofs.Sheet.Positions
import NestedStyles.Proofs.Style.Places

/-!
# Sheets from documents with repeated keys

A document is read as the sheet, or refused with the error, of the value that it is merged to. So
what is refused is a violation of that value, and what stands in it is found by following each key
to the last value under it (`Json.mem_places_merge_iff`): no value that is overridden is looked at,
and none that overrides is missed.
-/

namespace NestedStyles
namespace Json

theorem nil_mem_places_iff {v w : Json} : ⟨[], w⟩ ∈ v.places ↔ v = w := by
  cases v with
  | object members =>
    rw [places, List.mem_cons, or_iff_left fun h => path_ne_nil_of_mem_placesOfMembers h rfl]
    simp [eq_comm]
  | null | boolean | number | string | array => simp [places, eq_comm]

/-- A place under a key is a place in the value of a member with that key. -/
theorem cons_mem_placesOfMembers_iff {members : List (String × Json)} {key : String}
    {path : List String} {w : Json} :
    ⟨key :: path, w⟩ ∈ placesOfMembers members ↔
      ∃ v, (key, v) ∈ members ∧ ⟨path, w⟩ ∈ v.places := by
  induction members with
  | nil => simp [placesOfMembers]
  | cons found rest ih =>
    obtain ⟨key', v⟩ := found
    rw [placesOfMembers, List.mem_append, Located.cons_mem_map_under, ih]
    constructor
    · rintro (⟨rfl, hv⟩ | ⟨u, hu, hplace⟩)
      · exact ⟨v, List.mem_cons_self, hv⟩
      · exact ⟨u, List.mem_cons_of_mem _ hu, hplace⟩
    · rintro ⟨u, hu, hplace⟩
      rcases List.mem_cons.mp hu with heq | hrest
      · cases heq
        exact .inl ⟨rfl, hplace⟩
      · exact .inr ⟨u, hrest, hplace⟩

theorem cons_mem_places_object_iff {members : List (String × Json)} {key : String}
    {path : List String} {w : Json} :
    ⟨key :: path, w⟩ ∈ (object members).places ↔
      ∃ v, (key, v) ∈ members ∧ ⟨path, w⟩ ∈ v.places := by
  rw [places, List.mem_cons, cons_mem_placesOfMembers_iff, or_iff_right]
  rintro ⟨⟩

/-- The value that keys lead to, each of them to what stands last under it. -/
def lastAt? (v : Json) : List String → Option Json
  | [] => some v
  | key :: path =>
    match v with
    | object members => (Keyed.last? key members).bind fun inner => inner.lastAt? path
    | _ => none

/-- What stands in a merged value was the last under each key on the way there. -/
theorem mem_places_merge_iff {d w : Json} {path : List String} :
    ⟨path, w⟩ ∈ d.merge.places ↔ ∃ u, d.lastAt? path = some u ∧ u.merge = w := by
  induction path generalizing d with
  | nil => simp [nil_mem_places_iff, lastAt?]
  | cons key path ih =>
    cases d with
    | null | boolean | number | string | array => simp [merge, places, lastAt?]
    | object members =>
      rw [merge, cons_mem_places_object_iff, lastAt?]
      simp only [Option.bind_eq_some_iff]
      constructor
      · rintro ⟨v, hv, hplace⟩
        obtain ⟨inner, hlast, rfl⟩ := mem_merged_members_iff.mp hv
        obtain ⟨u, hu, rfl⟩ := ih.mp hplace
        exact ⟨u, ⟨inner, hlast, hu⟩, rfl⟩
      · rintro ⟨u, ⟨inner, hlast, hu⟩, rfl⟩
        exact ⟨inner.merge, mem_merged_members_iff.mpr ⟨inner, hlast, rfl⟩, ih.mpr ⟨u, hu, rfl⟩⟩

end Json

namespace Sheet

/-- Repeated keys are gone before anything is judged. A document has one merged value, which can be
written, and every text of it is read as the same sheet or refused with the same error. If it is
refused, it is for the first violation of the merged value, whose keys stand where they first stand
in the document, over the last that stands under them. -/
theorem duplicates_merged {d : Json} {source : String} (h : Json.IsSource d source) :
    ∃ v, (∀ w, d.Merged w ↔ w = v) ∧ (∃ source', Json.IsSource v source') ∧
      (∀ source', Json.IsSource v source' → parse source' = parse source) ∧
      (((∃ t, parse source = .ok t) ∧ v.violations = []) ∨
        ∃ first others, v.violations = first :: others ∧
          parse source = .error (.misshapen first.shapeError)) ∧
      ∀ path w, ⟨path, w⟩ ∈ v.places ↔ ∃ u, d.lastAt? path = some u ∧ u.Merged w := by
  have hparse : parse source = ofDocument d := parse_of_isSource h
  refine ⟨d.merge, fun w => Json.merged_iff, Json.exists_isSource_merge h, ?_, ?_, ?_⟩
  · intro source' h'
    rw [hparse, parse_of_isSource h', ofDocument_merge]
  · rw [hparse]
    cases hdocument : ofDocument d with
    | ok t => exact .inl ⟨⟨t, rfl⟩, ofDocument_eq_ok hdocument⟩
    | error e =>
      obtain ⟨first, others, hviolations, rfl⟩ := ofDocument_eq_error hdocument
      exact .inr ⟨first, others, hviolations, rfl⟩
  · intro path w
    rw [Json.mem_places_merge_iff]
    refine exists_congr fun u => and_congr_right fun _ => ?_
    rw [Json.merged_iff, eq_comm]

section
open Json

/-- Three groups of which two are repeated: the first is repaired by its second value, and the
second is broken by its. -/
def repeatedGroups : Json :=
  .object [("a", .object [("x", .boolean true)]), ("b", .object []), ("c", .null),
    ("b", .array []), ("a", .object [("x", .string "1")])]

/-- A text of it. -/
def repeatedSource : String :=
  "\x7b\"a\":\x7b\"x\":true\x7d,\"b\":\x7b\x7d,\"c\":null,\"b\":[],\"a\":\x7b\"x\":\"1\"\x7d\x7d"

/-- The first places of keys and their last values. -/
theorem merge_repeatedGroups : repeatedGroups.merge =
    .object [("a", .object [("x", .string "1")]), ("b", .array []), ("c", .null)] := by
  rfl

theorem isSource_repeatedSource : IsSource repeatedGroups repeatedSource := by
  have hraw (c : Char) (h : c ≠ '"' ∧ c ≠ '\\' ∧ 0x20 ≤ c.toNat) : Spelling c [c] :=
    .raw h.1 h.2.1 h.2.2
  have hkey {key : String} {c : Char} (hlist : key.toList = [c])
      (h : c ≠ '"' ∧ c ≠ '\\' ∧ 0x20 ≤ c.toNat) : StringText key ['"', c, '"'] := by
    refine ⟨[c], ?_, rfl⟩
    rw [hlist]
    exact .cons (hraw c h) .nil
  have hx : StringText "x" "\"x\"".toList := hkey rfl (by decide)
  have hone : StringText "1" "\"1\"".toList := hkey rfl (by decide)
  have ha : StringText "a" "\"a\"".toList := hkey rfl (by decide)
  have hb : StringText "b" "\"b\"".toList := hkey rfl (by decide)
  have hc : StringText "c" "\"c\"".toList := hkey rfl (by decide)
  have hbroken : IsText NumberText (.object [("x", .boolean true)]) "\x7b\"x\":true\x7d".toList :=
    ⟨_, .last .nil (.tight hx rfl) .nil, rfl⟩
  have hrepaired : IsText NumberText (.object [("x", .string "1")]) "\x7b\"x\":\"1\"\x7d".toList :=
    ⟨_, .last .nil (.tight hx hone) .nil, rfl⟩
  have hempty : IsText NumberText (.object []) "\x7b\x7d".toList := ⟨[], .nothing .nil, rfl⟩
  have hlist : IsText NumberText (.array []) "[]".toList := ⟨[], .nothing .nil, rfl⟩
  have hnull : IsText NumberText .null "null".toList := rfl
  have hgroups := Listed.more .nil (MemberText.tight ha hbroken) .nil
    (.more .nil (MemberText.tight hb hempty) .nil (.more .nil (MemberText.tight hc hnull) .nil
      (.more .nil (MemberText.tight hb hlist) .nil
        (.last .nil (MemberText.tight ha hrepaired) .nil))))
  exact ⟨by decide, [], _, [], .nil, ⟨_, hgroups, rfl⟩, .nil, by decide +kernel⟩

end

/-- Neither the value under the first `a` is reported, which is overridden, nor that under `c`,
which stands behind the first `b`. -/
theorem duplicates_merged_repeated :
    Json.IsSource repeatedGroups repeatedSource ∧
    repeatedGroups.lastAt? ["a", "x"] = some (.string "1") ∧
    parse repeatedSource = .error (.misshapen (.group "b" .array)) := by
  obtain ⟨v, hmerged, -, -, hresult, -⟩ := duplicates_merged isSource_repeatedSource
  obtain rfl := (hmerged _).mp (Json.merged_iff.mpr rfl)
  rw [merge_repeatedGroups] at hresult
  rcases hresult with ⟨-, hnone⟩ | ⟨first, others, hviolations, hparse⟩
  · cases hnone
  · cases hviolations
    exact ⟨isSource_repeatedSource, rfl, hparse⟩

end Sheet
end NestedStyles

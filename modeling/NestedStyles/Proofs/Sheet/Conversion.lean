import NestedStyles.Proofs.Numeric.Rounding
import NestedStyles.Proofs.Sheet.Assembly
import NestedStyles.Proofs.Sheet.Embedding

/-!
# Values of sheets

A value that is read as a sheet is, up to the conversion of its numbers, the value that the sheet
stands for (`Sheet.toJson_of_ofJson`), and that value is read as the sheet again. So nothing of a
value is lost but the difference between an integer and the number that it becomes
(`Sheet.conversion_lossless`).
-/

namespace NestedStyles

namespace Json

mutual
/-- The value with every number as the double that it becomes. -/
def withFloats : Json → Json
  | number n => .number (.float n.toBinary64)
  | array elements => .array (withFloatsElements elements)
  | object members => .object (withFloatsMembers members)
  | value => value
termination_by structural value => value

def withFloatsElements : List Json → List Json
  | [] => []
  | element :: rest => element.withFloats :: withFloatsElements rest
termination_by structural elements => elements

def withFloatsMembers : List (String × Json) → List (String × Json)
  | [] => []
  | (key, value) :: rest => (key, value.withFloats) :: withFloatsMembers rest
termination_by structural members => members
end

end Json

/-- The value of an entry. -/
def Entry.toJson (number : Binary64 → Json.Number) : Entry → Json
  | .value v => v.toJson number
  | .style s => .object (s.toMembers number)

mutual
/-- An entry is turned back into its value, with numbers as doubles. -/
theorem Entry.toJson_of_ofJson {key : String} {path path' : List String} :
    ∀ {v : Json} {entry : Entry}, Entry.ofJson key v path = .ok (entry, path') →
      entry.toJson .float = v.withFloats
  | .string _, _, h | .number _, _, h => by cases h; rfl
  | .null, _, h | .boolean _, _, h | .array _, _, h => by cases h
  | .object members, _, h => by
    obtain ⟨⟨style, _⟩, hmembers, h⟩ := Json.bind_eq_ok.mp h
    cases h
    exact congrArg Json.object (Style.toMembers_of_ofMembers hmembers)

/-- A style is turned back into its members, with numbers as doubles. -/
theorem Style.toMembers_of_ofMembers {path path' : List String} :
    ∀ {members : List (String × Json)} {s : Style}, Style.ofMembers members path = .ok (s, path') →
      s.toMembers .float = Json.withFloatsMembers members
  | [], _, h => by cases h; rfl
  | (key, value) :: rest, s, h => by
    obtain ⟨⟨entry, _⟩, hentry, h⟩ := Json.bind_eq_ok.mp h
    obtain ⟨⟨style, _⟩, hstyle, h⟩ := Json.bind_eq_ok.mp h
    cases h
    rw [Json.withFloatsMembers, ← Entry.toJson_of_ofJson hentry,
      ← Style.toMembers_of_ofMembers hstyle]
    cases entry <;> rfl
end

namespace Sheet

theorem toJson_of_groupsOfMembers {members : List (String × Json)} {groups : Keyed String Style}
    (h : groupsOfMembers members = .ok groups) :
    groups.map (fun group => (group.1, .object (group.2.toMembers .float))) =
      Json.withFloatsMembers members := by
  induction members generalizing groups with
  | nil =>
    cases h
    rfl
  | cons member rest ih =>
    obtain ⟨selector, value⟩ := member
    cases value with
    | object members =>
      obtain ⟨⟨style, _⟩, hstyle, h⟩ := Json.bind_eq_ok.mp h
      obtain ⟨others, hothers, h⟩ := Json.bind_eq_ok.mp h
      cases h
      rw [List.map_cons, ih hothers, Style.toMembers_of_ofMembers hstyle]
      rfl
    | _ => cases h

theorem toJson_of_ofJson {v : Json} {t : Sheet} (h : ofJson v = .ok t) :
    t.toJson .float = v.withFloats := by
  obtain ⟨members, rfl, hgroups⟩ := ofJson_eq_ok_iff.mp h
  exact congrArg Json.object (toJson_of_groupsOfMembers hgroups)

/-- A sheet is read back from the value that it is turned into. -/
theorem ofDocument_toJson {t : Sheet} (h : t.UniqueKeys) :
    ofDocument (t.toJson .float) = .ok t := by
  have hkept : ∀ value ∈ t.values, value.Kept .float := fun value _ => by cases value <;> trivial
  rw [ofDocument_eq_ok_iff, h.toJson.merge_eq_self, ofJson_toJson hkept]

theorem toJson_of_ofDocument {v : Json} {t : Sheet} (hv : v.UniqueKeys)
    (h : ofDocument v = .ok t) : t.toJson .float = v.withFloats := by
  rw [ofDocument_eq_ok_iff, hv.merge_eq_self] at h
  exact toJson_of_ofJson h

theorem ofDocument_eq_assemble {v : Json} (h : v.UniqueKeys) :
    ofDocument v = (assemble v).mapError .misshapen := by
  rw [ofDocument, h.merge_eq_self, assemble_eq_ofJson h]

/-- A value that repeats no key is read by inserting its members one after the other, at every
depth. A sheet is read back from the value that it stands for, bit for bit in its numbers. A value
that is read as a sheet is the one that the sheet stands for, with each number as the double that it
becomes; an integer becomes the closest one, and of two equally close ones the even one. So two
values are read as the same sheet exactly if they differ at most in that. -/
theorem conversion_lossless :
    (∀ v : Json, v.UniqueKeys → ofDocument v = (assemble v).mapError .misshapen) ∧
    (∀ t : Sheet, t.UniqueKeys → ofDocument (t.toJson .float) = .ok t) ∧
    (∀ (v : Json) (t : Sheet), v.UniqueKeys → ofDocument v = .ok t →
      t.UniqueKeys ∧ t.toJson .float = v.withFloats) ∧
    (∀ i : Int, -2 ^ 63 ≤ i → i < 2 ^ 64 → (Json.Number.integer i).toBinary64.IsNearest i) ∧
    ∀ (v w : Json) (t u : Sheet), v.UniqueKeys → w.UniqueKeys →
      ofDocument v = .ok t → ofDocument w = .ok u → (t = u ↔ v.withFloats = w.withFloats) := by
  refine ⟨fun v => ofDocument_eq_assemble, fun t => ofDocument_toJson, fun v t hv ht => ?_,
    fun i hlow hhigh => ?_, ?_⟩
  · exact ⟨uniqueKeys_ofDocument ht, toJson_of_ofDocument hv ht⟩
  · have hlt : i.natAbs < 2 ^ 65 := by omega
    exact Binary64.ofInt_isNearest (Nat.lt_trans hlt (by decide +kernel))
  · intro v w t u hv hw ht hu
    rw [← toJson_of_ofDocument hv ht, ← toJson_of_ofDocument hw hu]
    constructor
    · exact congrArg _
    · intro hjson
      have hsame := ofDocument_toJson (uniqueKeys_ofDocument ht)
      rw [hjson, ofDocument_toJson (uniqueKeys_ofDocument hu)] at hsame
      exact (Except.ok.inj hsame).symm

/-- A style with an integer, and in it a style with a negative zero. -/
def gutters (i : Int) : Json :=
  .object [("a", .object [("x", .number (.integer i)),
    ("b", .object [("y", .number (.float (.ofRank true 0)))])])]

/-- The sheet of the gutters of `2 ^ 53 + 1`: of two doubles equally close the even one, and a zero
with its sign. -/
def guttersSheet : Sheet :=
  ⟨[("a", .declare "x" (.number (.ofInt (2 ^ 53)))
    (.nest "b" (.declare "y" (.number (.ofRank true 0)) .empty) .empty))]⟩

/-- An integer half of the way between two numbers becomes the even one, so its value is read as
that of the even one is. -/
theorem conversion_lossless_halfway :
    (gutters (2 ^ 53 + 1)).UniqueKeys ∧
    (assemble (gutters (2 ^ 53 + 1))).mapError LoadError.misshapen = .ok guttersSheet ∧
    guttersSheet.UniqueKeys ∧ ofDocument (guttersSheet.toJson .float) = .ok guttersSheet ∧
    guttersSheet.toJson .float = (gutters (2 ^ 53 + 1)).withFloats ∧
    (Json.Number.integer (2 ^ 53 + 1)).toBinary64.IsNearest (2 ^ 53 + 1) ∧
    (gutters (2 ^ 53 + 1)).withFloats = (gutters (2 ^ 53)).withFloats := by
  have hkeys (i : Int) : (gutters i).UniqueKeys :=
    ⟨(by decide : ["a"].Nodup), ⟨(by decide : ["x", "b"].Nodup), trivial,
      ⟨(by decide : ["y"].Nodup), trivial, trivial⟩, trivial⟩, trivial⟩
  have hodd : ofDocument (gutters (2 ^ 53 + 1)) = .ok guttersSheet := by decide +kernel
  have heven : ofDocument (gutters (2 ^ 53)) = .ok guttersSheet := by decide +kernel
  obtain ⟨hassemble, hback, hread, hnearest, hsame⟩ := conversion_lossless
  obtain ⟨hunique, hjson⟩ := hread _ _ (hkeys _) hodd
  exact ⟨hkeys _, (hassemble _ (hkeys _)).symm.trans hodd, hunique, hback _ hunique, hjson,
    hnearest _ (by decide) (by decide), (hsame _ _ _ _ (hkeys _) (hkeys _) hodd heven).mp rfl⟩

end Sheet
end NestedStyles

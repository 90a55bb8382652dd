import NestedStyles.Proofs.Css.Calls
import NestedStyles.Proofs.Json.Nesting
import NestedStyles.Proofs.Sheet.Conversion
import NestedStyles.Proofs.Sheet.Positions

/-!
# Calls open while loading

To convert an object into a style is to convert each object in it by a call of the same function.
`Style.ofMembersWithin` does so with a limit on the calls that are open at once, and stops where one
more is needed. Neither a loaded sheet nor a refused value needs more of them than the reader of
JSON leaves (`Sheet.parseWithin_eq`), and a sheet needs as many as its styles lie deep
(`Sheet.parseWithin_eq_ok_iff`).

Results with a limit have an error more, which is `none`: a call is missing.
-/

namespace NestedStyles

theorem mapError_eq_ok_iff {f : ε → ε'} {x : Except ε α} {a : α} :
    x.mapError f = .ok a ↔ x = .ok a := by
  cases x <;> simp [Except.mapError]

/-! ## One call -/

section
variable
  (call : List (String × Json) → List String → Except (Option ShapeError) (Style × List String))

/-- The entry of a value under a key, with what is to be called for an object. -/
def Entry.ofJsonCalling (key : String) :
    Json → List String → Except (Option ShapeError) (Entry × List String)
  | .object members, path => do
    let (inner, path) ← call members (path ++ [key])
    .ok (.style inner, path.dropLast)
  | v, path => (Entry.ofJson key v path).mapError some

/-- The style with these members, with what is to be called for each object among them. -/
def Style.ofMembersCalling :
    List (String × Json) → List String → Except (Option ShapeError) (Style × List String)
  | [], path => .ok (.empty, path)
  | (key, value) :: rest, path => do
    let (entry, path) ← Entry.ofJsonCalling call key value path
    let (style, path) ← ofMembersCalling rest path
    .ok (match entry with
      | .value v => .declare key v style
      | .style inner => .nest key inner style, path)

end

section
variable
  {call : List (String × Json) → List String → Except (Option ShapeError) (Style × List String)}

theorem Entry.ofJsonCalling_eq {v : Json} (h : ∀ members, v = .object members → ∀ path,
      call members path = (Style.ofMembers members path).mapError some)
    (key : String) (path : List String) :
    Entry.ofJsonCalling call key v path = (Entry.ofJson key v path).mapError some := by
  cases v with
  | object members =>
    rw [ofJsonCalling, ofJson, mapError_bind, h members rfl]
    rfl
  | null | boolean | number | string | array => rfl

/-- One call does what the function does, if the calls inside of it do. -/
theorem Style.ofMembersCalling_eq {members : List (String × Json)}
    (h : ∀ key inner, (key, .object inner) ∈ members → ∀ path,
      call inner path = (Style.ofMembers inner path).mapError some) (path : List String) :
    ofMembersCalling call members path = (ofMembers members path).mapError some := by
  induction members generalizing path with
  | nil => rfl
  | cons found rest ih =>
    obtain ⟨key, v⟩ := found
    have hentry : Entry.ofJsonCalling call key v path =
        (Entry.ofJson key v path).mapError some := by
      refine Entry.ofJsonCalling_eq ?_ key path
      rintro inner rfl
      exact h key inner List.mem_cons_self
    have hrest := ih fun key inner hmem => h key inner (List.mem_cons_of_mem _ hmem)
    rw [ofMembersCalling, ofMembers, mapError_bind, hentry]
    refine bind_congr fun result => ?_
    obtain ⟨entry, behind⟩ := result
    dsimp only
    rw [mapError_bind, hrest]
    rfl

section
variable {p : Style → Prop}
  (hcall : ∀ {members path s path'}, call members path = .ok (s, path') ↔
    p s ∧ Style.ofMembers members path = .ok (s, path'))
include hcall

theorem Entry.ofJsonCalling_eq_ok_iff {key : String} {v : Json} {path path' : List String}
    {entry : Entry} :
    Entry.ofJsonCalling call key v path = .ok (entry, path') ↔
      (∀ s, entry = .style s → p s) ∧ Entry.ofJson key v path = .ok (entry, path') := by
  cases v with
  | object members =>
    rw [ofJsonCalling, ofJson, Json.bind_eq_ok, Json.bind_eq_ok]
    constructor
    · rintro ⟨⟨s, behind⟩, hs, heq⟩
      obtain ⟨hp, hmembers⟩ := hcall.mp hs
      cases heq
      refine ⟨?_, _, hmembers, rfl⟩
      rintro _ ⟨⟩
      exact hp
    · rintro ⟨hp, ⟨s, behind⟩, hs, heq⟩
      cases heq
      exact ⟨_, hcall.mpr ⟨hp s rfl, hs⟩, rfl⟩
  | null | boolean | number | string | array =>
    rw [ofJsonCalling, mapError_eq_ok_iff]
    · refine (and_iff_right_of_imp ?_).symm
      rintro h _ rfl
      cases h
    · rintro _ ⟨⟩

/-- If the calls inside succeed exactly for styles of a kind, then the call around them succeeds
exactly if all nested styles are of that kind. -/
theorem Style.ofMembersCalling_eq_ok_iff {members : List (String × Json)} {path path' : List String}
    {s : Style} :
    ofMembersCalling call members path = .ok (s, path') ↔
      (∀ child ∈ s.children, p child.2) ∧ ofMembers members path = .ok (s, path') := by
  induction members generalizing path path' s with
  | nil =>
    rw [ofMembersCalling, ofMembers, Except.ok.injEq, Except.ok.injEq]
    refine (and_iff_right_of_imp ?_).symm
    rintro ⟨⟩
    exact List.forall_mem_nil _
  | cons found rest ih =>
    obtain ⟨key, v⟩ := found
    rw [ofMembersCalling, ofMembers, Json.bind_eq_ok, Json.bind_eq_ok]
    constructor
    · rintro ⟨⟨entry, behind⟩, hentry, hrest⟩
      obtain ⟨⟨style, after⟩, hstyle, hs⟩ := Json.bind_eq_ok.mp hrest
      obtain ⟨hp, hentry⟩ := (Entry.ofJsonCalling_eq_ok_iff hcall).mp hentry
      obtain ⟨hchildren, hstyle⟩ := ih.mp hstyle
      cases hs
      refine ⟨?_, _, hentry, Json.bind_eq_ok.mpr ⟨_, hstyle, rfl⟩⟩
      cases entry with
      | value => exact (children_declare ..).symm ▸ hchildren
      | style inner =>
        rw [children_nest]
        exact List.forall_mem_cons.mpr ⟨hp inner rfl, hchildren⟩
    · rintro ⟨hall, ⟨entry, behind⟩, hentry, hrest⟩
      obtain ⟨⟨style, after⟩, hstyle, hs⟩ := Json.bind_eq_ok.mp hrest
      cases hs
      have hsplit : (∀ s, entry = .style s → p s) ∧ ∀ child ∈ style.children, p child.2 := by
        cases entry with
        | value => exact ⟨nofun, by rwa [children_declare] at hall⟩
        | style inner =>
          rw [children_nest] at hall
          obtain ⟨hinner, hrest⟩ := List.forall_mem_cons.mp hall
          refine ⟨?_, hrest⟩
          rintro _ ⟨⟩
          exact hinner
      exact ⟨_, (Entry.ofJsonCalling_eq_ok_iff hcall).mpr ⟨hsplit.1, hentry⟩,
        Json.bind_eq_ok.mpr ⟨_, ih.mpr ⟨hsplit.2, hstyle⟩, rfl⟩⟩

end
end

/-! ## A limit of calls -/

/-- The style with these members, with `calls` calls for it and the objects in it at most open at
once. -/
def Style.ofMembersWithin :
    Nat → List (String × Json) → List String → Except (Option ShapeError) (Style × List String)
  | 0, _, _ => .error none
  | calls + 1, members, path => ofMembersCalling (ofMembersWithin calls) members path

/-- As many calls are enough, for a style and for an error, as brackets are open at once. -/
theorem Style.ofMembersWithin_eq {calls : Nat} {members : List (String × Json)}
    (h : Json.depthOfMembers members < calls) (path : List String) :
    ofMembersWithin calls members path = (ofMembers members path).mapError some := by
  induction calls generalizing members path with
  | zero => exact absurd h (Nat.not_lt_zero _)
  | succ calls ih =>
    refine ofMembersCalling_eq (fun key inner hinner path => ih ?_ path) path
    have hdepth : (Json.object inner).depth < (Json.object members).depth :=
      Json.depth_lt_of_mem_inside (List.mem_map_of_mem hinner)
    rw [Json.depth, Json.depth] at hdepth
    omega

/-- A style is made with as many calls open at once as it has levels, and with no fewer. -/
theorem Style.ofMembersWithin_eq_ok_iff {calls : Nat} {members : List (String × Json)}
    {path path' : List String} {s : Style} :
    ofMembersWithin calls members path = .ok (s, path') ↔
      s.Shallow calls ∧ ofMembers members path = .ok (s, path') := by
  induction calls generalizing members path path' s with
  | zero => simp [ofMembersWithin, not_shallow_zero]
  | succ calls ih =>
    rw [ofMembersWithin, shallow_succ_iff]
    exact ofMembersCalling_eq_ok_iff ih

namespace Sheet

def groupsOfMembersWithin (calls : Nat) :
    List (String × Json) → Except (Option ShapeError) (Keyed String Style)
  | [] => .ok []
  | (selector, .object members) :: rest => do
    let (style, _) ← Style.ofMembersWithin calls members [selector]
    let groups ← groupsOfMembersWithin calls rest
    .ok ((selector, style) :: groups)
  | (selector, v) :: _ => .error (some (.group selector v.kind))

/-- The sheet of a value with at most `calls` calls open at once. `none` is a call too many. -/
def ofJsonWithin (calls : Nat) : Json → Except (Option ShapeError) Sheet
  | .object members => (groupsOfMembersWithin calls members).map Sheet.mk
  | v => .error (some (.root v.kind))

/-- The sheet of a document, with `calls` calls at most open at once while its value is taken for a
sheet. -/
def parseWithin (calls : Nat) (source : String) : Except (Option LoadError) Sheet := do
  let text := source.toList
  let (value, rest) ← (located text (Json.readFirst text)).mapError some
  (located text (Json.readEnd rest)).mapError some
  (ofJsonWithin calls value.merge).mapError (Option.map .misshapen)

theorem groupsOfMembersWithin_eq {calls : Nat} {members : List (String × Json)}
    (h : Json.depthOfMembers members ≤ calls) :
    groupsOfMembersWithin calls members = (groupsOfMembers members).mapError some := by
  induction members with
  | nil => rfl
  | cons found rest ih =>
    obtain ⟨selector, v⟩ := found
    obtain ⟨hv, hrest⟩ := Nat.max_le.mp h
    cases v with
    | object members =>
      rw [groupsOfMembersWithin, groupsOfMembers, mapError_bind, Style.ofMembersWithin_eq hv]
      refine bind_congr fun result => ?_
      obtain ⟨style, behind⟩ := result
      dsimp only
      rw [mapError_bind, ih hrest]
      rfl
    | null | boolean | number | string | array => rfl

/-- Groups are built with a limit of calls if all of them are shallow enough, and then they are the
same. -/
theorem groupsOfMembersWithin_eq_ok_iff {calls : Nat} {members : List (String × Json)}
    {groups : Keyed String Style} :
    groupsOfMembersWithin calls members = .ok groups ↔
      (∀ group ∈ groups, group.2.Shallow calls) ∧ groupsOfMembers members = .ok groups := by
  induction members generalizing groups with
  | nil =>
    rw [groupsOfMembersWithin, groupsOfMembers, Except.ok.injEq, Except.ok.injEq]
    refine (and_iff_right_of_imp ?_).symm
    rintro rfl
    exact List.forall_mem_nil _
  | cons found rest ih =>
    obtain ⟨selector, v⟩ := found
    cases v with
    | object members =>
      rw [groupsOfMembersWithin, groupsOfMembers, Json.bind_eq_ok, Json.bind_eq_ok]
      constructor
      · rintro ⟨⟨style, behind⟩, hstyle, hgroups⟩
        obtain ⟨others, hothers, heq⟩ := Json.bind_eq_ok.mp hgroups
        obtain ⟨hshallow, hstyle⟩ := Style.ofMembersWithin_eq_ok_iff.mp hstyle
        obtain ⟨hall, hothers⟩ := ih.mp hothers
        cases heq
        exact ⟨List.forall_mem_cons.mpr ⟨hshallow, hall⟩, _, hstyle,
          Json.bind_eq_ok.mpr ⟨_, hothers, rfl⟩⟩
      · rintro ⟨hall, ⟨style, behind⟩, hstyle, hgroups⟩
        obtain ⟨others, hothers, heq⟩ := Json.bind_eq_ok.mp hgroups
        cases heq
        obtain ⟨hshallow, hall⟩ := List.forall_mem_cons.mp hall
        exact ⟨_, Style.ofMembersWithin_eq_ok_iff.mpr ⟨hshallow, hstyle⟩,
          Json.bind_eq_ok.mpr ⟨_, ih.mpr ⟨hall, hothers⟩, rfl⟩⟩
    | null | boolean | number | string | array =>
      simp [groupsOfMembersWithin, groupsOfMembers]

theorem ofJsonWithin_eq {calls : Nat} {v : Json} (h : v.depth ≤ calls + 1) :
    ofJsonWithin calls v = (ofJson v).mapError some := by
  cases v with
  | object members =>
    rw [ofJsonWithin, ofJson, groupsOfMembersWithin_eq (Nat.le_of_succ_le_succ h)]
    cases groupsOfMembers members <;> rfl
  | null | boolean | number | string | array => rfl

/-- A sheet is built with a limit of calls if no style in it lies deeper, and then it is the
same. -/
theorem ofJsonWithin_eq_ok_iff {calls : Nat} {v : Json} {t : Sheet} :
    ofJsonWithin calls v = .ok t ↔
      (∀ node ∈ t.nodes, node.path.length ≤ calls) ∧ ofJson v = .ok t := by
  rw [← forall_shallow_iff]
  cases v with
  | object members =>
    obtain ⟨groups⟩ := t
    have hmap {ε : Type} {x : Except ε (Keyed String Style)} :
        x.map Sheet.mk = .ok ⟨groups⟩ ↔ x = .ok groups := by
      cases x <;> simp [Except.map]
    rw [ofJsonWithin, ofJson, hmap, hmap]
    exact groupsOfMembersWithin_eq_ok_iff
  | null | boolean | number | string | array => simp [ofJsonWithin, ofJson]

/-- A document is refused before its value is looked at, or the value is what decides, and no more
brackets are open in it than the reader follows. -/
theorem parseWithin_cases (calls : Nat) (source : String) :
    (∃ e, parseWithin calls source = .error (some e) ∧ parse source = .error e) ∨
    ∃ v : Json, v.depth ≤ 127 ∧ parse source = ofDocument v ∧
      parseWithin calls source = (ofJsonWithin calls v.merge).mapError (Option.map .misshapen) := by
  simp only [parseWithin, parse, located, Except.mapError, bind, Except.bind]
  cases hread : Json.readFirst source.toList with
  | error failure => exact .inl ⟨_, rfl, rfl⟩
  | ok found =>
    obtain ⟨v, rest⟩ := found
    have hdepth : v.depth ≤ 127 := ((Json.sound_value 127).read hread).1
    dsimp only
    cases Json.readEnd rest with
    | error failure => exact .inl ⟨_, rfl, rfl⟩
    | ok => exact .inr ⟨v, hdepth, rfl, rfl⟩

/-- The brackets that the reader follows leave no call missing, whatever the text. -/
theorem parseWithin_eq (source : String) :
    parseWithin 126 source = (parse source).mapError some := by
  rcases parseWithin_cases 126 source with ⟨e, hwithin, hparse⟩ | ⟨v, hdepth, hparse, hwithin⟩
  · rw [hwithin, hparse]
    rfl
  · rw [hwithin, hparse, ofJsonWithin_eq (Nat.le_trans (Json.depth_merge_le v) hdepth), ofDocument]
    cases ofJson v.merge <;> rfl

/-- A sheet is loaded with as many calls open at once as its styles lie deep, and with no fewer. -/
theorem parseWithin_eq_ok_iff {calls : Nat} {source : String} {t : Sheet} :
    parseWithin calls source = .ok t ↔
      (∀ node ∈ t.nodes, node.path.length ≤ calls) ∧ parse source = .ok t := by
  rcases parseWithin_cases calls source with ⟨e, hwithin, hparse⟩ | ⟨v, -, hparse, hwithin⟩
  · rw [hwithin, hparse]
    simp
  · rw [hwithin, hparse, mapError_eq_ok_iff, ofJsonWithin_eq_ok_iff, ofDocument_eq_ok_iff]

/-- No style that is loaded lies deeper than the calls that are enough to load it. -/
theorem forall_nodes_le {source : String} {t : Sheet} (h : parse source = .ok t) :
    ∀ node ∈ t.nodes, node.path.length ≤ 126 := by
  have hwithin : parseWithin 126 source = .ok t := by
    rw [parseWithin_eq, h]
    rfl
  exact (parseWithin_eq_ok_iff.mp hwithin).1

/-- What the brackets of a text say decides, whether the rest of it is JSON or not. -/
theorem exists_malformed_of_nesting {source : String} (h : 127 < Json.nesting source.toList) :
    ∃ cause position, parse source = .error (.malformed cause position) ∧ 0 < position.line := by
  have hsource : ¬∃ v, Json.IsSource v source := by
    rintro ⟨v, hv⟩
    exact Nat.not_lt.mpr hv.nesting_le h
  obtain ⟨failure, hparse⟩ := parse_of_not_isSource hsource
  exact ⟨_, _, hparse, failure.line_position_pos source.toList⟩

end Sheet

/-! ## The deepest sheets -/

/-- So many styles, each alone in the next one. -/
def Style.chain : Nat → Style
  | 0 => .empty
  | n + 1 => .nest "a" (chain n) .empty

/-- A chain has one level for each of its styles. -/
theorem Style.shallow_chain_iff {n levels : Nat} : (chain n).Shallow levels ↔ n < levels := by
  induction levels generalizing n with
  | zero => simp [not_shallow_zero]
  | succ levels ih =>
    rw [shallow_succ_iff]
    cases n with
    | zero => simp [chain]
    | succ n => simp [chain, ih]

theorem Style.uniqueKeys_chain (n : Nat) : (chain n).UniqueKeys := by
  induction n with
  | zero => trivial
  | succ n ih => exact ⟨List.not_mem_nil, ih, trivial⟩

theorem Style.exists_isText_chain {numeral : Json.Number → List Char → Prop}
    {number : Binary64 → Json.Number} (n : Nat) :
    ∃ text, Json.IsText numeral (.object ((chain n).toMembers number)) text := by
  induction n with
  | zero => exact Json.exists_isText_object_iff.mpr (List.forall_mem_nil _)
  | succ n ih => exact Json.exists_isText_object_iff.mpr (List.forall_mem_singleton.mpr ih)

theorem Style.objectDepth_chain {number : Binary64 → Json.Number} (n : Nat) :
    (Json.object ((chain n).toMembers number)).objectDepth = n + 1 := by
  induction n with
  | zero => rfl
  | succ n ih =>
    rw [chain, toMembers, toMembers, Json.objectDepth, Json.objectDepthOfMembers, ih]
    rfl

namespace Sheet

/-- A sheet of one group with styles down to level `n + 1`. -/
def chain (n : Nat) : Sheet := ⟨[("a", .chain n)]⟩

theorem forall_nodes_chain_iff {n levels : Nat} :
    (∀ node ∈ (chain n).nodes, node.path.length ≤ levels) ↔ n < levels := by
  rw [← forall_shallow_iff, chain, List.forall_mem_singleton, Style.shallow_chain_iff]

/-- Chains up to the limit of depth have sources. -/
theorem exists_source_chain {n : Nat} (h : n ≤ 125) :
    ∃ source, parse source = .ok (chain n) ∧ Json.nesting source.toList = n + 2 := by
  have hdepth : ((chain n).toJson .float).depth ≤ 126 + 1 :=
    depth_toJson_le (forall_nodes_chain_iff.mpr (Nat.lt_succ_of_le h))
  have htext : ∃ text, Json.IsText Json.NumberText ((chain n).toJson .float) text :=
    Json.exists_isText_object_iff.mpr (List.forall_mem_singleton.mpr (Style.exists_isText_chain n))
  have hkeys : (chain n).UniqueKeys :=
    ⟨List.nodup_singleton _, List.forall_mem_singleton.mpr (Style.uniqueKeys_chain n)⟩
  have hobjects : ((chain n).toJson .float).objectDepth = n + 2 := by
    rw [toJson, chain, List.map_singleton, Json.objectDepth, Json.objectDepthOfMembers,
      Style.objectDepth_chain]
    rfl
  obtain ⟨source, hsource⟩ := Json.exists_isSource_iff.mpr ⟨hdepth, htext⟩
  exact ⟨source, by rw [parse_of_isSource hsource, ofDocument_toJson hkeys],
    by rw [hsource.nesting_eq, hobjects]⟩

/-- The calls that are open at once are bounded, whatever the text. Loading, which may fail, takes
no more than 126 of them in each other, so no style that is loaded lies deeper, and writing it takes
no more either. A text with more than 127 objects in each other is refused with a place in the text;
for JSON its brackets count them. There is a sheet for which one call less is not enough. -/
theorem calls_bounded :
    (∀ source : String,
      parseWithin 126 source = (parse source).mapError some ∧
      (∀ t, parse source = .ok t → (∀ node ∈ t.nodes, node.path.length ≤ 126) ∧
        ∀ out, t.writeWithin 126 out = some (t.write out)) ∧
      (127 < Json.nesting source.toList → ∃ cause position,
        parse source = .error (.malformed cause position) ∧ 0 < position.line)) ∧
    (∀ (v : Json) (gap text gap' : List Char), Json.IsGap gap →
      Json.IsText Json.NumberText v text → Json.IsGap gap' →
      Json.nesting (gap ++ text ++ gap') = v.objectDepth) ∧
    ∃ source t, parse source = .ok t ∧ Json.nesting source.toList = 127 ∧
      (∃ node ∈ t.nodes, node.path.length = 126) ∧ (∀ t', parseWithin 125 source ≠ .ok t') ∧
      ∀ out, t.writeWithin 125 out = none := by
  refine ⟨fun source => ⟨parseWithin_eq source, fun t ht => ?_, exists_malformed_of_nesting⟩,
    fun v gap text gap' => Json.nesting_eq_objectDepth, ?_⟩
  · have hnodes := forall_nodes_le ht
    exact ⟨hnodes, fun out => writeWithin_eq_some_iff.mpr ⟨hnodes, rfl⟩⟩
  · obtain ⟨source, hparse, hnesting⟩ := exists_source_chain (Nat.le_refl 125)
    have hdeep : ¬∀ node ∈ (chain 125).nodes, node.path.length ≤ 125 := fun h =>
      Nat.lt_irrefl 125 (forall_nodes_chain_iff.mp h)
    have hle : ∀ node ∈ (chain 125).nodes, node.path.length ≤ 126 :=
      forall_nodes_chain_iff.mpr (Nat.lt_succ_self 125)
    refine ⟨source, chain 125, hparse, hnesting, ?_, fun t' ht' => ?_, fun out => ?_⟩
    · obtain ⟨node, hdeepest⟩ := not_forall.mp hdeep
      obtain ⟨hnode, hlt⟩ := Classical.not_imp.mp hdeepest
      exact ⟨node, hnode, Nat.le_antisymm (hle node hnode) (Nat.lt_of_not_le hlt)⟩
    · obtain ⟨hnodes, hparse'⟩ := parseWithin_eq_ok_iff.mp ht'
      obtain rfl := Except.ok.inj (hparse.symm.trans hparse')
      exact hdeep hnodes
    · refine Option.eq_none_iff_forall_ne_some.mpr fun out' hout' => ?_
      exact hdeep (writeWithin_eq_some_iff.mp hout').1

/-- So many objects in each other, around a list of two more, the second with a bracket in its
key. -/
def deepText (n : Nat) : List Char :=
  (List.replicate n ['\x7b', '"', 'a', '"', ':']).flatten ++
    "[\x7b\x7d,\x7b\"\x7b\":1\x7d]".toList ++ List.replicate n '\x7d'

/-- A text past the limit, and a small sheet. -/
theorem calls_bounded_deepText :
    127 < Json.nesting (String.ofList (deepText 127)).toList ∧
    (∃ cause position,
      parse (String.ofList (deepText 127)) = .error (.malformed cause position) ∧
        0 < position.line) ∧
    parse "\x7b\"a\":\x7b\"a\":\x7b\x7d\x7d\x7d" = .ok (chain 1) ∧
    ∀ out, (chain 1).writeWithin 126 out = some ((chain 1).write out) := by
  have hnesting : 127 < Json.nesting (String.ofList (deepText 127)).toList := by
    rw [String.toList_ofList]
    decide +kernel
  have hparse : parse "\x7b\"a\":\x7b\"a\":\x7b\x7d\x7d\x7d" = .ok (chain 1) := by decide +kernel
  obtain ⟨hall, -, -⟩ := calls_bounded
  obtain ⟨-, -, hdeep⟩ := hall (String.ofList (deepText 127))
  obtain ⟨-, hloaded, -⟩ := hall "\x7b\"a\":\x7b\"a\":\x7b\x7d\x7d\x7d"
  exact ⟨hnesting, hdeep hnesting, hparse, (hloaded _ hparse).2⟩

end Sheet
end NestedStyles

import Mathlib.Data.List.DropRight
import NestedStyles.Proofs.CommandLine.Effects

/-!
# The style sheet next to its source

The path next to an input differs from it in the last name only (`exists_folder`), and a way through
a file tree ends in a file of its last name (`FileTree.exists_of_place`). So a build that names no
output leaves its source alone, unless the source has the name of a style sheet already: then it is
its own output (`World.run_build_beside`).
-/

namespace NestedStyles
namespace CommandLine

/-! ## Names in paths -/

theorem segments_ne_nil (text : List Char) : segments text ≠ [] := by
  cases text with
  | nil => simp [segments]
  | cons c rest =>
    rw [segments]
    split
    · simp
    · split <;> simp

theorem segments_of_notMem {name : List Char} (h : '/' ∉ name) : segments name = [name] := by
  induction name with
  | nil => rfl
  | cons c rest ih =>
    obtain ⟨hc, hrest⟩ := List.ne_and_not_mem_of_not_mem_cons h
    rw [segments, if_neg (Ne.symm hc), ih hrest]

/-- A slash ends what stands in front of it: the parts on its two sides are the parts of the
whole. -/
theorem segments_append_slash (front name : List Char) :
    segments (front ++ '/' :: name) = segments front ++ segments name := by
  induction front with
  | nil => simp [segments]
  | cons c rest ih =>
    rw [List.cons_append, segments, segments, ih]
    split
    · rfl
    · cases h : segments rest with
      | nil => exact absurd h (segments_ne_nil rest)
      | cons segment others => rfl

def isInName (c : Char) : Bool := c ≠ '/'

/-- The last name of a path, which is empty behind a slash. -/
def lastName (path : String) : List Char := path.toList.rtakeWhile isInName

/-- What stands in front of the last name of a path. -/
def folderPart (path : String) : List Char := path.toList.rdropWhile isInName

theorem folderPart_append_lastName (path : String) :
    folderPart path ++ lastName path = path.toList := List.rdropWhile_append_rtakeWhile

/-- Next to an input there is another last name behind the same folder. -/
theorem toList_besidePath (path : String) :
    (besidePath path).toList = folderPart path ++ styleSheetName (lastName path) :=
  String.toList_ofList

theorem besidePath_eq_self_iff {path : String} :
    besidePath path = path ↔ styleSheetName (lastName path) = lastName path := by
  rw [← String.toList_inj, toList_besidePath, ← folderPart_append_lastName path,
    List.append_cancel_left_eq]

theorem notMem_lastName (path : String) : '/' ∉ lastName path := fun h =>
  absurd (List.mem_rtakeWhile_imp h) (by decide)

theorem folderPart_eq_nil_or (path : String) :
    folderPart path = [] ∨ ∃ front, folderPart path = front ++ ['/'] := by
  by_cases h : folderPart path = []
  · exact .inl h
  · have hlast : (folderPart path).getLast h = '/' := by
      simpa [folderPart, isInName] using List.rdropWhile_last_not isInName path.toList h
    exact .inr ⟨_, hlast ▸ (List.dropLast_append_getLast h).symm⟩

/-- A name behind the folder of a path is the last segment of the whole. -/
theorem getLast?_segments {name : List Char} (path : String) (h : '/' ∉ name) :
    (segments (folderPart path ++ name)).getLast? = some name := by
  obtain hnil | ⟨front, hfront⟩ := folderPart_eq_nil_or path
  · rw [hnil, List.nil_append, segments_of_notMem h]
    rfl
  · rw [hfront, List.append_assoc, List.singleton_append, segments_append_slash,
      segments_of_notMem h, List.getLast?_append]
    rfl

/-! ## Names of style sheets -/

/-- The extension begins at the last dot. -/
theorem stem?_append {stem extension : List Char} (hstem : stem ≠ []) (h : '.' ∉ extension) :
    stem? (stem ++ '.' :: extension) = some stem := by
  have hall : ∀ c ∈ extension.reverse, decide (c ≠ '.') = true := fun c hc =>
    decide_eq_true fun hdot => h (hdot ▸ List.mem_reverse.mp hc)
  obtain ⟨c, before, hbefore⟩ := List.exists_cons_of_ne_nil (List.reverse_ne_nil_iff.mpr hstem)
  rw [stem?, List.reverse_append, List.reverse_cons, List.append_assoc, List.singleton_append,
    List.dropWhile_append_of_pos hall, List.dropWhile_cons_of_neg (by decide), hbefore]
  exact congrArg some (List.reverse_eq_iff.mpr hbefore.symm)

theorem stem?_eq_some {name stem : List Char} (h : stem? name = some stem) :
    stem ≠ [] ∧ stem <+: name := by
  rw [stem?] at h
  split at h
  · next c before hdrop =>
    cases h
    refine ⟨List.reverse_ne_nil_iff.mpr (List.cons_ne_nil _ _), ?_⟩
    rw [← List.reverse_suffix, List.reverse_reverse]
    exact (hdrop ▸ List.suffix_cons _ _).trans (List.dropWhile_suffix _)
  · cases h

/-- Only the name of a style sheet is the name of its own style sheet, except for the folder
above. -/
theorem styleSheetName_eq_self_iff {name : List Char} : styleSheetName name = name ↔
    (∃ stem, stem ≠ [] ∧ stem ≠ ['.'] ∧ name = stem ++ ".css".toList) ∨ name = ['.', '.'] := by
  constructor
  · intro h
    rw [styleSheetName] at h
    split at h
    · exact .inr h.symm
    · next stem hne hstem =>
      exact .inl ⟨stem, (stem?_eq_some hstem).1, fun hdot => hne hdot, h.symm⟩
    · exact absurd (congrArg List.length h) (by simp)
  · rintro (⟨stem, hne, hdot, rfl⟩ | rfl)
    · have hstem : stem? (stem ++ ".css".toList) = some stem :=
        stem?_append hne (by decide : '.' ∉ ['c', 's', 's'])
      rw [styleSheetName, hstem]
      split
      · next h => exact absurd (Option.some.inj h) hdot
      · next h => rw [Option.some.inj h]
      · next h => cases h
    · rfl

theorem notMem_styleSheetName {name : List Char} (h : '/' ∉ name) : '/' ∉ styleSheetName name := by
  rw [styleSheetName]
  split
  · decide
  · next stem _ hstem =>
    rw [List.mem_append, not_or]
    exact ⟨fun hmem => h ((stem?_eq_some hstem).2.subset hmem), by decide⟩
  · rw [List.mem_append, not_or]
    exact ⟨h, by decide⟩

/-- The path has the name of a style sheet: behind a stem it ends in the extension `css`. -/
def NamesStyleSheet (path : String) : Prop :=
  ∃ stem, stem ≠ [] ∧ stem ≠ ['.'] ∧ lastName path = stem ++ ".css".toList

/-! ## Files under paths -/

namespace FileTree
variable {tree : FileTree} {names : Names} {path : String}

/-- The bytes of the file that a path leads to. -/
def bytes? (tree : FileTree) (path : String) : Option ByteArray :=
  match tree.place path with
  | .file names => tree.files.find? names
  | _ => none

theorem exists_of_walk {here : Option Names} {parts : List (List Char)}
    (h : tree.walk here parts = .file names ∨ tree.walk here parts = .vacant names) :
    ∃ above last, parts.getLast? = some last ∧ last ≠ ['.', '.'] ∧
      names = above ++ [String.ofList last] := by
  fun_induction FileTree.walk tree here parts with
  | case1 | case6 | case10 | case11 => simp at h
  | case2 _ _ _ _ ih | case3 _ _ ih | case4 _ _ ih | case5 _ _ _ _ ih | case7 _ _ _ _ _ _ _ ih =>
    obtain ⟨above, last, hlast, hdots, hnames⟩ := ih h
    exact ⟨above, last, by rw [List.getLast?_cons, hlast]; rfl, hdots, hnames⟩
  | case8 segment _ hparent above found | case9 segment _ hparent above found =>
    have hfound : found = names := by simpa using h
    exact ⟨above, segment, rfl, hparent, hfound.symm⟩

/-- A way that leads to a file, or to where one can be made, ends in the name of that file. -/
theorem exists_of_place
    (h : tree.place path = .file names ∨ tree.place path = .vacant names) :
    ∃ above last, (segments path.toList).getLast? = some last ∧ last ≠ ['.', '.'] ∧
      names = above ++ [String.ofList last] := by
  unfold place at h
  split at h
  · simp at h
  · next rest hpath =>
    obtain ⟨above, last, hlast, hdots, hnames⟩ := exists_of_walk h
    refine ⟨above, last, ?_, hdots, hnames⟩
    rw [hpath, segments, if_pos rfl, List.getLast?_cons, hlast]
    rfl
  · exact exists_of_walk h

theorem isSome_of_walk {here : Option Names} {parts : List (List Char)}
    (h : tree.walk here parts = .file names) : (tree.files.find? names).isSome := by
  fun_induction FileTree.walk tree here parts with
  | case1 | case6 | case9 | case10 | case11 => simp at h
  | case2 _ _ _ _ ih | case3 _ _ ih | case4 _ _ ih | case5 _ _ _ _ ih | case7 _ _ _ _ _ _ _ ih =>
    exact ih h
  | case8 _ _ _ _ _ _ _ hfound =>
    obtain rfl := Place.file.inj h
    exact hfound

theorem isSome_of_place (h : tree.place path = .file names) :
    (tree.files.find? names).isSome := by
  unfold place at h
  split at h
  · cases h
  · exact isSome_of_walk h
  · exact isSome_of_walk h

theorem bytes?_of_place (h : tree.place path = .file names) :
    tree.bytes? path = tree.files.find? names := by
  rw [bytes?, h]

theorem exists_place_of_source {source : String} (h : tree.source path = .text source) :
    ∃ names, tree.place path = .file names := by
  rw [FileTree.source] at h
  cases hplace : tree.place path with
  | file names => exact ⟨names, rfl⟩
  | folder | vacant | noFolder | blocked => rw [hplace] at h; cases h

/-- Behind the folder of an input, a name is the name of the file that the path leads to. -/
theorem getLast?_of_place {input : String} {name : List Char} (hname : '/' ∉ name)
    (hpath : path.toList = folderPart input ++ name)
    (h : tree.place path = .file names ∨ tree.place path = .vacant names) :
    names.getLast? = some (String.ofList name) ∧ name ≠ ['.', '.'] := by
  obtain ⟨above, last, hlast, hdots, rfl⟩ := exists_of_place h
  rw [hpath, getLast?_segments input hname] at hlast
  obtain rfl := Option.some.inj hlast
  exact ⟨List.getLast?_concat, hdots⟩

/-- What is next to a file is the file itself exactly if that is named like a style sheet. -/
theorem besidePath_eq_self_iff_of_place (h : tree.place path = .file names) :
    besidePath path = path ↔ NamesStyleSheet path := by
  obtain ⟨-, hdots⟩ := getLast?_of_place (notMem_lastName path)
    (folderPart_append_lastName path).symm (.inl h)
  rw [besidePath_eq_self_iff, styleSheetName_eq_self_iff, or_iff_left hdots]
  rfl

/-- What is saved next to a file leaves it alone, unless it has the same name. -/
theorem bytes?_of_save_beside {tree' : FileTree} {css : String}
    (h : tree.place path = .file names) (hsave : tree.save (besidePath path) css = .ok tree')
    (hne : besidePath path ≠ path) : tree'.bytes? path = tree.bytes? path := by
  obtain ⟨other, hplace, -, hsets⟩ := sets_of_save hsave
  have hother : names ≠ other := by
    rintro rfl
    obtain ⟨hlast, -⟩ := getLast?_of_place (notMem_lastName path)
      (folderPart_append_lastName path).symm (.inl h)
    obtain ⟨hlast', -⟩ := getLast?_of_place (notMem_styleSheetName (notMem_lastName path))
      (toList_besidePath path) hplace
    have hname := String.ofList_injective (Option.some.inj (hlast'.symm.trans hlast))
    exact hne (besidePath_eq_self_iff.mpr hname)
  have hfind := hsets.others names hother
  have hplace' : tree'.place path = .file names :=
    place_eq_file hsets.folders (hfind ▸ isSome_of_place h) (.inl h)
  rw [bytes?_of_place hplace', bytes?_of_place h, hfind]

end FileTree

/-! ## Builds -/

namespace World
variable {world : World} {path : String} {arguments : List String}

/-- A build that names no output leaves its source as it was, if it fails or the source does not
have the name of a style sheet. Only a source with such a name is its own output, and where that
build ends well the style sheet stands in place of the source. -/
theorem run_build_beside
    (h : Request.ofArguments arguments = some (.perform (.build path .beside))) :
    (∀ names, world.tree.place path = .file names →
      (besidePath path = path ↔ NamesStyleSheet path)) ∧
    (¬ NamesStyleSheet path ∨ (world.run arguments).1.status ≠ 0 →
      (world.run arguments).2.tree.bytes? path = world.tree.bytes? path) ∧
    (NamesStyleSheet path → (world.run arguments).1.status = 0 →
      ∃ source css, world.tree.source path = .text source ∧ compile source = .ok css ∧
        (world.run arguments).2.tree.bytes? path = some css.toUTF8) := by
  have hpath : Target.path? path .beside = some (besidePath path) := rfl
  refine ⟨fun names => FileTree.besidePath_eq_self_iff_of_place, ?_, ?_⟩
  · intro hkept
    rw [run_of_request h, Request.run] at hkept ⊢
    obtain ⟨source, t, tree, hsource, -, hsave, hrun⟩ | ⟨exit, -, hrun⟩ :=
      run_build_cases world hpath
    · obtain ⟨names, hplace⟩ := FileTree.exists_place_of_source hsource
      have hname : ¬ NamesStyleSheet path :=
        hkept.resolve_right fun hstatus => hstatus (congrArg (·.1.status) hrun)
      rw [hrun]
      exact FileTree.bytes?_of_save_beside hplace hsave
        (mt (FileTree.besidePath_eq_self_iff_of_place hplace).mp hname)
    · rw [hrun]
  · intro hname hstatus
    rw [run_of_request h, Request.run] at hstatus ⊢
    obtain ⟨source, t, tree, hsource, ht, hsave, hrun⟩ | ⟨exit, hexit, hrun⟩ :=
      run_build_cases world hpath
    · obtain ⟨names, hplace⟩ := FileTree.exists_place_of_source hsource
      rw [(FileTree.besidePath_eq_self_iff_of_place hplace).mpr hname] at hsave
      obtain ⟨names', -, hplace', hsets⟩ := FileTree.sets_of_save hsave
      refine ⟨source, t.css, hsource, compile_of_parse ht, ?_⟩
      rw [hrun]
      exact (FileTree.bytes?_of_place hplace').trans hsets.content
    · rw [hrun, hexit] at hstatus
      exact absurd hstatus (by decide)

/-- A style sheet stands next to its source, which is as it was. -/
theorem run_build_beside_json :
    Request.ofArguments ["build", "a.json"] = some (.perform (.build "a.json" .beside)) ∧
    (twoSources.run ["build", "a.json"]).1.status = 0 ∧
    (twoSources.run ["build", "a.json"]).2.tree.bytes? "a.json" = some sheetSource.toUTF8 := by
  have hrequest : Request.ofArguments ["build", "a.json"] =
      some (.perform (.build "a.json" .beside)) := by decide +kernel
  have hplace : twoSources.tree.place "a.json" = .file ["a.json"] := by decide +kernel
  obtain ⟨hnames, hkept, -⟩ := @run_build_beside twoSources _ _ hrequest
  have hname : ¬ NamesStyleSheet "a.json" := mt (hnames _ hplace).mpr (by decide +kernel)
  exact ⟨hrequest, by decide +kernel,
    (hkept (.inl hname)).trans (FileTree.bytes?_of_place hplace)⟩

/-- The source is named like a style sheet. -/
def styleSheetSource : World := ⟨⟨[], [(["a.css"], sheetSource.toUTF8)]⟩, false, ""⟩

/-- A build that names no output destroys a source that is named like a style sheet. -/
theorem styleSheetSource_overwritten :
    Request.ofArguments ["build", "a.css"] = some (.perform (.build "a.css" .beside)) ∧
    (styleSheetSource.run ["build", "a.css"]).1.status = 0 ∧
    styleSheetSource.tree.bytes? "a.css" = some sheetSource.toUTF8 ∧
    (styleSheetSource.run ["build", "a.css"]).2.tree.bytes? "a.css" ≠
      styleSheetSource.tree.bytes? "a.css" := by
  decide +kernel
end World
end CommandLine
end NestedStyles

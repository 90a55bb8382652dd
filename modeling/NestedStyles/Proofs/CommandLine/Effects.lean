import NestedStyles.Proofs.CommandLine.Surfaces

/-!
# Effects

What a run does to the file tree it starts from. A request that names no file to write leaves the
tree as it was (`World.tree_run`). A build that names one either saves the style sheet of its source
there and ends well, or it fails and leaves the whole world as it was (`World.run_build_cases`). So
a run changes at most the one file that its request names, and nothing if it fails
(`World.run_effect`).
-/

namespace NestedStyles
namespace CommandLine

/-- The path under which a request writes a file. Only a build writes one, unless it goes to
standard output. -/
def Request.file? : Request → Option String
  | perform (.build path target) => target.path? path
  | perform (.check _) | help _ | version => none

theorem Request.exists_build_of_file? {request : Request} {file : String}
    (h : request.file? = some file) :
    ∃ path target, request = .perform (.build path target) ∧ target.path? path = some file := by
  cases request with
  | help | version => cases h
  | perform command =>
    cases command with
    | check => cases h
    | build path target => exact ⟨path, target, rfl, h⟩

/-! ## Steps -/

namespace FileTree
variable {tree tree' : FileTree} {path content : String}

/-- The second tree is the first one with one file set: that holds the content, and every other
file and every folder is as it was. -/
structure Sets (tree tree' : FileTree) (names : Names) (content : String) : Prop where
  folders : tree'.folders = tree.folders
  content : tree'.files.find? names = some content.toUTF8
  others : ∀ other, other ≠ names → tree'.files.find? other = tree.files.find? other

/-- Only a file that is there, or a free name in a folder, can be saved. -/
theorem save_eq_ok : tree.save path content = .ok tree' ↔
    ∃ names, (tree.place path = .file names ∨ tree.place path = .vacant names) ∧
      tree' = { tree with files := tree.files.insert names content.toUTF8 } := by
  rw [save]
  cases tree.place path <;> simp [eq_comm]

/-- Saving sets the file at the place that the path leads to. -/
theorem sets_of_save (h : tree.save path content = .ok tree') :
    ∃ names, (tree.place path = .file names ∨ tree.place path = .vacant names) ∧
      tree'.place path = .file names ∧ tree.Sets tree' names content := by
  obtain ⟨names, hplace, rfl⟩ := save_eq_ok.mp h
  refine ⟨names, hplace, place_insert _ hplace, rfl, ?_, fun other hother => ?_⟩
  · rw [Keyed.find?_insert, if_pos rfl]
  · rw [Keyed.find?_insert, if_neg (Ne.symm hother)]

end FileTree

section
variable {path : String} {found : Source}

/-- What is loaded was a text that parses. -/
theorem load_eq_ok {t : Sheet} (h : load path found = .ok t) :
    ∃ source, found = .text source ∧ Sheet.parse source = .ok t := by
  cases found with
  | missing | unreadable => cases h
  | text content =>
    cases hparse : Sheet.parse content with
    | error e => rw [load, hparse] at h; cases h
    | ok t' =>
      rw [load, hparse] at h
      cases h
      exact ⟨content, rfl, hparse⟩

theorem status_of_load_eq_error {exit : Exit} (h : load path found = .error exit) :
    exit.status = 1 := by
  cases found with
  | missing | unreadable => cases h; rfl
  | text content =>
    cases hparse : Sheet.parse content with
    | ok t => rw [load, hparse] at h; cases h
    | error e => rw [load, hparse] at h; cases h; rfl

end

namespace World

theorem run_save_of_error {world : World} {path content : String} {error : AccessError}
    (h : world.tree.save path content = .error error) :
    (host.save path content).run world = (.error error, world) := by
  simp [host, h]
  rfl

theorem tree_print (world : World) (text : String) :
    ((host.print text).run world).2.tree = world.tree := by
  change ((if world.full && !text.isEmpty then _ else _ : StateM World _).run world).2.tree = _
  split <;> rfl

/-! ## Runs -/

variable {world : World} {path file : String} {target : Target}

theorem tree_deliver {css : String} (h : target.path? path = none) :
    ((deliver host path css target).run world).2.tree = world.tree := by
  have htree := tree_print world css
  rw [deliver, h]
  cases hprint : (host.print css).run world with
  | mk result after =>
    rw [hprint] at htree
    rw [run_bind_of_run hprint]
    cases result <;> exact htree

/-- A request that names no file to write leaves the file tree as it was. -/
theorem tree_run {request : Request} (h : request.file? = none) :
    ((request.run host).run world).2.tree = world.tree := by
  cases request with
  | help topic => exact tree_print world topic.text
  | version => exact tree_print world versionText
  | perform command =>
    cases command with
    | check path =>
      rw [Request.run, Command.run, run_bind_of_run (run_look world path)]
      cases load path (world.tree.source path) <;> rfl
    | build path target =>
      rw [Request.run, Command.run, run_bind_of_run (run_look world path)]
      cases load path (world.tree.source path) with
      | error exit => rfl
      | ok sheet => exact tree_deliver h

/-- A build that names a file saves the style sheet of its source there, or it fails and leaves
everything as it was. -/
theorem run_build_cases (world : World) (h : target.path? path = some file) :
    (∃ source t tree, world.tree.source path = .text source ∧ Sheet.parse source = .ok t ∧
      world.tree.save file t.css = .ok tree ∧
      ((Command.build path target).run host).run world =
        (.success s!"Built: {file}", { world with tree })) ∨
    ∃ exit, exit.status = 1 ∧ ((Command.build path target).run host).run world = (exit, world) := by
  rw [Command.run, run_bind_of_run (run_look world path)]
  cases hload : load path (world.tree.source path) with
  | error exit => exact .inr ⟨exit, status_of_load_eq_error hload, rfl⟩
  | ok t =>
    obtain ⟨source, hsource, ht⟩ := load_eq_ok hload
    cases hsave : world.tree.save file t.css with
    | ok tree =>
      exact .inl ⟨source, t, tree, hsource, ht, hsave, deliver_of_save h (run_save hsave)⟩
    | error error =>
      refine .inr ⟨.failure s!"Error writing {file}: {error.message}", rfl, ?_⟩
      change (deliver host path t.css target).run world = _
      rw [deliver, h]
      exact run_bind_of_run (run_save_of_error hsave) _

theorem run_of_request {arguments : List String} {request : Request}
    (h : Request.ofArguments arguments = some request) :
    world.run arguments = (request.run host).run world := by
  rw [run, runArguments, h]

/-- A run that fails, and one that names no file to write, leave the file tree as it was. A build
that names a file and ends well sets it to the style sheet of the source that it found, and all
else is as it was. -/
theorem run_effect (world : World) (arguments : List String) :
    ((world.run arguments).1.status ≠ 0 → (world.run arguments).2.tree = world.tree) ∧
    (∀ request, Request.ofArguments arguments = some request → request.file? = none →
      (world.run arguments).2.tree = world.tree) ∧
    ∀ path target file, Request.ofArguments arguments = some (.perform (.build path target)) →
      target.path? path = some file → (world.run arguments).1.status = 0 →
      ∃ source css names, world.tree.source path = .text source ∧ compile source = .ok css ∧
        (world.run arguments).2.tree.place file = .file names ∧
        world.tree.Sets (world.run arguments).2.tree names css := by
  refine ⟨fun hstatus => ?_, fun request hrequest hfile => ?_, ?_⟩
  · cases hrequest : Request.ofArguments arguments with
    | none => rw [run, runArguments, hrequest]; rfl
    | some request =>
      rw [run_of_request hrequest] at hstatus ⊢
      cases hfile : request.file? with
      | none => exact tree_run hfile
      | some file =>
        obtain ⟨path, target, rfl, hpath⟩ := Request.exists_build_of_file? hfile
        obtain ⟨_, _, _, -, -, -, hrun⟩ | ⟨exit, -, hrun⟩ := run_build_cases world hpath
        · exact absurd (congrArg (·.1.status) hrun) hstatus
        · exact congrArg (·.2.tree) hrun
  · rw [run_of_request hrequest]
    exact tree_run hfile
  · intro path target file hrequest hpath hstatus
    rw [run_of_request hrequest] at hstatus ⊢
    obtain ⟨source, t, tree, hsource, ht, hsave, hrun⟩ | ⟨exit, hexit, hrun⟩ :=
      run_build_cases world hpath
    · obtain ⟨names, -, hplace, hsets⟩ := FileTree.sets_of_save hsave
      rw [Request.run, hrun]
      exact ⟨source, t.css, names, hsource, compile_of_parse ht, hplace, hsets⟩
    · rw [Request.run, hrun] at hstatus
      exact absurd (hexit.symm.trans hstatus) (by decide)

/-- A build onto a file that was there, and one that fails. -/
theorem run_effect_twoSources :
    (twoSources.run ["build", "-o", "b.json", "a.json"]).1.status = 0 ∧
    (twoSources.run ["build", "-o", "b.json", "a.json"]).2.tree.files.find? ["b.json"] =
      some "a\x7bx:1;\x7d".toUTF8 ∧
    (twoSources.run ["build", "-o", "b.json", "a.json"]).2.tree.files.find? ["a.json"] =
      some sheetSource.toUTF8 ∧
    (twoSources.run ["build", "b.json"]).1.status = 1 ∧
    (twoSources.run ["build", "b.json"]).2.tree = twoSources.tree := by
  have hok : (twoSources.run ["build", "-o", "b.json", "a.json"]).1.status = 0 := by
    decide +kernel
  have hfail : (twoSources.run ["build", "b.json"]).1.status = 1 := by decide +kernel
  have hsource : twoSources.tree.source "a.json" = .text sheetSource := by decide +kernel
  have hcompile : compile sheetSource = .ok "a\x7bx:1;\x7d" := by decide +kernel
  have hrequest : Request.ofArguments ["build", "-o", "b.json", "a.json"] =
      some (.perform (.build "a.json" (.file "b.json"))) := by decide +kernel
  obtain ⟨-, -, hbuild⟩ := run_effect twoSources ["build", "-o", "b.json", "a.json"]
  obtain ⟨source, css, names, hsource', hcss, hplace, hsets⟩ := hbuild _ _ _ hrequest rfl hok
  obtain rfl : sheetSource = source := Source.text.inj (hsource.symm.trans hsource')
  obtain rfl : "a\x7bx:1;\x7d" = css := Except.ok.inj (hcompile.symm.trans hcss)
  have hplace' : (twoSources.run ["build", "-o", "b.json", "a.json"]).2.tree.place "b.json" =
      .file ["b.json"] := by decide +kernel
  obtain rfl : ["b.json"] = names := Place.file.inj (hplace'.symm.trans hplace)
  refine ⟨hok, hsets.content, ?_, hfail, ?_⟩
  · exact hsets.others _ (by decide)
  · exact (run_effect twoSources ["build", "b.json"]).1 (by rw [hfail]; decide)

end World
end CommandLine
end NestedStyles

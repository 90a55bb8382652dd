import NestedStyles.Proofs.CommandLine.Worlds
import NestedStyles.Proofs.Sheet.Loaders

/-!
# Surfaces

A source is compiled for a script, from a value that was read before, and by the commands on a file.
All of them give the same style sheet or the same diagnostic (`CommandLine.surfaces_agree`), on any
host that finds the source under the path. On a world, whose files and output can be looked at, a
build leaves exactly the style sheet there.
-/

namespace NestedStyles

/-! ## Compiling -/

section
variable {source : String}

theorem compile_of_parse {t : Sheet} (h : Sheet.parse source = .ok t) :
    compile source = .ok t.css := by
  rw [compile, h]
  rfl

theorem compileForScript_of_ok {t : Sheet} (h : Sheet.parse source = .ok t) :
    compileForScript source = .ok t.css := by
  rw [compileForScript, compile_of_parse h]
  rfl

theorem compileForScript_of_error {e : LoadError} (h : Sheet.parse source = .error e) :
    compileForScript source = .error e.diagnostic.display := by
  rw [compileForScript, compile, h]
  rfl

/-- A script gets a style sheet exactly of the documents that parse. -/
theorem compileForScript_eq_ok_iff :
    (∃ css, compileForScript source = .ok css) ↔ ∃ t, Sheet.parse source = .ok t := by
  constructor
  · rintro ⟨css, hcss⟩
    cases h : Sheet.parse source with
    | ok t => exact ⟨t, rfl⟩
    | error e =>
      rw [compileForScript_of_error h] at hcss
      cases hcss
  · rintro ⟨t, h⟩
    exact ⟨t.css, compileForScript_of_ok h⟩

/-- A document that is JSON is compiled as its value is. -/
theorem compileValue_of_parse {v : Json} (h : Json.parse source = .ok v) :
    compileValue v = (Sheet.parse source).map Sheet.css := by
  rw [Sheet.parse_eq_bind, h]
  rfl

end

namespace CommandLine

/-! ## Arguments -/

/-- The file that a command is about. -/
def Command.input : Command → String
  | build path _ => path
  | check path => path

/-- Arguments that ask for a command, whatever its paths look like. -/
def Command.arguments : Command → List String
  | build path .beside => ["build", "--", path]
  | build path (.file file) => ["build", "-o=" ++ file, "--", path]
  | build path .standardOutput => ["build", "--stdout", "--", path]
  | check path => ["check", "--", path]

/-- Behind a separator every argument is a path. -/
theorem takeAll_separator {given : BuildArguments} (h : given.path = none) (path : String) :
    given.takeAll ["--", path] = BuildArguments.request { given with path := path } := by
  rw [BuildArguments.takeAll]
  change ([path].foldlM BuildArguments.withPath given).bind _ = _
  simp [BuildArguments.withPath, fill, h]

/-- Every command can be asked for, also on a path that looks like an option. -/
theorem ofArguments_arguments (command : Command) :
    Request.ofArguments command.arguments = some (.perform command) := by
  cases command with
  | check path => rfl
  | build path target =>
    cases target with
    | beside =>
      change BuildArguments.takeAll {} ["--", path] = _
      rw [takeAll_separator rfl]
      rfl
    | file file =>
      change BuildArguments.takeAll {} ["-o=" ++ file, "--", path] = _
      have hshape : Argument.ofString ("-o=" ++ file) = .short 'o' ('=' :: file.toList) := by
        rw [Argument.ofString, String.toList_append]
        rfl
      rw [BuildArguments.takeAll, hshape]
      change BuildArguments.takeAll ⟨none, some (String.ofList file.toList), false⟩ ["--", path] = _
      rw [takeAll_separator rfl, String.ofList_toList]
      rfl
    | standardOutput =>
      change BuildArguments.takeAll {} ["--stdout", "--", path] = _
      have hshape : Argument.ofString "--stdout" = .long "stdout".toList none := rfl
      rw [BuildArguments.takeAll, hshape]
      change BuildArguments.takeAll ⟨none, none, true⟩ ["--", path] = _
      rw [takeAll_separator rfl]
      rfl

/-! ## Runs -/

section
variable {σ : Type} {host : Host (StateM σ)} {w w₁ w₂ : σ} {path source : String}

/-- One step of a run after the other, from what the first one leaves. -/
theorem run_bind_of_run {α β : Type} {x : StateM σ α} {a : α} (h : x.run w = (a, w₁))
    (k : α → StateM σ β) : (x >>= k).run w = (k a).run w₁ := by
  rw [StateT.run_bind, h]
  rfl

theorem runArguments_of_perform {arguments : List String} {command : Command}
    (h : Request.ofArguments arguments = some (.perform command)) :
    runArguments host arguments = command.run host := by
  rw [runArguments, h]
  rfl

/-- Where a file is no sheet, a command does nothing but tell why. -/
theorem run_of_error {command : Command} {e : LoadError} (he : Sheet.parse source = .error e)
    (hlook : (host.look command.input).run w = (.text source, w₁)) :
    (command.run host).run w = (.failure (diagnosticLine command.input e.diagnostic), w₁) := by
  cases command with
  | build path target =>
    rw [Command.input] at hlook
    rw [Command.run, run_bind_of_run hlook, load, he]
    rfl
  | check path =>
    rw [Command.input] at hlook
    rw [Command.run, run_bind_of_run hlook, load, he]
    rfl

/-- Once its source is found and parses, a build has only to deliver. -/
theorem run_build_of_ok {t : Sheet} (ht : Sheet.parse source = .ok t)
    (hlook : (host.look path).run w = (.text source, w₁)) (target : Target) :
    ((Command.build path target).run host).run w = (deliver host path t.css target).run w₁ := by
  rw [Command.run, run_bind_of_run hlook, load, ht]
  rfl

theorem run_check_of_ok {t : Sheet} (ht : Sheet.parse source = .ok t)
    (hlook : (host.look path).run w = (.text source, w₁)) :
    ((Command.check path).run host).run w = (.success s!"OK: {path}", w₁) := by
  rw [Command.run, run_bind_of_run hlook, load, ht]
  rfl

/-- A check ends well exactly if the source parses. -/
theorem status_check (hlook : (host.look path).run w = (.text source, w₁)) :
    (((Command.check path).run host).run w).1.status = 0 ↔ ∃ t, Sheet.parse source = .ok t := by
  cases h : Sheet.parse source with
  | ok t =>
    rw [run_check_of_ok h hlook]
    exact iff_of_true rfl ⟨t, rfl⟩
  | error e =>
    rw [run_of_error h hlook]
    exact iff_of_false (by decide : (1 : UInt32) ≠ 0) fun ⟨_, h⟩ => nomatch h

theorem deliver_of_save {css file : String} {target : Target}
    (hpath : target.path? path = some file)
    (hsave : (host.save file css).run w = (.ok (), w₁)) :
    (deliver host path css target).run w = (.success s!"Built: {file}", w₁) := by
  rw [deliver, hpath]
  exact run_bind_of_run hsave _

theorem deliver_of_print {css : String} {target : Target} (hpath : target.path? path = none)
    (hprint : (host.print css).run w = (.ok (), w₁)) :
    (deliver host path css target).run w = (.silent, w₁) := by
  rw [deliver, hpath]
  exact run_bind_of_run hprint _

/-- The source under a path is judged alike by `check`, by every form of `build`, for a script and
as a value. If it is a sheet, then what is printed, what is saved and what is handed over is its
style sheet and nothing else. If it is none, then a command ends after it has looked, with the
diagnostic and its place, and the others give that diagnostic. -/
theorem surfaces_agree (hlook : (host.look path).run w = (.text source, w₁)) :
    (∀ command : Command, ∃ arguments,
      Request.ofArguments arguments = some (.perform command)) ∧
    (∀ arguments, Request.ofArguments arguments = some (.perform (.check path)) →
      (((runArguments host arguments).run w).1.status = 0 ↔
        ∃ css, compileForScript source = .ok css)) ∧
    ((∃ css, compileForScript source = .ok css) ↔ ∃ t, Sheet.parse source = .ok t) ∧
    (∀ t, Sheet.parse source = .ok t →
      compileForScript source = .ok t.css ∧
      (∀ v, Json.parse source = .ok v → compileValue v = .ok t.css) ∧
      ∀ arguments target, Request.ofArguments arguments = some (.perform (.build path target)) →
        (∀ w₂, target.path? path = none → (host.print t.css).run w₁ = (.ok (), w₂) →
          (runArguments host arguments).run w = (⟨0, ""⟩, w₂)) ∧
        ∀ file w₂, target.path? path = some file →
          (host.save file t.css).run w₁ = (.ok (), w₂) →
          (runArguments host arguments).run w = (.success s!"Built: {file}", w₂)) ∧
    ∀ e, Sheet.parse source = .error e →
      compileForScript source = .error e.diagnostic.display ∧
      (∀ v, Json.parse source = .ok v → compileValue v = .error e) ∧
      ∀ arguments command, Request.ofArguments arguments = some (.perform command) →
        command.input = path →
        (runArguments host arguments).run w =
          (⟨1, (if 0 < e.diagnostic.line
            then s!"{path}:{e.diagnostic.line}:{e.diagnostic.column}: {e.diagnostic.message}"
            else s!"{path}: {e.diagnostic.message}") ++ "\n"⟩, w₁) := by
  refine ⟨fun command => ⟨_, ofArguments_arguments command⟩, ?_, compileForScript_eq_ok_iff,
    ?_, ?_⟩
  · intro arguments harguments
    rw [runArguments_of_perform harguments, status_check hlook]
    exact compileForScript_eq_ok_iff.symm
  · intro t ht
    refine ⟨compileForScript_of_ok ht, ?_, ?_⟩
    · intro v hv
      rw [compileValue_of_parse hv, ht]
      rfl
    · intro arguments target harguments
      rw [runArguments_of_perform harguments, run_build_of_ok ht hlook]
      constructor
      · intro w₂ hpath hprint
        exact deliver_of_print hpath hprint
      · intro file w₂ hpath hsave
        exact deliver_of_save hpath hsave
  · intro e he
    refine ⟨compileForScript_of_error he, ?_, ?_⟩
    · intro v hv
      rw [compileValue_of_parse hv, he]
      rfl
    · rintro arguments command harguments rfl
      rw [runArguments_of_perform harguments, run_of_error he hlook]
      rfl

end

/-! ## On a world -/

namespace World
variable {world : World} {path source : String} {arguments : List String}

/-- A build prints the style sheet behind what is printed already. -/
theorem run_build_standardOutput {t : Sheet} (hsource : world.tree.source path = .text source)
    (ht : Sheet.parse source = .ok t)
    (harguments : Request.ofArguments arguments = some (.perform (.build path .standardOutput)))
    (hfull : world.full = false) :
    world.run arguments = (.silent, { world with printed := world.printed ++ t.css }) := by
  have hlook : (host.look path).run world = (.text source, world) := by
    rw [run_look, hsource]
  rw [run, runArguments_of_perform harguments]
  exact (run_build_of_ok ht hlook _).trans (deliver_of_print rfl (run_print hfull _))

/-- A build prints nothing where it writes a file, and the file holds the style sheet. -/
theorem run_build_file {t : Sheet} {target : Target} {file : String} {tree : FileTree}
    (hsource : world.tree.source path = .text source) (ht : Sheet.parse source = .ok t)
    (harguments : Request.ofArguments arguments = some (.perform (.build path target)))
    (hpath : target.path? path = some file) (hsave : world.tree.save file t.css = .ok tree) :
    world.run arguments = (.success s!"Built: {file}", { world with tree }) ∧
      tree.source file = .text t.css := by
  have hlook : (host.look path).run world = (.text source, world) := by
    rw [run_look, hsource]
  refine ⟨?_, FileTree.source_save hsave⟩
  rw [run, runArguments_of_perform harguments]
  exact (run_build_of_ok ht hlook _).trans (deliver_of_save hpath (run_save hsave))

end World

def sheetSource : String := "\x7b\"a\":\x7b\"x\":1\x7d\x7d"

def brokenSource : String := "\x7b\n"

/-- A folder with a sheet in it and the beginning of another. -/
def twoSources : World :=
  ⟨⟨[], [(["a.json"], sheetSource.toUTF8), (["b.json"], brokenSource.toUTF8)]⟩, false, ""⟩

/-- A sheet that is printed and a text that is not JSON. -/
theorem surfaces_agree_twoSources :
    (World.host.look "a.json").run twoSources = (.text sheetSource, twoSources) ∧
    (World.host.look "b.json").run twoSources = (.text brokenSource, twoSources) ∧
    compileForScript sheetSource = .ok "a\x7bx:1;\x7d" ∧
    twoSources.run ["build", "--stdout", "a.json"] =
      (⟨0, ""⟩, { twoSources with printed := "a\x7bx:1;\x7d" }) ∧
    twoSources.run ["check", "b.json"] =
      (⟨1, "b.json:2:0: EOF while parsing an object\n"⟩, twoSources) := by
  have ha : (World.host.look "a.json").run twoSources = (.text sheetSource, twoSources) := by
    have hsource : twoSources.tree.source "a.json" = .text sheetSource := by decide +kernel
    rw [World.run_look, hsource]
  have hb : (World.host.look "b.json").run twoSources = (.text brokenSource, twoSources) := by
    have hsource : twoSources.tree.source "b.json" = .text brokenSource := by decide +kernel
    rw [World.run_look, hsource]
  have hsheet : Sheet.parse sheetSource =
      .ok ⟨[("a", .declare "x" (.number (.ofInt 1)) .empty)]⟩ := by decide +kernel
  have hbroken : Sheet.parse brokenSource = .error (.malformed .endInObject ⟨2, 0⟩) := by
    decide +kernel
  have hcss : Sheet.css ⟨[("a", .declare "x" (.number (.ofInt 1)) .empty)]⟩ =
      "a\x7bx:1;\x7d" := by decide +kernel
  obtain ⟨-, -, -, hok, -⟩ := surfaces_agree ha
  obtain ⟨-, -, -, -, herror⟩ := surfaces_agree hb
  obtain ⟨hscript, -, hbuild⟩ := hok _ hsheet
  obtain ⟨-, -, hcheck⟩ := herror _ hbroken
  rw [hcss] at hscript hbuild
  refine ⟨ha, hb, hscript, ?_, ?_⟩
  · have harguments : Request.ofArguments ["build", "--stdout", "a.json"] =
        some (.perform (.build "a.json" .standardOutput)) := by decide +kernel
    exact (hbuild _ _ harguments).1 _ rfl (World.run_print rfl _)
  · exact hcheck ["check", "b.json"] (.check "b.json") rfl rfl

end CommandLine
end NestedStyles

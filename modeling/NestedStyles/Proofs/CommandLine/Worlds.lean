import NestedStyles.CommandLine.FileTree

/-!
# Worlds

What the host made of a file tree and a standard output does: looking changes nothing, printing
adds to what is printed, and what is saved under a path is found there (`FileTree.source_save`).
-/

namespace NestedStyles
namespace CommandLine

namespace FileTree
variable {tree tree' : FileTree} {names : Names} {path : String}

/-- A way that leads to a file, or to where one can be made, leads to it in every tree with the same
folders in which there is that file. -/
theorem walk_eq_file (hfolders : tree'.folders = tree.folders)
    (hfound : (tree'.files.find? names).isSome) {here : Option Names} {parts : List (List Char)}
    (h : tree.walk here parts = .file names ∨ tree.walk here parts = .vacant names) :
    tree'.walk here parts = .file names := by
  fun_induction FileTree.walk tree here parts with
  | case1 | case6 | case10 | case11 => simp at h
  | case2 _ _ _ hpart ih =>
    rw [walk.eq_def]
    simp only [if_pos hpart]
    exact ih h
  | case3 _ hpart ih | case4 _ hpart ih | case5 _ _ _ hpart ih =>
    rw [walk.eq_def]
    simp only [if_neg hpart, if_true]
    exact ih h
  | case7 _ _ hpart hparent _ _ hfolder ih =>
    rw [walk.eq_def]
    simp only [if_neg hpart, if_neg hparent]
    rw [hfolders]
    exact (if_pos hfolder).trans (ih h)
  | case8 _ hpart hparent _ found _ hfolder | case9 _ hpart hparent _ found _ hfolder =>
    -- only at its last name a way asks whether there is a file
    obtain rfl : found = names := by simpa using h
    rw [walk.eq_def]
    simp only [if_neg hpart, if_neg hparent, if_true]
    rw [hfolders, if_neg hfolder, if_pos hfound]

/-- A path leads to a file wherever there are the same folders and that file. -/
theorem place_eq_file (hfolders : tree'.folders = tree.folders)
    (hfound : (tree'.files.find? names).isSome)
    (h : tree.place path = .file names ∨ tree.place path = .vacant names) :
    tree'.place path = .file names := by
  unfold place at h ⊢
  split at h
  · simp at h
  · exact walk_eq_file hfolders hfound h
  · exact walk_eq_file hfolders hfound h

theorem place_insert (content : ByteArray)
    (h : tree.place path = .file names ∨ tree.place path = .vacant names) :
    FileTree.place { tree with files := tree.files.insert names content } path = .file names :=
  place_eq_file (rfl : _ = tree.folders) (by simp) h

theorem source_insert (content : String)
    (h : tree.place path = .file names ∨ tree.place path = .vacant names) :
    FileTree.source { tree with files := tree.files.insert names content.toUTF8 } path =
      .text content := by
  have hdecode : String.fromUTF8? content.toUTF8 = some content := dif_pos content.isValidUTF8
  rw [source, place_insert _ h]
  simp only [Keyed.find?_insert, if_true, Option.bind_some, hdecode]

/-- What is saved under a path is found there. -/
theorem source_save {content : String} (h : tree.save path content = .ok tree') :
    tree'.source path = .text content := by
  cases hplace : tree.place path with
  | file names =>
    rw [save, hplace] at h
    cases h
    exact source_insert content (.inl hplace)
  | vacant names =>
    rw [save, hplace] at h
    cases h
    exact source_insert content (.inr hplace)
  | folder | noFolder | blocked error =>
    rw [save, hplace] at h
    cases h

end FileTree

namespace World

theorem run_look (world : World) (path : String) :
    (host.look path).run world = (world.tree.source path, world) := rfl

theorem run_save {world : World} {path content : String} {tree : FileTree}
    (h : world.tree.save path content = .ok tree) :
    (host.save path content).run world = (.ok (), { world with tree }) := by
  simp [host, h]
  rfl

/-- While standard output is not full, everything is printed. -/
theorem run_print {world : World} (h : world.full = false) (text : String) :
    (host.print text).run world =
      (.ok (), { world with printed := world.printed ++ text }) := by
  simp [host, h]
  rfl

end World
end CommandLine
end NestedStyles

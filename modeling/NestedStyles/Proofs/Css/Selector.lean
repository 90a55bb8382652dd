import NestedStyles.Css.Selector

/-!
# Selectors along a path

The selector of a nested style is composed step by step along the keys that lead to it. No step
brings in a character of its own but the space of a descendant (`Selector.mem_descend`).
-/

namespace NestedStyles

/-! ## Trimming -/

theorem trimEnd_sublist (s : List Char) : (trimEnd s).Sublist s := by
  have h := (List.dropWhile_sublist isBlank (l := s.reverse)).reverse
  rwa [List.reverse_reverse] at h

theorem trim_sublist (s : List Char) : (trim s).Sublist s :=
  (trimEnd_sublist _).trans (List.dropWhile_sublist _)

namespace Selector

/-! ## Composing -/

theorem mem_substitute {parent fragment selector : List Char} {c : Char}
    (h : substitute parent fragment = some selector) (hc : c ∈ selector) :
    c ∈ parent ∨ c ∈ fragment := by
  induction fragment generalizing selector with
  | nil => cases h
  | cons d rest ih =>
    rw [substitute] at h
    split at h
    · obtain rfl := Option.some.inj h
      exact (List.mem_append.mp hc).imp_right (List.mem_cons_of_mem _)
    · obtain ⟨behind, hbehind, rfl⟩ := Option.map_eq_some_iff.mp h
      rcases List.mem_cons.mp hc with rfl | hc
      · exact .inr List.mem_cons_self
      · exact (ih hbehind hc).imp_right (List.mem_cons_of_mem _)

theorem mem_join {parent fragment : List Char} {c : Char} (hc : c ∈ join parent fragment) :
    c = ' ' ∨ c ∈ parent ∨ c ∈ fragment := by
  have hparent : c ∈ trim parent → c ∈ parent := fun h => (trim_sublist parent).subset h
  have hfragment : c ∈ trim fragment → c ∈ fragment := fun h => (trim_sublist fragment).subset h
  rw [join] at hc
  cases h : substitute (trim parent) (trim fragment) with
  | none =>
    rw [h, Option.getD_none] at hc
    rcases List.mem_append.mp hc with hc | hc
    · exact .inr (.inl (hparent hc))
    · rcases List.mem_cons.mp hc with rfl | hc
      · exact .inl rfl
      · exact .inr (.inr (hfragment hc))
  | some selector =>
    rw [h, Option.getD_some] at hc
    exact .inr ((mem_substitute h hc).imp hparent hfragment)

/-- A composed selector has no character that is in neither part, except for a space. -/
theorem mem_compose {fragment parent : String} {c : Char}
    (hc : c ∈ (compose fragment (some parent)).toList) :
    c = ' ' ∨ c ∈ parent.toList ∨ c ∈ fragment.toList := by
  rw [compose, String.toList_ofList] at hc
  exact mem_join hc

/-! ## Paths -/

/-- The selector at the end of a path of fragments that starts below `parent`. -/
def descend (parent : String) (path : List String) : String :=
  path.foldl (fun selector fragment => compose fragment (some selector)) parent

@[simp] theorem descend_nil (parent : String) : descend parent [] = parent := rfl

@[simp] theorem descend_cons (parent fragment : String) (path : List String) :
    descend parent (fragment :: path) = descend (compose fragment (some parent)) path := rfl

/-- To go down a path is to go down its front and then the rest. -/
theorem descend_append (parent : String) (path path' : List String) :
    descend parent (path ++ path') = descend (descend parent path) path' := List.foldl_append

/-- The selector at the end of a path of keys from the top of a sheet. Its first key is taken as
it is. -/
def ofPath : List String → String
  | [] => ""
  | selector :: path => descend selector path

theorem mem_descend {parent : String} {path : List String} {c : Char}
    (hc : c ∈ (descend parent path).toList) :
    c = ' ' ∨ c ∈ parent.toList ∨ ∃ key ∈ path, c ∈ key.toList := by
  induction path generalizing parent with
  | nil => exact .inr (.inl hc)
  | cons fragment path ih =>
    rcases ih hc with hc | hc | ⟨key, hkey, hc⟩
    · exact .inl hc
    · exact (mem_compose hc).imp_right (Or.imp_right fun h => ⟨fragment, List.mem_cons_self, h⟩)
    · exact .inr (.inr ⟨key, List.mem_cons_of_mem _ hkey, hc⟩)

/-- The selector at the end of a path has no character that is in no key, except for a space. -/
theorem mem_ofPath {path : List String} {c : Char} (hc : c ∈ (ofPath path).toList) :
    c = ' ' ∨ ∃ key ∈ path, c ∈ key.toList := by
  cases path with
  | nil => cases hc
  | cons selector path =>
    rcases mem_descend hc with hc | hc | ⟨key, hkey, hc⟩
    · exact .inl hc
    · exact .inr ⟨selector, List.mem_cons_self, hc⟩
    · exact .inr ⟨key, List.mem_cons_of_mem _ hkey, hc⟩

end Selector
end NestedStyles

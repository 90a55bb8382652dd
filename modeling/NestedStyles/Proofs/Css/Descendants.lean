import Mathlib.Data.List.Induction
import NestedStyles.Proofs.Css.Composition
import NestedStyles.Proofs.Css.Flattening

/-!
# Descendants

Without an `&` a fragment is put behind its parent, with a space between them also where one of the
two is blank. The next level trims that space away again (`Selector.bare_descend`), so below the
first key only the last one can leave a space at an end, and blank keys in front of it leave nothing
(`descendant_selector`).
-/

namespace NestedStyles
namespace Selector

/-! ## Keys with spaces between them -/

/-- The keys that are not blank, trimmed. -/
def words (keys : List String) : List String := (keys.map bare).filter (· ≠ "")

/-- The keys that are not blank, trimmed, with one space between any two. -/
def spaced (keys : List String) : String := " ".intercalate (words keys)

theorem words_eq_map_filter (keys : List String) :
    words keys = (keys.filter (bare · ≠ "")).map bare := List.filter_map

theorem words_concat_of_blank {key : String} (h : bare key = "") (keys : List String) :
    words (keys ++ [key]) = words keys := by
  simp [words, h]

theorem words_concat {key : String} (h : bare key ≠ "") (keys : List String) :
    words (keys ++ [key]) = words keys ++ [bare key] := by
  simp [words, h]

theorem intercalate_ne_empty {separator : String} {texts : List String} (hne : texts ≠ [])
    (h : ∀ text ∈ texts, text ≠ "") : separator.intercalate texts ≠ "" := by
  obtain ⟨text, texts, rfl⟩ := List.exists_cons_of_ne_nil hne
  have htext := h text List.mem_cons_self
  cases texts <;> simp [htext]

/-- Nothing is left of keys that are all blank. -/
theorem spaced_eq_empty_iff {keys : List String} : spaced keys = "" ↔ words keys = [] := by
  refine ⟨fun hspaced => ?_, fun hwords => by rw [spaced, hwords, String.intercalate_nil]⟩
  by_contra hne
  have hwords : ∀ word ∈ words keys, word ≠ "" := fun word hword => by
    simpa using (List.mem_filter.mp hword).2
  exact intercalate_ne_empty hne hwords hspaced

theorem spaced_concat_of_trimmed {keys : List String} (h : Trimmed (spaced keys).toList)
    (key : String) : spaced (keys ++ [key]) = bare (spaced keys ++ " " ++ bare key) := by
  rw [bare_append_space h (trimmed_bare key), spaced]
  by_cases hkey : bare key = ""
  · rw [words_concat_of_blank hkey, ← spaced]
    simp +contextual [hkey]
  · rw [words_concat hkey, if_neg hkey]
    split
    · next hkeys => rw [spaced_eq_empty_iff.mp hkeys, List.nil_append, String.intercalate_singleton]
    · next hkeys =>
      have hwords := mt spaced_eq_empty_iff.mpr hkeys
      rw [String.intercalate_append_of_ne_nil hwords (List.cons_ne_nil _ _),
        String.intercalate_singleton, spaced]

/-- There are no blank characters at the ends of keys with spaces between them. -/
theorem trimmed_spaced (keys : List String) : Trimmed (spaced keys).toList := by
  induction keys using List.reverseRecOn with
  | nil => exact trimmed_nil
  | append_singleton keys key ih =>
    rw [spaced_concat_of_trimmed ih]
    exact trimmed_bare _

/-- A further key is put behind a space, and what is blank then is trimmed away. -/
theorem spaced_concat (keys : List String) (key : String) :
    spaced (keys ++ [key]) = bare (spaced keys ++ " " ++ bare key) :=
  spaced_concat_of_trimmed (trimmed_spaced keys) key

theorem spaced_singleton (key : String) : spaced [key] = bare key := by
  by_cases h : bare key = "" <;> simp [spaced, words, h]

/-! ## Paths without ampersands -/

/-- A fragment without `&` stands behind its parent and a space. -/
theorem compose_of_notMem {fragment : String} (h : '&' ∉ fragment.toList) (parent : String) :
    compose fragment (some parent) = bare parent ++ " " ++ bare fragment := by
  have hnone : '&' ∉ trim fragment.toList := fun hmem => h ((trim_sublist _).subset hmem)
  rw [← String.toList_inj, compose_eq_join, (Frame.descendant hnone).join_eq]
  simp

theorem descend_concat (parent : String) (path : List String) (last : String) :
    descend parent (path ++ [last]) = compose last (some (descend parent path)) :=
  descend_append parent path [last]

/-- What the next level makes of the selector at the end of a path: blank keys are gone. -/
theorem bare_descend {path : List String} (h : ∀ key ∈ path, '&' ∉ key.toList) (parent : String) :
    bare (descend parent path) = spaced (parent :: path) := by
  induction path using List.reverseRecOn with
  | nil => exact (spaced_singleton parent).symm
  | append_singleton path key ih =>
    obtain ⟨hpath, hkey⟩ := List.forall_mem_append.mp h
    rw [descend_concat, compose_of_notMem (hkey key List.mem_cons_self), ih hpath,
      ← List.cons_append, spaced_concat]

/-- The selector at the end of a path without `&`: the keys that are not blank with spaces between
them, and the last key in any case. -/
theorem ofPath_concat (top : String) {path : List String} {last : String}
    (h : ∀ key ∈ path ++ [last], '&' ∉ key.toList) :
    ofPath (top :: (path ++ [last])) = spaced (top :: path) ++ " " ++ bare last := by
  obtain ⟨hpath, hlast⟩ := List.forall_mem_append.mp h
  rw [ofPath, descend_concat, compose_of_notMem (hlast last List.mem_cons_self),
    bare_descend hpath]

end Selector

open Selector in
/-- The selector at the end of a path of keys, of which only the first may have an `&`: the keys in
front of the last one that are not blank, trimmed and with one space between any two, and behind
them a space and the last key, trimmed. So blank keys in front of the last one leave no trace, and
of a key only what is blank at its ends is left out. -/
theorem descendant_selector (top : String) {path : List String} {last : String}
    (h : ∀ key ∈ path ++ [last], '&' ∉ key.toList) :
    ofPath (top :: (path ++ [last])) = spaced (top :: path) ++ " " ++ bare last ∧
    (∀ (top' : String) (path' : List String), (∀ key ∈ path', '&' ∉ key.toList) →
      (top' :: path').filter (bare · ≠ "") = (top :: path).filter (bare · ≠ "") →
      ofPath (top' :: (path' ++ [last])) = ofPath (top :: (path ++ [last]))) ∧
    (∀ key : String, Trimmed (bare key).toList ∧ ∃ front back : String,
      Blank front.toList ∧ Blank back.toList ∧ key = front ++ bare key ++ back) ∧
    ∀ (t : Sheet) (s : Style), ⟨top :: (path ++ [last]), s⟩ ∈ t.nodes → s.declarations ≠ [] →
      t.css = String.join (t.rules.map Rule.text) ∧
      ⟨spaced (top :: path) ++ " " ++ bare last, s.declarations⟩ ∈ t.rules := by
  have hselector := ofPath_concat top h
  obtain ⟨-, hlast⟩ := List.forall_mem_append.mp h
  refine ⟨hselector, ?_, fun key => ⟨trimmed_bare key, exists_eq_append_bare key⟩, ?_⟩
  · intro top' path' hpath' hkeys
    have hwords : words (top' :: path') = words (top :: path) := by
      rw [words_eq_map_filter, words_eq_map_filter, hkeys]
    rw [hselector, ofPath_concat top' (List.forall_mem_append.mpr ⟨hpath', hlast⟩), spaced, spaced,
      hwords]
  · intro t s hnode hne
    have hrule := t.mem_rules hnode hne
    rw [hselector] at hrule
    exact ⟨t.css_eq, hrule⟩

/-- A style below two blank levels, with white space inside of a key and around others. -/
def blankLevels : Sheet :=
  ⟨[("\uFEFF.a ", .nest "" (.nest " \t" (.nest "b  c"
    (.nest " d " (.declare "x" (.text "1") .empty) .empty) .empty) .empty) .empty)]⟩

/-- Blank keys on the way leave no trace, and blank characters inside of a key stay. -/
theorem descendant_selector_blankLevels :
    (∀ key ∈ ["", " \t", "b  c"] ++ [" d "], '&' ∉ key.toList) ∧
    Selector.ofPath ("\uFEFF.a " :: (["", " \t", "b  c"] ++ [" d "])) = ".a b  c d" ∧
    Selector.ofPath ("\uFEFF.a " :: (["b  c"] ++ [" d "])) = ".a b  c d" ∧
    ⟨".a b  c d", [("x", .text "1")]⟩ ∈ blankLevels.rules := by
  have h : ∀ key ∈ ["", " \t", "b  c"] ++ [" d "], '&' ∉ key.toList := by decide
  have hvalue : Selector.spaced ["\uFEFF.a ", "", " \t", "b  c"] ++ " " ++ bare " d " =
      ".a b  c d" := by decide
  obtain ⟨hselector, hblank, -, hrules⟩ := descendant_selector "\uFEFF.a " h
  rw [hvalue] at hselector hrules
  obtain ⟨-, hrule⟩ := hrules blankLevels (.declare "x" (.text "1") .empty) (by decide) (by decide)
  exact ⟨h, hselector, (hblank _ ["b  c"] (by decide) (by decide)).trans hselector, hrule⟩

end NestedStyles

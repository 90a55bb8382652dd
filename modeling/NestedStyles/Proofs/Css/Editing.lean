import NestedStyles.Proofs.Css.Segments
import NestedStyles.Proofs.Style.Places

/-!
# Edits of a sheet

What a style in a sheet is written as is one piece of the text. In front of it and behind it stands
what is around the style: the rules of the styles that it is nested in, and of their other nested
styles (`Sheet.Gap.css_fill`). So another style in its place changes that piece and nothing else
(`edit_local`).
-/

namespace NestedStyles
namespace Style

theorem ownText_congr {s t : Style} (h : s.declarations = t.declarations)
    (parent : Option String) : s.ownText parent = t.ownText parent := by
  rw [ownText, ownText, h]

/-! ## Around one style -/

namespace Gap

/-- The text in front of a gap: all declarations around it, and the nested styles in front. -/
def textBefore (gap : Gap) (parent : String) : String :=
  (ofEntries (gap.front ++ gap.back)).ownText (some parent) ++
    (ofEntries gap.front).nestedText (some parent)

/-- The text behind a gap: the nested styles there. -/
def textBehind (gap : Gap) (parent : String) : String :=
  (ofEntries gap.back).nestedText (some parent)

/-- The style in a gap is no declaration of the one around it. -/
theorem declarations_fill (gap : Gap) (s : Style) :
    (gap.fill s).declarations = (ofEntries (gap.front ++ gap.back)).declarations := by
  rw [fill, declarations_ofEntries_append, declarations_ofEntries_append]
  rfl

/-- What stands around a nested style does not depend on it. -/
theorem css_fill (gap : Gap) (s : Style) (parent : String) :
    (gap.fill s).css (some parent) =
      gap.textBefore parent ++ s.css (some (Selector.compose gap.fragment (some parent))) ++
        gap.textBehind parent := by
  have hown := ownText_congr (gap.declarations_fill s) (some parent)
  have hnested : (gap.fill s).nestedText (some parent) =
      (ofEntries gap.front).nestedText (some parent) ++
        (s.css (some (Selector.compose gap.fragment (some parent))) ++ gap.textBehind parent) := by
    rw [fill, nestedText_append]
    exact congrArg _ (nestedText_nest ..)
  rw [css_eq_append, hown, hnested, textBefore]
  simp only [String.append_assoc]

end Gap

/-! ## Around a style at any depth -/

/-- The text in front of the innermost of gaps. -/
def textBefore : List Gap → String → String
  | [], _ => ""
  | gap :: gaps, parent =>
    gap.textBefore parent ++ textBefore gaps (Selector.compose gap.fragment (some parent))

/-- The text behind the innermost of gaps. -/
def textBehind : List Gap → String → String
  | [], _ => ""
  | gap :: gaps, parent =>
    textBehind gaps (Selector.compose gap.fragment (some parent)) ++ gap.textBehind parent

/-- What stands around a style at any depth does not depend on it. The style depends on what is
around it only by the keys on the way. -/
theorem css_fillAll (gaps : List Gap) (s : Style) (parent : String) :
    (fillAll gaps s).css (some parent) =
      textBefore gaps parent ++
        s.css (some (Selector.descend parent (gaps.map Gap.fragment))) ++
        textBehind gaps parent := by
  induction gaps generalizing parent with
  | nil => simp [fillAll, textBefore, textBehind]
  | cons gap gaps ih =>
    rw [fillAll, List.foldr_cons, ← fillAll, gap.css_fill, ih, List.map_cons,
      Selector.descend_cons, textBefore, textBehind]
    simp only [String.append_assoc]

end Style

namespace Sheet
namespace Gap

/-- The text in front of a gap. -/
def textBefore (gap : Gap) : String :=
  css ⟨gap.front⟩ ++ Style.textBefore gap.inner gap.selector

/-- The text behind a gap. -/
def textBehind (gap : Gap) : String :=
  Style.textBehind gap.inner gap.selector ++ css ⟨gap.back⟩

theorem css_fill (gap : Gap) (s : Style) :
    (gap.fill s).css =
      gap.textBefore ++ s.css (some (Selector.ofPath gap.path)) ++ gap.textBehind := by
  rw [fill, css_append, css_cons, Style.css_fillAll, textBefore, textBehind, path, Selector.ofPath]
  simp only [String.append_assoc]

end Gap

theorem css_insert_of_notMem {t : Sheet} {selector : String} (h : selector ∉ t.keys)
    (s : Style) : (t.insert selector s).css = t.css ++ s.css (some selector) := by
  rw [insert, Keyed.insert_of_notMem h, css_append, css_cons, css_nil, String.append_empty]

end Sheet

/-- A sheet is a gap with the style in it that keys lead to, and inserting another style there, at
each level, fills the gap with that. Its text is that of the style, under the selector of the keys,
between two texts that the gap alone determines. Without repeated keys this is so for every node. A
style under a new selector is written behind all others. -/
theorem edit_local (t : Sheet) :
    (∀ (path : List String) (old : Style), t.styleAt? path = some old →
      ∃ gap : Sheet.Gap, gap.path = path ∧ gap.fill old = t ∧ ∀ new : Style,
        t.replaceAt path new = gap.fill new ∧
        (t.replaceAt path new).css =
          gap.textBefore ++ new.css (some (Selector.ofPath path)) ++ gap.textBehind) ∧
    (t.UniqueKeys → ∀ node ∈ t.nodes, t.styleAt? node.path = some node.content) ∧
    ∀ (selector : String) (new : Style), selector ∉ t.keys →
      (t.insert selector new).css = t.css ++ new.css (some selector) := by
  refine ⟨fun path old h => ?_, fun hkeys node hnode => (Sheet.mem_nodes_iff hkeys).mp hnode,
    fun selector new h => Sheet.css_insert_of_notMem h new⟩
  obtain ⟨gap, rfl, hfill, hreplace⟩ := Sheet.exists_gap h
  refine ⟨gap, rfl, hfill, fun new => ⟨hreplace new, ?_⟩⟩
  rw [hreplace, gap.css_fill]

/-- A style two levels down, with declarations and nested styles around it at each level. -/
def cardSheet : Sheet :=
  ⟨[(".card", .declare "x" (.text "1")
      (.nest ".title" (.nest "&:hover" (.declare "y" (.text "2") .empty)
        (.declare "z" (.text "3") .empty))
      (.nest "b" (.declare "w" (.text "4") .empty) .empty))),
    ("body", .declare "margin" (.text "0") .empty)]⟩

/-- A style three levels deep, and a selector that is new. -/
theorem edit_local_card :
    cardSheet.UniqueKeys ∧
    cardSheet.styleAt? [".card", ".title", "&:hover"] = some (.declare "y" (.text "2") .empty) ∧
    (∃ before behind : String,
      cardSheet.css = before ++ ".card .title:hover\x7by:2;\x7d" ++ behind ∧
      ∀ new : Style, (cardSheet.replaceAt [".card", ".title", "&:hover"] new).css =
        before ++ new.css (some ".card .title:hover") ++ behind) ∧
    "p" ∉ cardSheet.keys ∧
    (cardSheet.insert "p" (.declare "v" (.text "5") .empty)).css =
      cardSheet.css ++ "p\x7bv:5;\x7d" := by
  have hkeys : cardSheet.UniqueKeys := by
    refine ⟨by decide, ?_⟩
    simp [cardSheet, Style.UniqueKeys, Style.keys, Style.entries]
  have hnode : (⟨[".card", ".title", "&:hover"], .declare "y" (.text "2") .empty⟩ : Located Style) ∈
      cardSheet.nodes := by decide
  have hselector :
      Selector.ofPath [".card", ".title", "&:hover"] = ".card .title:hover" := by decide
  have hnew : "p" ∉ cardSheet.keys := by decide
  obtain ⟨hedit, hplaces, hinsert⟩ := edit_local cardSheet
  have hstyle := hplaces hkeys _ hnode
  obtain ⟨gap, -, hfill, hreplace⟩ := hedit _ _ hstyle
  simp only [hselector] at hreplace
  refine ⟨hkeys, hstyle, ⟨gap.textBefore, gap.textBehind, ?_, fun new => (hreplace new).2⟩, hnew,
    (hinsert "p" _ hnew).trans (congrArg _ (by decide))⟩
  obtain ⟨hsame, hcss⟩ := hreplace (.declare "y" (.text "2") .empty)
  rw [hsame, hfill] at hcss
  exact hcss.trans (congrArg (gap.textBefore ++ · ++ gap.textBehind) (by decide))

end NestedStyles

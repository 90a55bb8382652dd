import NestedStyles.Proofs.Css.Flattening
import NestedStyles.Proofs.Numeric.Numeral

/-!
# Reading a style sheet back

A flat style sheet is written without escapes, and still it can be read back as long as no text in
it holds the mark that ends it. The decoder is a scan with one step for each character; reading the
text of a rule from between two rules ends between two rules with one more block
(`Scan.run_rule`).
-/

namespace NestedStyles

/-- What the text of a rule tells: its selector, and the texts of its names and values. -/
structure Block where
  selector : String
  declarations : List (String × String)
deriving DecidableEq, Repr

/-- The block that a rule is meant to be read as. -/
def Rule.block (rule : Rule) : Block :=
  ⟨rule.selector, rule.declarations.map fun declaration =>
    (declaration.1, declaration.2.written)⟩

/-- What is being read, with what has been read of the same rule. -/
inductive Part
  | selector
  | name (block : Block)
  | value (block : Block) (name : String)

namespace Part

/-- The character that ends a part. -/
def mark : Part → Char
  | selector => '\x7b'
  | name _ => ':'
  | value _ _ => ';'

/-- The part behind one that reads `text`. -/
def next (text : String) : Part → Part
  | selector => .name ⟨text, []⟩
  | name block => .value block text
  | value block key => .name ⟨block.selector, block.declarations ++ [(key, text)]⟩

end Part

/-- The blocks that are complete, the part that is being read, and its characters so far. -/
structure Scan where
  done : List Block
  part : Part
  read : List Char

namespace Scan

/-- A scan with whole blocks behind it and nothing of the next one. -/
def between (done : List Block) : Scan := ⟨done, .selector, []⟩

/-- A brace closes a rule only where a name would begin. -/
def step (scan : Scan) (c : Char) : Scan :=
  match scan.part, scan.read, c with
  | .name block, [], '\x7d' => between (scan.done ++ [block])
  | part, read, c =>
    if c = part.mark then ⟨scan.done, part.next (String.ofList read), []⟩
    else ⟨scan.done, part, read ++ [c]⟩

def run (scan : Scan) (text : List Char) : Scan := text.foldl step scan

@[simp] theorem run_nil (scan : Scan) : scan.run [] = scan := rfl

@[simp] theorem run_cons (scan : Scan) (c : Char) (text : List Char) :
    scan.run (c :: text) = (scan.step c).run text := rfl

@[simp] theorem run_append (scan : Scan) (text text' : List Char) :
    scan.run (text ++ text') = (scan.run text).run text' := List.foldl_append

theorem step_mark (done : List Block) (part : Part) (read : List Char) :
    step ⟨done, part, read⟩ part.mark = ⟨done, part.next (String.ofList read), []⟩ := by
  cases part <;> simp [step, Part.mark]

theorem step_of_ne {done : List Block} {part : Part} {read : List Char} {c : Char}
    (hmark : c ≠ part.mark) (hclose : ∀ block, part = .name block → read = [] → c ≠ '\x7d') :
    step ⟨done, part, read⟩ c = ⟨done, part, read ++ [c]⟩ := by
  unfold step
  split
  · rename_i block hpart hread
    exact absurd rfl (hclose block hpart hread)
  · exact if_neg hmark

/-- Characters that do not end a part are gathered. -/
theorem run_of_notMem {done : List Block} {part : Part} {read text : List Char}
    (hmark : part.mark ∉ text)
    (hclose : ∀ block, part = .name block → read = [] → text.head? ≠ some '\x7d') :
    (⟨done, part, read⟩ : Scan).run text = ⟨done, part, read ++ text⟩ := by
  induction text generalizing read with
  | nil => simp
  | cons c rest ih =>
    obtain ⟨hc, hrest⟩ := List.ne_and_not_mem_of_not_mem_cons hmark
    have hstep : step ⟨done, part, read⟩ c = ⟨done, part, read ++ [c]⟩ :=
      step_of_ne (Ne.symm hc) fun block hpart hread heq =>
        hclose block hpart hread (congrArg some heq)
    rw [run_cons, hstep, ih hrest fun _ _ hread => absurd hread (by simp), List.append_assoc,
      List.singleton_append]

/-- A part is read up to the character that ends it. -/
theorem run_part (done : List Block) (part : Part) {text : String}
    (hmark : part.mark ∉ text.toList)
    (hclose : ∀ block, part = .name block → text.toList.head? ≠ some '\x7d') :
    (⟨done, part, []⟩ : Scan).run (text.toList ++ [part.mark]) = ⟨done, part.next text, []⟩ := by
  rw [run_append, run_of_notMem hmark fun block hpart _ => hclose block hpart, run_cons, step_mark,
    List.nil_append, String.ofList_toList, run_nil]

end Scan

/-- Reading stops nowhere: a text that is no style sheet gives the blocks that it completes. -/
def blocksOf (css : String) : List Block := ((Scan.between []).run css.toList).done

/-! ## Rules that can be read back -/

/-- No text of a rule holds the mark behind it, and no name looks like the end of the rule. -/
structure Rule.Legible (rule : Rule) : Prop where
  selector : '\x7b' ∉ rule.selector.toList
  name : ∀ declaration ∈ rule.declarations,
    ':' ∉ declaration.1.toList ∧ declaration.1.toList.head? ≠ some '\x7d'
  value : ∀ declaration ∈ rule.declarations, ';' ∉ declaration.2.written.toList

namespace Scan

/-- Reading declarations where names may stand gathers all of them, whatever was read before. -/
theorem run_declarations {done : List Block} {selector : String} {read : List (String × String)}
    {declarations : List (String × Value)}
    (hname : ∀ declaration ∈ declarations,
      ':' ∉ declaration.1.toList ∧ declaration.1.toList.head? ≠ some '\x7d')
    (hvalue : ∀ declaration ∈ declarations, ';' ∉ declaration.2.written.toList) :
    (⟨done, .name ⟨selector, read⟩, []⟩ : Scan).run
        (String.join (declarations.map declarationText)).toList =
      ⟨done, .name ⟨selector, read ++ declarations.map fun declaration =>
        (declaration.1, declaration.2.written)⟩, []⟩ := by
  induction declarations generalizing read with
  | nil => simp
  | cons declaration rest ih =>
    obtain ⟨name, value⟩ := declaration
    obtain ⟨hcolon, hbrace⟩ := hname _ List.mem_cons_self
    have htext : (String.join (((name, value) :: rest).map declarationText)).toList =
        (name.toList ++ [':']) ++ ((value.written.toList ++ [';']) ++
          (String.join (rest.map declarationText)).toList) := by
      simp [declarationText]
    have hname' := run_part done (.name ⟨selector, read⟩) hcolon fun _ _ => hbrace
    have hvalue' := run_part done (.value ⟨selector, read⟩ name) (hvalue _ List.mem_cons_self)
      fun _ h => nomatch h
    simp only [Part.mark, Part.next] at hname' hvalue'
    rw [htext, run_append, hname', run_append, hvalue',
      ih (fun d hd => hname d (List.mem_cons_of_mem _ hd))
        (fun d hd => hvalue d (List.mem_cons_of_mem _ hd))]
    simp

/-- Between two blocks, a rule that can be read back is read as its block. -/
theorem run_rule {done : List Block} {rule : Rule} (h : rule.Legible) :
    (between done).run rule.text.toList = between (done ++ [rule.block]) := by
  have htext : rule.text.toList = (rule.selector.toList ++ ['\x7b']) ++
      ((String.join (rule.declarations.map declarationText)).toList ++ ['\x7d']) := by
    simp [Rule.text]
  have hselector := run_part done .selector h.selector fun _ h => nomatch h
  simp only [Part.mark, Part.next] at hselector
  rw [between, htext, run_append, hselector, run_append, run_declarations h.name h.value]
  rfl

theorem run_rules {done : List Block} {rules : List Rule} (h : ∀ rule ∈ rules, rule.Legible) :
    (between done).run (String.join (rules.map Rule.text)).toList =
      between (done ++ rules.map Rule.block) := by
  induction rules generalizing done with
  | nil => simp
  | cons rule rules ih =>
    rw [List.map_cons, String.join_cons, String.toList_append, run_append,
      run_rule (h rule List.mem_cons_self), ih fun r hr => h r (List.mem_cons_of_mem _ hr)]
    simp

end Scan

/-- Rules that can be read back are read as their blocks, in order. -/
theorem blocksOf_join {rules : List Rule} (h : ∀ rule ∈ rules, rule.Legible) :
    blocksOf (String.join (rules.map Rule.text)) = rules.map Rule.block := by
  rw [blocksOf, Scan.run_rules h]
  simp [Scan.between]

/-! ## Sheets that can be read back -/

/-- A value in which no text holds a semicolon. -/
def Value.Unbroken : Value → Prop
  | number _ => True
  | text s => ';' ∉ s.toList

instance : DecidablePred Value.Unbroken
  | .number _ => .isTrue trivial
  | .text s => inferInstanceAs (Decidable (';' ∉ s.toList))

/-- No key of a group or of a nested style holds a brace that opens, no name holds a colon or
begins with a brace that closes, and no text holds a semicolon. Numbers may be any. -/
structure Sheet.Legible (t : Sheet) : Prop where
  key : ∀ node ∈ t.nodes, ∀ key ∈ node.path, '\x7b' ∉ key.toList
  name : ∀ node ∈ t.nodes, ∀ declaration ∈ node.content.declarations,
    ':' ∉ declaration.1.toList ∧ declaration.1.toList.head? ≠ some '\x7d'
  value : ∀ node ∈ t.nodes, ∀ declaration ∈ node.content.declarations,
    declaration.2.Unbroken

theorem Value.Unbroken.notMem_written {v : Value} (h : v.Unbroken) : ';' ∉ v.written.toList := by
  cases v with
  | number x => exact fun hc => absurd (Binary64.isNumeric_of_mem_text hc) (by decide)
  | text s => exact h

namespace Sheet

theorem Legible.rules {t : Sheet} (h : t.Legible) : ∀ rule ∈ t.rules, rule.Legible := by
  intro rule hrule
  obtain ⟨node, hnode, rfl⟩ := List.mem_map.mp (List.mem_filter.mp hrule).1
  refine ⟨fun hc => ?_, h.name node hnode, fun d hd => (h.value node hnode d hd).notMem_written⟩
  rcases Selector.mem_ofPath hc with hc | ⟨key, hkey, hc⟩
  · exact absurd hc (by decide)
  · exact h.key node hnode key hkey hc

/-- A legible sheet is read back from its text: the blocks of its nodes with declarations, in
preorder, each with its composed selector and what is written in it. So two legible sheets with
one text have the same blocks. -/
theorem blocksOf_css :
    (∀ t : Sheet, t.Legible → blocksOf t.css = t.rules.map Rule.block) ∧
    ∀ t u : Sheet, t.Legible → u.Legible → t.css = u.css →
      t.rules.map Rule.block = u.rules.map Rule.block := by
  have hdecode (t : Sheet) (h : t.Legible) : blocksOf t.css = t.rules.map Rule.block := by
    rw [css_eq, blocksOf_join h.rules]
  refine ⟨hdecode, fun t u ht hu htu => ?_⟩
  rw [← hdecode t ht, ← hdecode u hu, htu]

/-- A name that ends like a rule, a value full of marks, a number, and an empty group. -/
def markedSheet : Sheet :=
  ⟨[(" a ", .declare "x\x7d" (.text "\x7d\x7b:")
      (.nest "& > b" (.declare "" (.number ⟨0x3FF8000000000000⟩) .empty)
        (.declare "y" (.text "") .empty))),
    ("", .empty)]⟩

/-- The same rules, with the nested style in front of the declarations. -/
def regroupedSheet : Sheet :=
  ⟨[(" a ", .nest " & > b" (.declare "" (.number ⟨0x3FF8000000000000⟩) .empty)
      (.declare "x\x7d" (.text "\x7d\x7b:") (.declare "y" (.text "") .empty)))]⟩

/-- Two sheets with one style sheet, in which the order between declarations and nested styles is
lost. -/
theorem blocksOf_css_regrouped :
    markedSheet.Legible ∧ regroupedSheet.Legible ∧ markedSheet.css = regroupedSheet.css ∧
    blocksOf markedSheet.css =
      [⟨" a ", [("x\x7d", "\x7d\x7b:"), ("y", "")]⟩, ⟨"a > b", [("", "1.5")]⟩] ∧
    markedSheet.rules.map Rule.block = regroupedSheet.rules.map Rule.block := by
  have hmarked : markedSheet.Legible :=
    ⟨by decide +kernel, by decide +kernel, by decide +kernel⟩
  have hregrouped : regroupedSheet.Legible :=
    ⟨by decide +kernel, by decide +kernel, by decide +kernel⟩
  have hcss : markedSheet.css = regroupedSheet.css := by decide +kernel
  obtain ⟨hdecode, hunique⟩ := blocksOf_css
  refine ⟨hmarked, hregrouped, hcss, ?_, hunique _ _ hmarked hregrouped hcss⟩
  rw [hdecode markedSheet hmarked]
  decide +kernel

end Sheet
end NestedStyles

import NestedStyles.Proofs.Json.Duplicates

/-!
# Nesting of objects

`Json.nesting` counts in any text, JSON or not, how many objects are open at once, by their brackets
outside of strings. In the text of a value these are as many as there are objects in objects of the
value (`Json.nesting_eq_objectDepth`), so in a document that is read they are not more than the
brackets that the reader follows.
-/

namespace NestedStyles.Json

/-! ## Scanning -/

/-- What the next character of a text belongs to. -/
inductive Region
  | code
  | string
  | escape
deriving DecidableEq, Repr

/-- How far a text is scanned: how many objects are open, and how many were where most were. -/
structure Scan where
  region : Region
  opened : Nat
  most : Nat
deriving DecidableEq, Repr

namespace Scan

/-- What one character does. Braces count outside of strings only. -/
def step (scan : Scan) (c : Char) : Scan :=
  match scan.region with
  | .escape => { scan with region := .string }
  | .string =>
    if c = '"' then { scan with region := .code }
    else if c = '\\' then { scan with region := .escape }
    else scan
  | .code =>
    if c = '"' then { scan with region := .string }
    else if c = '\x7b' then ⟨.code, scan.opened + 1, max scan.most (scan.opened + 1)⟩
    else if c = '\x7d' then ⟨.code, scan.opened - 1, scan.most⟩
    else scan

def run (scan : Scan) (text : List Char) : Scan := text.foldl step scan

@[simp] theorem run_nil (scan : Scan) : scan.run [] = scan := rfl

@[simp] theorem run_cons (scan : Scan) (c : Char) (text : List Char) :
    scan.run (c :: text) = (scan.step c).run text := rfl

@[simp] theorem run_append (scan : Scan) (text text' : List Char) :
    scan.run (text ++ text') = (scan.run text).run text' := List.foldl_append

theorem run_eq_self {scan : Scan} {text : List Char} (h : ∀ c ∈ text, scan.step c = scan) :
    scan.run text = scan := by
  induction text with
  | nil => rfl
  | cons c text ih =>
    obtain ⟨hc, htext⟩ := List.forall_mem_cons.mp h
    rw [run_cons, hc, ih htext]

end Scan

/-- Outside of strings this is neither a quote nor the bracket of an object. -/
def isQuiet (c : Char) : Bool := c ≠ '"' && c ≠ '\x7b' && c ≠ '\x7d'

/-- How many objects are open at once where most are, by the brackets of a text. -/
def nesting (text : List Char) : Nat := (Scan.run ⟨.code, 0, 0⟩ text).most

/-- No more than `depth` objects are opened in the text, and every one is closed in it. -/
def Nests (text : List Char) (depth : Nat) : Prop :=
  ∀ opened most, opened ≤ most →
    Scan.run ⟨.code, opened, most⟩ text = ⟨.code, opened, max most (opened + depth)⟩

section
variable {text text' : List Char} {depth depth' : Nat}

theorem Nests.nesting_eq (h : Nests text depth) : nesting text = depth := by
  rw [nesting, h 0 0 (Nat.le_refl 0), Nat.zero_add, Nat.zero_max]

/-- The depth of two texts one behind the other is that of the deeper one. -/
theorem Nests.append (h : Nests text depth) (h' : Nests text' depth') :
    Nests (text ++ text') (max depth depth') := by
  intro opened most hle
  rw [Scan.run_append, h opened most hle, h' opened _ (Nat.le_trans hle (Nat.le_max_left ..))]
  simp only [Scan.mk.injEq, true_and]
  omega

theorem nests_zero (h : text.all isQuiet) : Nests text 0 := by
  intro opened most hle
  rw [Nat.add_zero, Nat.max_eq_left hle]
  refine Scan.run_eq_self fun c hc => ?_
  have hquiet := List.all_eq_true.mp h c hc
  simp only [isQuiet, Bool.and_eq_true, decide_eq_true_eq] at hquiet
  obtain ⟨⟨hquote, hopen⟩, hclose⟩ := hquiet
  simp [Scan.step, hquote, hopen, hclose]

/-- Braces around a text nest it once more. -/
theorem Nests.object (h : Nests text depth) : Nests ('\x7b' :: text ++ ['\x7d']) (depth + 1) := by
  intro opened most hle
  have hopened : Scan.step ⟨.code, opened, most⟩ '\x7b' =
      ⟨.code, opened + 1, max most (opened + 1)⟩ := rfl
  have hclosed (most : Nat) : Scan.run ⟨.code, opened + 1, most⟩ ['\x7d'] =
      ⟨.code, opened, most⟩ := rfl
  rw [List.cons_append, Scan.run_cons, hopened, Scan.run_append, h _ _ (Nat.le_max_right ..),
    hclosed]
  simp only [Scan.mk.injEq, true_and]
  omega

/-! ## Parts of a text -/

/-- Characters that are told apart from quotes and brackets by a test. -/
theorem nests_of_forall {test : Char → Bool} (h : ∀ c ∈ text, test c)
    (hquote : test '"' = false) (hopen : test '\x7b' = false) (hclose : test '\x7d' = false) :
    Nests text 0 := by
  refine nests_zero (List.all_eq_true.mpr fun c hc => ?_)
  have hne {d : Char} (hd : test d = false) : c ≠ d := by
    rintro rfl
    exact Bool.false_ne_true (hd.symm.trans (h c hc))
  simp [isQuiet, hne hquote, hne hopen, hne hclose]

theorem IsGap.nests (h : IsGap text) : Nests text 0 := nests_of_forall h rfl rfl rfl

theorem nests_digits {ds : List Char} (h : ∀ c ∈ ds, c.isDigit) : Nests ds 0 :=
  nests_of_forall h rfl rfl rfl

theorem FractionText.nests {fraction : Option (List Char)} (h : FractionText fraction text) :
    Nests text 0 := by
  cases h with
  | absent => exact nests_digits (List.forall_mem_nil _)
  | present h =>
    have hpoint : Nests ['.'] 0 := nests_zero rfl
    exact hpoint.append (nests_digits h.isDigit)

theorem PowerText.nests {power : Option (Bool × List Char)} (h : PowerText power text) :
    Nests text 0 := by
  cases h with
  | absent => exact nests_digits (List.forall_mem_nil _)
  | present hmark hsign h =>
    have hsigned {mark : Char} (hmark : mark = 'e' ∨ mark = 'E') {negative : Bool}
        {sign : List Char} (hsign : SignText negative sign) : Nests (mark :: sign) 0 := by
      refine nests_zero ?_
      rcases hmark with rfl | rfl <;> cases hsign <;> decide
    exact (hsigned hmark hsign).append (nests_digits h.isDigit)

theorem NumberText.nests {n : Number} (h : NumberText n text) : Nests text 0 := by
  have hunsigned {negative : Bool} {text : List Char} (h : UnsignedText negative n text) :
      Nests text 0 := by
    obtain ⟨hwhole, hfraction, hpower, -⟩ := h
    exact ((nests_digits hwhole.isDigit).append hfraction.nests).append hpower.nests
  cases h with
  | unsigned h => exact hunsigned h
  | negative h =>
    have hminus : Nests ['-'] 0 := nests_zero rfl
    exact hminus.append (hunsigned h)

theorem ne_of_hexDigit? {c : Char} {digit : Nat} (h : hexDigit? c = some digit) :
    c ≠ '"' ∧ c ≠ '\\' := by
  constructor <;> rintro rfl <;> cases h

theorem HexQuad.run_eq_self {unit opened most : Nat} {digits : List Char}
    (h : HexQuad unit digits) :
    Scan.run ⟨.string, opened, most⟩ digits = ⟨.string, opened, most⟩ := by
  obtain ⟨ha, hb, hc, hd⟩ := h
  have hdigit {c : Char} {digit : Nat} (h : hexDigit? c = some digit) :
      Scan.step ⟨.string, opened, most⟩ c = ⟨.string, opened, most⟩ := by
    obtain ⟨hquote, hbackslash⟩ := ne_of_hexDigit? h
    simp [Scan.step, hquote, hbackslash]
  refine Scan.run_eq_self ?_
  simp [hdigit ha, hdigit hb, hdigit hc, hdigit hd]

/-- A character of a string does not end it, however it is written. -/
theorem Spelling.run_eq_self {c : Char} {opened most : Nat} (h : Spelling c text) :
    Scan.run ⟨.string, opened, most⟩ text = ⟨.string, opened, most⟩ := by
  have hescape (e : Char) (rest : List Char) :
      Scan.run ⟨.string, opened, most⟩ ('\\' :: e :: rest) =
        Scan.run ⟨.string, opened, most⟩ rest := rfl
  cases h with
  | raw hquote hbackslash hcontrol => simp [Scan.step, hquote, hbackslash]
  | letter h => exact hescape _ []
  | unit h => rw [hescape, h.run_eq_self]
  | pair _ _ _ h h' => rw [Scan.run_append, hescape, h.run_eq_self, hescape, h'.run_eq_self]

theorem Spellings.run_eq_self {cs : List Char} {opened most : Nat} (h : Spellings cs text) :
    Scan.run ⟨.string, opened, most⟩ text = ⟨.string, opened, most⟩ := by
  induction h with
  | nil => rfl
  | cons h _ ih => rw [Scan.run_append, h.run_eq_self, ih]

/-- No brace in a string opens an object. -/
theorem StringText.nests {s : String} (h : StringText s text) : Nests text 0 := by
  obtain ⟨inside, hinside, rfl⟩ := h
  intro opened most hle
  have hquote : Scan.step ⟨.code, opened, most⟩ '"' = ⟨.string, opened, most⟩ := rfl
  rw [List.cons_append, Scan.run_cons, hquote, Scan.run_append, hinside.run_eq_self, Nat.add_zero,
    Nat.max_eq_left hle]
  rfl

theorem MemberText.nests {key : String} {texts : List Char → Prop} (h : MemberText key texts text)
    (hvalue : ∀ text, texts text → Nests text depth) : Nests text depth := by
  obtain ⟨name, gap, gap', behind, hname, hgap, hgap', hbehind, rfl⟩ := h
  have hcolon : Nests [':'] 0 := nests_zero rfl
  have hmember := (hname.nests.append hgap.nests).append
    (hcolon.append (hgap'.nests.append (hvalue behind hbehind)))
  simpa using hmember

/-- Between brackets the texts nest as deep as the deepest of them. -/
theorem Listed.nests {texts : α → List Char → Prop} {depth : α → Nat} {items : List α}
    {inside : List Char} (h : Listed (items.map texts) inside)
    (hitems : ∀ item ∈ items, ∀ text, texts item text → Nests text (depth item)) :
    Nests inside ((items.map depth).foldr max 0) := by
  induction items generalizing inside with
  | nil =>
    cases h with
    | nothing hgap => exact hgap.nests
  | cons item items ih =>
    obtain ⟨hitem, hrest⟩ := List.forall_mem_cons.mp hitems
    cases items with
    | nil =>
      cases h with
      | last hgap htext hgap' =>
        have hinside := (hgap.nests.append (hitem _ htext)).append hgap'.nests
        simpa using hinside
    | cons next items =>
      cases h with
      | more hgap htext hgap' h =>
        have hcomma : Nests [','] 0 := nests_zero rfl
        have hinside := ((hgap.nests.append (hitem _ htext)).append hgap'.nests).append
          (hcomma.append (ih h hrest))
        simpa using hinside

end

/-! ## Values -/

mutual
/-- How many objects of a value stand in each other where most do. -/
def objectDepth : Json → Nat
  | array elements => objectDepthOfElements elements
  | object members => objectDepthOfMembers members + 1
  | _ => 0
termination_by structural value => value

def objectDepthOfElements : List Json → Nat
  | [] => 0
  | element :: rest => max element.objectDepth (objectDepthOfElements rest)
termination_by structural elements => elements

def objectDepthOfMembers : List (String × Json) → Nat
  | [] => 0
  | (_, value) :: rest => max value.objectDepth (objectDepthOfMembers rest)
termination_by structural members => members
end

theorem objectDepthOfElements_eq_foldr (elements : List Json) :
    objectDepthOfElements elements = (elements.map objectDepth).foldr max 0 := by
  induction elements with
  | nil => rfl
  | cons element rest ih => rw [objectDepthOfElements, ih, List.map_cons, List.foldr_cons]

theorem objectDepthOfMembers_eq_foldr (members : List (String × Json)) :
    objectDepthOfMembers members = (members.map fun found => found.2.objectDepth).foldr max 0 := by
  induction members with
  | nil => rfl
  | cons found rest ih => rw [objectDepthOfMembers, ih, List.map_cons, List.foldr_cons]

mutual
/-- The objects of a value are nested no deeper than its brackets. -/
theorem objectDepth_le_depth : ∀ v : Json, v.objectDepth ≤ v.depth
  | null | boolean _ | number _ | string _ => Nat.le_refl 0
  | array elements => Nat.le_succ_of_le (objectDepthOfElements_le elements)
  | object members => Nat.succ_le_succ (objectDepthOfMembers_le members)

theorem objectDepthOfElements_le : ∀ elements : List Json,
    objectDepthOfElements elements ≤ depthOfElements elements
  | [] => Nat.le_refl 0
  | element :: rest => max_le_max (objectDepth_le_depth element) (objectDepthOfElements_le rest)

theorem objectDepthOfMembers_le : ∀ members : List (String × Json),
    objectDepthOfMembers members ≤ depthOfMembers members
  | [] => Nat.le_refl 0
  | (_, v) :: rest => max_le_max (objectDepth_le_depth v) (objectDepthOfMembers_le rest)
end

/-- However a value is written, its braces are nested as its objects are. -/
theorem IsText.nests {v : Json} {text : List Char} (h : IsText NumberText v text) :
    Nests text v.objectDepth := by
  induction v using induction_inside generalizing text with
  | step v ih =>
    cases v with
    | null =>
      obtain rfl := h
      exact nests_zero rfl
    | boolean b =>
      cases b <;> obtain rfl := h <;> exact nests_zero rfl
    | number n => exact NumberText.nests h
    | string s => exact StringText.nests h
    | array elements =>
      obtain ⟨inside, hinside, rfl⟩ := h
      rw [elementTexts_eq_map] at hinside
      have helements := hinside.nests fun element helement text htext => ih element helement htext
      have hopen : Nests ['['] 0 := nests_zero rfl
      have hclose : Nests [']'] 0 := nests_zero rfl
      have htext := (hopen.append helements).append hclose
      rw [objectDepth, objectDepthOfElements_eq_foldr]
      simpa using htext
    | object members =>
      obtain ⟨inside, hinside, rfl⟩ := h
      rw [memberTexts_eq_map] at hinside
      rw [objectDepth, objectDepthOfMembers_eq_foldr]
      refine Nests.object (hinside.nests fun found hfound text htext => ?_)
      exact htext.nests fun text htext => ih found.2 (List.mem_map_of_mem hfound) htext

/-- The brackets of a document count the objects of the value that it writes. -/
theorem nesting_eq_objectDepth {v : Json} {gap text gap' : List Char} (hgap : IsGap gap)
    (htext : IsText NumberText v text) (hgap' : IsGap gap') :
    nesting (gap ++ text ++ gap') = v.objectDepth := by
  rw [((hgap.nests.append htext.nests).append hgap'.nests).nesting_eq]
  simp

theorem IsSource.nesting_eq {v : Json} {source : String} (h : IsSource v source) :
    nesting source.toList = v.objectDepth := by
  obtain ⟨-, gap, text, gap', hgap, htext, hgap', hsource⟩ := h
  rw [hsource, nesting_eq_objectDepth hgap htext hgap']

/-- In a source there are never more than 127 objects open at once. -/
theorem IsSource.nesting_le {v : Json} {source : String} (h : IsSource v source) :
    nesting source.toList ≤ depthLimit := by
  rw [h.nesting_eq]
  exact Nat.le_trans (objectDepth_le_depth v) h.1

end NestedStyles.Json

import NestedStyles.Proofs.Numeric.Numeral
import NestedStyles.Proofs.Sheet.Embedding
import NestedStyles.Proofs.Style.Agreement
import NestedStyles.Proofs.Style.Places

/-!
# Equality as a partial equivalence

Equality of styles and of sheets looks the entries of one side up in the other. As keys are distinct
and the entries of both sides are as many, nothing is left out (`Keyed.Covers.symm`), so equality
goes both ways at every depth. It goes from one side to the next (`Keyed.Covers.trans`), and from a
side to itself where no NaN is in it (`agrees_partial_equivalence`).
-/

namespace NestedStyles

/-! ## Covering -/

namespace Keyed

variable {κ α β γ : Type} [DecidableEq κ]

theorem exists_mem_of_forall₂ {r : α → β → Prop} {l : List α} {l' : List β}
    (h : List.Forall₂ r l l') : (∀ a ∈ l, ∃ b ∈ l', r a b) ∧ ∀ b ∈ l', ∃ a ∈ l, r a b := by
  induction h with
  | nil => exact ⟨List.forall_mem_nil _, List.forall_mem_nil _⟩
  | @cons a b l l' hab _ ih =>
    constructor
    · refine List.forall_mem_cons.mpr ⟨⟨b, List.mem_cons_self, hab⟩, fun x hx => ?_⟩
      obtain ⟨y, hy, hxy⟩ := ih.1 x hx
      exact ⟨y, List.mem_cons_of_mem _ hy, hxy⟩
    · refine List.forall_mem_cons.mpr ⟨⟨a, List.mem_cons_self, hab⟩, fun y hy => ?_⟩
      obtain ⟨x, hx, hxy⟩ := ih.2 y hy
      exact ⟨x, List.mem_cons_of_mem _ hx, hxy⟩

/-- Entries that are covered by others of the same number cover these. -/
theorem Covers.symm {r : α → β → Prop} {r' : β → α → Prop} {entries : Keyed κ α}
    {others : Keyed κ β} (h : Covers r entries others) (hkeys : (keys entries).Nodup)
    (hlength : entries.length = others.length)
    (hr : ∀ entry ∈ entries, ∀ value, r entry.2 value → r' value entry.2) :
    Covers r' others entries := by
  obtain ⟨matched, hmatched, hperm⟩ := exists_perm_of_covers hkeys hlength h
  intro other hother
  obtain ⟨entry, hentry, hkey, hvalue⟩ :=
    (exists_mem_of_forall₂ hmatched).2 other (hperm.mem_iff.mpr hother)
  refine ⟨entry.2, ?_, hr entry hentry _ hvalue⟩
  rw [find?_eq_some_iff hkeys, ← hkey]
  exact hentry

/-- Covering passes on, if the relation of the values does. -/
theorem Covers.trans {r : α → β → Prop} {r' : β → γ → Prop} {r'' : α → γ → Prop}
    {entries : Keyed κ α} {others : Keyed κ β} {further : Keyed κ γ} (h : Covers r entries others)
    (h' : Covers r' others further)
    (hr : ∀ entry ∈ entries, ∀ b c, r entry.2 b → r' b c → r'' entry.2 c) :
    Covers r'' entries further := by
  intro entry hentry
  obtain ⟨b, hb, hentryB⟩ := h entry hentry
  obtain ⟨c, hc, hbc⟩ := h' _ (mem_of_find?_eq_some hb)
  exact ⟨c, hc, hr entry hentry b c hentryB hbc⟩

/-- Entries that match others one by one are covered by these in any order. -/
theorem covers_of_matched {r : α → β → Prop} {entries : Keyed κ α} {matched others : Keyed κ β}
    (hkeys : (keys entries).Nodup) (hmatched : List.Forall₂ (SameKey r) entries matched)
    (hperm : matched.Perm others) : Covers r entries others := by
  have hothers : (keys others).Nodup := by
    rw [keys_eq_of_forall₂ hmatched] at hkeys
    exact (hperm.map Prod.fst).nodup hkeys
  intro entry hentry
  obtain ⟨other, hother, hkey, hvalue⟩ := (exists_mem_of_forall₂ hmatched).1 entry hentry
  refine ⟨other.2, ?_, hvalue⟩
  rw [find?_eq_some_iff hothers, hkey]
  exact hperm.mem_iff.mp hother

/-- Entries under distinct keys cover themselves exactly if every value is related to itself. -/
theorem covers_self_iff {r : α → α → Prop} {entries : Keyed κ α} (hkeys : (keys entries).Nodup) :
    Covers r entries entries ↔ ∀ entry ∈ entries, r entry.2 entry.2 := by
  constructor
  · intro h entry hentry
    obtain ⟨value, hfind, hvalue⟩ := h entry hentry
    rw [(find?_eq_some_iff hkeys).mpr hentry] at hfind
    cases hfind
    exact hvalue
  · intro h
    exact covers_of_matched hkeys
      (List.forall₂_same.mpr fun entry hentry => ⟨rfl, h entry hentry⟩) (.refl entries)

/-- An entry in front under a new key covers one that is in front under the same key. -/
theorem covers_cons_cons {r : α → β → Prop} {key : κ} {value : α} {value' : β}
    {entries : Keyed κ α} {others : Keyed κ β} (hkey : key ∉ keys entries) (hr : r value value')
    (h : Covers r entries others) :
    Covers r ((key, value) :: entries) ((key, value') :: others) := by
  refine covers_cons.mpr ⟨⟨value', if_pos rfl, hr⟩, fun entry hentry => ?_⟩
  obtain ⟨found, hfind, hfound⟩ := h entry hentry
  have hne : key ≠ entry.1 := by
    rintro rfl
    exact hkey (mem_keys_of_mem hentry)
  exact ⟨found, (if_neg hne).trans hfind, hfound⟩

end Keyed

/-! ## Values -/

namespace Value

/-- A text is no NaN, whatever it says. -/
def isNaN : Value → Bool
  | number x => x.isNaN
  | text _ => false

theorem agrees_symm {v w : Value} (h : v.agrees w = true) : w.agrees v = true := by
  cases v <;> cases w
  · obtain ⟨hx, hy, hrank, hsign⟩ := Binary64.agrees_iff.mp h
    refine Binary64.agrees_iff.mpr ⟨hy, hx, hrank.symm, ?_⟩
    rw [← hrank]
    exact hsign.imp_right Eq.symm
  · cases h
  · cases h
  · exact beq_iff_eq.mpr (beq_iff_eq.mp h).symm

theorem agrees_trans {u v w : Value} (h : u.agrees v = true) (h' : v.agrees w = true) :
    u.agrees w = true := by
  cases u with
  | number x =>
    cases v with
    | text => cases h
    | number y =>
      cases w with
      | text => cases h'
      | number z =>
        obtain ⟨hx, -, hrank, hsign⟩ := Binary64.agrees_iff.mp h
        obtain ⟨-, hz, hrank', hsign'⟩ := Binary64.agrees_iff.mp h'
        refine Binary64.agrees_iff.mpr ⟨hx, hz, hrank.trans hrank', ?_⟩
        rcases hsign with hzero | hsign
        · exact .inl hzero
        · rw [hrank, hsign]
          exact hsign'
  | text s =>
    cases v with
    | number => cases h
    | text t =>
      obtain rfl : s = t := beq_iff_eq.mp h
      exact h'

theorem agrees_self_iff {v : Value} : v.agrees v = true ↔ v.isNaN = false := by
  cases v with
  | number x =>
    refine Binary64.agrees_iff.trans ⟨fun h => h.1, fun h => ⟨h, h, rfl, .inr rfl⟩⟩
  | text s => simp [agrees, isNaN]

/-- The same value, or a zero of either sign for a zero. -/
inductive Resigned : Value → Value → Prop
  | same : Resigned v v
  | zero : Resigned (number (.zero negative)) (number (.zero negative'))

theorem Resigned.isNaN_eq {v w : Value} (h : Resigned v w) : v.isNaN = w.isNaN := by
  cases h with
  | same => rfl
  | @zero negative negative' => cases negative <;> cases negative' <;> decide

/-- Changing the sign of a zero keeps a value equal, unless it is a NaN. -/
theorem Resigned.agrees {v w : Value} (h : Resigned v w) (hv : v.isNaN = false) :
    v.agrees w = true := by
  cases h with
  | same => exact agrees_self_iff.mpr hv
  | @zero negative negative' => cases negative <;> cases negative' <;> decide

end Value

/-! ## Styles -/

namespace Style

theorem forall_children {motive : Style → Prop}
    (h : ∀ s : Style, (∀ child ∈ s.children, motive child.2) → motive s) (s : Style) :
    ∀ child ∈ s.children, motive child.2 := by
  induction s with
  | empty => exact List.forall_mem_nil _
  | declare name value rest ih => rwa [children_declare]
  | nest fragment inner rest ihInner ihRest =>
    rw [children_nest]
    exact List.forall_mem_cons.mpr ⟨h inner ihInner, ihRest⟩

/-- Induction from the styles that are nested directly in a style to the style. -/
theorem induction_children {motive : Style → Prop}
    (step : ∀ s : Style, (∀ child ∈ s.children, motive child.2) → motive s) (s : Style) :
    motive s := step s (forall_children step s)

/-- Equality is symmetric where keys are distinct: then no entry of the other style is left out. -/
theorem agrees_symm {s t : Style} (hkeys : s.UniqueKeys) (h : s.agrees t = true) :
    t.agrees s = true := by
  induction s using induction_children generalizing t with
  | step s ih =>
    obtain ⟨hnodup, hentries⟩ := uniqueKeys_iff.mp hkeys
    obtain ⟨hlength, hcovers⟩ := agrees_iff.mp h
    refine agrees_iff.mpr ⟨hlength.symm, hcovers.symm hnodup hlength ?_⟩
    rintro ⟨key, v | inner⟩ hentry (w | inner') hagrees
    · exact Value.agrees_symm hagrees
    · cases hagrees
    · cases hagrees
    · exact ih _ (mem_children.mpr hentry) (hentries _ hentry) hagrees

theorem agrees_trans {s t u : Style} (h : s.agrees t = true) (h' : t.agrees u = true) :
    s.agrees u = true := by
  induction s using induction_children generalizing t u with
  | step s ih =>
    obtain ⟨hlength, hcovers⟩ := agrees_iff.mp h
    obtain ⟨hlength', hcovers'⟩ := agrees_iff.mp h'
    refine agrees_iff.mpr ⟨hlength.trans hlength', hcovers.trans hcovers' ?_⟩
    rintro ⟨key, v | inner⟩ hentry (w | inner') (x | inner'') hagrees hagrees'
    · exact Value.agrees_trans hagrees hagrees'
    · cases hagrees'
    · cases hagrees
    · cases hagrees
    · cases hagrees
    · cases hagrees
    · cases hagrees'
    · exact ih _ (mem_children.mpr hentry) hagrees hagrees'

end Style

/-! ### Equality of a style to itself -/

/-- The values that are declared under an entry, at any depth. -/
def Entry.values : Entry → List Value
  | value v => [v]
  | style s => s.values

namespace Style

theorem forall_mem_values {p : Value → Prop} {s : Style} :
    (∀ value ∈ s.values, p value) ↔ ∀ entry ∈ s.entries, ∀ value ∈ entry.2.values, p value := by
  induction s with
  | empty => simp [entries]
  | declare name value rest ih => simp [entries, ih, Entry.values]
  | nest fragment inner rest _ ih =>
    rw [entries, List.forall_mem_cons, ← ih]
    simp only [mem_values_nest, or_imp, forall_and, Entry.values]

/-- A style with distinct keys is equal to itself exactly if no value in it is a NaN. -/
theorem agrees_self_iff {s : Style} (hkeys : s.UniqueKeys) :
    s.agrees s = true ↔ ∀ value ∈ s.values, value.isNaN = false := by
  induction s using induction_children with
  | step s ih =>
    obtain ⟨hnodup, hentries⟩ := uniqueKeys_iff.mp hkeys
    rw [agrees_iff, Keyed.covers_self_iff hnodup, forall_mem_values, eq_self, true_and]
    refine forall₂_congr ?_
    rintro ⟨key, v | inner⟩ hentry
    · rw [Entry.values, List.forall_mem_singleton]
      exact Value.agrees_self_iff
    · exact ih _ (mem_children.mpr hentry) (hentries _ hentry)

/-! ### Other orders and other zeros -/

/-- The same entries in any order, and zeros of any sign, at any depth. -/
inductive Rearranged : Style → Style → Prop
  | empty : Rearranged empty empty
  | declare : Value.Resigned v w → Rearranged rest rest' →
    Rearranged (declare name v rest) (declare name w rest')
  | nest : Rearranged child child' → Rearranged rest rest' →
    Rearranged (nest fragment child rest) (nest fragment child' rest')
  | perm {es es' : Keyed String Entry} : es.Perm es' → Rearranged (ofEntries es) (ofEntries es')
  | trans : Rearranged s t → Rearranged t u → Rearranged s u

namespace Rearranged

/-- A rearranged style has the same keys, in some order. -/
theorem keys_perm {s t : Style} (h : Rearranged s t) : s.keys.Perm t.keys := by
  induction h with
  | empty => exact .nil
  | declare _ _ ih => exact ih.cons _
  | nest _ _ _ ih => exact ih.cons _
  | perm hperm =>
    rw [keys, keys, entries_ofEntries, entries_ofEntries]
    exact hperm.map Prod.fst
  | trans _ _ ih ih' => exact ih.trans ih'

theorem uniqueKeys {s t : Style} (h : Rearranged s t) (hkeys : s.UniqueKeys) : t.UniqueKeys := by
  induction h with
  | empty => trivial
  | declare _ hrest ih => exact ⟨mt hrest.keys_perm.mem_iff.mpr hkeys.1, ih hkeys.2⟩
  | nest _ hrest ihChild ih =>
    exact ⟨mt hrest.keys_perm.mem_iff.mpr hkeys.1, ihChild hkeys.2.1, ih hkeys.2.2⟩
  | perm hperm =>
    rw [uniqueKeys_iff, entries_ofEntries] at hkeys ⊢
    exact ⟨(hperm.map Prod.fst).nodup hkeys.1,
      fun entry hentry => hkeys.2 entry (hperm.mem_iff.mpr hentry)⟩
  | trans _ _ ih ih' => exact ih' (ih hkeys)

theorem isNaN_eq_false {s t : Style} (h : Rearranged s t)
    (hnan : ∀ value ∈ s.values, value.isNaN = false) :
    ∀ value ∈ t.values, value.isNaN = false := by
  induction h with
  | empty => exact hnan
  | declare hvalue _ ih =>
    obtain ⟨hv, hrest⟩ := List.forall_mem_cons.mp hnan
    exact List.forall_mem_cons.mpr ⟨hvalue.isNaN_eq ▸ hv, ih hrest⟩
  | nest _ _ ihChild ih =>
    simp only [mem_values_nest, or_imp, forall_and] at hnan ⊢
    exact ⟨ihChild hnan.1, ih hnan.2⟩
  | perm hperm =>
    rw [forall_mem_values, entries_ofEntries] at hnan ⊢
    exact fun entry hentry => hnan entry (hperm.mem_iff.mpr hentry)
  | trans _ _ ih ih' => exact ih' (ih hnan)

/-- Without a NaN a style equals what is made of it by moving entries and changing zeros. -/
theorem agrees {s t : Style} (h : Rearranged s t) (hkeys : s.UniqueKeys)
    (hnan : ∀ value ∈ s.values, value.isNaN = false) : s.agrees t = true := by
  induction h with
  | empty => rfl
  | declare hvalue _ ih =>
    obtain ⟨hv, hrest⟩ := List.forall_mem_cons.mp hnan
    obtain ⟨hlength, hcovers⟩ := agrees_iff.mp (ih hkeys.2 hrest)
    exact agrees_iff.mpr ⟨congrArg (· + 1) hlength,
      Keyed.covers_cons_cons hkeys.1 (hvalue.agrees hv) hcovers⟩
  | nest _ _ ihChild ih =>
    simp only [mem_values_nest, or_imp, forall_and] at hnan
    obtain ⟨hlength, hcovers⟩ := agrees_iff.mp (ih hkeys.2.2 hnan.2)
    exact agrees_iff.mpr ⟨congrArg (· + 1) hlength,
      Keyed.covers_cons_cons hkeys.1 (ihChild hkeys.2.1 hnan.1) hcovers⟩
  | perm hperm =>
    have hnodup := hkeys.nodup
    have hself := (agrees_self_iff hkeys).mpr hnan
    rw [entries_ofEntries] at hnodup
    rw [agrees_iff, entries_ofEntries, Keyed.covers_self_iff hnodup] at hself
    rw [agrees_iff, entries_ofEntries, entries_ofEntries]
    exact ⟨hperm.length_eq, Keyed.covers_of_matched hnodup
      (List.forall₂_same.mpr fun entry hentry => ⟨rfl, hself.2 entry hentry⟩) hperm⟩
  | trans h _ ih ih' =>
    exact agrees_trans (ih hkeys hnan) (ih' (h.uniqueKeys hkeys) (h.isNaN_eq_false hnan))

end Rearranged
end Style

/-! ## Sheets -/

namespace Sheet

theorem agrees_symm {t u : Sheet} (hkeys : t.UniqueKeys) (h : t.agrees u = true) :
    u.agrees t = true := by
  obtain ⟨hlength, hcovers⟩ := agrees_iff.mp h
  refine agrees_iff.mpr ⟨hlength.symm, hcovers.symm hkeys.nodup hlength ?_⟩
  intro group hgroup style hagrees
  exact Style.agrees_symm (hkeys.styles group hgroup) hagrees

theorem agrees_trans {t u v : Sheet} (h : t.agrees u = true) (h' : u.agrees v = true) :
    t.agrees v = true := by
  obtain ⟨hlength, hcovers⟩ := agrees_iff.mp h
  obtain ⟨hlength', hcovers'⟩ := agrees_iff.mp h'
  refine agrees_iff.mpr ⟨hlength.trans hlength', hcovers.trans hcovers' ?_⟩
  intro _ _ _ _ hagrees hagrees'
  exact Style.agrees_trans hagrees hagrees'

theorem agrees_self_iff {t : Sheet} (hkeys : t.UniqueKeys) :
    t.agrees t = true ↔ ∀ value ∈ t.values, value.isNaN = false := by
  rw [agrees_iff, Keyed.covers_self_iff hkeys.nodup, eq_self, true_and, values,
    List.forall_mem_flatMap]
  refine forall₂_congr fun group hgroup => ?_
  exact Style.agrees_self_iff (hkeys.styles group hgroup)

/-- The same groups in any order, with styles that are rearranged. -/
def Rearranged (t u : Sheet) : Prop :=
  ∃ groups : Keyed String Style,
    List.Forall₂ (Keyed.SameKey Style.Rearranged) t.groups groups ∧ groups.Perm u.groups

theorem Rearranged.agrees {t u : Sheet} (h : t.Rearranged u) (hkeys : t.UniqueKeys)
    (hnan : ∀ value ∈ t.values, value.isNaN = false) : t.agrees u = true := by
  obtain ⟨groups, hmatched, hperm⟩ := h
  have hlength := hmatched.length_eq.trans hperm.length_eq
  refine agrees_iff.mpr ⟨hlength, fun group hgroup => ?_⟩
  obtain ⟨style, hfind, hstyle⟩ :=
    Keyed.covers_of_matched hkeys.nodup hmatched hperm group hgroup
  refine ⟨style, hfind, hstyle.agrees (hkeys.styles group hgroup) fun value hvalue => ?_⟩
  exact hnan value (List.mem_flatMap.mpr ⟨group, hgroup, hvalue⟩)

end Sheet

/-! ## Both -/

/-- What equality is on things with distinct keys that declare values: it goes both ways and on,
only a NaN keeps something from being equal to itself, and without one a change of order or of the
sign of zeros keeps it equal. -/
structure IsPartialEquivalence {α : Type} (agrees : α → α → Bool) (uniqueKeys : α → Prop)
    (values : α → List Value) (rearranged : α → α → Prop) : Prop where
  symm : ∀ {x y : α}, uniqueKeys x → agrees x y = true → agrees y x = true
  trans : ∀ {x y z : α}, agrees x y = true → agrees y z = true → agrees x z = true
  self_iff : ∀ {x : α}, uniqueKeys x →
    (agrees x x = true ↔ ∀ value ∈ values x, value.isNaN = false)
  of_rearranged : ∀ {x y : α}, uniqueKeys x → (∀ value ∈ values x, value.isNaN = false) →
    rearranged x y → agrees x y = true

/-- Styles and sheets are equal to themselves only without NaNs. Apart from that, equality with
distinct keys is an equivalence that sees neither the order of entries nor the sign of a zero. -/
theorem agrees_partial_equivalence :
    IsPartialEquivalence Style.agrees Style.UniqueKeys Style.values Style.Rearranged ∧
    IsPartialEquivalence Sheet.agrees Sheet.UniqueKeys Sheet.values Sheet.Rearranged := by
  constructor
  · exact {
      symm := Style.agrees_symm
      trans := Style.agrees_trans
      self_iff := Style.agrees_self_iff
      of_rearranged := fun hkeys hnan h => h.agrees hkeys hnan }
  · exact {
      symm := Sheet.agrees_symm
      trans := Sheet.agrees_trans
      self_iff := Sheet.agrees_self_iff
      of_rearranged := fun hkeys hnan h => h.agrees hkeys hnan }

/-- Two numbers, the inner one in front of a text. -/
def numbersSheet (x y : Binary64) : Sheet :=
  ⟨[("a", .declare "x" (.number x)
      (.nest "b" (.declare "y" (.number y) (.declare "z" (.text "1") .empty)) .empty)),
    ("c", .empty)]⟩

/-- The same with its groups and all entries in another order. -/
def movedNumbersSheet (x y : Binary64) : Sheet :=
  ⟨[("c", .empty),
    ("a", .nest "b" (.declare "z" (.text "1") (.declare "y" (.number y) .empty))
      (.declare "x" (.number x) .empty))]⟩

theorem uniqueKeys_numbersSheet (x y : Binary64) : (numbersSheet x y).UniqueKeys := by
  refine ⟨?_, ?_⟩
  · simp [numbersSheet, Keyed.keys]
  · simp [numbersSheet, Style.UniqueKeys, Style.keys, Style.entries]

theorem rearranged_zeros : (numbersSheet (.zero false) (.zero true)).Rearranged
    (movedNumbersSheet (.zero true) (.zero false)) := by
  let text : String × Entry := ("z", .value (.text "1"))
  let zero (name : String) (negative : Bool) : String × Entry :=
    (name, .value (.number (.zero negative)))
  -- a zero changes in place, and then the entries around it are moved
  have hinner : Style.Rearranged (.ofEntries [zero "y" true, text])
      (.ofEntries [zero "y" false, text]) := .declare .zero (.declare .same .empty)
  have hmoved := hinner.trans (.perm (.swap text (zero "y" false) []))
  have houter : Style.Rearranged
      (.ofEntries [zero "x" false, ("b", .style (.ofEntries [zero "y" true, text]))])
      (.ofEntries [zero "x" true, ("b", .style (.ofEntries [text, zero "y" false]))]) :=
    .declare .zero (.nest hmoved .empty)
  have hstyle := houter.trans (.perm (.swap ("b", .style _) (zero "x" true) []))
  refine ⟨[("a", .ofEntries [("b", .style (.ofEntries [text, zero "y" false])), zero "x" true]),
    ("c", .empty)], ?_, .swap _ _ []⟩
  exact .cons ⟨rfl, hstyle⟩ (.cons ⟨rfl, .empty⟩ .nil)

/-- Two zeros that trade their places and their signs, and a sheet that a NaN keeps from being equal
to itself. -/
theorem agrees_partial_equivalence_zeros :
    let zeros := numbersSheet (.zero false) (.zero true)
    let moved := movedNumbersSheet (.zero true) (.zero false)
    let nan := numbersSheet (.zero false) .nan
    (zeros.UniqueKeys ∧ nan.UniqueKeys ∧ (∀ value ∈ zeros.values, value.isNaN = false) ∧
      zeros.Rearranged moved) ∧
    zeros.agrees moved = true ∧ moved.agrees zeros = true ∧ zeros.agrees zeros = true ∧
    nan.agrees nan = false := by
  intro zeros moved nan
  have hkeys : zeros.UniqueKeys := uniqueKeys_numbersSheet _ _
  have hkeys' : nan.UniqueKeys := uniqueKeys_numbersSheet _ _
  have hzeros : ∀ value ∈ zeros.values, value.isNaN = false := by decide
  have hnan : ¬∀ value ∈ nan.values, value.isNaN = false := by decide
  obtain ⟨-, hsheets⟩ := agrees_partial_equivalence
  have hagrees := hsheets.of_rearranged hkeys hzeros rearranged_zeros
  have hback := hsheets.symm hkeys hagrees
  refine ⟨⟨hkeys, hkeys', hzeros, rearranged_zeros⟩, hagrees, hback,
    hsheets.trans hagrees hback, ?_⟩
  exact Bool.eq_false_iff.mpr fun h => hnan ((hsheets.self_iff hkeys').mp h)

end NestedStyles

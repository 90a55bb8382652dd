import NestedStyles.Proofs.Sheet.UniqueKeys

/-!
# Styles that are equal as maps

`Style.agrees` looks every entry of one style up in the other. For styles without repeated keys
that comes to two steps that can be followed by induction: values may change to equal ones in
place (`Style.Matches`), and entries may change places (`Style.Reordered`). `exists_matches` takes
agreement apart into the two, and `matches_of_sameOrder` leaves out the second where the keys are
in one order already.
-/

namespace NestedStyles

/-! ## Agreement as a covering -/

/-- Equality of entries. A value never equals a style. -/
def Entry.agrees : Entry → Entry → Bool
  | value v, value w => v.agrees w
  | style s, style t => s.agrees t
  | _, _ => false

def Entry.Agrees (entry other : Entry) : Prop := entry.agrees other = true

namespace Style

/-- One style covers another entry by entry, as maps do. -/
theorem coveredBy_iff {s t : Style} :
    s.coveredBy t = true ↔ Keyed.Covers Entry.Agrees s.entries t.entries := by
  induction s with
  | empty => simp [coveredBy, entries]
  | declare name value rest ih =>
    rw [coveredBy, Bool.and_eq_true, ih, get?, entries, Keyed.covers_cons]
    refine and_congr_left fun _ => ?_
    rcases Keyed.find? name t.entries with _ | _ | _ <;> simp [Entry.Agrees, Entry.agrees]
  | nest fragment inner rest _ ih =>
    rw [coveredBy, Bool.and_eq_true, ih, get?, entries, Keyed.covers_cons]
    refine and_congr_left fun _ => ?_
    rcases Keyed.find? fragment t.entries with _ | _ | _ <;>
      simp [Entry.Agrees, Entry.agrees, agrees]

theorem agrees_iff {s t : Style} :
    s.agrees t = true ↔ s.entries.length = t.entries.length ∧
      Keyed.Covers Entry.Agrees s.entries t.entries := by
  rw [agrees, Bool.and_eq_true, coveredBy_iff, beq_iff_eq]
  rfl

/-! ## Equal values in place -/

/-- The same keys in the same order at every depth, with values that agree. -/
inductive Matches : Style → Style → Prop
  | empty : Matches empty empty
  | declare {v w : Value} : v.agrees w = true → Matches rest rest' →
    Matches (declare name v rest) (declare name w rest')
  | nest : Matches child child' → Matches rest rest' →
    Matches (nest fragment child rest) (nest fragment child' rest')

/-! ## Entries in another order -/

/-- The same entries in any order, at every depth. -/
inductive Reordered : Style → Style → Prop
  | empty : Reordered empty empty
  | declare : Reordered rest rest' → Reordered (declare name value rest) (declare name value rest')
  | nest : Reordered child child' → Reordered rest rest' →
    Reordered (nest fragment child rest) (nest fragment child' rest')
  | swap (entry other : String × Entry) (rest : Keyed String Entry) :
    Reordered (ofEntries (entry :: other :: rest)) (ofEntries (other :: entry :: rest))
  | trans : Reordered s t → Reordered t u → Reordered s u

namespace Reordered

theorem refl (s : Style) : Reordered s s := by
  induction s with
  | empty => exact .empty
  | declare name value rest ih => exact .declare ih
  | nest fragment inner rest ihInner ihRest => exact .nest ihInner ihRest

/-- Entries in another order make a style that is rearranged. -/
theorem of_perm {es es' : Keyed String Entry} (h : es.Perm es') :
    Reordered (ofEntries es) (ofEntries es') := by
  induction h with
  | nil => exact .empty
  | cons entry _ ih =>
    obtain ⟨key, _ | inner⟩ := entry
    · exact .declare ih
    · exact .nest (refl inner) ih
  | swap entry other rest => exact .swap other entry rest
  | trans _ _ ih ih' => exact ih.trans ih'

end Reordered

/-! ## Taking agreement apart -/

/-- Entries that correspond one by one can be told apart into a change of values in place and a
change of order. -/
theorem exists_matches_of_forall₂ {s : Style} {es : Keyed String Entry} (hkeys : s.UniqueKeys)
    (h : List.Forall₂ (Keyed.SameKey Entry.Agrees) s.entries es) :
    ∃ u, Matches s u ∧ Reordered u (ofEntries es) := by
  induction s generalizing es with
  | empty =>
    cases h
    exact ⟨empty, .empty, .empty⟩
  | declare name v rest ih =>
    cases h with
    | @cons _ entry _ es hentry hrest =>
      obtain ⟨u, hu, hes⟩ := ih hkeys.2 hrest
      obtain ⟨key, w | t⟩ := entry
      · obtain ⟨rfl, hvw⟩ := hentry
        exact ⟨.declare name w u, .declare hvw hu, .declare hes⟩
      · cases hentry.2
  | nest fragment inner rest ihInner ihRest =>
    cases h with
    | @cons _ entry _ es hentry hrest =>
      obtain ⟨u, hu, hes⟩ := ihRest hkeys.2.2 hrest
      obtain ⟨key, w | t⟩ := entry
      · cases hentry.2
      · obtain ⟨rfl, hagrees⟩ := hentry
        obtain ⟨hlength, hcovers⟩ := agrees_iff.mp hagrees
        obtain ⟨matched, hmatched, hperm⟩ :=
          Keyed.exists_perm_of_covers hkeys.2.1.nodup hlength hcovers
        obtain ⟨u', hu', hmatched'⟩ := ihInner hkeys.2.1 hmatched
        have ht : Reordered u' t := by
          have := hmatched'.trans (.of_perm hperm)
          rwa [ofEntries_entries] at this
        exact ⟨.nest fragment u' u, .nest hu' hu, .nest ht hes⟩

/-- Styles that agree differ in the order of entries and in values that agree. -/
theorem exists_matches {s t : Style} (hkeys : s.UniqueKeys) (h : s.agrees t = true) :
    ∃ u, Matches s u ∧ Reordered u t := by
  obtain ⟨hlength, hcovers⟩ := agrees_iff.mp h
  obtain ⟨matched, hmatched, hperm⟩ := Keyed.exists_perm_of_covers hkeys.nodup hlength hcovers
  obtain ⟨u, hu, hreordered⟩ := exists_matches_of_forall₂ hkeys hmatched
  have ht := hreordered.trans (.of_perm hperm)
  rw [ofEntries_entries] at ht
  exact ⟨u, hu, ht⟩

/-- The same keys in the same order, at every depth where both have a style. -/
def SameOrder : Style → Style → Prop
  | empty, empty => True
  | declare key _ rest, declare key' _ rest' => key = key' ∧ rest.SameOrder rest'
  | declare key _ rest, nest key' _ rest' => key = key' ∧ rest.SameOrder rest'
  | nest key _ rest, declare key' _ rest' => key = key' ∧ rest.SameOrder rest'
  | nest key inner rest, nest key' inner' rest' =>
    key = key' ∧ inner.SameOrder inner' ∧ rest.SameOrder rest'
  | _, _ => False

theorem SameOrder.keys_eq {s t : Style} (h : s.SameOrder t) : s.entries.keys = t.entries.keys := by
  induction s generalizing t with
  | empty =>
    cases t with
    | empty => rfl
    | _ => cases h
  | declare key value rest ih =>
    cases t with
    | empty => cases h
    | declare | nest => exact congrArg₂ List.cons h.1 (ih h.2)
  | nest key inner rest _ ih =>
    cases t with
    | empty => cases h
    | declare => exact congrArg₂ List.cons h.1 (ih h.2)
    | nest => exact congrArg₂ List.cons h.1 (ih h.2.2)

/-- In the same order at every depth, equal styles match entry by entry. -/
theorem matches_of_forall₂ {s t : Style} (hkeys : s.UniqueKeys) (horder : s.SameOrder t)
    (h : List.Forall₂ (Keyed.SameKey Entry.Agrees) s.entries t.entries) : Matches s t := by
  induction s generalizing t with
  | empty =>
    cases t with
    | empty => exact .empty
    | _ => cases horder
  | declare name v rest ih =>
    cases t with
    | empty => cases horder
    | declare name' w rest' =>
      obtain ⟨⟨rfl, hvw⟩, hrest⟩ := List.forall₂_cons.mp h
      exact .declare hvw (ih hkeys.2 horder.2 hrest)
    | nest => cases (List.forall₂_cons.mp h).1.2
  | nest fragment inner rest ihInner ihRest =>
    cases t with
    | empty => cases horder
    | declare => cases (List.forall₂_cons.mp h).1.2
    | nest fragment' inner' rest' =>
      obtain ⟨⟨rfl, hagrees⟩, hrest⟩ := List.forall₂_cons.mp h
      have hinner := Keyed.forall₂_of_covers hkeys.2.1.nodup horder.2.1.keys_eq
        (agrees_iff.mp hagrees).2
      exact .nest (ihInner hkeys.2.1 horder.2.1 hinner) (ihRest hkeys.2.2 horder.2.2 hrest)

/-- Styles that agree and have their keys in one order differ only in values that agree. -/
theorem matches_of_sameOrder {s t : Style} (hkeys : s.UniqueKeys) (horder : s.SameOrder t)
    (h : s.agrees t = true) : Matches s t :=
  matches_of_forall₂ hkeys horder
    (Keyed.forall₂_of_covers hkeys.nodup horder.keys_eq (agrees_iff.mp h).2)

def Agrees (s t : Style) : Prop := s.agrees t = true

end Style

/-! ## Sheets -/

namespace Sheet

theorem agrees_iff {t u : Sheet} :
    t.agrees u = true ↔ t.groups.length = u.groups.length ∧
      Keyed.Covers Style.Agrees t.groups u.groups := by
  rw [agrees, Bool.and_eq_true, beq_iff_eq, List.all_eq_true]
  refine and_congr_right fun _ => forall₂_congr fun group _ => ?_
  rw [get?]
  cases Keyed.find? group.1 u.groups <;> simp [Style.Agrees]

/-- The same selectors in the same order, over styles with their keys in the same order. -/
def SameOrder (t u : Sheet) : Prop :=
  List.Forall₂ (Keyed.SameKey Style.SameOrder) t.groups u.groups

end Sheet
end NestedStyles

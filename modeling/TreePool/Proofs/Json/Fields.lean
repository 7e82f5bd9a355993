import TreePool.Proofs.Json.Structure

/-! # Objects with two fields

An object with two fields that may each come once, in any order and among other members. What its
members stand for is kept apart from the record that a reader builds, whose shape is a `Layout`.
-/

namespace TreePool.Json

variable {α β σ : Type} {text start next rest key : List Char}

/-- What a member of an object with two fields stands for. -/
inductive Field (α β : Type) where
  | first (a : α)
  | second (b : β)
  | other

namespace Field

def first? : Field α β → Option α
  | .first a => some a
  | _ => none

def second? : Field α β → Option β
  | .second b => some b
  | _ => none

end Field

/-- The value of the member with a given key. The value of an unknown member only has to be well
formed. -/
inductive FieldValue (firstKey secondKey : List Char) (first : Phrase α) (second : Phrase β) :
    List Char → Phrase (Field α β)
  | first {text rest : List Char} {a : α} (h : first text a rest) :
      FieldValue firstKey secondKey first second firstKey text (.first a) rest
  | second {text rest : List Char} {b : β} (h : second text b rest) :
      FieldValue firstKey secondKey first second secondKey text (.second b) rest
  | other {key text rest : List Char} (hf : key ≠ firstKey) (hs : key ≠ secondKey)
      (h : WellFormed .value text rest) :
      FieldValue firstKey secondKey first second key text .other rest

/-- A record of two fields that may be missing. -/
structure Layout (σ α β : Type) where
  make : Option α → Option β → σ
  first : σ → Option α
  second : σ → Option β
  first_make (a : Option α) (b : Option β) : first (make a b) = a
  second_make (a : Option α) (b : Option β) : second (make a b) = b
  make_eq (s : σ) : make (first s) (second s) = s

namespace Layout

/-- A field that is there already may not come again. -/
def add (layout : Layout σ α β) (s : σ) : Field α β → Option σ
  | .first a =>
    if (layout.first s).isNone then some (layout.make (some a) (layout.second s)) else none
  | .second b =>
    if (layout.second s).isNone then some (layout.make (layout.first s) (some b)) else none
  | .other => some s

theorem add_first {layout : Layout σ α β} {s t : σ} {a : α} :
    layout.add s (.first a) = some t ↔
      layout.first s = none ∧ layout.make (some a) (layout.second s) = t := by
  unfold add
  cases layout.first s <;> simp

theorem add_second {layout : Layout σ α β} {s t : σ} {b : β} :
    layout.add s (.second b) = some t ↔
      layout.second s = none ∧ layout.make (layout.first s) (some b) = t := by
  unfold add
  cases layout.second s <;> simp

theorem toList_inj {known result : Option α} : known.toList = result.toList ↔ known = result := by
  cases known <;> cases result <;> simp

theorem toList_append_cons {known result : Option α} {a : α} {as : List α} :
    known.toList ++ a :: as = result.toList ↔ known = none ∧ a :: as = result.toList := by
  cases known with
  | none => simp
  | some value => cases result <;> simp

/-- Adding members to a record works out when no field comes twice, and then the record has the
fields that came. -/
theorem foldlM_add_eq_some_iff (layout : Layout σ α β) {members : List (Field α β)} {s s' : σ} :
    members.foldlM layout.add s = some s' ↔
      (layout.first s).toList ++ members.filterMap Field.first? = (layout.first s').toList ∧
        (layout.second s).toList ++ members.filterMap Field.second? =
          (layout.second s').toList := by
  induction members generalizing s with
  | nil =>
    simp only [List.foldlM_nil, List.filterMap_nil, List.append_nil, toList_inj]
    constructor
    · intro h
      cases h
      exact ⟨rfl, rfl⟩
    · rintro ⟨hfirst, hsecond⟩
      rw [← layout.make_eq s, hfirst, hsecond, layout.make_eq]
      rfl
  | cons member members ih =>
    simp only [List.foldlM_cons, Option.bind_eq_bind, Option.bind_eq_some_iff, ih]
    cases member with
    | first a =>
      simp only [add_first, and_assoc, exists_and_left, exists_eq_left', layout.first_make,
        layout.second_make, List.filterMap_cons, Field.first?, Field.second?, toList_append_cons]
      rfl
    | second b =>
      simp only [add_second, and_assoc, exists_and_left, exists_eq_left', layout.first_make,
        layout.second_make, List.filterMap_cons, Field.first?, Field.second?, toList_append_cons]
      exact and_left_comm
    | other =>
      simp only [add, Option.some.injEq, exists_eq_left', List.filterMap_cons, Field.first?,
        Field.second?]

/-- A reader that reads each of the two fields once, and passes over all others. -/
structure Reads (layout : Layout σ α β) (member : List Char → σ → Reader σ)
    (firstKey secondKey : List Char) (readFirst : Reader α) (readSecond : Reader β) : Prop where
  first (s : σ) (text : List Char) : ∃ name, member firstKey s text =
    (do let (a, rest) ← readOnce name (layout.first s) readFirst text
        .ok (layout.make (some a) (layout.second s), rest))
  second (s : σ) (text : List Char) : ∃ name, member secondKey s text =
    (do let (b, rest) ← readOnce name (layout.second s) readSecond text
        .ok (layout.make (layout.first s) (some b), rest))
  other {key : List Char} (s : σ) (text : List Char) (hf : key ≠ firstKey) (hs : key ≠ secondKey) :
    member key s text = (do .ok (s, ← skipMember text))

variable {layout : Layout σ α β} {member : List Char → σ → Reader σ}
variable {firstKey secondKey : List Char} {readFirst : Reader α} {readSecond : Reader β}
variable {first : Phrase α} {second : Phrase β}

theorem Reads.gathers (h : layout.Reads member firstKey secondKey readFirst readSecond)
    (hf : Recognises readFirst first) (hs : Recognises readSecond second) :
    Gathers member (FieldValue firstKey secondKey first second) layout.add where
  sound {key text rest s s'} hread := by
    by_cases hfirst : key = firstKey
    · obtain ⟨name, heq⟩ := h.first s text
      rw [hfirst, heq] at hread
      obtain ⟨⟨a, stop⟩, honce, hmake⟩ := bind_eq_ok_iff.mp hread
      cases hmake
      obtain ⟨hnone, next, hc, hread⟩ := readOnce_eq_ok_iff.mp honce
      obtain ⟨start, hb, hv⟩ := hf.sound hread
      rw [hfirst]
      exact ⟨next, start, .first a, hc, hb, .first hv, add_first.mpr ⟨hnone, rfl⟩⟩
    by_cases hsecond : key = secondKey
    · obtain ⟨name, heq⟩ := h.second s text
      rw [hsecond, heq] at hread
      obtain ⟨⟨b, stop⟩, honce, hmake⟩ := bind_eq_ok_iff.mp hread
      cases hmake
      obtain ⟨hnone, next, hc, hread⟩ := readOnce_eq_ok_iff.mp honce
      obtain ⟨start, hb, hv⟩ := hs.sound hread
      rw [hsecond]
      exact ⟨next, start, .second b, hc, hb, .second hv, add_second.mpr ⟨hnone, rfl⟩⟩
    · rw [h.other s text hfirst hsecond] at hread
      obtain ⟨stop, hskip, hmake⟩ := bind_eq_ok_iff.mp hread
      cases hmake
      obtain ⟨next, start, hc, hb, hv⟩ := exists_of_skipMember hskip
      exact ⟨next, start, .other, hc, hb, .other hfirst hsecond hv, rfl⟩
  complete {key text next start rest s s' a} hc hb hv hr hadd := by
    cases hv with
    | @first text rest a hv =>
      obtain ⟨name, heq⟩ := h.first s text
      obtain ⟨hnone, rfl⟩ := add_first.mp hadd
      have honce : readOnce name (layout.first s) readFirst text = .ok (a, rest) :=
        readOnce_eq_ok_iff.mpr ⟨hnone, next, hc, hf.complete hb hv hr⟩
      rw [heq]
      exact bind_eq_ok_iff.mpr ⟨_, honce, rfl⟩
    | @second text rest b hv =>
      obtain ⟨name, heq⟩ := h.second s text
      obtain ⟨hnone, rfl⟩ := add_second.mp hadd
      have honce : readOnce name (layout.second s) readSecond text = .ok (b, rest) :=
        readOnce_eq_ok_iff.mpr ⟨hnone, next, hc, hs.complete hb hv hr⟩
      rw [heq]
      exact bind_eq_ok_iff.mpr ⟨_, honce, rfl⟩
    | other hfirst hsecond hv =>
      cases hadd
      rw [h.other s text hfirst hsecond]
      exact bind_eq_ok_iff.mpr ⟨_, hv.skipMember_eq hc hb hr, rfl⟩
  shrinks {key text rest a} hv := by
    cases hv with
    | first hv => exact hf.shrinks hv
    | second hv => exact hs.shrinks hv
    | other _ _ hv => exact hv.length_lt

/-- An object is read when no field comes twice, and then each field has what its member stands
for. -/
theorem Reads.readMembers_eq_ok_iff
    (h : layout.Reads member firstKey secondKey readFirst readSecond)
    (hf : Recognises readFirst first) (hs : Recognises readSecond second) {s : σ} :
    readMembers member (text.length + 1) true (layout.make none none) text = .ok (s, rest) ↔
      ∃ members,
        Enclosed '\x7d' (Member (FieldValue firstKey secondKey first second)) text members rest ∧
        members.filterMap Field.first? = (layout.first s).toList ∧
        members.filterMap Field.second? = (layout.second s).toList := by
  have hgathers := h.gathers hf hs
  have hfold {members : List (Field α β)} :
      members.foldlM layout.add (layout.make none none) = some s ↔
        members.filterMap Field.first? = (layout.first s).toList ∧
        members.filterMap Field.second? = (layout.second s).toList := by
    rw [layout.foldlM_add_eq_some_iff, layout.first_make, layout.second_make]
    exact Iff.rfl
  constructor
  · intro hread
    obtain ⟨members, henclosed, hmembers⟩ := enclosed_of_readMembers hgathers hread
    exact ⟨members, henclosed, hfold.mp hmembers⟩
  · rintro ⟨members, henclosed, hmembers⟩
    have hlength := henclosed.length_le hgathers.toAdds.member_length_lt
    exact henclosed.readMembers_eq hgathers.toAdds (hfold.mpr hmembers) (Nat.lt_succ_of_le hlength)

end Layout

end TreePool.Json

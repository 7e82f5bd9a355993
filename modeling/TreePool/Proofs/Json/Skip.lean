import TreePool.Proofs.Json.Strings
import TreePool.Proofs.Json.Numerals

/-! # Passing over a value

Values are passed over with a stack of the brackets that are open, while the grammar nests. What the
stack still asks of a text is written down as `Closes`. In the end the two agree:
`skipValue_eq_ok_iff`.
-/

namespace TreePool.Json

variable {text start next rest : List Char} {c : Char} {bracket : Bracket}
variable {outer brackets : List Bracket} {fuel : Nat}

/-! ## Tokens -/

theorem readWord_eq_ok_iff {word : List Char} :
    readWord word text = .ok rest ↔ text = word ++ rest := by
  induction word generalizing text with
  | nil =>
    rw [readWord, List.nil_append, Except.ok.injEq]
  | cons expected word ih =>
    cases text with
    | nil => exact iff_of_false nofun nofun
    | cons c text =>
      by_cases hc : c = expected
      · rw [readWord, if_pos hc, ih, List.cons_append, List.cons.injEq]
        exact (and_iff_right hc).symm
      · rw [readWord, if_neg hc]
        exact iff_of_false nofun fun h => hc (List.cons.inj h).1

theorem readColon_eq_ok_iff : readColon text = .ok rest ↔ Blanks text (':' :: rest) := by
  have hcolon : isBlank ':' = false := rfl
  unfold readColon
  split
  · next hnil =>
    apply iff_of_false nofun
    intro hb
    rw [hb.skipBlanks_cons hcolon] at hnil
    cases hnil
  · next c after hcons =>
    constructor
    · intro h
      split at h
      · next hc =>
        cases h
        rw [← hc, ← hcons]
        exact blanks_skipBlanks text
      · cases h
    · intro hb
      rw [hb.skipBlanks_cons hcolon] at hcons
      cases hcons
      exact if_pos rfl

theorem wellFormed_of_skipScalar (h : skipScalar c text = .ok rest) :
    WellFormed .value (c :: text) rest := by
  unfold skipScalar at h
  split at h
  · rw [readWord_eq_ok_iff.mp h]
    exact .word (.inl rfl)
  · rw [readWord_eq_ok_iff.mp h]
    exact .word (.inr (.inl rfl))
  · rw [readWord_eq_ok_iff.mp h]
    exact .word (.inr (.inr rfl))
  · exact .string (skipString_eq_ok_iff.mp h)
  · exact .negative (unsigned_of_skipNumber h)
  · split at h
    · exact .number (unsigned_of_skipNumber h)
    · cases h

theorem skipScalar_of_isDigit (hc : isDigit c = true) :
    skipScalar c text = skipNumber (c :: text) := by
  unfold skipScalar
  split
  case h_6 => exact if_pos hc
  all_goals cases hc

/-! ## Soundness -/

/-- What the brackets on a stack ask of a text behind a value: more entries or a closing bracket for
the innermost one, then the same for those outside. -/
inductive Closes : List Bracket → List Char → List Char → Prop
  | done {rest : List Char} : Closes [] rest rest
  | close {bracket : Bracket} {outer : List Bracket} {text next rest : List Char}
      (hb : Blanks text (bracket.closing :: next)) (h : Closes outer next rest) :
      Closes (bracket :: outer) text rest
  | entry {bracket : Bracket} {outer : List Bracket} {text next stop rest : List Char}
      (hb : Blanks text (',' :: next)) (he : WellFormed (.entry bracket) next stop)
      (h : Closes (bracket :: outer) stop rest) : Closes (bracket :: outer) text rest

theorem WellFormed.entry_trans (h : WellFormed (.entry bracket) text next)
    (hb : Blanks next rest) : WellFormed (.entry bracket) text rest := by
  have hpadded {text : List Char} (h : WellFormed .padded text next) :
      WellFormed .padded text rest := by
    cases h with
    | padded hs hv hr => exact .padded hs hv (hr.trans hb)
  cases h with
  | item h => exact .item (hpadded h)
  | member hs hk hc h => exact .member hs hk hc (hpadded h)

theorem WellFormed.trans_entry (hb : Blanks text start)
    (h : WellFormed (.entry bracket) start rest) : WellFormed (.entry bracket) text rest := by
  cases h with
  | item h =>
    cases h with
    | padded hs hv hr => exact .item (.padded (hb.trans hs) hv hr)
  | member hs hk hc h => exact .member (hb.trans hs) hk hc h

/-- The first entry inside a bracket, and what closes the bracket, are all entries in it. -/
theorem Closes.exists_entries (h : Closes (bracket :: outer) next rest)
    (he : WellFormed (.entry bracket) text next) :
    ∃ behind, WellFormed (.entries bracket) text (bracket.closing :: behind) ∧
      Closes outer behind rest := by
  generalize hstack : bracket :: outer = brackets at h
  induction h generalizing text with
  | done => cases hstack
  | close hb hout =>
    cases hstack
    exact ⟨_, .last (he.entry_trans hb), hout⟩
  | entry hb hentry _ ih =>
    cases hstack
    obtain ⟨behind, hmore, hout⟩ := ih hentry rfl
    exact ⟨behind, .more (he.entry_trans hb) hmore, hout⟩

theorem entry_of_skipKey {stop : List Char} (h : skipKey bracket text = .ok next)
    (hb : Blanks next start) (hv : WellFormed .value start stop) :
    WellFormed (.entry bracket) text stop := by
  have hpadded : WellFormed .padded next stop := .padded hb hv .done
  cases bracket with
  | list =>
    cases h
    exact .item hpadded
  | object =>
    unfold skipKey at h
    dsimp only at h
    split at h
    · cases h
    · next c after hcons =>
      split at h
      · next hc =>
        split at h
        · next behind hk =>
          rw [hc] at hcons
          exact .member (skipBlanks_eq_cons_iff.mp hcons).1 (skipString_eq_ok_iff.mp hk)
            (readColon_eq_ok_iff.mp h) hpadded
        · cases h
      · cases h

def resume (fuel : Nat) : Except Fault (List Bracket × List Char) → Except Fault (List Char)
  | .ok ([], rest) => .ok rest
  | .ok (brackets, rest) => skipOpen fuel brackets rest
  | .error fault => .error fault

/-- The state behind the first character of a value, or behind the whole value if it is a word, a
number or a string. -/
def enter (brackets : List Bracket) (c : Char) (text : List Char) :
    Except Fault (List Bracket × List Char) :=
  if c = '[' then closeBrackets false (.list :: brackets) text
  else if c = '\x7b' then closeBrackets false (.object :: brackets) text
  else
    match skipScalar c text with
    | .ok rest => closeBrackets true brackets rest
    | .error fault => .error fault

theorem skipOpen_eq_resume (h : skipBlanks text = c :: rest) :
    skipOpen (fuel + 1) brackets text = resume fuel (enter brackets c rest) := by
  rw [skipOpen, h]
  rfl

/-- Whether a value and what follows it inside brackets is passed over as the grammar says. -/
def Follows (fuel : Nat) : Prop :=
  ∀ {brackets : List Bracket} {text rest : List Char}, skipOpen fuel brackets text = .ok rest →
    ∃ start stop, Blanks text start ∧ WellFormed .value start stop ∧ Closes brackets stop rest

theorem Follows.closes (hf : Follows fuel)
    (h : resume fuel (closeBrackets true brackets text) = .ok rest) :
    Closes brackets text rest := by
  induction brackets generalizing text with
  | nil =>
    cases h
    exact .done
  | cons bracket outer ih =>
    unfold closeBrackets at h
    split at h
    · cases h
    · next c after hcons =>
      have hblanks := (skipBlanks_eq_cons_iff.mp hcons).1
      split at h
      · next hc =>
        obtain ⟨rfl, -⟩ := hc
        cases hk : skipKey bracket after with
        | error =>
          rw [hk] at h
          cases h
        | ok next =>
          rw [hk] at h
          obtain ⟨start, stop, hb, hv, hcloses⟩ := hf h
          exact .entry hblanks (entry_of_skipKey hk hb hv) hcloses
      · split at h
        · next hc =>
          rw [hc] at hblanks
          exact .close hblanks (ih h)
        · cases h

theorem Follows.enclosed (hf : Follows fuel)
    (h : resume fuel (closeBrackets false (bracket :: outer) text) = .ok rest) :
    ∃ stop, WellFormed .value (bracket.opening :: text) stop ∧ Closes outer stop rest := by
  unfold closeBrackets at h
  split at h
  · cases h
  · next c after hcons =>
    have hblanks := (skipBlanks_eq_cons_iff.mp hcons).1
    rw [if_neg (by simp)] at h
    split at h
    · next hc =>
      rw [hc] at hblanks
      exact ⟨after, .empty hblanks, hf.closes h⟩
    · rw [if_neg (by simp)] at h
      cases hk : skipKey bracket (c :: after) with
      | error =>
        rw [hk] at h
        cases h
      | ok next =>
        rw [hk] at h
        obtain ⟨start, stop, hb, hv, hcloses⟩ := hf h
        have hentry := (entry_of_skipKey hk hb hv).trans_entry hblanks
        obtain ⟨behind, hentries, hout⟩ := hcloses.exists_entries hentry
        exact ⟨behind, .filled hentries, hout⟩

theorem follows (fuel : Nat) : Follows fuel := by
  induction fuel with
  | zero =>
    intro brackets text rest h
    cases h
  | succ fuel ih =>
    intro brackets text rest h
    cases hcons : skipBlanks text with
    | nil =>
      rw [skipOpen, hcons] at h
      cases h
    | cons c after =>
      rw [skipOpen_eq_resume hcons] at h
      refine ⟨c :: after, ?_⟩
      have hblanks := (skipBlanks_eq_cons_iff.mp hcons).1
      unfold enter at h
      split at h
      · next hc =>
        obtain ⟨stop, hv, hcloses⟩ := ih.enclosed h
        rw [hc] at hblanks ⊢
        exact ⟨stop, hblanks, hv, hcloses⟩
      · split at h
        · next hc =>
          obtain ⟨stop, hv, hcloses⟩ := ih.enclosed h
          rw [hc] at hblanks ⊢
          exact ⟨stop, hblanks, hv, hcloses⟩
        · split at h
          · next stop hscalar =>
            exact ⟨stop, hblanks, wellFormed_of_skipScalar hscalar, ih.closes h⟩
          · cases h

theorem wellFormed_of_skipValue (h : skipValue text = .ok rest) :
    ∃ start, Blanks text start ∧ WellFormed .value start rest := by
  obtain ⟨start, stop, hb, hv, hcloses⟩ := follows _ h
  cases hcloses
  exact ⟨start, hb, hv⟩

/-! ## Completeness -/

theorem WellFormed.exists_cons (h : WellFormed .value text rest) :
    ∃ c next, text = c :: next ∧ isBlank c = false ∧ c ≠ ']' ∧ c ≠ '\x7d' := by
  cases h with
  | word h => rcases h with rfl | rfl | rfl <;> exact ⟨_, _, rfl, rfl, by decide⟩
  | number h =>
    obtain ⟨c, next, rfl, hc⟩ := h.exists_cons
    have hclosing : c ≠ ']' ∧ c ≠ '\x7d' := by
      constructor <;> rintro rfl <;> cases hc
    exact ⟨c, next, rfl, not_isBlank_of_isDigit hc, hclosing⟩
  | negative | string => exact ⟨_, _, rfl, rfl, by decide⟩
  | @empty bracket | @filled bracket => cases bracket <;> exact ⟨_, _, rfl, rfl, by decide⟩

theorem WellFormed.exists_skipBlanks_entry (h : WellFormed (.entry bracket) text rest) :
    ∃ c next, skipBlanks text = c :: next ∧ c ≠ bracket.closing := by
  cases h with
  | item h =>
    cases h with
    | padded hs hv =>
      obtain ⟨c, next, rfl, hc, hlist, -⟩ := hv.exists_cons
      exact ⟨c, next, hs.skipBlanks_cons hc, hlist⟩
  | member hs => exact ⟨_, _, hs.skipBlanks_cons rfl, by decide⟩

theorem WellFormed.exists_skipBlanks_entries (h : WellFormed (.entries bracket) text rest) :
    ∃ c next, skipBlanks text = c :: next ∧ c ≠ bracket.closing := by
  cases h with
  | last h | more h => exact h.exists_skipBlanks_entry

theorem WellFormed.length_lt {shape : Shape} (h : WellFormed shape text rest) :
    rest.length < text.length := by
  induction h with
  | word h => rcases h with rfl | rfl | rfl <;> simp <;> omega
  | number h => exact h.length_lt
  | negative h => exact Nat.lt_succ_of_lt h.length_lt
  | string h => exact Nat.lt_succ_of_lt h.length_lt
  | empty h => exact Nat.lt_succ_of_lt h.length_le
  | filled _ ih => exact Nat.lt_succ_of_lt (Nat.lt_of_succ_lt ih)
  | padded hs _ hr ih => exact Nat.lt_of_le_of_lt hr.length_le (Nat.lt_of_lt_of_le ih hs.length_le)
  | item _ ih => exact ih
  | member hs hk hc _ ih =>
    have hkey := hs.length_le
    have hbehind := hk.length_lt
    have hvalue := hc.length_le
    simp only [List.length_cons] at hkey hvalue
    omega
  | last _ ih => exact ih
  | more _ _ ih ihm => exact Nat.lt_trans ihm (Nat.lt_of_succ_lt ih)

theorem length_skipBlanks_le (text : List Char) : (skipBlanks text).length ≤ text.length :=
  (blanks_skipBlanks text).length_le

/-! ### Values and entries -/

theorem skipBlanks_opening : skipBlanks (bracket.opening :: text) = bracket.opening :: text := by
  cases bracket <;> rfl

theorem exists_fuel (hs : skipBlanks start = c :: text) (hfuel : start.length < fuel) :
    ∃ left, fuel = left + 1 ∧ text.length < left := by
  have hle := length_skipBlanks_le start
  rw [hs, List.length_cons] at hle
  exact ⟨fuel - 1, by omega, by omega⟩

theorem skipOpen_scalar (hs : skipBlanks start = c :: text) (hlist : c ≠ '[') (hobject : c ≠ '\x7b')
    (hscalar : skipScalar c text = .ok rest) (hlt : rest.length ≤ text.length)
    (hfuel : start.length < fuel) :
    ∃ left, rest.length < left ∧
      skipOpen fuel brackets start = resume left (closeBrackets true brackets rest) := by
  obtain ⟨fuel, rfl, hleft⟩ := exists_fuel hs hfuel
  have heq : skipOpen (fuel + 1) brackets start =
      resume fuel (closeBrackets true brackets rest) := by
    rw [skipOpen_eq_resume hs, enter, if_neg hlist, if_neg hobject, hscalar]
  exact ⟨fuel, Nat.lt_of_le_of_lt hlt hleft, heq⟩

theorem skipOpen_opening (hs : skipBlanks start = bracket.opening :: text) :
    skipOpen (fuel + 1) brackets start =
      resume fuel (closeBrackets false (bracket :: brackets) text) := by
  rw [skipOpen_eq_resume hs]
  cases bracket <;> rfl

/-- What stands before a value is passed over together with the value, and then what follows in the
brackets comes next. -/
def Passes : Shape → List Char → List Char → Prop
  | .value, text, rest => ∀ {start : List Char} {brackets : List Bracket} {fuel : Nat},
      skipBlanks start = skipBlanks text → Stops rest → start.length < fuel →
      ∃ left, rest.length < left ∧
        skipOpen fuel brackets start = resume left (closeBrackets true brackets rest)
  | .padded, text, rest => ∀ {start : List Char} {bracket : Bracket} {outer : List Bracket}
      {fuel : Nat}, skipBlanks start = skipBlanks text → Stops rest → start.length < fuel →
      ∃ left, rest.length < left ∧ skipOpen fuel (bracket :: outer) start =
        resume left (closeBrackets true (bracket :: outer) rest)
  | .entry bracket, text, rest | .entries bracket, text, rest =>
      ∀ {start : List Char} {outer : List Bracket} {fuel : Nat},
      skipBlanks start = skipBlanks text → Stops rest → start.length < fuel →
      ∃ left, rest.length < left ∧
        resume fuel ((skipKey bracket start).map ((bracket :: outer, ·))) =
          resume left (closeBrackets true (bracket :: outer) rest)

theorem skipKey_object {key behind : List Char} (hs : skipBlanks start = '"' :: key)
    (hk : Quotation key behind) (hc : Blanks behind (':' :: next)) :
    skipKey .object start = .ok next := by
  unfold skipKey
  simp only [hs, skipString_eq_ok_iff.mpr hk, if_true]
  exact readColon_eq_ok_iff.mpr hc

theorem closeBrackets_comma :
    closeBrackets true (bracket :: outer) (',' :: rest) =
      (skipKey bracket rest).map ((bracket :: outer, ·)) := by
  unfold closeBrackets
  rfl

theorem closeBrackets_closing (hb : Blanks text (bracket.closing :: rest)) (afterValue : Bool) :
    closeBrackets afterValue (bracket :: outer) text = closeBrackets true outer rest := by
  have hblank : isBlank bracket.closing = false := by cases bracket <;> rfl
  have hcomma : bracket.closing ≠ ',' := by cases bracket <;> decide
  rw [closeBrackets, hb.skipBlanks_cons hblank]
  dsimp only
  rw [if_neg (fun h => hcomma h.1), if_pos rfl]

theorem closeBrackets_opening (hs : skipBlanks text = c :: next) (hc : c ≠ bracket.closing) :
    closeBrackets false (bracket :: outer) text =
      (skipKey bracket (skipBlanks text)).map ((bracket :: outer, ·)) := by
  rw [closeBrackets, hs]
  dsimp only
  rw [if_neg (by simp), if_neg hc, if_neg (by simp)]

theorem Blanks.closeBrackets_eq (hb : Blanks text start) (afterValue : Bool) :
    closeBrackets afterValue (bracket :: outer) text =
      closeBrackets afterValue (bracket :: outer) start := by
  rw [closeBrackets, closeBrackets, hb.skipBlanks_eq]

/-- Every part of a well-formed value is passed over, whatever brackets are open around it. -/
theorem WellFormed.passes {shape : Shape} (h : WellFormed shape text rest) :
    Passes shape text rest := by
  have hidem (text : List Char) : skipBlanks (skipBlanks text) = skipBlanks text :=
    (blanks_skipBlanks text).skipBlanks_eq.symm
  induction h with
  | word h =>
    intro start brackets fuel hs _ hfuel
    rcases h with rfl | rfl | rfl
    all_goals
      exact skipOpen_scalar hs (by decide) (by decide) (readWord_eq_ok_iff.mpr rfl)
        (by simp; omega) hfuel
  | number h =>
    intro start brackets fuel hs hr hfuel
    obtain ⟨c, next, rfl, hc⟩ := h.exists_cons
    rw [skipBlanks_of_not_isBlank (not_isBlank_of_isDigit hc)] at hs
    have hlist : c ≠ '[' := by
      rintro rfl
      cases hc
    have hobject : c ≠ '\x7b' := by
      rintro rfl
      cases hc
    have hscalar := (skipScalar_of_isDigit hc).trans (skipNumber_unsigned h hr)
    exact skipOpen_scalar hs hlist hobject hscalar (Nat.le_of_lt_succ h.length_lt) hfuel
  | negative h =>
    intro start brackets fuel hs hr hfuel
    exact skipOpen_scalar hs (by decide) (by decide) (skipNumber_unsigned h hr)
      (Nat.le_of_lt h.length_lt) hfuel
  | string h =>
    intro start brackets fuel hs _ hfuel
    exact skipOpen_scalar hs (by decide) (by decide) (skipString_eq_ok_iff.mpr h)
      (Nat.le_of_lt h.length_lt) hfuel
  | @empty bracket text rest h =>
    intro start brackets fuel hs _ hfuel
    rw [skipBlanks_opening] at hs
    have hle := h.length_le
    obtain ⟨fuel, rfl, hleft⟩ := exists_fuel hs hfuel
    rw [List.length_cons] at hle
    exact ⟨fuel, by omega, by rw [skipOpen_opening hs, closeBrackets_closing h]⟩
  | @filled bracket text rest h ih =>
    intro start brackets fuel hs _ hfuel
    rw [skipBlanks_opening] at hs
    obtain ⟨fuel, rfl, hleft⟩ := exists_fuel hs hfuel
    obtain ⟨c, next, hc, hclosing⟩ := h.exists_skipBlanks_entries
    have hle := length_skipBlanks_le text
    obtain ⟨left, hlt, heq⟩ := @ih (skipBlanks text) brackets fuel (hidem text)
      (stops_closing bracket) (by omega)
    rw [closeBrackets_closing .done] at heq
    exact ⟨left, Nat.lt_of_succ_lt hlt,
      by rw [skipOpen_opening hs, closeBrackets_opening hc hclosing, heq]⟩
  | padded hs _ hr ih =>
    intro start bracket outer fuel hstart hstops hfuel
    rw [hs.skipBlanks_eq] at hstart
    obtain ⟨left, hlt, heq⟩ := ih hstart (hr.stops hstops) hfuel
    rw [hr.closeBrackets_eq] at heq
    exact ⟨left, Nat.lt_of_le_of_lt hr.length_le hlt, heq⟩
  | item _ ih =>
    intro start outer fuel hs hr hfuel
    exact ih hs hr hfuel
  | member hs hk hc _ ih =>
    intro start outer fuel hstart hr hfuel
    rw [hs.skipBlanks_cons rfl] at hstart
    have hle := length_skipBlanks_le start
    have hkey := hk.length_lt
    have hcolon := hc.length_le
    rw [hstart] at hle
    simp only [List.length_cons] at hle hcolon
    rw [skipKey_object hstart hk hc]
    exact ih rfl hr (by omega)
  | last _ ih =>
    intro start outer fuel hs hr hfuel
    exact ih hs hr hfuel
  | more h _ ih ihm =>
    intro start outer fuel hs hr hfuel
    obtain ⟨left, hlt, heq⟩ := ih hs stops_comma hfuel
    rw [closeBrackets_comma] at heq
    obtain ⟨left', hlt', heq'⟩ := ihm rfl hr (Nat.lt_of_succ_lt hlt)
    exact ⟨left', hlt', heq.trans heq'⟩

/-- A value is passed over exactly when it is well formed. -/
theorem skipValue_eq_ok_iff (hr : Stops rest) : skipValue text = .ok rest ↔
    ∃ start, Blanks text start ∧ WellFormed .value start rest := by
  constructor
  · exact wellFormed_of_skipValue
  · rintro ⟨start, hb, hv⟩
    obtain ⟨left, -, heq⟩ := @WellFormed.passes _ _ _ hv text [] (text.length + 1)
      hb.skipBlanks_eq hr (Nat.lt_succ_self _)
    exact heq

end TreePool.Json

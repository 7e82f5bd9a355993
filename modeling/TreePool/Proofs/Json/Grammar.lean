import TreePool.Json.Structure

/-! # The grammar of JSON

A phrase says what a text may begin with: the text, what its beginning stands for, and what is left
behind. Strings and numbers come in two kinds, as they do for readers: those that are read for what
they stand for, and those that only have to be well formed. `WellFormed` is the grammar of a value
of any depth that nobody asks for.
-/

namespace TreePool.Json

/-- What a text may begin with, what that stands for, and what is left behind it. -/
abbrev Phrase (α : Type) := List Char → α → List Char → Prop

variable {α β : Type} {text start next rest : List Char} {c : Char}

theorem bind_eq_ok_iff {ε : Type} {x : Except ε α} {f : α → Except ε β} {b : β} :
    x >>= f = .ok b ↔ ∃ a, x = .ok a ∧ f a = .ok b := by
  cases x with
  | error e => exact iff_of_false nofun nofun
  | ok a => exact ⟨fun h => ⟨a, rfl, h⟩, fun ⟨_, ha, h⟩ => by cases ha; exact h⟩

theorem mapError_eq_ok_iff {ε ε' : Type} {x : Except ε α} {f : ε → ε'} {a : α} :
    x.mapError f = .ok a ↔ x = .ok a := by
  cases x with
  | error e => exact iff_of_false nofun nofun
  | ok b => exact ⟨fun h => by cases h; rfl, fun h => by cases h; rfl⟩

/-! ## Blanks -/

inductive Blanks : List Char → List Char → Prop
  | done {rest : List Char} : Blanks rest rest
  | blank {c : Char} {text rest : List Char} (hc : isBlank c = true) (h : Blanks text rest) :
      Blanks (c :: text) rest

def Padded (value : Phrase α) : Phrase α := fun text a rest =>
  ∃ start stop, Blanks text start ∧ value start a stop ∧ Blanks stop rest

/-! ## Strings -/

inductive HexUnit : Phrase Nat
  | digits {a b c d : Char} {i j k l : Nat} {rest : List Char} (ha : hexDigit? a = some i)
      (hb : hexDigit? b = some j) (hc : hexDigit? c = some k) (hd : hexDigit? d = some l) :
      HexUnit (a :: b :: c :: d :: rest) (((i * 16 + j) * 16 + k) * 16 + l) rest

def IsPlain (c : Char) : Prop := c ≠ '"' ∧ c ≠ '\\' ∧ ¬ c < ' '

inductive Escape : Phrase Char
  | simple {c char : Char} {rest : List Char} (hc : simpleEscape? c = some char) :
      Escape (c :: rest) char rest
  | unit {unit : Nat} {text rest : List Char} (hu : HexUnit text unit rest)
      (hh : isHighSurrogate unit = false) (hl : isLowSurrogate unit = false) :
      Escape ('u' :: text) (Char.ofNat unit) rest
  | pair {high low : Nat} {text next rest : List Char}
      (hu : HexUnit text high ('\\' :: 'u' :: next)) (hh : isHighSurrogate high = true)
      (hu' : HexUnit next low rest) (hl : isLowSurrogate low = true) :
      Escape ('u' :: text) (pairedChar high low) rest

/-- A string behind its opening quote, with the characters that it stands for. -/
inductive Spelling : Phrase (List Char)
  | close {rest : List Char} : Spelling ('"' :: rest) [] rest
  | plain {c : Char} {text value rest : List Char} (hc : IsPlain c)
      (h : Spelling text value rest) : Spelling (c :: text) (c :: value) rest
  | escape {char : Char} {text next value rest : List Char} (he : Escape text char next)
      (h : Spelling next value rest) : Spelling ('\\' :: text) (char :: value) rest

/-- An escape behind its backslash that is well formed, whatever it stands for. -/
inductive EscapeForm : List Char → List Char → Prop
  | simple {c char : Char} {rest : List Char} (hc : simpleEscape? c = some char) :
      EscapeForm (c :: rest) rest
  | unit {unit : Nat} {text rest : List Char} (hu : HexUnit text unit rest) :
      EscapeForm ('u' :: text) rest

inductive Quotation : List Char → List Char → Prop
  | close {rest : List Char} : Quotation ('"' :: rest) rest
  | plain {c : Char} {text rest : List Char} (hc : IsPlain c) (h : Quotation text rest) :
      Quotation (c :: text) rest
  | escape {text next rest : List Char} (he : EscapeForm text next) (h : Quotation next rest) :
      Quotation ('\\' :: text) rest

def StringPhrase : Phrase (List Char) := fun text value rest =>
  ∃ body, text = '"' :: body ∧ Spelling body value rest

/-! ## Numbers -/

inductive Digits : List Char → List Char → Prop
  | done {rest : List Char} : Digits rest rest
  | digit {c : Char} {text rest : List Char} (hc : isDigit c = true) (h : Digits text rest) :
      Digits (c :: text) rest

/-- A whole number without a sign; it has no leading zeros. -/
inductive Whole : List Char → List Char → Prop
  | zero {rest : List Char} : Whole ('0' :: rest) rest
  | other {c : Char} {text rest : List Char} (hc : isDigit c = true) (hz : c ≠ '0')
      (h : Digits text rest) : Whole (c :: text) rest

inductive Fraction : List Char → List Char → Prop
  | absent {rest : List Char} : Fraction rest rest
  | present {c : Char} {text rest : List Char} (hc : isDigit c = true) (h : Digits text rest) :
      Fraction ('.' :: c :: text) rest

inductive Exponent : List Char → List Char → Prop
  | absent {rest : List Char} : Exponent rest rest
  | present {e c : Char} {sign text rest : List Char} (he : e = 'e' ∨ e = 'E')
      (hs : sign = [] ∨ sign = ['+'] ∨ sign = ['-']) (hc : isDigit c = true)
      (h : Digits text rest) : Exponent (e :: (sign ++ c :: text)) rest

def Unsigned (text rest : List Char) : Prop :=
  ∃ whole fraction, Whole text whole ∧ Fraction whole fraction ∧ Exponent fraction rest

def digitsValue (digits : List Char) : Nat :=
  digits.foldl (fun n digit => n * 10 + digitValue digit) 0

/-- A literal of an integer. A negative one stands for a number below zero. -/
inductive IntegerPhrase : Phrase Int
  | positive {digits rest : List Char} (h : Whole (digits ++ rest) rest) :
      IntegerPhrase (digits ++ rest) (digitsValue digits) rest
  | negative {digits rest : List Char} (h : Whole (digits ++ rest) rest)
      (hd : digitsValue digits ≠ 0) :
      IntegerPhrase ('-' :: (digits ++ rest)) (-digitsValue digits) rest

def Integer32Phrase : Phrase Int := fun text n rest =>
  IntegerPhrase text n rest ∧ isInt32 n = true

/-! ## Values -/

def Bracket.opening : Bracket → Char
  | .list => '['
  | .object => '\x7b'

/-- The parts that a well-formed value is made of. -/
inductive Shape where
  | value
  /-- A value with blanks around it. -/
  | padded
  /-- One item of a list, or one member of an object. -/
  | entry (bracket : Bracket)
  /-- One entry or more, with commas between them. -/
  | entries (bracket : Bracket)

inductive WellFormed : Shape → List Char → List Char → Prop
  | word {word rest : List Char}
      (h : word = ['n', 'u', 'l', 'l'] ∨ word = ['t', 'r', 'u', 'e'] ∨
        word = ['f', 'a', 'l', 's', 'e']) : WellFormed .value (word ++ rest) rest
  | number {text rest : List Char} (h : Unsigned text rest) : WellFormed .value text rest
  | negative {text rest : List Char} (h : Unsigned text rest) :
      WellFormed .value ('-' :: text) rest
  | string {text rest : List Char} (h : Quotation text rest) :
      WellFormed .value ('"' :: text) rest
  | empty {bracket : Bracket} {text rest : List Char}
      (h : Blanks text (bracket.closing :: rest)) :
      WellFormed .value (bracket.opening :: text) rest
  | filled {bracket : Bracket} {text rest : List Char}
      (h : WellFormed (.entries bracket) text (bracket.closing :: rest)) :
      WellFormed .value (bracket.opening :: text) rest
  | padded {text start stop rest : List Char} (hs : Blanks text start)
      (h : WellFormed .value start stop) (hr : Blanks stop rest) : WellFormed .padded text rest
  | item {text rest : List Char} (h : WellFormed .padded text rest) :
      WellFormed (.entry .list) text rest
  | member {text key behind next rest : List Char} (hs : Blanks text ('"' :: key))
      (hk : Quotation key behind) (hc : Blanks behind (':' :: next))
      (h : WellFormed .padded next rest) : WellFormed (.entry .object) text rest
  | last {bracket : Bracket} {text rest : List Char} (h : WellFormed (.entry bracket) text rest) :
      WellFormed (.entries bracket) text rest
  | more {bracket : Bracket} {text next rest : List Char}
      (h : WellFormed (.entry bracket) text (',' :: next))
      (hm : WellFormed (.entries bracket) next rest) : WellFormed (.entries bracket) text rest

inductive Commas (entry : Phrase α) : Phrase (List α)
  | last {text rest : List Char} {a : α} (h : entry text a rest) : Commas entry text [a] rest
  | more {text next rest : List Char} {a : α} {as : List α} (h : entry text a (',' :: next))
      (hm : Commas entry next as rest) : Commas entry text (a :: as) rest

inductive Enclosed (closing : Char) (entry : Phrase α) : Phrase (List α)
  | empty {text rest : List Char} (h : Blanks text (closing :: rest)) :
      Enclosed closing entry text [] rest
  | filled {text rest : List Char} {as : List α} (h : Commas entry text as (closing :: rest)) :
      Enclosed closing entry text as rest

def ListPhrase (value : Phrase α) : Phrase (List α) := fun text as rest =>
  ∃ body, text = '[' :: body ∧ Enclosed ']' (Padded value) body as rest

/-- A member of an object, whose value depends on its key. -/
def Member (value : List Char → Phrase α) : Phrase α := fun text a rest =>
  ∃ body key behind next, Blanks text ('"' :: body) ∧ Spelling body key behind ∧
    Blanks behind (':' :: next) ∧ Padded (value key) next a rest

def ObjectPhrase (value : List Char → Phrase α) : Phrase (List α) := fun text as rest =>
  ∃ body, text = '\x7b' :: body ∧ Enclosed '\x7d' (Member value) body as rest

/-! ## Blanks and the ends of values -/

theorem Blanks.trans (h : Blanks text start) (hs : Blanks start rest) : Blanks text rest := by
  induction h with
  | done => exact hs
  | blank hc _ ih => exact .blank hc (ih hs)

theorem blanks_skipBlanks (text : List Char) : Blanks text (skipBlanks text) := by
  induction text with
  | nil => exact .done
  | cons c text ih =>
    rw [skipBlanks, List.dropWhile_cons]
    split
    · next hc => exact .blank hc ih
    · exact .done

theorem Blanks.skipBlanks_eq (h : Blanks text start) : skipBlanks text = skipBlanks start := by
  induction h with
  | done => rfl
  | blank hc _ ih => rwa [skipBlanks, List.dropWhile_cons_of_pos hc]

theorem skipBlanks_of_not_isBlank (hc : isBlank c = false) : skipBlanks (c :: rest) = c :: rest :=
  List.dropWhile_cons_of_neg (by simp [hc])

theorem Blanks.skipBlanks_cons (h : Blanks text (c :: rest)) (hc : isBlank c = false) :
    skipBlanks text = c :: rest := by
  rw [h.skipBlanks_eq, skipBlanks_of_not_isBlank hc]

theorem Blanks.eq_of_not_isBlank (h : Blanks (c :: text) rest) (hc : isBlank c = false) :
    rest = c :: text := by
  cases h with
  | done => rfl
  | blank hblank => cases hc.symm.trans hblank

theorem not_isBlank_of_skipBlanks (h : skipBlanks text = c :: rest) : isBlank c = false := by
  have hhead := List.head?_dropWhile_not isBlank text
  rw [show text.dropWhile isBlank = c :: rest from h] at hhead
  simpa using hhead

theorem skipBlanks_eq_cons_iff :
    skipBlanks text = c :: rest ↔ Blanks text (c :: rest) ∧ isBlank c = false :=
  ⟨fun h => ⟨h ▸ blanks_skipBlanks text, not_isBlank_of_skipBlanks h⟩,
    fun ⟨h, hc⟩ => h.skipBlanks_cons hc⟩

theorem skipBlanks_eq_nil_iff : skipBlanks text = [] ↔ Blanks text [] :=
  ⟨fun h => h ▸ blanks_skipBlanks text, fun h => h.skipBlanks_eq⟩

theorem Blanks.length_le (h : Blanks text rest) : rest.length ≤ text.length := by
  induction h with
  | done => exact Nat.le_refl _
  | blank _ _ ih => exact Nat.le_succ_of_le ih

/-- Whether a value ends before a text: nothing follows, or a blank, a comma or a closing
bracket. -/
def Stops (text : List Char) : Prop :=
  ∀ c ∈ text.head?, isBlank c = true ∨ c = ',' ∨ c = ']' ∨ c = '\x7d'

theorem stops_nil : Stops [] := nofun

theorem stops_cons (h : isBlank c = true ∨ c = ',' ∨ c = ']' ∨ c = '\x7d') : Stops (c :: rest) := by
  intro d hd
  cases hd
  exact h

theorem stops_comma : Stops (',' :: rest) := stops_cons (.inr (.inl rfl))

theorem stops_closing (bracket : Bracket) : Stops (bracket.closing :: rest) := by
  cases bracket with
  | list => exact stops_cons (.inr (.inr (.inl rfl)))
  | object => exact stops_cons (.inr (.inr (.inr rfl)))

theorem Blanks.stops (h : Blanks text rest) (hr : Stops rest) : Stops text := by
  cases h with
  | done => exact hr
  | blank hc => exact stops_cons (.inl hc)

theorem Stops.head (h : Stops (c :: rest)) :
    isDigit c = false ∧ c ≠ '.' ∧ c ≠ 'e' ∧ c ≠ 'E' := by
  have hc := h c rfl
  simp only [isBlank, Bool.or_eq_true, decide_eq_true_eq] at hc
  rcases hc with (((rfl | rfl) | rfl) | rfl) | rfl | rfl | rfl <;> decide

/-! ## Readers -/

/-- A reader passes over blanks and accepts then what a phrase says, as long as the text goes on
with something that ends a value. A phrase takes a character or more, and none begins with a blank
or with a bracket that closes a list. -/
structure Accepts (read : Reader α) (phrase : Phrase α) : Prop where
  complete {text start rest : List Char} {a : α} (hb : Blanks text start)
    (h : phrase start a rest) (hr : Stops rest) : read text = .ok (a, rest)
  starts {text rest : List Char} {a : α} (h : phrase text a rest) :
    ∃ c next, text = c :: next ∧ isBlank c = false ∧ c ≠ ']'
  shrinks {text rest : List Char} {a : α} (h : phrase text a rest) : rest.length < text.length

structure Recognises (read : Reader α) (phrase : Phrase α) : Prop extends Accepts read phrase where
  sound {text rest : List Char} {a : α} (h : read text = .ok (a, rest)) :
    ∃ start, Blanks text start ∧ phrase start a rest

theorem nextValue_eq_ok_iff : nextValue text = .ok start ↔
    Blanks text start ∧ ∃ c rest, start = c :: rest ∧ isBlank c = false := by
  unfold nextValue
  split
  · next hnil =>
    apply iff_of_false nofun
    rintro ⟨hb, c, rest, rfl, hc⟩
    rw [hb.skipBlanks_cons hc] at hnil
    cases hnil
  · next start' hsome =>
    obtain ⟨c, rest, hcons⟩ := List.exists_cons_of_ne_nil hsome
    constructor
    · intro h
      cases h
      exact ⟨blanks_skipBlanks text, c, rest, hcons, not_isBlank_of_skipBlanks hcons⟩
    · rintro ⟨hb, d, rest', rfl, hd⟩
      exact congrArg Except.ok (hb.skipBlanks_cons hd)

theorem Blanks.nextValue_eq (hb : Blanks text (c :: rest)) (hc : isBlank c = false) :
    nextValue text = .ok (c :: rest) :=
  nextValue_eq_ok_iff.mpr ⟨hb, c, rest, rfl, hc⟩

theorem refuseType_ne_ok {expected : Expected} {a : α} : refuseType expected text ≠ .ok a := by
  intro h
  unfold refuseType at h
  split at h
  case h_1 | h_2 | h_3 | h_4 | h_5 =>
    obtain ⟨_, _, h⟩ := bind_eq_ok_iff.mp h
    cases h
  case h_8 =>
    split at h
    · obtain ⟨_, _, h⟩ := bind_eq_ok_iff.mp h
      cases h
    · cases h
  all_goals cases h

end TreePool.Json

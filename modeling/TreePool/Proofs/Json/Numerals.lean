import TreePool.Proofs.Json.Grammar

/-! # Numbers of a JSON text

A number is passed over when it is well formed, `skipNumber_eq_ok_iff`. What is read as an integer
is a literal of one, `readNumber_eq_ok_iff`: a number with a fraction or an exponent is none, nor is
a negative zero.
-/

namespace TreePool.Json

variable {text next rest digits : List Char} {c : Char} {n : Int} {negative : Bool}
variable {number : Number}

/-! ## Digits -/

theorem digits_dropWhile (text : List Char) : Digits text (text.dropWhile isDigit) := by
  induction text with
  | nil => exact .done
  | cons c text ih =>
    rw [List.dropWhile_cons]
    split
    · next hc => exact .digit hc ih
    · exact .done

def NoDigit (text : List Char) : Prop := ∀ c ∈ text.head?, isDigit c = false

theorem noDigit_cons (hc : isDigit c = false) : NoDigit (c :: rest) := by
  intro d hd
  cases hd
  exact hc

theorem Stops.noDigit (h : Stops text) : NoDigit text := by
  cases text with
  | nil => exact nofun
  | cons c text => exact noDigit_cons h.head.1

theorem Digits.dropWhile_eq (h : Digits text rest) (hr : NoDigit rest) :
    text.dropWhile isDigit = rest := by
  induction h with
  | @done rest =>
    cases rest with
    | nil => rfl
    | cons c rest => exact List.dropWhile_cons_of_neg (by simp [hr c rfl])
  | digit hc _ ih => rw [List.dropWhile_cons_of_pos hc, ih hr]

theorem head?_isDigit_iff : ((text.head?.map isDigit).getD false) = true ↔
    ∃ c rest, text = c :: rest ∧ isDigit c = true := by
  cases text with
  | nil => simp
  | cons c text => simp

/-! ## Passing over -/

theorem startsExponent_eq_true_iff :
    startsExponent text = true ↔ ∃ e next, text = e :: next ∧ (e = 'e' ∨ e = 'E') := by
  cases text with
  | nil => simp [startsExponent]
  | cons c text => simp [startsExponent]

def IsSign (sign : List Char) : Prop := sign = [] ∨ sign = ['+'] ∨ sign = ['-']

theorem skipExponent_append {sign : List Char} (hs : IsSign sign) (hc : isDigit c = true) :
    skipExponent (sign ++ c :: text) = .ok (text.dropWhile isDigit) := by
  have hdigits : (((c :: text).head?.map isDigit).getD false) = true := hc
  have hrest : (c :: text).dropWhile isDigit = text.dropWhile isDigit :=
    List.dropWhile_cons_of_pos hc
  rcases hs with rfl | rfl | rfl
  · have hplus : c ≠ '+' := by
      rintro rfl
      cases hc
    have hminus : c ≠ '-' := by
      rintro rfl
      cases hc
    unfold skipExponent
    rw [List.nil_append]
    split
    · next heq => exact absurd (List.cons.inj heq).1 hplus
    · next heq => exact absurd (List.cons.inj heq).1 hminus
    · rw [if_pos hdigits, hrest]
  · exact (if_pos hdigits).trans (congrArg _ hrest)
  · exact (if_pos hdigits).trans (congrArg _ hrest)

theorem exists_of_skipExponent (h : skipExponent text = .ok rest) :
    ∃ sign c digits, IsSign sign ∧ text = sign ++ c :: digits ∧ isDigit c = true ∧
      rest = digits.dropWhile isDigit := by
  unfold skipExponent at h
  extract_lets digits at h
  obtain ⟨sign, hs, ht⟩ : ∃ sign, IsSign sign ∧ text = sign ++ digits := by
    simp only [digits]
    split
    · exact ⟨['+'], .inr (.inl rfl), rfl⟩
    · exact ⟨['-'], .inr (.inr rfl), rfl⟩
    · exact ⟨[], .inl rfl, rfl⟩
  split at h
  · next hd =>
    obtain ⟨c, after, hd, hc⟩ := head?_isDigit_iff.mp hd
    cases h
    rw [hd] at ht ⊢
    exact ⟨sign, c, after, hs, ht, hc, List.dropWhile_cons_of_pos hc⟩
  · cases h

theorem Exponent.noDigit (h : Exponent text rest) (hr : Stops rest) :
    NoDigit text ∧ text.head? ≠ some '.' := by
  cases h with
  | absent =>
    refine ⟨hr.noDigit, ?_⟩
    cases text with
    | nil => exact nofun
    | cons c text => exact fun hc => hr.head.2.1 (Option.some.inj hc)
  | present he => rcases he with rfl | rfl <;> exact ⟨noDigit_cons (by decide), by simp⟩

theorem Fraction.noDigit (h : Fraction text next) (hn : NoDigit next) : NoDigit text := by
  cases h with
  | absent => exact hn
  | present => exact noDigit_cons (by decide)

theorem Exponent.skip_eq (h : Exponent text rest) (hr : Stops rest) :
    (if startsExponent text then skipExponent text.tail else .ok text) = .ok rest := by
  cases h with
  | absent =>
    rw [if_neg]
    intro he
    obtain ⟨e, next, rfl, hletter⟩ := startsExponent_eq_true_iff.mp he
    exact hletter.elim hr.head.2.2.1 hr.head.2.2.2
  | present he hs hc hd =>
    rw [if_pos (startsExponent_eq_true_iff.mpr ⟨_, _, rfl, he⟩), List.tail_cons,
      skipExponent_append hs hc, hd.dropWhile_eq hr.noDigit]

theorem exponent_of_skip
    (h : (if startsExponent text then skipExponent text.tail else .ok text) = .ok rest) :
    Exponent text rest := by
  split at h
  · next he =>
    obtain ⟨e, next, rfl, hletter⟩ := startsExponent_eq_true_iff.mp he
    obtain ⟨sign, c, digits, hs, rfl, hc, rfl⟩ := exists_of_skipExponent h
    exact .present hletter hs hc (digits_dropWhile digits)
  · cases h
    exact .absent

theorem skipFraction_cons (hc : isDigit c = true) : skipFraction (c :: text) =
    if startsExponent (text.dropWhile isDigit) then skipExponent (text.dropWhile isDigit).tail
    else .ok (text.dropWhile isDigit) := by
  have hrest : (c :: text).dropWhile isDigit = text.dropWhile isDigit :=
    List.dropWhile_cons_of_pos hc
  have hsome : ((c :: text).takeWhile isDigit).isEmpty = false := by
    rw [List.takeWhile_cons_of_pos hc, List.isEmpty_cons]
  simp only [skipFraction, hrest, hsome, Bool.false_eq_true, if_false]

theorem exists_of_skipFraction (h : skipFraction text = .ok rest) :
    ∃ c digits, text = c :: digits ∧ isDigit c = true := by
  cases text with
  | nil => cases h
  | cons c digits =>
    refine ⟨c, digits, rfl, ?_⟩
    cases hc : isDigit c with
    | true => rfl
    | false =>
      have hnone : ((c :: digits).takeWhile isDigit).isEmpty = true := by
        rw [List.takeWhile_cons_of_neg (by simp [hc]), List.isEmpty_nil]
      simp only [skipFraction, hnone, if_true] at h
      cases h

theorem Whole.exists_eq (h : Whole text next) (hn : NoDigit next) :
    ∃ c digits, text = c :: digits ∧ isDigit c = true ∧
      ¬(c = '0' ∧ ((digits.head?.map isDigit).getD false) = true) ∧
      (if c = '0' then digits else digits.dropWhile isDigit) = next := by
  cases h with
  | zero =>
    refine ⟨'0', next, rfl, by decide, ?_, if_pos rfl⟩
    rintro ⟨-, hd⟩
    obtain ⟨c, rest, rfl, hc⟩ := head?_isDigit_iff.mp hd
    cases (hn c rfl).symm.trans hc
  | other hc hz hd => exact ⟨_, _, rfl, hc, fun h => hz h.1, (if_neg hz).trans (hd.dropWhile_eq hn)⟩

theorem whole_of_ite (digits : List Char) (hc : isDigit c = true) :
    Whole (c :: digits) (if c = '0' then digits else digits.dropWhile isDigit) := by
  split
  · next hz =>
    rw [hz]
    exact .zero
  · next hz => exact .other hc hz (digits_dropWhile digits)

theorem skipNumber_cons {digits : List Char} (hc : isDigit c = true)
    (hz : ¬(c = '0' ∧ ((digits.head?.map isDigit).getD false) = true)) :
    skipNumber (c :: digits) =
      match (if c = '0' then digits else digits.dropWhile isDigit) with
      | '.' :: fraction => skipFraction fraction
      | rest => if startsExponent rest then skipExponent rest.tail else .ok rest :=
  (if_neg (by simp [hc])).trans (if_neg hz)

theorem skipNumber_unsigned (h : Unsigned text rest) (hr : Stops rest) :
    skipNumber text = .ok rest := by
  obtain ⟨next, after, hw, hf, he⟩ := h
  obtain ⟨hdigit, hpoint⟩ := he.noDigit hr
  obtain ⟨c, digits, rfl, hc, hz, hnext⟩ := hw.exists_eq (hf.noDigit hdigit)
  rw [skipNumber_cons hc hz, hnext]
  cases hf with
  | absent =>
    split
    · exact absurd rfl hpoint
    · exact he.skip_eq hr
  | @present d more _ hd hds =>
    have hskip := @skipFraction_cons more d hd
    rw [hds.dropWhile_eq hdigit] at hskip
    exact hskip.trans (he.skip_eq hr)

theorem unsigned_of_skipNumber (h : skipNumber text = .ok rest) : Unsigned text rest := by
  cases text with
  | nil => cases h
  | cons c digits =>
    by_cases hc : isDigit c = true
    · by_cases hz : c = '0' ∧ ((digits.head?.map isDigit).getD false) = true
      · simp only [skipNumber, hc, Bool.not_true, Bool.false_eq_true, if_false, if_pos hz] at h
        cases h
      · rw [skipNumber_cons hc hz] at h
        have hw := whole_of_ite digits hc
        generalize (if c = '0' then digits else digits.dropWhile isDigit) = next at h hw
        split at h
        · obtain ⟨d, more, rfl, hd⟩ := exists_of_skipFraction h
          rw [skipFraction_cons hd] at h
          exact ⟨_, _, hw, .present hd (digits_dropWhile more), exponent_of_skip h⟩
        · exact ⟨_, _, hw, .absent, exponent_of_skip h⟩
    · simp only [skipNumber, hc, Bool.not_false, if_true] at h
      cases h

theorem skipNumber_eq_ok_iff (hr : Stops rest) : skipNumber text = .ok rest ↔ Unsigned text rest :=
  ⟨unsigned_of_skipNumber, fun h => skipNumber_unsigned h hr⟩

/-! ## Integers -/

theorem le_foldl_digits (digits : List Char) (s : Nat) :
    s ≤ digits.foldl (fun n digit => n * 10 + digitValue digit) s := by
  induction digits generalizing s with
  | nil => exact Nat.le_refl _
  | cons c digits ih =>
    rw [List.foldl_cons]
    have := ih (s * 10 + digitValue c)
    omega

theorem absorb_of_le {s : Nat} (h : digits.foldl (fun n digit => n * 10 + digitValue digit) s ≤
    significandLimit) :
    absorb s digits = (digits.foldl (fun n digit => n * 10 + digitValue digit) s, 0) := by
  induction digits generalizing s with
  | nil => rfl
  | cons c digits ih =>
    rw [List.foldl_cons] at h ⊢
    have hle := Nat.le_trans (le_foldl_digits digits _) h
    rw [absorb, if_pos hle, ih h]

theorem eq_foldl_of_absorb {s m : Nat} (h : absorb s digits = (m, 0)) :
    m = digits.foldl (fun n digit => n * 10 + digitValue digit) s := by
  induction digits generalizing s with
  | nil =>
    cases h
    rfl
  | cons c digits ih =>
    unfold absorb at h
    dsimp only at h
    split at h
    · exact ih h
    · cases (Prod.mk.inj h).2

theorem floating_of_floatOf {s : Nat} {e : Int} {left : List Char}
    (h : floatOf negative s e left = .ok (number, rest)) : ∃ x, number = .floating x := by
  unfold floatOf at h
  split at h
  · cases h
    exact ⟨_, rfl⟩
  · cases h

theorem floating_of_readExponent {s : Nat} {e : Int}
    (h : readExponent negative s e text = .ok (number, rest)) : ∃ x, number = .floating x := by
  unfold readExponent at h
  split at h
  split at h
  · cases h
  · split at h
    · cases h
    · split at h
      · exact floating_of_floatOf h
      · split at h
        · cases h
        · cases h
          exact ⟨_, rfl⟩

theorem floating_of_readScale {s : Nat} {e : Int}
    (h : readScale negative s e text = .ok (number, rest)) : ∃ x, number = .floating x := by
  unfold readScale at h
  split at h
  · exact floating_of_readExponent h
  · exact floating_of_floatOf h

theorem floating_of_readFraction {s : Nat} {e : Int}
    (h : readFraction negative s e text = .ok (number, rest)) : ∃ x, number = .floating x := by
  unfold readFraction at h
  dsimp only at h
  split at h
  · split at h <;> cases h
  · exact floating_of_readScale h

theorem wholeDigits_append (c : Char) (text : List Char) :
    (if c = '0' then [c] else (c :: text).takeWhile isDigit) ++
      (if c = '0' then text else (c :: text).dropWhile isDigit) = c :: text := by
  split
  · rfl
  · exact List.takeWhile_append_dropWhile

theorem readNumber_cons (hc : isDigit c = true)
    (hz : ¬(c = '0' ∧ ((text.head?.map isDigit).getD false) = true)) :
    c :: text = digits ++ next → (if c = '0' then text else text.dropWhile isDigit) = next →
    readNumber negative (c :: text) =
      match next with
      | '.' :: fraction => readFraction negative (absorb 0 digits).1 (absorb 0 digits).2 fraction
      | _ =>
        if (absorb 0 digits).2 = 0 ∧ !startsExponent next then
          .ok (wholeNumber negative (absorb 0 digits).1, next)
        else readScale negative (absorb 0 digits).1 (absorb 0 digits).2 next := by
  intro hd hnext
  have hsplit := (wholeDigits_append c text).trans hd
  rw [List.dropWhile_cons_of_pos hc, hnext] at hsplit
  have hdrop : (c :: text).drop digits.length = next := by rw [hd, List.drop_left]
  subst hdrop
  obtain rfl := List.append_cancel_right hsplit
  exact (if_neg (by simp [hc])).trans (if_neg hz)

theorem exists_of_readNumber (h : readNumber negative text = .ok (.integer n, rest)) :
    ∃ digits, text = digits ++ rest ∧ Whole text rest ∧
      wholeNumber negative (digitsValue digits) = .integer n := by
  cases text with
  | nil => cases h
  | cons c text =>
    by_cases hc : isDigit c = true
    · by_cases hz : c = '0' ∧ ((text.head?.map isDigit).getD false) = true
      · simp only [readNumber, hc, Bool.not_true, Bool.false_eq_true, if_false, if_pos hz] at h
        cases h
      · have hsplit := wholeDigits_append c text
        rw [List.dropWhile_cons_of_pos hc] at hsplit
        have hw := whole_of_ite text hc
        generalize hnext : (if c = '0' then text else text.dropWhile isDigit) = next at hsplit hw
        generalize (if c = '0' then [c] else (c :: text).takeWhile isDigit) = digits at hsplit
        rw [readNumber_cons hc hz hsplit.symm hnext] at h
        split at h
        · obtain ⟨x, hx⟩ := floating_of_readFraction h
          cases hx
        · split at h
          · next hleft =>
            simp only [Except.ok.injEq, Prod.mk.injEq] at h
            obtain ⟨hn, rfl⟩ := h
            have habsorb : absorb 0 digits = ((absorb 0 digits).1, 0) := Prod.ext rfl hleft.1
            rw [eq_foldl_of_absorb habsorb] at hn
            exact ⟨digits, hsplit.symm, hw, hn⟩
          · obtain ⟨x, hx⟩ := floating_of_readScale h
            cases hx
    · simp only [readNumber, hc, Bool.not_false, if_true] at h
      cases h

theorem readNumber_whole (h : Whole (digits ++ rest) rest) (hr : Stops rest)
    (hd : digitsValue digits ≤ significandLimit) :
    readNumber negative (digits ++ rest) =
      .ok (wholeNumber negative (digitsValue digits), rest) := by
  obtain ⟨c, text, htext, hc, hz, hnext⟩ := h.exists_eq hr.noDigit
  have habsorb : absorb 0 digits = (digitsValue digits, 0) := absorb_of_le hd
  rw [htext, readNumber_cons hc hz htext.symm hnext, habsorb]
  have hexponent : startsExponent rest = false := by
    cases he : startsExponent rest with
    | false => rfl
    | true =>
      obtain ⟨e, next, rfl, rfl | rfl⟩ := startsExponent_eq_true_iff.mp he
      · exact absurd rfl hr.head.2.2.1
      · exact absurd rfl hr.head.2.2.2
  split
  · exact absurd rfl hr.head.2.1
  · rw [if_pos ⟨rfl, by rw [hexponent]; rfl⟩]

theorem asInteger32_eq_ok_iff {left : List Char} : asInteger32 (number, left) = .ok (n, rest) ↔
    number = .integer n ∧ isInt32 n = true ∧ left = rest := by
  cases number with
  | floating => exact iff_of_false nofun nofun
  | integer value =>
    by_cases hv : isInt32 value = true
    · rw [asInteger32, if_pos hv]
      constructor
      · intro h
        cases h
        exact ⟨rfl, hv, rfl⟩
      · rintro ⟨hn, -, rfl⟩
        cases hn
        rfl
    · rw [asInteger32, if_neg hv]
      apply iff_of_false nofun
      rintro ⟨hn, hn', -⟩
      cases hn
      exact hv hn'

theorem isInt32_iff : isInt32 n = true ↔ -0x80000000 ≤ n ∧ n ≤ 0x7FFFFFFF := by
  unfold isInt32
  rw [Bool.and_eq_true, decide_eq_true_eq, decide_eq_true_eq]
  rfl

theorem not_isBlank_of_isDigit (hc : isDigit c = true) : isBlank c = false := by
  cases hb : isBlank c with
  | false => rfl
  | true =>
    simp only [isBlank, Bool.or_eq_true, decide_eq_true_eq] at hb
    rcases hb with ((rfl | rfl) | rfl) | rfl <;> cases hc

theorem Whole.exists_cons (h : Whole text rest) :
    ∃ c next, text = c :: next ∧ isDigit c = true := by
  cases h with
  | zero => exact ⟨_, _, rfl, rfl⟩
  | other hc => exact ⟨_, _, rfl, hc⟩

theorem Unsigned.exists_cons (h : Unsigned text rest) :
    ∃ c next, text = c :: next ∧ isDigit c = true := by
  obtain ⟨_, _, hw, -⟩ := h
  exact hw.exists_cons

/-! ## Lengths -/

theorem Digits.length_le (h : Digits text rest) : rest.length ≤ text.length := by
  induction h with
  | done => exact Nat.le_refl _
  | digit _ _ ih => exact Nat.le_succ_of_le ih

theorem Whole.length_lt (h : Whole text rest) : rest.length < text.length := by
  cases h with
  | zero => exact Nat.lt_succ_self _
  | other _ _ hd => exact Nat.lt_succ_of_le hd.length_le

theorem Unsigned.length_lt (h : Unsigned text rest) : rest.length < text.length := by
  obtain ⟨whole, fraction, hw, hf, he⟩ := h
  have hwhole := hw.length_lt
  have hfraction : fraction.length ≤ whole.length := by
    cases hf with
    | absent => exact Nat.le_refl _
    | present _ hd => exact Nat.le_succ_of_le (Nat.le_succ_of_le hd.length_le)
  have hexponent : rest.length ≤ fraction.length := by
    cases he with
    | absent => exact Nat.le_refl _
    | present _ _ _ hd =>
      have hle := hd.length_le
      simp only [List.length_cons, List.length_append]
      omega
  omega

theorem recognises_readInteger32 : Recognises readInteger32 Integer32Phrase where
  sound {text rest n} h := by
    obtain ⟨start, hs, h⟩ := bind_eq_ok_iff.mp h
    refine ⟨start, (nextValue_eq_ok_iff.mp hs).1, ?_⟩
    split at h
    · obtain ⟨⟨number, left⟩, hr, h⟩ := bind_eq_ok_iff.mp h
      obtain ⟨rfl, hn, rfl⟩ := asInteger32_eq_ok_iff.mp h
      obtain ⟨digits, rfl, hw, hnumber⟩ := exists_of_readNumber hr
      simp only [wholeNumber, Bool.not_true, Bool.false_eq_true, if_false] at hnumber
      split at hnumber
      · cases hnumber
      · next hd =>
        cases hnumber
        exact ⟨.negative hw fun hz => hd (.inl hz), hn⟩
    · split at h
      · obtain ⟨⟨number, left⟩, hr, h⟩ := bind_eq_ok_iff.mp h
        obtain ⟨rfl, hn, rfl⟩ := asInteger32_eq_ok_iff.mp h
        obtain ⟨digits, htext, hw, hnumber⟩ := exists_of_readNumber hr
        cases hnumber
        rw [htext] at hw ⊢
        exact ⟨.positive hw, hn⟩
      · exact absurd h refuseType_ne_ok
    · cases h
  complete {text start rest n} hb h hr := by
    obtain ⟨hi, hn⟩ := h
    obtain ⟨hlow, hhigh⟩ := isInt32_iff.mp hn
    have hlimit : significandLimit = 0xFFFFFFFFFFFFFFFF := rfl
    have hcount : wordCount / 2 = 0x8000000000000000 := rfl
    cases hi with
    | @positive digits _ hw =>
      obtain ⟨c, next, htext, hc⟩ := hw.exists_cons
      rw [htext] at hb
      have hread := (readNumber_whole hw hr (by omega) : readNumber false _ = _)
      simp only [readInteger32, hb.nextValue_eq (not_isBlank_of_isDigit hc), bind, Except.bind]
      split
      · next heq =>
        cases heq
        cases hc
      · next heq =>
        cases heq
        rw [if_pos hc, ← htext, hread]
        exact asInteger32_eq_ok_iff.mpr ⟨rfl, hn, rfl⟩
      · next heq => cases heq
    | @negative digits _ hw hd =>
      have hread := (readNumber_whole hw hr (by omega) : readNumber true _ = _)
      have hwhole : wholeNumber true (digitsValue digits) = .integer (-digitsValue digits) := by
        simp only [wholeNumber, Bool.not_true, Bool.false_eq_true, if_false]
        exact if_neg (by omega)
      simp only [readInteger32, hb.nextValue_eq rfl, bind, Except.bind, hread, hwhole]
      exact asInteger32_eq_ok_iff.mpr ⟨rfl, hn, rfl⟩
  starts {text rest n} h := by
    cases h.1 with
    | positive hw =>
      obtain ⟨c, next, htext, hc⟩ := hw.exists_cons
      refine ⟨c, next, htext, not_isBlank_of_isDigit hc, ?_⟩
      rintro rfl
      cases hc
    | negative => exact ⟨'-', _, rfl, rfl, by decide⟩
  shrinks {text rest n} h := by
    cases h.1 with
    | positive hw => exact hw.length_lt
    | negative hw => exact Nat.lt_succ_of_lt hw.length_lt

end TreePool.Json

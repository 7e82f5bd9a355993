import TreePool.Proofs.Json.Grammar

/-! # Strings of a JSON text

The two ways in which a string is read accept what the grammar says: `readString_eq_ok_iff` for a
string that is read for its characters, and `skipString_eq_ok_iff` for one that is passed over.
-/

namespace TreePool.Json

variable {text next rest value : List Char} {c char : Char} {taken unit : Nat}

/-! ## Escapes -/

theorem length_utf8EncodeChar_of_hexDigit? {n : Nat} (h : hexDigit? c = some n) :
    (String.utf8EncodeChar c).length = 1 := by
  have hle {d : Char} (hd : c ≤ d) (h127 : d.val ≤ 127) : c.val ≤ 127 :=
    UInt32.le_trans (Char.le_def.mp hd) h127
  rw [String.length_utf8EncodeChar, Char.utf8Size_eq_one_iff]
  unfold hexDigit? at h
  split at h
  · next hc => exact hle hc.2 (by decide)
  · split at h
    · next hc => exact hle hc.2 (by decide)
    · split at h
      · next hc => exact hle hc.2 (by decide)
      · cases h

theorem length_encode_of_mapM {digits : List Char} {values : List Nat}
    (h : digits.mapM hexDigit? = some values) : (Text.encode digits).length = digits.length := by
  induction digits generalizing values with
  | nil => rfl
  | cons c digits ih =>
    rw [List.mapM_cons] at h
    obtain ⟨n, hc, h⟩ := Option.bind_eq_some_iff.mp h
    obtain ⟨ns, hs, -⟩ := Option.bind_eq_some_iff.mp h
    have hsplit : Text.encode (c :: digits) = String.utf8EncodeChar c ++ Text.encode digits := rfl
    rw [hsplit, List.length_append, length_utf8EncodeChar_of_hexDigit? hc, ih hs, List.length_cons,
      Nat.add_comm]

theorem HexUnit.readUnit_eq (h : HexUnit text unit rest) : readUnit text = .ok unit := by
  cases h with
  | @digits a b c d i j k l rest ha hb hc hd =>
    have hfour : (a :: b :: c :: d :: rest).take 4 = [a, b, c, d] := rfl
    have hall : [a, b, c, d].mapM hexDigit? = some [i, j, k, l] := by
      simp only [List.mapM_cons, List.mapM_nil, ha, hb, hc, hd]
      rfl
    simp [readUnit, hfour, length_encode_of_mapM hall, hall]

theorem HexUnit.drop_eq (h : HexUnit text unit rest) : text.drop 4 = rest ∧ 4 ≤ text.length := by
  cases h
  exact ⟨rfl, Nat.le_add_left 4 _⟩

theorem hexUnit_of_readUnit (h : readUnit text = .ok unit) : HexUnit text unit (text.drop 4) := by
  unfold readUnit at h
  dsimp only at h
  split at h
  · cases h
  · next hlong =>
    split at h
    · next digits hd =>
      rw [length_encode_of_mapM hd] at hlong
      obtain ⟨a, b, c, d, after, rfl⟩ : ∃ a b c d after, text = a :: b :: c :: d :: after := by
        match text with
        | a :: b :: c :: d :: after => exact ⟨a, b, c, d, after, rfl⟩
        | [] | [_] | [_, _] | [_, _, _] => exact absurd hlong (by simp)
      have hfour : (a :: b :: c :: d :: after).take 4 = [a, b, c, d] := rfl
      rw [hfour] at hd
      simp only [List.mapM_cons, List.mapM_nil, Option.bind_eq_bind, Option.bind_eq_some_iff,
        Option.pure_def, Option.some.injEq] at hd
      obtain ⟨i, ha, _, ⟨j, hb, _, ⟨k, hc, _, ⟨l, hd, _, rfl, rfl⟩, rfl⟩, rfl⟩, rfl⟩ := hd
      cases h
      simpa using HexUnit.digits ha hb hc hd
    · cases h

/-- An escape is read as what it stands for, and takes as many characters as it has. -/
theorem Escape.readEscape_eq (h : Escape text char next) :
    ∃ taken, readEscape text = .ok (char, taken) ∧ text.drop taken = next ∧
      taken ≤ text.length := by
  cases h with
  | @simple c _ _ hc =>
    have hu : c ≠ 'u' := by
      rintro rfl
      cases hc
    refine ⟨1, ?_, rfl, Nat.le_add_left 1 _⟩
    unfold readEscape
    split
    · next heq => cases heq
    · next heq => exact absurd (List.cons.inj heq).1 hu
    · next heq =>
      cases heq
      rw [hc]
  | @unit unit text _ hu hh hl =>
    obtain ⟨hdrop, hlength⟩ := hu.drop_eq
    refine ⟨5, ?_, hdrop, Nat.succ_le_succ hlength⟩
    simp [readEscape, readNumericEscape, hu.readUnit_eq, hh, hl, bind, Except.bind]
  | @pair high low text mid _ hu hh hu' hl =>
    obtain ⟨hdrop, hlength⟩ := hu.drop_eq
    obtain ⟨hdrop', hlength'⟩ := hu'.drop_eq
    have hlow : isLowSurrogate high = false := by
      simp only [isHighSurrogate, isLowSurrogate, Bool.and_eq_true, decide_eq_true_eq,
        Bool.and_eq_false_iff, decide_eq_false_iff_not] at hh ⊢
      omega
    have hsplit : text = text.take 4 ++ '\\' :: 'u' :: mid := by
      rw [← hdrop, List.take_append_drop]
    have htake : (text.take 4).length = 4 := List.length_take_of_le hlength
    refine ⟨11, ?_, ?_, ?_⟩
    · simp [readEscape, readNumericEscape, hu.readUnit_eq, hu'.readUnit_eq, hh, hl, hlow, hdrop,
        bind, Except.bind]
    · have hten : text.drop 10 = mid.drop 4 := by
        rw [show 10 = 4 + 6 from rfl, ← List.drop_drop, hdrop]
        rfl
      rw [List.drop_succ_cons, hten, hdrop']
    · rw [hsplit]
      simp only [List.length_cons, List.length_append, htake]
      omega

theorem escape_of_readNumericEscape (h : readNumericEscape text = .ok (char, taken)) :
    Escape ('u' :: text) char (text.drop taken) := by
  obtain ⟨unit, hu, h⟩ := bind_eq_ok_iff.mp h
  have hunit := hexUnit_of_readUnit hu
  split at h
  · cases h
  · next hl =>
    split at h
    · next hh =>
      split at h
      · cases h
      · cases h
      · next mid hdrop =>
        obtain ⟨low, hu', h⟩ := bind_eq_ok_iff.mp h
        split at h
        · next hl' =>
          have hten : text.drop 10 = mid.drop 4 := by
            rw [show 10 = 4 + 6 from rfl, ← List.drop_drop, hdrop]
            rfl
          rw [hdrop] at hunit
          simp only [Except.ok.injEq, Prod.mk.injEq] at h
          rw [← h.1, ← h.2, hten]
          exact .pair hunit hh (hexUnit_of_readUnit hu') hl'
        · cases h
      · cases h
      · cases h
    · next hh =>
      simp only [Except.ok.injEq, Prod.mk.injEq] at h
      rw [← h.1, ← h.2]
      exact .unit hunit (by simpa using hh) (by simpa using hl)

theorem escape_of_readEscape (h : readEscape text = .ok (char, taken)) :
    Escape text char (text.drop taken) := by
  unfold readEscape at h
  split at h
  · cases h
  · obtain ⟨⟨char', taken'⟩, hn, h⟩ := bind_eq_ok_iff.mp h
    cases h
    exact escape_of_readNumericEscape hn
  · split at h
    · next hc =>
      cases h
      exact .simple hc
    · cases h

theorem EscapeForm.skipEscape_eq (h : EscapeForm text next) :
    ∃ taken, skipEscape text = .ok taken ∧ text.drop taken = next ∧ taken ≤ text.length := by
  cases h with
  | @simple c _ _ hc =>
    have hu : c ≠ 'u' := by
      rintro rfl
      cases hc
    refine ⟨1, ?_, rfl, Nat.le_add_left 1 _⟩
    unfold skipEscape
    split
    · next heq => cases heq
    · next heq => exact absurd (List.cons.inj heq).1 hu
    · next heq =>
      cases heq
      rw [hc]
      rfl
  | unit hu =>
    obtain ⟨hdrop, hlength⟩ := hu.drop_eq
    refine ⟨5, ?_, hdrop, Nat.succ_le_succ hlength⟩
    simp [skipEscape, hu.readUnit_eq, bind, Except.bind]

theorem escapeForm_of_skipEscape (h : skipEscape text = .ok taken) :
    EscapeForm text (text.drop taken) := by
  unfold skipEscape at h
  split at h
  · cases h
  · obtain ⟨unit, hu, h⟩ := bind_eq_ok_iff.mp h
    cases h
    exact .unit (hexUnit_of_readUnit hu)
  · split at h
    · next hc =>
      cases h
      obtain ⟨char, hc⟩ := Option.isSome_iff_exists.mp hc
      exact .simple hc
    · cases h

/-! ## Whole strings -/

theorem readStringFrom_drop {done : List Char} (h : taken ≤ text.length) :
    readStringFrom done taken text = readStringFrom done 0 (text.drop taken) := by
  induction taken generalizing text with
  | zero => rfl
  | succ taken ih =>
    obtain ⟨c, text, rfl⟩ := List.exists_cons_of_length_pos (Nat.zero_lt_of_lt h)
    rw [readStringFrom, List.drop_succ_cons, ih (Nat.le_of_succ_le_succ h)]

theorem skipStringFrom_drop (h : taken ≤ text.length) :
    skipStringFrom taken text = skipStringFrom 0 (text.drop taken) := by
  induction taken generalizing text with
  | zero => rfl
  | succ taken ih =>
    obtain ⟨c, text, rfl⟩ := List.exists_cons_of_length_pos (Nat.zero_lt_of_lt h)
    rw [skipStringFrom, List.drop_succ_cons, ih (Nat.le_of_succ_le_succ h)]

theorem readStringFrom_spelling {done : List Char} (h : Spelling text value rest) :
    readStringFrom done 0 text = .ok (done.reverse ++ value, rest) := by
  induction h generalizing done with
  | close => simp [readStringFrom]
  | plain hc _ ih =>
    obtain ⟨hquote, hslash, hcontrol⟩ := hc
    simp [readStringFrom, hquote, hslash, hcontrol, ih]
  | escape he _ ih =>
    obtain ⟨taken, hread, hdrop, hlength⟩ := he.readEscape_eq
    simp [readStringFrom, hread, readStringFrom_drop hlength, hdrop, ih]

theorem spelling_of_readStringFrom {done read : List Char} {taken : Nat}
    (h : readStringFrom done taken text = .ok (read, rest)) :
    ∃ value, read = done.reverse ++ value ∧ Spelling (text.drop taken) value rest := by
  fun_induction readStringFrom done taken text with
  | case1 => cases h
  | case2 done taken c text ih => exact ih h
  | case3 done text =>
    cases h
    exact ⟨[], (List.append_nil _).symm, .close⟩
  | case4 done text char taken he _ ih =>
    obtain ⟨value, rfl, hs⟩ := ih h
    exact ⟨char :: value, by simp, .escape (escape_of_readEscape he) hs⟩
  | case5 => cases h
  | case6 => cases h
  | case7 done c text hquote hslash hcontrol ih =>
    obtain ⟨value, rfl, hs⟩ := ih h
    exact ⟨c :: value, by simp, .plain ⟨hquote, hslash, hcontrol⟩ hs⟩

theorem readString_eq_ok_iff : readString text = .ok (value, rest) ↔ Spelling text value rest := by
  constructor
  · intro h
    obtain ⟨value', rfl, hs⟩ := spelling_of_readStringFrom h
    exact hs
  · exact fun h => readStringFrom_spelling h

theorem skipStringFrom_quotation (h : Quotation text rest) : skipStringFrom 0 text = .ok rest := by
  induction h with
  | close => simp [skipStringFrom]
  | plain hc _ ih =>
    obtain ⟨hquote, hslash, hcontrol⟩ := hc
    simp [skipStringFrom, hquote, hslash, hcontrol, ih]
  | escape he _ ih =>
    obtain ⟨taken, hskip, hdrop, hlength⟩ := he.skipEscape_eq
    simp [skipStringFrom, hskip, skipStringFrom_drop hlength, hdrop, ih]

theorem quotation_of_skipStringFrom (h : skipStringFrom taken text = .ok rest) :
    Quotation (text.drop taken) rest := by
  fun_induction skipStringFrom taken text with
  | case1 => cases h
  | case2 taken c text ih => exact ih h
  | case3 text =>
    cases h
    exact .close
  | case4 text taken he _ ih => exact .escape (escapeForm_of_skipEscape he) (ih h)
  | case5 => cases h
  | case6 => cases h
  | case7 c text hquote hslash hcontrol ih => exact .plain ⟨hquote, hslash, hcontrol⟩ (ih h)

theorem skipString_eq_ok_iff : skipString text = .ok rest ↔ Quotation text rest :=
  ⟨quotation_of_skipStringFrom, skipStringFrom_quotation⟩

/-! ## Lengths -/

theorem HexUnit.length_lt (h : HexUnit text unit rest) : rest.length < text.length := by
  cases h
  simp only [List.length_cons]
  omega

theorem EscapeForm.length_lt (h : EscapeForm text next) : next.length < text.length := by
  cases h with
  | simple => exact Nat.lt_succ_self _
  | unit hu => exact Nat.lt_succ_of_lt hu.length_lt

theorem Escape.length_lt (h : Escape text char next) : next.length < text.length := by
  cases h with
  | simple => exact Nat.lt_succ_self _
  | unit hu => exact Nat.lt_succ_of_lt hu.length_lt
  | pair hu _ hu' =>
    have hhigh := hu.length_lt
    have hlow := hu'.length_lt
    simp only [List.length_cons] at hhigh ⊢
    omega

theorem Quotation.length_lt (h : Quotation text rest) : rest.length < text.length := by
  induction h with
  | close => exact Nat.lt_succ_self _
  | plain _ _ ih => exact Nat.lt_succ_of_lt ih
  | escape he _ ih => exact Nat.lt_succ_of_lt (Nat.lt_trans ih he.length_lt)

theorem Spelling.length_lt (h : Spelling text value rest) : rest.length < text.length := by
  induction h with
  | close => exact Nat.lt_succ_self _
  | plain _ _ ih => exact Nat.lt_succ_of_lt ih
  | escape he _ ih => exact Nat.lt_succ_of_lt (Nat.lt_trans ih he.length_lt)

end TreePool.Json

import TreePool.Text.Utf8

/-! # Bytes and text agree

Bytes are decoded exactly when they are the encoding of a text, and then to that text:
`decode?_eq_some_iff`. Between the two stands the table of well-formed byte sequences, `Sequence`.
-/

namespace TreePool.Text

variable {bytes rest : Bytes} {n : Nat} {text : List Char}

def Continues (b : UInt8) : Prop := 0x80 ≤ b.toNat ∧ b.toNat ≤ 0xBF

/-- The bytes of one character, and the number of the character. -/
inductive Sequence : Bytes → Nat → Prop
  | one {a : UInt8} {n : Nat} (ha : a.toNat < 0x80) (hn : n = a.toNat) : Sequence [a] n
  | two {a b : UInt8} {n : Nat} (ha : 0xC2 ≤ a.toNat ∧ a.toNat < 0xE0) (hb : Continues b)
      (hn : n = (a.toNat - 0xC0) * 64 + (b.toNat - 0x80)) : Sequence [a, b] n
  | three {a b c : UInt8} {n : Nat} (ha : 0xE0 ≤ a.toNat ∧ a.toNat < 0xF0) (hb : Continues b)
      (hlow : a.toNat = 0xE0 → 0xA0 ≤ b.toNat) (hhigh : a.toNat = 0xED → b.toNat ≤ 0x9F)
      (hc : Continues c)
      (hn : n = ((a.toNat - 0xE0) * 64 + (b.toNat - 0x80)) * 64 + (c.toNat - 0x80)) :
      Sequence [a, b, c] n
  | four {a b c d : UInt8} {n : Nat} (ha : 0xF0 ≤ a.toNat ∧ a.toNat < 0xF5) (hb : Continues b)
      (hlow : a.toNat = 0xF0 → 0x90 ≤ b.toNat) (hhigh : a.toNat = 0xF4 → b.toNat ≤ 0x8F)
      (hc : Continues c) (hd : Continues d)
      (hn : n = (((a.toNat - 0xF0) * 64 + (b.toNat - 0x80)) * 64 + (c.toNat - 0x80)) * 64 +
        (d.toNat - 0x80)) :
      Sequence [a, b, c, d] n

/-! ## Encoding -/

theorem toNat_ofNat (h : n < 0xD800 ∨ 0xDFFF < n ∧ n < 0x110000) : (Char.ofNat n).toNat = n := by
  unfold Char.ofNat
  rw [dif_pos h]
  rfl

theorem isValidChar_toNat (c : Char) :
    c.toNat < 0xD800 ∨ 0xDFFF < c.toNat ∧ c.toNat < 0x110000 := c.valid

theorem ofNat_eq_iff {a : UInt8} : UInt8.ofNat n = a ↔ n % 256 = a.toNat := by
  rw [← UInt8.toNat_inj, UInt8.toNat_ofNat']

theorem encodeChar_eq (c : Char) : String.utf8EncodeChar c =
    if c.toNat ≤ 127 then [UInt8.ofNat c.toNat]
    else if c.toNat ≤ 2047 then
      [UInt8.ofNat (c.toNat / 64 % 32 + 192), UInt8.ofNat (c.toNat % 64 + 128)]
    else if c.toNat ≤ 65535 then
      [UInt8.ofNat (c.toNat / 4096 % 16 + 224), UInt8.ofNat (c.toNat / 64 % 64 + 128),
        UInt8.ofNat (c.toNat % 64 + 128)]
    else
      [UInt8.ofNat (c.toNat / 262144 % 8 + 240), UInt8.ofNat (c.toNat / 4096 % 64 + 128),
        UInt8.ofNat (c.toNat / 64 % 64 + 128), UInt8.ofNat (c.toNat % 64 + 128)] := rfl

theorem Sequence.length_pos (h : Sequence bytes n) : 0 < bytes.length := by
  cases h <;> exact Nat.zero_lt_succ _

theorem Sequence.le_toNat (h : Sequence bytes n) (hn : 0x20 ≤ n) : ∀ b ∈ bytes, 0x20 ≤ b.toNat := by
  have hle {b : UInt8} (hb : Continues b) : 0x20 ≤ b.toNat := Nat.le_trans (by decide) hb.1
  cases h with
  | one _ heq => simpa using heq ▸ hn
  | two ha hb => simpa using ⟨by omega, hle hb⟩
  | three ha hb _ _ hc => simpa using ⟨by omega, hle hb, hle hc⟩
  | four ha hb _ _ hc hd => simpa using ⟨by omega, hle hb, hle hc, hle hd⟩

theorem Sequence.encodeChar_ofNat (h : Sequence bytes n) :
    String.utf8EncodeChar (Char.ofNat n) = bytes := by
  cases h with
  | one ha hn =>
    rw [encodeChar_eq, toNat_ofNat (by omega), if_pos (by omega), hn, UInt8.ofNat_toNat]
  | two ha hb hn =>
    unfold Continues at hb
    rw [encodeChar_eq, toNat_ofNat (by omega), if_neg (by omega), if_pos (by omega)]
    simp only [List.cons.injEq, ofNat_eq_iff, and_true]
    omega
  | three ha hb hlow hhigh hc hn =>
    unfold Continues at hb hc
    rw [encodeChar_eq, toNat_ofNat (by omega), if_neg (by omega), if_neg (by omega),
      if_pos (by omega)]
    simp only [List.cons.injEq, ofNat_eq_iff, and_true]
    omega
  | four ha hb hlow hhigh hc hd hn =>
    unfold Continues at hb hc hd
    rw [encodeChar_eq, toNat_ofNat (by omega), if_neg (by omega), if_neg (by omega),
      if_neg (by omega)]
    simp only [List.cons.injEq, ofNat_eq_iff, and_true]
    omega

theorem sequence_encodeChar (c : Char) : Sequence (String.utf8EncodeChar c) c.toNat := by
  have hvalid := isValidChar_toNat c
  have hof {m : Nat} (hm : m < 256) : (UInt8.ofNat m).toNat = m := by
    rw [UInt8.toNat_ofNat', Nat.mod_eq_of_lt hm]
  have hlast (m : Nat) : (UInt8.ofNat (m % 64 + 128)).toNat = m % 64 + 128 := hof (by omega)
  have hcontinues (m : Nat) : Continues (UInt8.ofNat (m % 64 + 128)) := by
    rw [Continues, hlast]
    omega
  rw [encodeChar_eq]
  generalize c.toNat = m at hvalid
  split
  · have ha := @hof m (by omega)
    exact .one (by omega) ha.symm
  split
  · have ha := @hof (m / 64 % 32 + 192) (by omega)
    have hb := hlast m
    exact .two (by omega) (hcontinues m) (by omega)
  split
  · have ha := @hof (m / 4096 % 16 + 224) (by omega)
    have hb := hlast (m / 64)
    have hc := hlast m
    exact .three (by omega) (hcontinues (m / 64)) (by omega) (by omega) (hcontinues m) (by omega)
  · have ha := @hof (m / 262144 % 8 + 240) (by omega)
    have hb := hlast (m / 4096)
    have hc := hlast (m / 64)
    have hd := hlast m
    exact .four (by omega) (hcontinues (m / 4096)) (by omega) (by omega) (hcontinues (m / 64))
      (hcontinues m) (by omega)

/-! ## Decoding -/

/-- What may follow the first byte of three: the bounds of the second one keep out what could be
shorter and what is no character. -/
def pendingTwo (a : UInt8) : Pending :=
  ⟨2, if a.toNat = 0xE0 then 0xA0 else 0x80, if a.toNat = 0xED then 0x9F else 0xBF, a.toNat - 0xE0⟩

def pendingThree (a : UInt8) : Pending :=
  ⟨3, if a.toNat = 0xF0 then 0x90 else 0x80, if a.toNat = 0xF4 then 0x8F else 0xBF, a.toNat - 0xF0⟩

theorem first_eq (a : UInt8) : first a =
    if a.toNat < 0x80 then ([some (Char.ofNat a.toNat)], none)
    else if a.toNat < 0xC2 then ([none], none)
    else if a.toNat < 0xE0 then ([], some ⟨1, 0x80, 0xBF, a.toNat - 0xC0⟩)
    else if a.toNat < 0xF0 then ([], some (pendingTwo a))
    else if a.toNat < 0xF5 then ([], some (pendingThree a))
    else ([none], none) := by
  unfold first pendingTwo pendingThree
  simp only [UInt8.lt_iff_toNat_lt, ← UInt8.toNat_inj, UInt8.reduceToNat]
  grind

theorem piecesFrom_cons {b : UInt8} {pending : Option Pending} :
    piecesFrom pending (b :: rest) = (feed b pending).1 ++ piecesFrom (feed b pending).2 rest := by
  cases pending <;> rfl

def Pending.Admits (p : Pending) (b : UInt8) : Prop :=
  p.low.toNat ≤ b.toNat ∧ b.toNat ≤ p.high.toNat

def Pending.append (p : Pending) (b : UInt8) : Nat := p.value * 64 + (b.toNat - 0x80)

theorem Pending.Admits.last {p : Pending} {b : UInt8} (h : p.Admits b) (howed : p.owed = 1) :
    piecesFrom (some p) (b :: rest) = some (Char.ofNat (p.append b)) :: piecesFrom none rest := by
  have hrange : p.low ≤ b ∧ b ≤ p.high := by
    rwa [UInt8.le_iff_toNat_le, UInt8.le_iff_toNat_le]
  rw [piecesFrom_cons, feed, if_pos hrange, if_pos (by omega)]
  rfl

theorem Pending.Admits.next {p : Pending} {b : UInt8} {owed : Nat} (h : p.Admits b)
    (howed : p.owed = owed + 2) :
    piecesFrom (some p) (b :: rest) =
      piecesFrom (some ⟨owed + 1, 0x80, 0xBF, p.append b⟩) rest := by
  have hrange : p.low ≤ b ∧ b ≤ p.high := by
    rwa [UInt8.le_iff_toNat_le, UInt8.le_iff_toNat_le]
  rw [piecesFrom_cons, feed, if_pos hrange, if_neg (by omega), howed]
  rfl

theorem exists_admits {p : Pending} (h : none ∉ piecesFrom (some p) bytes) :
    ∃ b rest, bytes = b :: rest ∧ p.Admits b := by
  cases bytes with
  | nil => exact absurd List.mem_cons_self h
  | cons b rest =>
    rw [piecesFrom_cons] at h
    by_cases hb : p.low ≤ b ∧ b ≤ p.high
    · exact ⟨b, rest, rfl, UInt8.le_iff_toNat_le.mp hb.1, UInt8.le_iff_toNat_le.mp hb.2⟩
    · rw [feed, if_neg hb] at h
      exact absurd List.mem_cons_self h

theorem piecesFrom_two {a : UInt8} (ha : 0xC2 ≤ a.toNat ∧ a.toNat < 0xE0) :
    piecesFrom none (a :: rest) = piecesFrom (some ⟨1, 0x80, 0xBF, a.toNat - 0xC0⟩) rest := by
  rw [piecesFrom_cons, feed, first_eq, if_neg (by omega), if_neg (by omega), if_pos ha.2]
  rfl

theorem piecesFrom_three {a : UInt8} (ha : 0xE0 ≤ a.toNat ∧ a.toNat < 0xF0) :
    piecesFrom none (a :: rest) = piecesFrom (some (pendingTwo a)) rest := by
  rw [piecesFrom_cons, feed, first_eq, if_neg (by omega), if_neg (by omega), if_neg (by omega),
    if_pos ha.2]
  rfl

theorem piecesFrom_four {a : UInt8} (ha : 0xF0 ≤ a.toNat ∧ a.toNat < 0xF5) :
    piecesFrom none (a :: rest) = piecesFrom (some (pendingThree a)) rest := by
  rw [piecesFrom_cons, feed, first_eq, if_neg (by omega), if_neg (by omega), if_neg (by omega),
    if_neg (by omega), if_pos ha.2]
  rfl

theorem admits_pendingTwo_iff {a b : UInt8} : (pendingTwo a).Admits b ↔
    Continues b ∧ (a.toNat = 0xE0 → 0xA0 ≤ b.toNat) ∧ (a.toNat = 0xED → b.toNat ≤ 0x9F) := by
  unfold pendingTwo Pending.Admits Continues
  simp only [apply_ite UInt8.toNat, UInt8.reduceToNat]
  split <;> split <;> omega

theorem admits_pendingThree_iff {a b : UInt8} : (pendingThree a).Admits b ↔
    Continues b ∧ (a.toNat = 0xF0 → 0x90 ≤ b.toNat) ∧ (a.toNat = 0xF4 → b.toNat ≤ 0x8F) := by
  unfold pendingThree Pending.Admits Continues
  simp only [apply_ite UInt8.toNat, UInt8.reduceToNat]
  split <;> split <;> omega

/-- Behind the second byte any byte may follow that goes on with a character. -/
theorem admits_iff {owed value : Nat} {b : UInt8} :
    (⟨owed, 0x80, 0xBF, value⟩ : Pending).Admits b ↔ Continues b := Iff.rfl

theorem Sequence.piecesFrom_append (h : Sequence bytes n) :
    piecesFrom none (bytes ++ rest) = some (Char.ofNat n) :: piecesFrom none rest := by
  cases h with
  | one ha hn =>
    rw [List.cons_append, piecesFrom_cons, feed, first_eq, if_pos ha, hn]
    rfl
  | @two a b _ ha hb hn =>
    rw [hn]
    calc piecesFrom none (a :: b :: rest)
        = piecesFrom (some ⟨1, 0x80, 0xBF, a.toNat - 0xC0⟩) (b :: rest) := piecesFrom_two ha
      _ = some _ :: piecesFrom none rest := (admits_iff.mpr hb).last rfl
  | @three a b c _ ha hb hlow hhigh hc hn =>
    have hsecond := admits_pendingTwo_iff.mpr ⟨hb, hlow, hhigh⟩
    rw [hn]
    calc piecesFrom none (a :: b :: c :: rest)
        = piecesFrom (some (pendingTwo a)) (b :: c :: rest) := piecesFrom_three ha
      _ = piecesFrom (some ⟨1, 0x80, 0xBF, (pendingTwo a).append b⟩) (c :: rest) :=
        hsecond.next rfl
      _ = some _ :: piecesFrom none rest := (admits_iff.mpr hc).last rfl
  | @four a b c d _ ha hb hlow hhigh hc hd hn =>
    have hsecond := admits_pendingThree_iff.mpr ⟨hb, hlow, hhigh⟩
    rw [hn]
    calc piecesFrom none (a :: b :: c :: d :: rest)
        = piecesFrom (some (pendingThree a)) (b :: c :: d :: rest) := piecesFrom_four ha
      _ = piecesFrom (some ⟨2, 0x80, 0xBF, (pendingThree a).append b⟩) (c :: d :: rest) :=
        hsecond.next rfl
      _ = piecesFrom (some ⟨1, 0x80, 0xBF, _⟩) (d :: rest) := (admits_iff.mpr hc).next rfl
      _ = some _ :: piecesFrom none rest := (admits_iff.mpr hd).last rfl

theorem exists_sequence {a : UInt8} (h : none ∉ piecesFrom none (a :: bytes)) :
    ∃ start n rest, Sequence start n ∧ a :: bytes = start ++ rest := by
  by_cases hone : a.toNat < 0x80
  · exact ⟨[a], a.toNat, bytes, .one hone rfl, rfl⟩
  by_cases htwo : 0xC2 ≤ a.toNat ∧ a.toNat < 0xE0
  · rw [piecesFrom_two htwo] at h
    obtain ⟨b, rest, rfl, hb⟩ := exists_admits h
    exact ⟨[a, b], _, rest, .two htwo hb rfl, rfl⟩
  by_cases hthree : 0xE0 ≤ a.toNat ∧ a.toNat < 0xF0
  · rw [piecesFrom_three hthree] at h
    obtain ⟨b, rest, rfl, hb⟩ := exists_admits h
    rw [hb.next rfl] at h
    obtain ⟨c, rest, rfl, hc⟩ := exists_admits h
    obtain ⟨hsecond, hlow, hhigh⟩ := admits_pendingTwo_iff.mp hb
    exact ⟨[a, b, c], _, rest, .three hthree hsecond hlow hhigh hc rfl, rfl⟩
  by_cases hfour : 0xF0 ≤ a.toNat ∧ a.toNat < 0xF5
  · rw [piecesFrom_four hfour] at h
    obtain ⟨b, rest, rfl, hb⟩ := exists_admits h
    rw [hb.next rfl] at h
    obtain ⟨c, rest, rfl, hc⟩ := exists_admits h
    rw [(admits_iff.mpr hc).next rfl] at h
    obtain ⟨d, rest, rfl, hd⟩ := exists_admits h
    obtain ⟨hsecond, hlow, hhigh⟩ := admits_pendingThree_iff.mp hb
    exact ⟨[a, b, c, d], _, rest, .four hfour hsecond hlow hhigh hc hd rfl, rfl⟩
  · have hfirst : first a = ([none], none) := by
      rw [first_eq]
      grind
    rw [piecesFrom_cons, feed, hfirst] at h
    exact absurd List.mem_cons_self h

/-! ## Texts -/

theorem mapM_id_map_some (text : List Char) : (text.map some).mapM id = some text := by
  induction text with
  | nil => rfl
  | cons c text ih =>
    rw [List.map_cons, List.mapM_cons, ih]
    rfl

theorem not_mem_of_mapM_id {pieces : List (Option Char)} (h : pieces.mapM id = some text) :
    none ∉ pieces := by
  induction pieces generalizing text with
  | nil => exact List.not_mem_nil
  | cons piece pieces ih =>
    rw [List.mapM_cons] at h
    obtain ⟨c, hc, h⟩ := Option.bind_eq_some_iff.mp h
    obtain ⟨text, htext, -⟩ := Option.bind_eq_some_iff.mp h
    intro hm
    rcases List.mem_cons.mp hm with hm | hm
    · rw [id_eq, ← hm] at hc
      cases hc
    · exact ih htext hm

theorem pieces_encode (text : List Char) : pieces (encode text) = text.map some := by
  induction text with
  | nil => rfl
  | cons c text ih =>
    rw [encode, List.flatMap_cons, pieces, (sequence_encodeChar c).piecesFrom_append,
      Char.ofNat_toNat, List.map_cons]
    exact congrArg (some c :: ·) ih

theorem encode_of_pieces {bytes : Bytes} (h : none ∉ pieces bytes) :
    ∃ text, encode text = bytes := by
  match bytes with
  | [] => exact ⟨[], rfl⟩
  | a :: bytes =>
    obtain ⟨start, n, rest, hs, heq⟩ := exists_sequence h
    rw [heq, pieces, hs.piecesFrom_append] at h
    have hlt : rest.length < (a :: bytes).length := by
      rw [heq, List.length_append]
      exact Nat.lt_add_of_pos_left hs.length_pos
    have hrest : none ∉ pieces rest := fun hm => h (List.mem_cons_of_mem _ hm)
    obtain ⟨text, htext⟩ := encode_of_pieces hrest
    refine ⟨Char.ofNat n :: text, ?_⟩
    rw [encode] at htext ⊢
    rw [List.flatMap_cons, hs.encodeChar_ofNat, heq, htext]
termination_by bytes.length
decreasing_by exact hlt

/-- Bytes are decoded exactly when they are the encoding of a text, and then to that text. -/
theorem decode?_eq_some_iff : decode? bytes = some text ↔ encode text = bytes := by
  have hdecode (text : List Char) : decode? (encode text) = some text := by
    rw [decode?, pieces_encode]
    exact mapM_id_map_some text
  constructor
  · intro h
    have hclean : none ∉ pieces bytes := not_mem_of_mapM_id h
    obtain ⟨text', rfl⟩ := encode_of_pieces hclean
    cases (hdecode text').symm.trans h
    rfl
  · rintro rfl
    exact hdecode text

/-- The encoding of a text has no controls, unless the text has. -/
theorem le_of_mem_encode (h : ∀ c ∈ text, 0x20 ≤ c.toNat) : ∀ b ∈ encode text, 0x20 ≤ b.toNat := by
  intro b hb
  obtain ⟨c, hc, hb⟩ := List.mem_flatMap.mp hb
  exact (sequence_encodeChar c).le_toNat (h c hc) b hb

end TreePool.Text

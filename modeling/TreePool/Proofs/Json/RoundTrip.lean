import TreePool.Json.Value
import TreePool.Proofs.Json.Structure

/-! # What is written is read back

A reader of values of any depth and of any size of numbers, and what it makes of the texts that are
written: `Value.parse_compact` and `Value.parse_pretty` give back the value.
-/

namespace TreePool.Json

variable {α : Type} {text start next rest written digits : List Char} {c : Char} {n : Nat}

/-! ## The reader -/

/-- Reads a whole number of any size; it has no leading zeros. -/
def readNatural : Reader Nat
  | [] => refuseNext .endInValue []
  | c :: rest =>
    if c = '0' then .ok (0, rest)
    else if isDigit c then
      .ok (digitsValue ((c :: rest).takeWhile isDigit), (c :: rest).dropWhile isDigit)
    else refuseNext .wantsValue (c :: rest)

def readEntry (read : Reader Value) (key : List Char) (members : List (String × Value))
    (text : List Char) : Except Fault (List (String × Value) × List Char) := do
  let (value, rest) ← read (← readColon text)
  .ok (members ++ [(String.ofList key, value)], rest)

def readValue : Nat → Reader Value
  | 0, text => refuse .endInValue text
  | depth + 1, text => do
    match ← nextValue text with
    | 't' :: rest => .ok (.boolean true, ← readWord ['r', 'u', 'e'] rest)
    | 'f' :: rest => .ok (.boolean false, ← readWord ['a', 'l', 's', 'e'] rest)
    | '"' :: rest =>
      let (text, rest) ← readString rest
      .ok (.string text, rest)
    | '[' :: rest =>
      let (items, rest) ← readElements (readValue depth) (rest.length + 1) true rest
      .ok (.list items, rest)
    | '\x7b' :: rest =>
      let (members, rest) ← readMembers (readEntry (readValue depth)) (rest.length + 1) true [] rest
      .ok (.object members, rest)
    | '-' :: rest =>
      let (n, rest) ← readNatural rest
      .ok (.integer (-n), rest)
    | text =>
      let (n, rest) ← readNatural text
      .ok (.integer n, rest)

/-- The value that a text is. A value is no deeper than its text is long. -/
def Value.parse (text : List Char) : Except Error Value := readWhole (readValue text.length) text

/-! ## Strings -/

theorem hexByte_eq (hn : n < 32) : ∃ a b i j, hexByte n = [a, b] ∧ hexDigit? a = some i ∧
    hexDigit? b = some j ∧ i * 16 + j = n := by
  have hall : ∀ n < 32, hexByte n = [Nat.digitChar (n / 16), Nat.digitChar (n % 16)] ∧
      hexDigit? (Nat.digitChar (n / 16)) = some (n / 16) ∧
      hexDigit? (Nat.digitChar (n % 16)) = some (n % 16) := by decide
  obtain ⟨hbyte, hhigh, hlow⟩ := hall n hn
  exact ⟨_, _, _, _, hbyte, hhigh, hlow, Nat.div_add_mod' n 16⟩

theorem spelling_writeChar {value : List Char} (h : Spelling text value rest) :
    Spelling (writeChar c ++ text) (c :: value) rest := by
  unfold writeChar
  split
  case h_8 hquote hslash _ _ _ _ _ =>
    split
    · next hc =>
      have hn : c.toNat < 32 := UInt32.lt_iff_toNat_lt.mp hc
      obtain ⟨a, b, i, j, hbyte, ha, hb, heq⟩ := hexByte_eq hn
      have hunit : HexUnit ('0' :: '0' :: a :: b :: text) (((0 * 16 + 0) * 16 + i) * 16 + j) text :=
        .digits rfl rfl ha hb
      have hnumber : ((0 * 16 + 0) * 16 + i) * 16 + j = c.toNat := by omega
      rw [hnumber] at hunit
      have hescape := Escape.unit hunit (by simp [isHighSurrogate]; omega)
        (by simp [isLowSurrogate]; omega)
      rw [Char.ofNat_toNat] at hescape
      rw [hbyte]
      exact .escape hescape h
    · next hc => exact .plain ⟨hquote, hslash, hc⟩ h
  all_goals exact .escape (.simple rfl) h

theorem spelling_writeString (text rest : List Char) :
    Spelling (text.flatMap writeChar ++ '"' :: rest) text rest := by
  induction text with
  | nil => exact .close
  | cons c text ih =>
    rw [List.flatMap_cons, List.append_assoc]
    exact spelling_writeChar ih

/-! ## Numbers -/

theorem isDigit_eq (c : Char) : isDigit c = c.isDigit := by
  unfold isDigit Char.isDigit
  rfl

theorem isDigit_of_mem_toDigits (hc : c ∈ Nat.toDigits 10 n) : isDigit c = true := by
  rw [isDigit_eq]
  exact Nat.isDigit_of_mem_toDigits (by decide) (by decide) hc

theorem digitsValue_toDigits (n : Nat) : digitsValue (Nat.toDigits 10 n) = n := by
  have hvalue := @Nat.ofDigitChars_ten_toDigits n
  rw [Nat.ofDigitChars_eq_foldl] at hvalue
  unfold digitsValue digitValue
  simpa only [Nat.mul_comm] using hvalue

theorem exists_toDigits_eq (hn : n ≠ 0) :
    ∃ c digits, Nat.toDigits 10 n = c :: digits ∧ c ≠ '0' := by
  induction n using Nat.strongRecOn with
  | ind n ih =>
    rw [Nat.toDigits_eq_if (by decide)]
    split
    · next hlt =>
      have hdigit : ∀ n < 10, n ≠ 0 → n.digitChar ≠ '0' := by decide
      exact ⟨n.digitChar, [], rfl, hdigit n hlt hn⟩
    · next hle =>
      obtain ⟨c, digits, hdigits, hc⟩ := ih (n / 10) (by omega) (by omega)
      exact ⟨c, digits ++ [(n % 10).digitChar], by rw [hdigits, List.cons_append], hc⟩

theorem NoDigit.append {digits : List Char} (hr : NoDigit rest)
    (hall : ∀ c ∈ digits, isDigit c = true) :
    (digits ++ rest).takeWhile isDigit = digits ∧ (digits ++ rest).dropWhile isDigit = rest := by
  have hrest : rest.takeWhile isDigit = [] ∧ rest.dropWhile isDigit = rest := by
    cases rest with
    | nil => exact ⟨rfl, rfl⟩
    | cons c rest =>
      have hc : isDigit c = false := hr c rfl
      simp [hc]
  rw [List.takeWhile_append_of_pos hall, List.dropWhile_append_of_pos hall, hrest.1, hrest.2,
    List.append_nil]
  exact ⟨rfl, rfl⟩

theorem readNatural_toDigits (hr : NoDigit rest) :
    readNatural (Nat.toDigits 10 n ++ rest) = .ok (n, rest) := by
  by_cases hn : n = 0
  · rw [hn]
    rfl
  · obtain ⟨c, digits, hdigits, hc⟩ := exists_toDigits_eq hn
    have hall : ∀ d ∈ c :: digits, isDigit d = true := fun d hd =>
      isDigit_of_mem_toDigits (hdigits ▸ hd)
    obtain ⟨htake, hdrop⟩ := hr.append hall
    have hvalue := digitsValue_toDigits n
    rw [hdigits] at hvalue ⊢
    rw [List.cons_append] at htake hdrop ⊢
    rw [readNatural, if_neg hc, if_pos (hall c List.mem_cons_self), hdrop, htake, hvalue]

theorem exists_toDigits_isDigit (n : Nat) :
    ∃ c digits, Nat.toDigits 10 n = c :: digits ∧ isDigit c = true := by
  obtain ⟨c, digits, hdigits⟩ := List.exists_cons_of_ne_nil (Nat.toDigits_ne_nil (n := n) (b := 10))
  exact ⟨c, digits, hdigits, isDigit_of_mem_toDigits (hdigits ▸ List.mem_cons_self)⟩

/-! ## Parts with commas between them -/

def commaSeparated (parts : List (List Char)) : List Char := [','].intercalate parts

theorem commaSeparated_cons_cons {first second : List Char} {parts : List (List Char)} :
    commaSeparated (first :: second :: parts) =
      first ++ ',' :: commaSeparated (second :: parts) := by
  rw [commaSeparated, List.intercalate_cons_cons, List.append_assoc]
  rfl

theorem commaSeparated_singleton {part : List Char} : commaSeparated [part] = part := by
  simp [commaSeparated]

theorem length_le_commaSeparated {part : List Char} {parts : List (List Char)}
    (h : part ∈ parts) : part.length ≤ (commaSeparated parts).length := by
  induction parts with
  | nil => cases h
  | cons first parts ih =>
    cases parts with
    | nil =>
      obtain rfl := List.mem_singleton.mp h
      exact Nat.le_of_eq (congrArg List.length commaSeparated_singleton.symm)
    | cons second parts =>
      rw [commaSeparated_cons_cons, List.length_append, List.length_cons]
      rcases List.mem_cons.mp h with rfl | h
      · exact Nat.le_add_right _ _
      · have hle := ih h
        omega

theorem commas_commaSeparated {entry : Phrase α} {write : α → List Char} {items : List α}
    {stop : List Char} (hne : items ≠ [])
    (hentry : ∀ a ∈ items, ∀ rest, entry (write a ++ rest) a rest)
    (htrans : ∀ {a : α} {text next rest : List Char}, entry text a next → Blanks next rest →
      entry text a rest)
    (hb : Blanks stop rest) :
    Commas entry (commaSeparated (items.map write) ++ stop) items rest := by
  induction items with
  | nil => exact absurd rfl hne
  | cons item items ih =>
    have hfirst := hentry item List.mem_cons_self
    cases items with
    | nil =>
      rw [List.map_singleton, commaSeparated_singleton]
      exact .last (htrans (hfirst stop) hb)
    | cons second items =>
      have hmore := ih (List.cons_ne_nil _ _) fun a ha => hentry a (List.mem_cons_of_mem _ ha)
      rw [List.map_cons, List.map_cons, commaSeparated_cons_cons, List.append_assoc]
      exact .more (hfirst _) hmore

/-- A function that writes one part for each item and a comma between two. -/
theorem eq_commaSeparated {join : List α → List Char} {write : α → List Char}
    (hnil : join [] = []) (hsingle : ∀ a, join [a] = write a)
    (hcons : ∀ a b items, join (a :: b :: items) = write a ++ ',' :: join (b :: items)) :
    ∀ items, join items = commaSeparated (items.map write)
  | [] => hnil
  | [a] => by rw [hsingle, List.map_singleton, commaSeparated_singleton]
  | a :: b :: items => by
    rw [hcons, eq_commaSeparated hnil hsingle hcons (b :: items)]
    exact commaSeparated_cons_cons.symm

def itemText (lead : List Char) (write : Value → List Char) (item : Value) : List Char :=
  lead ++ write item

def memberText (lead gap : List Char) (write : Value → List Char) (member : String × Value) :
    List Char :=
  lead ++ writeString member.1.toList ++ ':' :: (gap ++ write member.2)

namespace Value

theorem compactItems_eq (items : List Value) :
    compactItems items = commaSeparated (items.map (itemText [] compact)) :=
  eq_commaSeparated rfl (fun _ => rfl) (fun _ _ _ => rfl) items

theorem compactMembers_eq (members : List (String × Value)) :
    compactMembers members = commaSeparated (members.map (memberText [] [] compact)) := by
  have hmember (member : String × Value) :
      compactMember member = memberText [] [] compact member := by
    cases member
    rfl
  refine eq_commaSeparated rfl hmember (fun first second members => ?_) members
  exact congrArg (· ++ ',' :: compactMembers (second :: members)) (hmember first)

theorem prettyItems_eq (level : Nat) (items : List Value) : prettyItems level items =
    commaSeparated (items.map (itemText (newline level) (prettyAt level))) :=
  eq_commaSeparated rfl (fun _ => rfl) (fun _ _ _ => rfl) items

theorem prettyMembers_eq (level : Nat) (members : List (String × Value)) :
    prettyMembers level members =
      commaSeparated (members.map (memberText (newline level) [' '] (prettyAt level))) := by
  have hmember (member : String × Value) :
      prettyMember level member = memberText (newline level) [' '] (prettyAt level) member := by
    cases member
    rfl
  refine eq_commaSeparated rfl hmember (fun first second members => ?_) members
  exact congrArg (· ++ ',' :: prettyMembers level (second :: members)) (hmember first)

end Value

/-! ## Written values -/

/-- Whether a value is written so, on one line or over several. -/
def Value.IsWritten (value : Value) (written : List Char) : Prop :=
  written = value.compact ∨ ∃ level, written = value.prettyAt level

def Written (size : Nat) : Phrase Value := fun text value rest =>
  ∃ written, value.IsWritten written ∧ text = written ++ rest ∧ written.length ≤ size

def WrittenEntry (size : Nat) (key : List Char) : Phrase (String × Value) := fun text entry rest =>
  entry.1 = String.ofList key ∧ Written size text entry.2 rest

theorem blanks_newline (level : Nat) (rest : List Char) :
    Blanks (Value.newline level ++ rest) rest := by
  have hspaces (n : Nat) : Blanks (List.replicate n ' ' ++ rest) rest := by
    induction n with
    | zero => exact .done
    | succ n ih => exact .blank rfl ih
  exact .blank rfl (hspaces (2 * level))

section parts

variable {lead gap stop : List Char} {write : Value → List Char} {size : Nat}

theorem enclosed_items {items : List Value} (hlead : ∀ rest, Blanks (lead ++ rest) rest)
    (hwrite : ∀ item : Value, item.IsWritten (write item))
    (hsize : (commaSeparated (items.map (itemText lead write))).length ≤ size)
    (hstop : Blanks stop (']' :: rest)) :
    Enclosed ']' (Padded (Written size)) (commaSeparated (items.map (itemText lead write)) ++ stop)
      items rest := by
  by_cases hne : items = []
  · rw [hne]
    exact .empty hstop
  have hentry (item : Value) (hitem : item ∈ items) (rest : List Char) :
      Padded (Written size) (itemText lead write item ++ rest) item rest := by
    have hle := length_le_commaSeparated (List.mem_map_of_mem (f := itemText lead write) hitem)
    rw [itemText, List.length_append] at hle
    rw [itemText, List.append_assoc]
    exact ⟨_, rest, hlead _, ⟨write item, hwrite item, rfl, by omega⟩, .done⟩
  exact .filled (commas_commaSeparated hne hentry Padded.trans hstop)

theorem enclosed_members {members : List (String × Value)}
    (hlead : ∀ rest, Blanks (lead ++ rest) rest) (hgap : ∀ rest, Blanks (gap ++ rest) rest)
    (hwrite : ∀ value : Value, value.IsWritten (write value))
    (hsize : (commaSeparated (members.map (memberText lead gap write))).length ≤ size)
    (hstop : Blanks stop ('\x7d' :: rest)) :
    Enclosed '\x7d' (Member (WrittenEntry size))
      (commaSeparated (members.map (memberText lead gap write)) ++ stop) members rest := by
  by_cases hne : members = []
  · rw [hne]
    exact .empty hstop
  have hentry (member : String × Value) (hmember : member ∈ members) (rest : List Char) :
      Member (WrittenEntry size) (memberText lead gap write member ++ rest) member rest := by
    have hle := length_le_commaSeparated
      (List.mem_map_of_mem (f := memberText lead gap write) hmember)
    simp only [memberText, List.length_append, List.length_cons] at hle
    have htext : memberText lead gap write member ++ rest =
        lead ++ '"' :: (member.1.toList.flatMap writeChar ++
          '"' :: (':' :: (gap ++ (write member.2 ++ rest)))) := by
      simp [memberText, writeString]
    have hvalue : WrittenEntry size member.1.toList (write member.2 ++ rest) member rest :=
      ⟨String.ofList_toList.symm, write member.2, hwrite member.2, rfl, by omega⟩
    rw [htext]
    exact ⟨_, _, _, _, hlead _, spelling_writeString _ _, .done, _, rest, hgap _, hvalue, .done⟩
  exact .filled (commas_commaSeparated hne hentry Member.trans hstop)

end parts

namespace Value

theorem isWritten_compact (value : Value) : value.IsWritten value.compact := .inl rfl

theorem isWritten_prettyAt (level : Nat) (value : Value) :
    value.IsWritten (value.prettyAt level) := .inr ⟨level, rfl⟩

theorem IsWritten.exists_list {items : List Value} {size : Nat}
    (h : (Value.list items).IsWritten written) (hsize : written.length ≤ size + 1)
    (rest : List Char) : ∃ body, written ++ rest = '[' :: body ∧
      Enclosed ']' (Padded (Written size)) body items rest := by
  have hnone (rest : List Char) : Blanks ([] ++ rest) rest := .done
  obtain rfl | ⟨level, rfl⟩ := h
  · have htext : (Value.list items).compact =
        '[' :: (commaSeparated (items.map (itemText [] compact)) ++ [']']) := by
      rw [← compactItems_eq]
      rfl
    rw [htext, List.cons_append, List.append_assoc]
    simp only [htext, List.length_cons, List.length_append] at hsize
    exact ⟨_, rfl, enclosed_items hnone isWritten_compact (by omega) .done⟩
  · cases items with
    | nil => exact ⟨']' :: rest, rfl, .empty .done⟩
    | cons item items =>
      have htext : (Value.list (item :: items)).prettyAt level =
          '[' :: (commaSeparated ((item :: items).map
            (itemText (newline (level + 1)) (prettyAt (level + 1)))) ++
              newline level ++ [']']) := by
        rw [← prettyItems_eq]
        rfl
      rw [htext, List.cons_append, List.append_assoc, List.append_assoc]
      simp only [htext, List.length_cons, List.length_append] at hsize
      exact ⟨_, rfl, enclosed_items (blanks_newline _) (isWritten_prettyAt _) (by omega)
        (blanks_newline _ _)⟩

theorem IsWritten.exists_object {members : List (String × Value)} {size : Nat}
    (h : (Value.object members).IsWritten written) (hsize : written.length ≤ size + 1)
    (rest : List Char) : ∃ body, written ++ rest = '\x7b' :: body ∧
      Enclosed '\x7d' (Member (WrittenEntry size)) body members rest := by
  have hnone (rest : List Char) : Blanks ([] ++ rest) rest := .done
  have hspace (rest : List Char) : Blanks ([' '] ++ rest) rest := .blank rfl .done
  obtain rfl | ⟨level, rfl⟩ := h
  · have htext : (Value.object members).compact =
        '\x7b' :: (commaSeparated (members.map (memberText [] [] compact)) ++ ['\x7d']) := by
      rw [← compactMembers_eq]
      rfl
    rw [htext, List.cons_append, List.append_assoc]
    simp only [htext, List.length_cons, List.length_append] at hsize
    exact ⟨_, rfl, enclosed_members hnone hnone isWritten_compact (by omega) .done⟩
  · cases members with
    | nil => exact ⟨'\x7d' :: rest, rfl, .empty .done⟩
    | cons member members =>
      have htext : (Value.object (member :: members)).prettyAt level =
          '\x7b' :: (commaSeparated ((member :: members).map
            (memberText (newline (level + 1)) [' '] (prettyAt (level + 1)))) ++ newline level ++
              ['\x7d']) := by
        rw [← prettyMembers_eq]
        rfl
      rw [htext, List.cons_append, List.append_assoc, List.append_assoc]
      simp only [htext, List.length_cons, List.length_append] at hsize
      exact ⟨_, rfl, enclosed_members (blanks_newline _) hspace (isWritten_prettyAt _) (by omega)
        (blanks_newline _ _)⟩

theorem IsWritten.boolean {b : Bool} (h : (Value.boolean b).IsWritten written) :
    written = if b then ['t', 'r', 'u', 'e'] else ['f', 'a', 'l', 's', 'e'] := by
  obtain h | ⟨level, h⟩ := h
  · exact h
  · exact h

theorem IsWritten.integer {n : Int} (h : (Value.integer n).IsWritten written) :
    written = writeInteger n := by
  obtain h | ⟨level, h⟩ := h
  · exact h
  · exact h

theorem IsWritten.string {value : List Char} (h : (Value.string value).IsWritten written) :
    written = writeString value := by
  obtain h | ⟨level, h⟩ := h
  · exact h
  · exact h

theorem IsWritten.exists_cons {value : Value} (h : value.IsWritten written) :
    ∃ c next, written = c :: next ∧ isBlank c = false ∧ c ≠ ']' := by
  cases value with
  | boolean b =>
    rw [h.boolean]
    cases b <;> exact ⟨_, _, rfl, rfl, by decide⟩
  | integer n =>
    obtain ⟨c, digits, hdigits, hc⟩ := exists_toDigits_isDigit n.natAbs
    rw [h.integer, writeInteger, hdigits]
    split
    · exact ⟨'-', _, rfl, rfl, by decide⟩
    · refine ⟨c, digits, rfl, not_isBlank_of_isDigit hc, ?_⟩
      rintro rfl
      cases hc
  | string value =>
    rw [h.string]
    exact ⟨'"', _, rfl, rfl, by decide⟩
  | list items =>
    obtain ⟨body, hbody, -⟩ := h.exists_list (Nat.le_succ _) []
    rw [List.append_nil] at hbody
    exact ⟨'[', body, hbody, rfl, by decide⟩
  | object members =>
    obtain ⟨body, hbody, -⟩ := h.exists_object (Nat.le_succ _) []
    rw [List.append_nil] at hbody
    exact ⟨'\x7b', body, hbody, rfl, by decide⟩

end Value

/-! ## Reading -/

theorem adds_readEntry {read : Reader Value} {size : Nat} (hread : Accepts read (Written size)) :
    Adds (readEntry read) (WrittenEntry size) fun members entry => some (members ++ [entry]) where
  complete {key text next start rest members members' entry} hc hb h hr hadd := by
    obtain ⟨hkey, hvalue⟩ := h
    cases hadd
    have hvalue := hread.complete hb hvalue hr
    simp only [readEntry, readColon_eq_ok_iff.mpr hc, hvalue, bind, Except.bind, ← hkey]
  shrinks h := hread.shrinks h.2

theorem foldlM_concat (members : List α) (known : List α) :
    members.foldlM (fun known member => some (known ++ [member])) known =
      some (known ++ members) := by
  induction members generalizing known with
  | nil => rw [List.append_nil]; rfl
  | cons member members ih =>
    rw [List.foldlM_cons]
    exact (ih _).trans (by rw [List.append_assoc]; rfl)

theorem readValue_list {depth : Nat} {items : List Value}
    (hread : Accepts (readValue depth) (Written depth))
    (hb : Blanks text ('[' :: start)) (h : Enclosed ']' (Padded (Written depth)) start items rest) :
    readValue (depth + 1) text = .ok (.list items, rest) := by
  have hlength := h.length_le hread.padded_length_lt
  have hitems := h.readElements_eq hread (Nat.lt_succ_of_le hlength)
  refine bind_eq_ok_iff.mpr ⟨_, hb.nextValue_eq rfl, ?_⟩
  exact bind_eq_ok_iff.mpr ⟨_, hitems, rfl⟩

theorem readValue_object {depth : Nat} {members : List (String × Value)}
    (hread : Accepts (readValue depth) (Written depth)) (hb : Blanks text ('\x7b' :: start))
    (h : Enclosed '\x7d' (Member (WrittenEntry depth)) start members rest) :
    readValue (depth + 1) text = .ok (.object members, rest) := by
  have hadds := adds_readEntry hread
  have hlength := h.length_le hadds.member_length_lt
  have hmembers := h.readMembers_eq hadds (foldlM_concat members []) (Nat.lt_succ_of_le hlength)
  refine bind_eq_ok_iff.mpr ⟨_, hb.nextValue_eq rfl, ?_⟩
  exact bind_eq_ok_iff.mpr ⟨_, hmembers, rfl⟩

theorem readValue_integer {depth : Nat} {n : Int} (hb : Blanks text (writeInteger n ++ rest))
    (hr : Stops rest) : readValue (depth + 1) text = .ok (.integer n, rest) := by
  have hnatural := readNatural_toDigits (n := n.natAbs) hr.noDigit
  rw [writeInteger] at hb
  split at hb
  · next hneg =>
    rw [List.cons_append] at hb
    have hn : -(n.natAbs : Int) = n := by omega
    refine bind_eq_ok_iff.mpr ⟨_, hb.nextValue_eq rfl, ?_⟩
    exact bind_eq_ok_iff.mpr ⟨_, hnatural, by simp only [hn]⟩
  · next hnonneg =>
    obtain ⟨c, digits, hdigits, hc⟩ := exists_toDigits_isDigit n.natAbs
    have hn : (n.natAbs : Int) = n := by omega
    rw [hdigits, List.cons_append] at hb hnatural
    refine bind_eq_ok_iff.mpr ⟨_, hb.nextValue_eq (not_isBlank_of_isDigit hc), ?_⟩
    split
    case h_7 => exact bind_eq_ok_iff.mpr ⟨_, hnatural, by simp only [hn]⟩
    all_goals
      next heq =>
        cases heq
        cases hc

theorem readValue_boolean {depth : Nat} {b : Bool}
    (hb : Blanks text ((if b then ['t', 'r', 'u', 'e'] else ['f', 'a', 'l', 's', 'e']) ++ rest)) :
    readValue (depth + 1) text = .ok (.boolean b, rest) := by
  cases b with
  | true =>
    have hb : Blanks text ('t' :: 'r' :: 'u' :: 'e' :: rest) := hb
    refine bind_eq_ok_iff.mpr ⟨_, hb.nextValue_eq rfl, ?_⟩
    exact bind_eq_ok_iff.mpr ⟨rest, readWord_eq_ok_iff.mpr rfl, rfl⟩
  | false =>
    have hb : Blanks text ('f' :: 'a' :: 'l' :: 's' :: 'e' :: rest) := hb
    refine bind_eq_ok_iff.mpr ⟨_, hb.nextValue_eq rfl, ?_⟩
    exact bind_eq_ok_iff.mpr ⟨rest, readWord_eq_ok_iff.mpr rfl, rfl⟩

theorem readValue_string {depth : Nat} {value : List Char}
    (hb : Blanks text (writeString value ++ rest)) :
    readValue (depth + 1) text = .ok (.string value, rest) := by
  rw [writeString, List.cons_append, List.append_assoc] at hb
  refine bind_eq_ok_iff.mpr ⟨_, hb.nextValue_eq rfl, ?_⟩
  exact bind_eq_ok_iff.mpr ⟨_, readString_eq_ok_iff.mpr (spelling_writeString value rest), rfl⟩

theorem Written.starts {size : Nat} {value : Value} (h : Written size text value rest) :
    ∃ c next, text = c :: next ∧ isBlank c = false ∧ c ≠ ']' := by
  obtain ⟨written, hw, rfl, -⟩ := h
  obtain ⟨c, next, rfl, hc⟩ := hw.exists_cons
  exact ⟨c, next ++ rest, rfl, hc⟩

theorem Written.shrinks {size : Nat} {value : Value} (h : Written size text value rest) :
    rest.length < text.length := by
  obtain ⟨written, hw, rfl, -⟩ := h
  obtain ⟨c, next, rfl, -⟩ := hw.exists_cons
  simp only [List.length_cons, List.length_append]
  omega

/-- A reader of enough depth reads what is written. -/
theorem accepts_readValue (depth : Nat) : Accepts (readValue depth) (Written depth) := by
  induction depth with
  | zero =>
    have hnone {text rest : List Char} {value : Value} (h : Written 0 text value rest) : False := by
      obtain ⟨written, hw, rfl, hle⟩ := h
      obtain ⟨c, next, rfl, -⟩ := hw.exists_cons
      cases hle
    exact ⟨fun _ h _ => (hnone h).elim, Written.starts, Written.shrinks⟩
  | succ depth ih =>
    have hcomplete {text start rest : List Char} {value : Value} (hb : Blanks text start)
        (h : Written (depth + 1) start value rest) (hr : Stops rest) :
        readValue (depth + 1) text = .ok (value, rest) := by
      obtain ⟨written, hw, rfl, hle⟩ := h
      cases value with
      | boolean b => exact readValue_boolean (hw.boolean ▸ hb)
      | integer n => exact readValue_integer (hw.integer ▸ hb) hr
      | string value => exact readValue_string (hw.string ▸ hb)
      | list items =>
        obtain ⟨body, hbody, hitems⟩ := hw.exists_list hle rest
        exact readValue_list ih (hbody ▸ hb) hitems
      | object members =>
        obtain ⟨body, hbody, hmembers⟩ := hw.exists_object hle rest
        exact readValue_object ih (hbody ▸ hb) hmembers
    exact ⟨hcomplete, Written.starts, Written.shrinks⟩

namespace Value

/-- A value is read back from what is written of it, in either way. -/
theorem IsWritten.parse_eq {value : Value} (h : value.IsWritten written) :
    parse written = .ok value := by
  have hwritten : Written written.length written value [] :=
    ⟨written, h, (List.append_nil written).symm, Nat.le_refl _⟩
  exact (accepts_readValue written.length).readWhole_eq ⟨written, [], .done, hwritten, .done⟩

theorem parse_compact (value : Value) : parse value.compact = .ok value :=
  value.isWritten_compact.parse_eq

theorem parse_pretty (value : Value) : parse value.pretty = .ok value :=
  (value.isWritten_prettyAt 0).parse_eq

end Value

end TreePool.Json

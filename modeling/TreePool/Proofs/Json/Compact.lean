import Mathlib.Tactic.SplitIfs
import TreePool.Json.Value

/-! # Compact JSON

A value that is written compactly has no control characters, since strings escape them and nothing
else has any. So it stands on one line: `newline_not_mem_compact`.
-/

namespace TreePool.Json

def IsVisible (text : List Char) : Prop := ∀ c ∈ text, 32 ≤ c.toNat

namespace IsVisible

variable {first second : List Char} {c : Char}

theorem of_all {text : List Char} (h : text.all fun c => 32 ≤ c.toNat) : IsVisible text := by
  intro c hc
  exact of_decide_eq_true (List.all_eq_true.mp h c hc)

theorem cons (hc : 32 ≤ c.toNat) (h : IsVisible first) : IsVisible (c :: first) :=
  List.forall_mem_cons.mpr ⟨hc, h⟩

theorem append (hf : IsVisible first) (hs : IsVisible second) : IsVisible (first ++ second) := by
  intro c hc
  rcases List.mem_append.mp hc with hc | hc
  · exact hf c hc
  · exact hs c hc

end IsVisible

theorem isVisible_hexByte {n : Nat} (h : n < 32) : IsVisible (hexByte n) := by
  have hall : ∀ n < 32, (hexByte n).all fun c => 32 ≤ c.toNat := by decide
  exact .of_all (hall n h)

theorem isVisible_writeChar (c : Char) : IsVisible (writeChar c) := by
  unfold writeChar
  split
  case h_8 =>
    split_ifs with hc
    · have hescape : IsVisible ['\\', 'u', '0', '0'] := .of_all rfl
      exact hescape.append (isVisible_hexByte (UInt32.lt_iff_toNat_lt.mp hc))
    · intro d hd
      rw [List.mem_singleton.mp hd]
      exact UInt32.le_iff_toNat_le.mp (Char.not_lt.mp hc)
  all_goals exact .of_all rfl

theorem isVisible_writeString (text : List Char) : IsVisible (writeString text) := by
  have htext : IsVisible (text.flatMap writeChar) := by
    intro c hc
    obtain ⟨d, -, hd⟩ := List.mem_flatMap.mp hc
    exact isVisible_writeChar d c hd
  exact (htext.append (.of_all rfl)).cons (by decide)

theorem isVisible_writeInteger (n : Int) : IsVisible (writeInteger n) := by
  have hdigits : IsVisible (Nat.toDigits 10 n.natAbs) := by
    intro c hc
    have hdigit := Nat.isDigit_of_mem_toDigits (by decide) (by decide) hc
    simp only [Char.isDigit, Bool.and_eq_true, decide_eq_true_eq] at hdigit
    exact Nat.le_trans (by decide : 32 ≤ 48) (UInt32.le_iff_toNat_le.mp hdigit.1)
  unfold writeInteger
  split_ifs
  · exact hdigits.cons (by decide)
  · exact hdigits

namespace Value

mutual

theorem isVisible_compact : ∀ value : Value, IsVisible value.compact
  | .boolean true => .of_all rfl
  | .boolean false => .of_all rfl
  | .integer value => isVisible_writeInteger value
  | .string text => isVisible_writeString text
  | .list items => ((isVisible_compactItems items).append (.of_all rfl)).cons (by decide)
  | .object members => ((isVisible_compactMembers members).append (.of_all rfl)).cons (by decide)

theorem isVisible_compactItems : ∀ items : List Value, IsVisible (compactItems items)
  | [] => .of_all rfl
  | [item] => isVisible_compact item
  | item :: next :: rest =>
    (isVisible_compact item).append ((isVisible_compactItems (next :: rest)).cons (by decide))

theorem isVisible_compactMembers :
    ∀ members : List (String × Value), IsVisible (compactMembers members)
  | [] => .of_all rfl
  | [member] => isVisible_compactMember member
  | member :: next :: rest =>
    (isVisible_compactMember member).append
      ((isVisible_compactMembers (next :: rest)).cons (by decide))

theorem isVisible_compactMember :
    ∀ member : String × Value, IsVisible (compactMember member)
  | (key, value) =>
    (isVisible_writeString key.toList).append ((isVisible_compact value).cons (by decide))

end

theorem newline_not_mem_compact (value : Value) : '\n' ∉ value.compact := by
  intro h
  exact absurd (isVisible_compact value _ h) (by decide)

end Value
end TreePool.Json

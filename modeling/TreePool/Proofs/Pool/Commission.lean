import TreePool.Proofs.Pool.Construction
import Mathlib.Tactic.SplitIfs

/-! # Pools that are asked for

Whoever wants a pool gives its size, as a signed number or as a word of 64 bits. A number that is no
size of a pool is refused before there is anything of the pool, and the complaint names it:
`sizes_decide`. A word is named as the signed word with its bits, so that from 2^63 on the complaint
names a negative number for which nobody has asked: `word_misnamed`.
-/

namespace TreePool

/-! ## Words as signed words -/

def int64Max : Nat := 0x7FFFFFFFFFFFFFFF

/-- The signed word with the bits of a word of 64 bits. -/
def signedWord (n : Nat) : Int := if n ≤ int64Max then n else n - wordCount

variable {n : Nat}

theorem signedWord_of_le (h : n ≤ int64Max) : signedWord n = n := if_pos h

theorem signedWord_neg (hn : n < wordCount) (h : int64Max < n) : signedWord n < 0 := by
  rw [signedWord, if_neg (Nat.not_le.mpr h)]
  omega

theorem signedWord_eq_iff (hn : n < wordCount) : signedWord n = n ↔ n ≤ int64Max := by
  refine ⟨fun h => ?_, signedWord_of_le⟩
  by_contra hlt
  have hneg := signedWord_neg hn (Nat.lt_of_not_le hlt)
  omega

theorem emod_wordCount (hn : n < wordCount) : (n : Int) % wordCount = n :=
  Int.emod_eq_of_lt (by omega) (by omega)

theorem signedWord_emod (hn : n < wordCount) : signedWord n % wordCount = n := by
  unfold signedWord
  split_ifs
  · exact emod_wordCount hn
  · rw [Int.sub_emod_right, emod_wordCount hn]

theorem bmod_wordCount (hn : n < wordCount) : Int.bmod n wordCount = signedWord n := by
  rw [Int.bmod_def, emod_wordCount hn]
  unfold signedWord int64Max wordCount
  split_ifs <;> omega

theorem toString_eq_toString_iff {m : Int} : toString m = toString n ↔ m = n := by
  refine ⟨fun h => ?_, fun h => congrArg toString h⟩
  have hdigits : (toString m).toList = Nat.toDigits 10 n := by
    rw [h, Nat.toString_eq_repr, Nat.toList_repr]
  cases m with
  | ofNat k =>
    have hsame : Nat.toDigits 10 k = Nat.toDigits 10 n := Nat.toList_repr.symm.trans hdigits
    have hvalue : k = n := by
      rw [← @Nat.ofDigitChars_ten_toDigits k, hsame, Nat.ofDigitChars_ten_toDigits]
    exact congrArg Int.ofNat hvalue
  | negSucc k =>
    have hminus : '-' ∈ Nat.toDigits 10 n := by
      rw [← hdigits]
      simp [toString, Int.repr]
    cases Nat.isDigit_of_mem_toDigits (by decide) (by decide) hminus

theorem Error.message_invalidSize_eq_iff {k : Int} : (Error.invalidSize k).message =
    "invalid pool size " ++ toString n ++ ": must be at least 1" ↔ k = n := by
  change "invalid pool size " ++ toString k ++ ": must be at least 1" = _ ↔ _
  rw [String.append_left_inj, String.append_right_inj, toString_eq_toString_iff]

namespace Pool

variable {ε : Type} {pool : Pool ε} {size : Int}

/-! ## Sizes -/

theorem sizeOfInt_of_lt (h : size < 1) : sizeOfInt size = .error (.invalidSize size) := if_pos h

theorem sizeOfInt_of_le (h : 1 ≤ size) : sizeOfInt size = .ok size.toNat := if_neg (by omega)

theorem sizeOfWord_of_le (h : n ≤ int32Max) : sizeOfWord n = sizeOfInt n := if_pos h

theorem sizeOfWord_of_lt (hn : n < wordCount) (h : int32Max < n) :
    sizeOfWord n = .error (.invalidSize (signedWord n)) := by
  rw [sizeOfWord, if_neg (Nat.not_le.mpr h), bmod_wordCount hn]

theorem built?_eq_some {answer : Except Error Unit} (h : pool.built? = some answer) :
    answer = .ok () ∨ ∃ cause, answer = .error (.io cause) := by
  cases hf : pool.failure with
  | none =>
    rw [built?_of_no_failure hf] at h
    split_ifs at h
    exact .inl (Option.some.inj h).symm
  | some cause =>
    rw [built?_of_failure hf] at h
    split_ifs at h
    exact .inr ⟨cause, (Option.some.inj h).symm⟩

/-- The threads of a pool bring any attempt to build it to its end. -/
theorem Reachable.exists_built? (h : Reachable pool) : ∃ actions next,
    (∀ action ∈ actions, action.isOwn) ∧ pool.play? actions = some next ∧ next.built?.isSome := by
  obtain ⟨actions, next, hown, hp, hn⟩ := h.exists_play?_not_acts
  refine ⟨actions, next, hown, hp, Option.isSome_iff_ne_none.mpr fun hb => ?_⟩
  exact hn ((h.play? hp).acts_of_built? hb)

end Pool

/-! ## Commissions -/

inductive Commission (ε : Type) where
  /-- Refused, before there was anything of the pool. -/
  | refused (error : Error)
  /-- The pool is being built, or has been. -/
  | taken (pool : Pool ε)

namespace Commission

variable {ε : Type} {next : Commission ε} {pool : Pool ε} {actions : List (Action ε)}
variable {error : Error} {fragile : Bool}

def ofSize (fragile : Bool) : Except Error Nat → Commission ε
  | .error error => .refused error
  | .ok size => .taken (.start size fragile)

def ofInt (size : Int) (fragile : Bool) : Commission ε := ofSize fragile (Pool.sizeOfInt size)

/-- A pool is asked for by a word. Its logger never panics. -/
def ofWord (size : Nat) : Commission ε := ofSize false (Pool.sizeOfWord size)

def step? : Commission ε → Action ε → Option (Commission ε)
  | refused _, _ => none
  | taken pool, action => (pool.step? action).map taken

abbrev play? (commission : Commission ε) (actions : List (Action ε)) : Option (Commission ε) :=
  after? step? commission actions

def threads : Commission ε → Nat
  | refused _ => 0
  | taken pool => pool.workers.length

def answer? : Commission ε → Option (Except Error Unit)
  | refused error => some (.error error)
  | taken pool => pool.built?

theorem play?_refused (h : (refused error : Commission ε).play? actions = some next) :
    actions = [] ∧ next = refused error := by
  cases actions with
  | nil => exact ⟨rfl, (Option.some.inj h).symm⟩
  | cons action actions => cases h

theorem play?_taken (pool : Pool ε) (actions : List (Action ε)) :
    (taken pool).play? actions = (pool.play? actions).map taken := by
  induction actions generalizing pool with
  | nil => rfl
  | cons action actions ih =>
    rw [play?, Pool.play?, after?, after?, step?]
    cases pool.step? action with
    | none => rfl
    | some next => exact ih next

theorem exists_pool_of_play?_taken (h : (taken pool).play? actions = some next) :
    ∃ moved, pool.play? actions = some moved ∧ next = taken moved := by
  rw [play?_taken] at h
  obtain ⟨moved, hp, rfl⟩ := Option.map_eq_some_iff.mp h
  exact ⟨moved, hp, rfl⟩

/-- How a number is taken by which a pool is asked for: as a size, or as none. -/
structure SizeDecides (commission : Commission ε) (isSize : Prop) (told : Int) : Prop where
  /-- There is a complaint about a number that is no size, at once, and never about a size. -/
  complaint : ∀ actions next, commission.play? actions = some next → ∀ number,
    next.answer? = some (.error (.invalidSize number)) ↔ ¬ isSize ∧ number = told
  /-- Where there is one, nothing happens. -/
  idle : ¬ isSize → ∀ actions next, commission.play? actions = some next →
    actions = [] ∧ next.threads = 0
  /-- However far the building has got, the threads of the pool bring it to its end. -/
  answered : isSize → ∀ actions next, commission.play? actions = some next →
    ∃ more last, (∀ action ∈ more, action.isOwn) ∧ next.play? more = some last ∧
      (last.answer? = some (.ok ()) ∨ ∃ cause, last.answer? = some (.error (.io cause)))

namespace SizeDecides

variable {isSize : Prop} {told : Int}

theorem of_refused (h : ¬ isSize) :
    SizeDecides (refused (.invalidSize told) : Commission ε) isSize told where
  complaint actions next hp number := by
    obtain ⟨-, rfl⟩ := play?_refused hp
    simp only [answer?, Option.some.injEq, Except.error.injEq, Error.invalidSize.injEq, h,
      not_false_iff, true_and]
    exact eq_comm
  idle _ actions next hp := by
    obtain ⟨hnil, rfl⟩ := play?_refused hp
    exact ⟨hnil, rfl⟩
  answered hs := absurd hs h

theorem of_taken {size : Nat} (h : isSize) (hsize : 1 ≤ size) :
    SizeDecides (taken (.start size fragile) : Commission ε) isSize told where
  complaint actions next hp number := by
    obtain ⟨moved, -, rfl⟩ := exists_pool_of_play?_taken hp
    refine ⟨fun ha => ?_, fun hn => absurd h hn.1⟩
    rcases Pool.built?_eq_some ha with he | ⟨cause, he⟩ <;> cases he
  idle hs := absurd h hs
  answered _ actions next hp := by
    obtain ⟨moved, hmoved, rfl⟩ := exists_pool_of_play?_taken hp
    have hr := (Pool.Reachable.start fragile hsize).play? hmoved
    obtain ⟨more, last, hown, hmore, hb⟩ := hr.exists_built?
    obtain ⟨answer, ha⟩ := Option.isSome_iff_exists.mp hb
    refine ⟨more, taken last, hown, ?_, ?_⟩
    · rw [play?_taken, hmore, Option.map_some]
    · rcases Pool.built?_eq_some ha with rfl | ⟨cause, rfl⟩
      · exact .inl ha
      · exact .inr ⟨cause, ha⟩

end SizeDecides

theorem sizeDecides_ofInt (size : Int) (fragile : Bool) :
    SizeDecides (ofInt size fragile : Commission ε) (1 ≤ size) size := by
  unfold ofInt
  by_cases h : 1 ≤ size
  · rw [Pool.sizeOfInt_of_le h]
    exact .of_taken h (by omega)
  · rw [Pool.sizeOfInt_of_lt (by omega)]
    exact .of_refused h

theorem ofWord_eq_ofInt (h : n ≤ int32Max) : (ofWord n : Commission ε) = ofInt n false := by
  rw [ofWord, Pool.sizeOfWord_of_le h, ofInt]

theorem sizeDecides_ofWord (hn : n < wordCount) :
    SizeDecides (ofWord n : Commission ε) (1 ≤ n ∧ n ≤ int32Max) (signedWord n) := by
  by_cases h : n ≤ int32Max
  · have hsize : (1 : Int) ≤ n ↔ 1 ≤ n ∧ n ≤ int32Max := by omega
    rw [ofWord_eq_ofInt h, signedWord_of_le (Nat.le_trans h (by decide)), ← hsize]
    exact sizeDecides_ofInt n false
  · rw [ofWord, Pool.sizeOfWord_of_lt hn (Nat.lt_of_not_le h)]
    exact .of_refused fun hs => h hs.2

/-- How the numbers are taken by which pools are asked for. -/
structure SizesDecide (ε : Type) : Prop where
  signed : ∀ size fragile, SizeDecides (ofInt size fragile : Commission ε) (1 ≤ size) size
  word : ∀ n < wordCount,
    SizeDecides (ofWord n : Commission ε) (1 ≤ n ∧ n ≤ int32Max) (signedWord n)
  /-- The number in the complaint about a word is the word itself up to the largest signed one, -/
  carried : ∀ n < wordCount, signedWord n = n ↔ n ≤ int64Max
  /-- and so it is in print. -/
  printed : ∀ n < wordCount, (Error.invalidSize (signedWord n)).message =
    "invalid pool size " ++ toString n ++ ": must be at least 1" ↔ n ≤ int64Max
  /-- In any case the word can be told from it. -/
  recovered : ∀ n < wordCount, signedWord n % wordCount = n
  /-- It does not matter in which of two ways a pool is asked for. -/
  agree : ∀ n, 1 ≤ n → n ≤ int32Max → (ofWord n : Commission ε) = ofInt n false ∧
    (ofInt n false : Commission ε) = taken (.start n false)

/-- A pool is refused just when the number for which it is asked is no size, and no thread is
started for it then. The complaint names a signed number itself, and a word as the signed word with
its bits. -/
theorem sizes_decide : SizesDecide ε where
  signed := sizeDecides_ofInt
  word _ hn := sizeDecides_ofWord hn
  carried _ hn := signedWord_eq_iff hn
  printed _ hn := Error.message_invalidSize_eq_iff.trans (signedWord_eq_iff hn)
  recovered _ hn := signedWord_emod hn
  agree n h hn := by
    refine ⟨ofWord_eq_ofInt hn, ?_⟩
    rw [ofInt, Pool.sizeOfInt_of_le (by omega)]
    rfl

/-- Whoever asks for 2^63 workers is told about as many below zero. -/
theorem word_misnamed : ∃ number,
    (ofWord 0x8000000000000000 : Commission Nat).answer? =
      some (.error (.invalidSize number)) ∧
    number ≠ 0x8000000000000000 ∧
    (Error.invalidSize number).message =
      "invalid pool size -9223372036854775808: must be at least 1" :=
  ⟨-0x8000000000000000, rfl, by decide, by decide +kernel⟩

end Commission
end TreePool

import TreePool.Proofs.Json.Skip

/-! # Lists and objects

A list is read as its grammar says when its elements are, and an object when its members are.
Reading an object gathers what its members stand for: `Gathers` says what reading one member has to
do for that, and then `readMembers` does it for all of them.
-/

namespace TreePool.Json

variable {α β σ : Type} {text start next rest key : List Char} {c : Char} {a : α} {as : List α}

/-! ## Strings -/

theorem recognises_readStringValue : Recognises readStringValue StringPhrase where
  sound {text rest value} h := by
    obtain ⟨start, hs, h⟩ := bind_eq_ok_iff.mp h
    have hblanks := (nextValue_eq_ok_iff.mp hs).1
    split at h
    · exact ⟨_, hblanks, _, rfl, readString_eq_ok_iff.mp h⟩
    · exact absurd h refuseType_ne_ok
  complete {text start rest value} hb h hr := by
    obtain ⟨body, rfl, hs⟩ := h
    rw [readStringValue, hb.nextValue_eq rfl]
    exact readString_eq_ok_iff.mpr hs
  starts {text rest value} h := by
    obtain ⟨body, rfl, -⟩ := h
    exact ⟨'"', body, rfl, rfl, by decide⟩
  shrinks {text rest value} h := by
    obtain ⟨body, rfl, hs⟩ := h
    exact Nat.lt_succ_of_lt hs.length_lt

/-! ## Entries behind one another -/

theorem Padded.trans {value : Phrase α} (h : Padded value text a next) (hb : Blanks next rest) :
    Padded value text a rest := by
  obtain ⟨start, stop, hs, hv, hr⟩ := h
  exact ⟨start, stop, hs, hv, hr.trans hb⟩

theorem Member.trans {value : List Char → Phrase α} (h : Member value text a next)
    (hb : Blanks next rest) : Member value text a rest := by
  obtain ⟨body, key, behind, inner, hs, hk, hc, hv⟩ := h
  exact ⟨body, key, behind, inner, hs, hk, hc, hv.trans hb⟩

inductive Follow (closing : Char) (entry : Phrase α) : Phrase (List α)
  | close {text rest : List Char} (hb : Blanks text (closing :: rest)) :
      Follow closing entry text [] rest
  | more {text next rest : List Char} {as : List α} (hb : Blanks text (',' :: next))
      (h : Commas entry next as (closing :: rest)) : Follow closing entry text as rest

theorem Follow.commas {closing : Char} {entry : Phrase α}
    (htrans : ∀ {next rest : List Char}, entry text a next → Blanks next rest → entry text a rest)
    (h : entry text a next) (hf : Follow closing entry next as rest) :
    Commas entry text (a :: as) (closing :: rest) := by
  cases hf with
  | close hb => exact .last (htrans h hb)
  | more hb hm => exact .more (htrans h hb) hm

theorem Commas.length_le {entry : Phrase α}
    (hentry : ∀ {text rest : List Char} {a : α}, entry text a rest → rest.length < text.length)
    (h : Commas entry text as rest) : as.length ≤ text.length := by
  induction h with
  | last h => exact Nat.succ_le_of_lt (Nat.zero_lt_of_lt (hentry h))
  | more h _ ih =>
    have hlt := hentry h
    simp only [List.length_cons] at hlt ⊢
    omega

theorem Enclosed.length_le {closing : Char} {entry : Phrase α}
    (hentry : ∀ {text rest : List Char} {a : α}, entry text a rest → rest.length < text.length)
    (h : Enclosed closing entry text as rest) : as.length ≤ text.length := by
  cases h with
  | empty => exact Nat.zero_le _
  | filled h => exact h.length_le hentry

/-! ## Lists -/

inductive Continues : Bool → List Char → Bool → List Char → Prop
  | close {first : Bool} {text rest : List Char} (hb : Blanks text (']' :: rest)) :
      Continues first text false (']' :: rest)
  | first {c : Char} {text rest : List Char} (hb : Blanks text (c :: rest))
      (hc : isBlank c = false ∧ c ≠ ']') : Continues true text true (c :: rest)
  | comma {c : Char} {text after rest : List Char} (hb : Blanks text (',' :: after))
      (ha : Blanks after (c :: rest)) (hc : isBlank c = false ∧ c ≠ ']') :
      Continues false text true (c :: rest)

theorem continues_of_nextElement {first more : Bool}
    (h : nextElement first text = .ok (more, next)) : Continues first text more next := by
  unfold nextElement at h
  split at h
  · cases h
  · next c after hcons =>
    obtain ⟨hb, hblank⟩ := skipBlanks_eq_cons_iff.mp hcons
    split at h
    · next hc =>
      cases h
      rw [hc] at hb ⊢
      exact .close hb
    · next hc =>
      split at h
      · next hfirst =>
        cases h
        rw [hfirst]
        exact .first hb ⟨hblank, hc⟩
      · next hfirst =>
        rw [eq_false_of_ne_true hfirst]
        split at h
        · next hcomma =>
          rw [hcomma] at hb
          split at h
          · cases h
          · cases h
          · next inner hnil hclosing =>
            cases h
            obtain ⟨d, behind, hd⟩ := List.exists_cons_of_ne_nil hnil
            obtain ⟨ha, hblank⟩ := skipBlanks_eq_cons_iff.mp hd
            rw [hd]
            apply Continues.comma hb ha ⟨hblank, ?_⟩
            rintro rfl
            exact hclosing behind hd
        · cases h

theorem Continues.of_closing {first more : Bool} (h : Continues first (']' :: text) more next) :
    more = false ∧ next = ']' :: text := by
  cases h with
  | close hb => exact ⟨rfl, hb.eq_of_not_isBlank rfl⟩
  | first hb hc =>
    cases hb.eq_of_not_isBlank rfl
    exact absurd rfl hc.2
  | comma hb => cases hb.eq_of_not_isBlank rfl

theorem Continues.nextElement_eq {first more : Bool} (h : Continues first text more next) :
    nextElement first text = .ok (more, next) := by
  cases h with
  | close hb =>
    simp only [nextElement, hb.skipBlanks_cons rfl, if_true]
  | first hb hc =>
    simp only [nextElement, hb.skipBlanks_cons hc.1, if_neg hc.2, if_true]
  | @comma c _ after behind hb ha hc =>
    have hcomma : ',' ≠ ']' := by decide
    simp only [nextElement, hb.skipBlanks_cons rfl, if_neg hcomma, ha.skipBlanks_cons hc.1, if_true,
      Bool.false_eq_true, if_false]
    split
    · next heq => cases heq
    · next heq =>
      cases heq
      exact absurd rfl hc.2
    · rfl

theorem Recognises.padded {read : Reader α} {value : Phrase α} (hv : Recognises read value)
    (hb : Blanks text start) (h : read start = .ok (a, next)) (hr : Blanks next rest) :
    Padded value text a rest := by
  obtain ⟨inner, hs, hvalue⟩ := hv.sound h
  exact ⟨inner, next, hb.trans hs, hvalue, hr⟩

theorem Accepts.exists_element {read : Reader α} {value : Phrase α} (hv : Accepts read value)
    {first : Bool} (h : Padded value start a rest) (hr : Stops rest)
    (hnext : ∀ {c : Char} {after : List Char}, Blanks start (c :: after) →
      isBlank c = false ∧ c ≠ ']' → Continues first text true (c :: after)) :
    ∃ inner next, nextElement first text = .ok (true, inner) ∧ read inner = .ok (a, next) ∧
      Blanks next rest := by
  obtain ⟨inner, next, hs, hvalue, hb⟩ := h
  obtain ⟨c, after, rfl, hc⟩ := hv.starts hvalue
  have hread := hv.complete .done hvalue (hb.stops hr)
  exact ⟨c :: after, next, (hnext hs hc).nextElement_eq, hread, hb⟩

/-- Elements are read as the grammar says, from the first one or from behind one. -/
theorem enclosed_of_readElements {read : Reader α} {value : Phrase α} (hv : Recognises read value)
    {fuel : Nat} {first : Bool} (h : readElements read fuel first text = .ok (as, rest)) :
    (if first then Enclosed ']' (Padded value) else Follow ']' (Padded value)) text as rest := by
  induction fuel generalizing first text as with
  | zero => cases h
  | succ fuel ih =>
    obtain ⟨⟨more, next⟩, hnext, h⟩ := bind_eq_ok_iff.mp h
    have hcontinues := continues_of_nextElement hnext
    cases more with
    | false =>
      cases h
      cases hcontinues with
      | close hb =>
        cases first with
        | false => exact .close hb
        | true => exact .empty hb
    | true =>
      obtain ⟨⟨a, behind⟩, hread, h⟩ := bind_eq_ok_iff.mp h
      obtain ⟨⟨as', rest'⟩, hmore, h⟩ := bind_eq_ok_iff.mp h
      cases h
      obtain ⟨start, hs, hvalue⟩ := hv.sound hread
      have hfollow : Follow ']' (Padded value) behind as' rest := ih hmore
      have hcommas {text : List Char} (hb : Blanks text next) :
          Commas (Padded value) text (a :: as') (']' :: rest) :=
        hfollow.commas Padded.trans ⟨start, behind, hb.trans hs, hvalue, .done⟩
      cases hcontinues with
      | first hb => exact .filled (hcommas hb)
      | comma hb ha => exact .more hb (hcommas ha)

theorem readElements_nil {read : Reader α} {fuel : Nat} {first : Bool}
    (hb : Blanks text (']' :: rest)) :
    readElements read (fuel + 1) first text = .ok ([], rest) :=
  bind_eq_ok_iff.mpr ⟨_, (Continues.close hb).nextElement_eq, rfl⟩

theorem readElements_cons {read : Reader α} {fuel : Nat} {first : Bool}
    (hnext : nextElement first text = .ok (true, start)) (hread : read start = .ok (a, next))
    (hmore : readElements read fuel false next = .ok (as, rest)) :
    readElements read (fuel + 1) first text = .ok (a :: as, rest) := by
  refine bind_eq_ok_iff.mpr ⟨_, hnext, bind_eq_ok_iff.mpr ⟨_, hread, ?_⟩⟩
  exact bind_eq_ok_iff.mpr ⟨_, hmore, rfl⟩

theorem Commas.readElements_eq {read : Reader α} {value : Phrase α} (hv : Accepts read value)
    {fuel : Nat} {first : Bool} (h : Commas (Padded value) start as (']' :: rest))
    (hnext : ∀ {c : Char} {after : List Char}, Blanks start (c :: after) →
      isBlank c = false ∧ c ≠ ']' → Continues first text true (c :: after))
    (hfuel : as.length < fuel) : readElements read fuel first text = .ok (as, rest) := by
  generalize hend : ']' :: rest = closing at h
  induction h generalizing fuel first text with
  | last hentry =>
    rw [← hend] at hentry
    obtain ⟨inner, next, hstart, hread, hr⟩ :=
      hv.exists_element hentry (stops_closing .list) hnext
    obtain ⟨fuel, rfl⟩ : ∃ left, fuel = left + 2 := Nat.exists_eq_add_of_le' hfuel
    exact readElements_cons hstart hread (readElements_nil hr)
  | more hentry _ ih =>
    obtain ⟨inner, next, hstart, hread, hr⟩ := hv.exists_element hentry stops_comma hnext
    obtain ⟨fuel, rfl⟩ : ∃ left, fuel = left + 1 :=
      Nat.exists_eq_add_of_le' (Nat.zero_lt_of_lt hfuel)
    have hmore := ih (.comma hr) (Nat.lt_of_succ_lt_succ hfuel) hend
    exact readElements_cons hstart hread hmore

theorem Enclosed.readElements_eq {read : Reader α} {value : Phrase α} (hv : Accepts read value)
    {fuel : Nat} (h : Enclosed ']' (Padded value) text as rest) (hfuel : as.length < fuel) :
    readElements read fuel true text = .ok (as, rest) := by
  cases h with
  | empty hb =>
    obtain ⟨fuel, rfl⟩ : ∃ left, fuel = left + 1 := Nat.exists_eq_add_of_le' hfuel
    exact readElements_nil hb
  | filled h => exact h.readElements_eq hv .first hfuel

theorem Accepts.padded_length_lt {read : Reader α} {value : Phrase α} (hv : Accepts read value)
    (h : Padded value text a rest) : rest.length < text.length := by
  obtain ⟨start, stop, hs, hvalue, hr⟩ := h
  exact Nat.lt_of_le_of_lt hr.length_le (Nat.lt_of_lt_of_le (hv.shrinks hvalue) hs.length_le)

theorem Commas.length_lt {entry : Phrase α}
    (hentry : ∀ {text rest : List Char} {a : α}, entry text a rest → rest.length < text.length)
    (h : Commas entry text as rest) : rest.length < text.length := by
  induction h with
  | last h => exact hentry h
  | more h _ ih => exact Nat.lt_trans ih (Nat.lt_of_succ_lt (hentry h))

theorem Enclosed.length_lt {closing : Char} {entry : Phrase α}
    (hentry : ∀ {text rest : List Char} {a : α}, entry text a rest → rest.length < text.length)
    (h : Enclosed closing entry text as rest) : rest.length < text.length := by
  cases h with
  | empty hb => exact hb.length_le
  | filled h => exact Nat.lt_of_succ_lt (h.length_lt hentry)

/-- A list is read as the grammar says when its elements are. -/
theorem Recognises.sequence {read : Reader α} {value : Phrase α} (hv : Recognises read value) :
    Recognises (readSequence read) (ListPhrase value) where
  sound {text rest as} h := by
    obtain ⟨start, hs, h⟩ := bind_eq_ok_iff.mp h
    have hblanks := (nextValue_eq_ok_iff.mp hs).1
    split at h
    · exact ⟨_, hblanks, _, rfl, enclosed_of_readElements hv h⟩
    · exact absurd h refuseType_ne_ok
  complete {text start rest as} hb h _ := by
    obtain ⟨body, rfl, hbody⟩ := h
    rw [readSequence, hb.nextValue_eq rfl]
    exact hbody.readElements_eq hv.toAccepts
      (Nat.lt_succ_of_le (hbody.length_le hv.toAccepts.padded_length_lt))
  starts {text rest as} h := by
    obtain ⟨body, rfl, -⟩ := h
    exact ⟨'[', body, rfl, rfl, by decide⟩
  shrinks {text rest as} h := by
    obtain ⟨body, rfl, hbody⟩ := h
    exact Nat.lt_succ_of_lt (hbody.length_lt hv.toAccepts.padded_length_lt)

/-! ## Objects -/

inductive KeyFollows : Bool → Phrase (Option (List Char))
  | close {first : Bool} {text rest : List Char} (hb : Blanks text ('\x7d' :: rest)) :
      KeyFollows first text none rest
  | first {text body key rest : List Char} (hb : Blanks text ('"' :: body))
      (hk : Spelling body key rest) : KeyFollows true text (some key) rest
  | comma {text after body key rest : List Char} (hb : Blanks text (',' :: after))
      (ha : Blanks after ('"' :: body)) (hk : Spelling body key rest) :
      KeyFollows false text (some key) rest

theorem keyFollows_of_nextKey {first : Bool} {found : Option (List Char)}
    (h : nextKey first text = .ok (found, rest)) : KeyFollows first text found rest := by
  have hspelling {body : List Char}
      (h : (readString body >>= fun read => .ok (some read.1, read.2)) = .ok (found, rest)) :
      ∃ key, found = some key ∧ Spelling body key rest := by
    obtain ⟨⟨key, rest⟩, hread, h⟩ := bind_eq_ok_iff.mp h
    cases h
    exact ⟨key, rfl, readString_eq_ok_iff.mp hread⟩
  unfold nextKey at h
  dsimp only at h
  split at h
  · cases h
  · next c after hcons =>
    have hb := hcons ▸ blanks_skipBlanks text
    split at h
    · next hc =>
      cases h
      rw [hc] at hb
      exact .close hb
    · split at h
      · next hfirst =>
        split at h
        · next hc =>
          obtain ⟨key, rfl, hk⟩ := hspelling h
          rw [hc] at hb
          rw [hfirst]
          exact .first hb hk
        · cases h
      · next hfirst =>
        rw [eq_false_of_ne_true hfirst]
        split at h
        · next hc =>
          rw [hc] at hb
          split at h
          · cases h
          · next body hquote =>
            obtain ⟨key, rfl, hk⟩ := hspelling h
            exact .comma hb (hquote ▸ blanks_skipBlanks after) hk
          · cases h
          · cases h
        · cases h

theorem KeyFollows.nextKey_eq {first : Bool} {found : Option (List Char)}
    (h : KeyFollows first text found rest) : nextKey first text = .ok (found, rest) := by
  cases h with
  | close hb => simp only [nextKey, hb.skipBlanks_cons rfl, if_true]
  | first hb hk =>
    have hbrace : '"' ≠ '\x7d' := by decide
    simp only [nextKey, hb.skipBlanks_cons rfl, if_neg hbrace, if_true,
      readString_eq_ok_iff.mpr hk, bind, Except.bind]
  | comma hb ha hk =>
    have hbrace : ',' ≠ '\x7d' := by decide
    simp only [nextKey, hb.skipBlanks_cons rfl, if_neg hbrace, Bool.false_eq_true, if_false,
      if_true, ha.skipBlanks_cons rfl, readString_eq_ok_iff.mpr hk, bind, Except.bind]

/-- Reading a member, from behind its key, adds to a state what the member stands for. -/
structure Adds (member : List Char → σ → Reader σ) (value : List Char → Phrase α)
    (add : σ → α → Option σ) : Prop where
  complete {key text next start rest : List Char} {s s' : σ} {a : α}
    (hc : Blanks text (':' :: next)) (hb : Blanks next start) (h : value key start a rest)
    (hr : Stops rest) (ha : add s a = some s') : member key s text = .ok (s', rest)
  shrinks {key text rest : List Char} {a : α} (h : value key text a rest) :
    rest.length < text.length

structure Gathers (member : List Char → σ → Reader σ) (value : List Char → Phrase α)
    (add : σ → α → Option σ) : Prop extends Adds member value add where
  sound {key text rest : List Char} {s s' : σ} (h : member key s text = .ok (s', rest)) :
    ∃ next start a, Blanks text (':' :: next) ∧ Blanks next start ∧ value key start a rest ∧
      add s a = some s'

theorem Adds.member_length_lt {member : List Char → σ → Reader σ} {value : List Char → Phrase α}
    {add : σ → α → Option σ} (hm : Adds member value add) (h : Member value text a rest) :
    rest.length < text.length := by
  obtain ⟨body, key, behind, next, hs, hk, hc, start, stop, hb, hv, hr⟩ := h
  have hkey := hs.length_le
  have hbehind := hk.length_lt
  have hcolon := hc.length_le
  have hblanks := hb.length_le
  have hvalue := hm.shrinks hv
  have hrest := hr.length_le
  simp only [List.length_cons] at hkey hcolon
  omega

/-- Members are read as the grammar says, from the first one or from behind one, and the state gets
what they stand for in their order. -/
theorem enclosed_of_readMembers {member : List Char → σ → Reader σ}
    {value : List Char → Phrase α} {add : σ → α → Option σ} (hm : Gathers member value add)
    {fuel : Nat} {first : Bool} {s s' : σ}
    (h : readMembers member fuel first s text = .ok (s', rest)) :
    ∃ as, (if first then Enclosed '\x7d' (Member value) else Follow '\x7d' (Member value))
      text as rest ∧ as.foldlM add s = some s' := by
  induction fuel generalizing first s text with
  | zero => cases h
  | succ fuel ih =>
    obtain ⟨⟨found, behind⟩, hkey, h⟩ := bind_eq_ok_iff.mp h
    have hfollows := keyFollows_of_nextKey hkey
    cases found with
    | none =>
      cases h
      refine ⟨[], ?_, rfl⟩
      cases hfollows with
      | close hb =>
        cases first with
        | false => exact .close hb
        | true => exact .empty hb
    | some key =>
      obtain ⟨⟨t, stop⟩, hmember, h⟩ := bind_eq_ok_iff.mp h
      obtain ⟨next, start, a, hc, hb, hv, hadd⟩ := hm.sound hmember
      obtain ⟨as, hfollow, hfold⟩ := ih h
      have hfolds : (a :: as).foldlM add s = some s' := by
        rw [List.foldlM_cons, hadd]
        exact hfold
      refine ⟨a :: as, ?_, hfolds⟩
      have hcommas {text body : List Char} (hs : Blanks text ('"' :: body))
          (hk : Spelling body key behind) : Commas (Member value) text (a :: as) ('\x7d' :: rest) :=
        Follow.commas Member.trans ⟨body, key, behind, next, hs, hk, hc, start, stop, hb, hv, .done⟩
          hfollow
      cases hfollows with
      | first hs hk => exact .filled (hcommas hs hk)
      | comma hs ha hk => exact .more hs (hcommas ha hk)

theorem readMembers_nil {member : List Char → σ → Reader σ} {fuel : Nat} {first : Bool} {s : σ}
    (hb : Blanks text ('\x7d' :: rest)) :
    readMembers member (fuel + 1) first s text = .ok (s, rest) :=
  bind_eq_ok_iff.mpr ⟨_, (KeyFollows.close hb).nextKey_eq, rfl⟩

theorem readMembers_cons {member : List Char → σ → Reader σ} {fuel : Nat} {first : Bool}
    {s t s' : σ} (hkey : KeyFollows first text (some key) start)
    (hmember : member key s start = .ok (t, next))
    (hmore : readMembers member fuel false t next = .ok (s', rest)) :
    readMembers member (fuel + 1) first s text = .ok (s', rest) :=
  bind_eq_ok_iff.mpr ⟨_, hkey.nextKey_eq, bind_eq_ok_iff.mpr ⟨_, hmember, hmore⟩⟩

theorem Commas.readMembers_eq {member : List Char → σ → Reader σ} {value : List Char → Phrase α}
    {add : σ → α → Option σ} (hm : Adds member value add) {fuel : Nat} {first : Bool} {s s' : σ}
    (h : Commas (Member value) start as ('\x7d' :: rest))
    (hkey : ∀ {body key behind : List Char}, Blanks start ('"' :: body) →
      Spelling body key behind → KeyFollows first text (some key) behind)
    (hfold : as.foldlM add s = some s') (hfuel : as.length < fuel) :
    readMembers member fuel first s text = .ok (s', rest) := by
  generalize hend : '\x7d' :: rest = closing at h
  induction h generalizing fuel first s text with
  | last hentry =>
    obtain ⟨body, key, behind, next, hs, hk, hc, inner, stop, hb, hv, hr⟩ := hentry
    rw [← hend] at hr
    obtain ⟨fuel, rfl⟩ : ∃ left, fuel = left + 2 := Nat.exists_eq_add_of_le' hfuel
    rw [List.foldlM_cons] at hfold
    obtain ⟨t, hadd, hfold⟩ := Option.bind_eq_some_iff.mp hfold
    cases hfold
    have hmember := hm.complete hc hb hv (hr.stops (stops_closing .object)) hadd
    exact readMembers_cons (hkey hs hk) hmember (readMembers_nil hr)
  | more hentry _ ih =>
    obtain ⟨body, key, behind, next, hs, hk, hc, inner, stop, hb, hv, hr⟩ := hentry
    obtain ⟨fuel, rfl⟩ : ∃ left, fuel = left + 1 :=
      Nat.exists_eq_add_of_le' (Nat.zero_lt_of_lt hfuel)
    rw [List.foldlM_cons] at hfold
    obtain ⟨t, hadd, hfold⟩ := Option.bind_eq_some_iff.mp hfold
    have hmember := hm.complete hc hb hv (hr.stops stops_comma) hadd
    have hmore := ih (.comma hr) hfold (Nat.lt_of_succ_lt_succ hfuel) hend
    exact readMembers_cons (hkey hs hk) hmember hmore

theorem Enclosed.readMembers_eq {member : List Char → σ → Reader σ} {value : List Char → Phrase α}
    {add : σ → α → Option σ} (hm : Adds member value add) {fuel : Nat} {s s' : σ}
    (h : Enclosed '\x7d' (Member value) text as rest) (hfold : as.foldlM add s = some s')
    (hfuel : as.length < fuel) : readMembers member fuel true s text = .ok (s', rest) := by
  cases h with
  | empty hb =>
    obtain ⟨fuel, rfl⟩ : ∃ left, fuel = left + 1 := Nat.exists_eq_add_of_le' hfuel
    cases hfold
    exact readMembers_nil hb
  | filled h => exact h.readMembers_eq hm .first hfold hfuel

/-! ## Members -/

theorem readOnce_eq_ok_iff {name : String} {known : Option α} {read : Reader α} :
    readOnce name known read text = .ok (a, rest) ↔
      known = none ∧ ∃ next, Blanks text (':' :: next) ∧ read next = .ok (a, rest) := by
  unfold readOnce
  cases known with
  | none =>
    rw [if_neg (by simp), bind_eq_ok_iff]
    simp only [readColon_eq_ok_iff, true_and]
  | some value =>
    rw [if_pos (by rfl)]
    apply iff_of_false _ nofun
    split <;> nofun

theorem exists_of_skipMember (h : skipMember text = .ok rest) :
    ∃ next start, Blanks text (':' :: next) ∧ Blanks next start ∧ WellFormed .value start rest := by
  obtain ⟨next, hc, h⟩ := bind_eq_ok_iff.mp h
  obtain ⟨start, hb, hv⟩ := wellFormed_of_skipValue h
  exact ⟨next, start, readColon_eq_ok_iff.mp hc, hb, hv⟩

theorem WellFormed.skipMember_eq (hc : Blanks text (':' :: next)) (hb : Blanks next start)
    (hv : WellFormed .value start rest) (hr : Stops rest) : skipMember text = .ok rest := by
  apply bind_eq_ok_iff.mpr
  exact ⟨next, readColon_eq_ok_iff.mpr hc, (skipValue_eq_ok_iff hr).mpr ⟨start, hb, hv⟩⟩

theorem endSequence_eq_ok_iff : endSequence text = .ok rest ↔ Blanks text (']' :: rest) := by
  constructor
  · intro h
    unfold endSequence at h
    split at h
    · cases h
    · next after hclosing =>
      cases h
      exact hclosing ▸ blanks_skipBlanks text
    · split at h <;> cases h
    · cases h
  · intro hb
    simp only [endSequence, hb.skipBlanks_cons rfl]

/-! ## Whole texts -/

theorem Accepts.readWhole_eq {read : Reader α} {value : Phrase α} (hv : Accepts read value)
    (h : Padded value text a []) : readWhole read text = .ok a := by
  obtain ⟨start, stop, hs, hvalue, hr⟩ := h
  have hread := hv.complete hs hvalue (hr.stops stops_nil)
  simp only [readWhole, hread, bind, Except.bind, hr.skipBlanks_eq]
  rfl

/-- A text is read as a whole exactly when it is a value with blanks around it. -/
theorem Recognises.readWhole_eq_ok_iff {read : Reader α} {value : Phrase α}
    (hv : Recognises read value) : readWhole read text = .ok a ↔ Padded value text a [] := by
  constructor
  · intro h
    obtain ⟨⟨value, rest⟩, hread, hend⟩ := bind_eq_ok_iff.mp (mapError_eq_ok_iff.mp h)
    obtain ⟨start, hs, hvalue⟩ := hv.sound hread
    dsimp only at hend
    split at hend
    · next hnil =>
      cases hend
      exact ⟨start, rest, hs, hvalue, skipBlanks_eq_nil_iff.mp hnil⟩
    · cases hend
  · exact hv.toAccepts.readWhole_eq

end TreePool.Json

import TreePool.FileSystem.Resolution
import Mathlib.Data.List.DropRight

/-! # The steps of a path

The steps of a path are its parts but for the empty ones. To enter a directory adds a step at the
end, and so does to join a relative path, whatever slashes stand between. The parent of a path has
its steps less the last name and what stands around that name without leading anywhere.
-/

namespace TreePool
namespace Path

structure IsName (name : Name) : Prop where
  ne_nil : name ≠ []
  noSlash : slash ∉ name
  noZero : 0 ∉ name
  ne_here : name ≠ here
  ne_above : name ≠ above

instance (name : Name) : Decidable (IsName name) :=
  decidable_of_iff (name ≠ [] ∧ slash ∉ name ∧ 0 ∉ name ∧ name ≠ here ∧ name ≠ above)
    ⟨fun ⟨h₁, h₂, h₃, h₄, h₅⟩ => ⟨h₁, h₂, h₃, h₄, h₅⟩,
      fun h => ⟨h.ne_nil, h.noSlash, h.noZero, h.ne_here, h.ne_above⟩⟩

/-- The names a path goes through, without the step that a slash at its end asks for. -/
def steps (path : Path) : List Name := (split path.bytes).filter (· ≠ [])

/-- The path of a place below a directory, reached by entering one name after the other. -/
def descend (path : Path) (names : List Name) : Path := names.foldl child path

variable {path base parent : Path} {name : Name} {names : List Name}

theorem names_eq (path : Path) :
    path.names = path.steps ++ (if path.endsInSlash then [here] else []) := rfl

/-! ## Splitting and joining -/

theorem split_append_slash (front rest : Bytes) :
    split (front ++ slash :: rest) = split front ++ split rest := by
  induction front with
  | nil => simp [split]
  | cons b front ih =>
    by_cases hb : b = slash
    · simp [split, hb, ih]
    · obtain ⟨part, parts, hs⟩ := List.exists_cons_of_ne_nil (split_ne_nil front)
      simp [split, hb, ih, hs]

theorem split_of_noSlash {bytes : Bytes} (h : slash ∉ bytes) : split bytes = [bytes] := by
  induction bytes with
  | nil => rfl
  | cons b bytes ih =>
    obtain ⟨hb, hrest⟩ := not_or.mp (mt List.mem_cons.mpr h)
    simp [split, Ne.symm hb, ih hrest]

theorem of_mem_split {bytes part : Bytes} (h : part ∈ split bytes) :
    slash ∉ part ∧ part ⊆ bytes := by
  induction bytes generalizing part with
  | nil => simp_all [split]
  | cons b bytes ih =>
    by_cases hb : b = slash
    · simp only [split, hb, if_true, List.mem_cons] at h
      rcases h with rfl | h
      · exact ⟨List.not_mem_nil, List.nil_subset _⟩
      · exact ⟨(ih h).1, List.subset_cons_of_subset _ (ih h).2⟩
    · obtain ⟨first, parts, hs⟩ := List.exists_cons_of_ne_nil (split_ne_nil bytes)
      simp only [split, hb, if_false, hs, List.mem_cons] at h
      rcases h with rfl | h
      · obtain ⟨hn, hsub⟩ := ih (hs ▸ List.mem_cons_self)
        exact ⟨fun hm => (List.mem_cons.mp hm).elim (fun e => hb e.symm) hn,
          List.cons_subset_cons _ hsub⟩
      · obtain ⟨hn, hsub⟩ := ih (hs ▸ List.mem_cons_of_mem _ h)
        exact ⟨hn, List.subset_cons_of_subset _ hsub⟩

@[simp] theorem unsplit_nil : unsplit [] = [] := rfl

@[simp] theorem unsplit_singleton (part : Bytes) : unsplit [part] = part := by simp [unsplit]

theorem unsplit_cons_cons (part next : Bytes) (parts : List Bytes) :
    unsplit (part :: next :: parts) = part ++ slash :: unsplit (next :: parts) := by
  simp [unsplit, List.intercalate_cons_cons]

theorem split_unsplit {parts : List Bytes} (hne : parts ≠ []) (h : ∀ part ∈ parts, slash ∉ part) :
    split (unsplit parts) = parts := by
  induction parts with
  | nil => exact absurd rfl hne
  | cons part parts ih =>
    have hpart := split_of_noSlash (h part List.mem_cons_self)
    cases parts with
    | nil => simpa using hpart
    | cons next parts =>
      have hrest := ih (List.cons_ne_nil _ _) fun part hm => h part (List.mem_cons_of_mem _ hm)
      rw [unsplit_cons_cons, split_append_slash, hpart, hrest, List.singleton_append]

theorem unsplit_append {front back : List Bytes} (hf : front ≠ []) (hb : back ≠ []) :
    unsplit (front ++ back) = unsplit front ++ slash :: unsplit back := by
  induction front with
  | nil => exact absurd rfl hf
  | cons part front ih =>
    cases front with
    | nil =>
      obtain ⟨next, back, rfl⟩ := List.exists_cons_of_ne_nil hb
      simp [unsplit_cons_cons]
    | cons next front =>
      have := ih (List.cons_ne_nil _ _)
      simp only [List.cons_append, unsplit_cons_cons] at this ⊢
      simp [this]

theorem unsplit_mono {front parts : List Bytes} (h : front <+: parts) :
    unsplit front <+: unsplit parts := by
  obtain ⟨back, rfl⟩ := h
  by_cases hf : front = []
  · simp [hf]
  · by_cases hb : back = []
    · simp [hb]
    · rw [unsplit_append hf hb]
      exact List.prefix_append _ _

/-! ## Steps -/

@[simp] theorem steps_of_isEmpty (h : path.isEmpty) : path.steps = [] := by
  rw [isEmpty, List.isEmpty_iff] at h
  simp [steps, h, split]

theorem isEmpty_of_steps_ne_nil (h : path.steps ≠ []) : path.isEmpty = false := by
  rw [← Bool.not_eq_true]
  exact fun he => h (steps_of_isEmpty he)

theorem ne_nil_of_mem_steps (h : name ∈ path.steps) : name ≠ [] := by
  simpa using (List.mem_filter.mp h).2

theorem noSlash_of_mem_steps (h : name ∈ path.steps) : slash ∉ name :=
  (of_mem_split (List.mem_filter.mp h).1).1

theorem noZero_of_mem_steps (hz : 0 ∉ path.bytes) (h : name ∈ path.steps) : 0 ∉ name :=
  fun hm => hz ((of_mem_split (List.mem_filter.mp h).1).2 hm)

theorem endsInSlash_iff : path.endsInSlash = true ↔ ∃ front, path.bytes = front ++ [slash] := by
  rw [endsInSlash, beq_iff_eq, List.getLast?_eq_some_iff]

theorem steps_append_slash (bytes : Bytes) : steps ⟨bytes ++ [slash]⟩ = steps ⟨bytes⟩ := by
  simp [steps, split_append_slash, split]

theorem steps_join (hr : path.isAbsolute = false) :
    (base.join path).steps = base.steps ++ path.steps := by
  rw [join, if_neg (by simp [hr])]
  split_ifs with h
  · rcases Bool.or_eq_true_iff.mp h with he | hs
    · rw [steps_of_isEmpty he]
      rw [isEmpty, List.isEmpty_iff] at he
      simp [steps, he]
    · obtain ⟨front, hf⟩ := endsInSlash_iff.mp hs
      simp [steps, hf, split_append_slash, split]
  · simp [steps, split_append_slash]

theorem isAbsolute_join (hb : base.isEmpty = false) (hr : path.isAbsolute = false) :
    (base.join path).isAbsolute = base.isAbsolute := by
  obtain ⟨b, rest, hbytes⟩ : ∃ b rest, base.bytes = b :: rest :=
    List.exists_cons_of_ne_nil (by simpa [isEmpty] using hb)
  rw [join, if_neg (by simp [hr])]
  split_ifs <;> simp [isAbsolute, hbytes]

theorem isEmpty_join (hb : base.isEmpty = false) (hr : path.isAbsolute = false) :
    (base.join path).isEmpty = false := by
  obtain ⟨b, rest, hbytes⟩ : ∃ b rest, base.bytes = b :: rest :=
    List.exists_cons_of_ne_nil (by simpa [isEmpty] using hb)
  rw [join, if_neg (by simp [hr])]
  split_ifs <;> simp [isEmpty, hbytes]

theorem endsInSlash_join (hp : path.isEmpty = false) (hr : path.isAbsolute = false) :
    (base.join path).endsInSlash = path.endsInSlash := by
  have hne : path.bytes ≠ [] := by simpa [isEmpty] using hp
  rw [join, if_neg (by simp [hr])]
  split_ifs
  · simp [endsInSlash, List.getLast?_append_of_ne_nil _ hne]
  · have : base.bytes ++ slash :: path.bytes = (base.bytes ++ [slash]) ++ path.bytes := by simp
    simp only [endsInSlash, this, List.getLast?_append_of_ne_nil _ hne]

/-! ## Relative paths and descents -/

theorem isAbsolute_relative (h : ∀ name ∈ names, IsName name) :
    (relative names).isAbsolute = false := by
  cases names with
  | nil => rfl
  | cons name names =>
    obtain ⟨hne, hs, _⟩ := h name List.mem_cons_self
    obtain ⟨b, rest, rfl⟩ := List.exists_cons_of_ne_nil hne
    have hb : b ≠ slash := fun e => hs (e ▸ List.mem_cons_self)
    cases names <;> simp [relative, isAbsolute, unsplit_cons_cons, hb]

@[simp] theorem steps_relative (h : ∀ name ∈ names, IsName name) :
    (relative names).steps = names := by
  by_cases hn : names = []
  · simp [hn, relative, steps, split]
  · rw [relative, steps, split_unsplit hn fun name hm => (h name hm).noSlash]
    exact List.filter_eq_self.mpr fun name hm => by simpa using (h name hm).ne_nil

theorem isEmpty_relative (h : ∀ name ∈ names, IsName name) (hn : names ≠ []) :
    (relative names).isEmpty = false :=
  isEmpty_of_steps_ne_nil (by rwa [steps_relative h])

theorem endsInSlash_relative (h : ∀ name ∈ names, IsName name) :
    (relative names).endsInSlash = false := by
  rcases List.eq_nil_or_concat names with rfl | ⟨front, last, rfl⟩
  · rfl
  · have hlast := h last (by simp)
    obtain ⟨init, b, rfl⟩ := (List.eq_nil_or_concat last).resolve_left hlast.ne_nil
    have hb : b ≠ slash := fun e => hlast.noSlash (by simp [e])
    rw [List.concat_eq_append] at *
    cases front with
    | nil => simp [relative, endsInSlash, hb]
    | cons name front =>
      rw [relative, unsplit_append (List.cons_ne_nil _ _) (List.cons_ne_nil _ _),
        unsplit_singleton, endsInSlash, List.getLast?_append_of_ne_nil _ (by simp)]
      simp [List.getLast?_cons, hb]

theorem child_eq_join (path : Path) (name : Name) : path.child name = path.join (relative [name]) :=
  by simp [child, relative]

theorem IsName.singleton (h : IsName name) : ∀ other ∈ [name], IsName other := by simpa using h

theorem steps_child (h : IsName name) : (path.child name).steps = path.steps ++ [name] := by
  rw [child_eq_join, steps_join (isAbsolute_relative h.singleton), steps_relative h.singleton]

theorem names_child (h : IsName name) : (path.child name).names = path.steps ++ [name] := by
  rw [names_eq, steps_child h, child_eq_join,
    endsInSlash_join (isEmpty_relative h.singleton (List.cons_ne_nil _ _))
      (isAbsolute_relative h.singleton), endsInSlash_relative h.singleton]
  simp

theorem isAbsolute_child (hp : path.isEmpty = false) (h : IsName name) :
    (path.child name).isAbsolute = path.isAbsolute := by
  rw [child_eq_join, isAbsolute_join hp (isAbsolute_relative h.singleton)]

theorem isEmpty_child (hp : path.isEmpty = false) (h : IsName name) :
    (path.child name).isEmpty = false := by
  rw [child_eq_join, isEmpty_join hp (isAbsolute_relative h.singleton)]

@[simp] theorem descend_nil (path : Path) : path.descend [] = path := rfl

theorem descend_concat (path : Path) (names : List Name) (name : Name) :
    path.descend (names ++ [name]) = (path.descend names).child name := by
  simp [descend]

theorem steps_descend (h : ∀ name ∈ names, IsName name) :
    (path.descend names).steps = path.steps ++ names := by
  induction names using List.reverseRecOn with
  | nil => rw [descend_nil, List.append_nil]
  | append_singleton front name ih =>
    rw [descend_concat, steps_child (h name (by simp)), ih fun n hm => h n (by simp [hm]),
      List.append_assoc]

theorem names_descend (h : ∀ name ∈ names, IsName name) (hn : names ≠ []) :
    (path.descend names).names = path.steps ++ names := by
  obtain ⟨front, name, rfl⟩ := (List.eq_nil_or_concat names).resolve_left hn
  rw [List.concat_eq_append] at *
  rw [descend_concat, names_child (h name (by simp)), steps_descend fun n hm => h n (by simp [hm]),
    List.append_assoc]

theorem isEmpty_descend (hp : path.isEmpty = false) (h : ∀ name ∈ names, IsName name) :
    (path.descend names).isEmpty = false := by
  induction names using List.reverseRecOn with
  | nil => exact hp
  | append_singleton front name ih =>
    rw [descend_concat]
    exact isEmpty_child (ih fun n hm => h n (by simp [hm])) (h name (by simp))

theorem isAbsolute_descend (hp : path.isEmpty = false) (h : ∀ name ∈ names, IsName name) :
    (path.descend names).isAbsolute = path.isAbsolute := by
  induction names using List.reverseRecOn with
  | nil => rfl
  | append_singleton front name ih =>
    have hfront : ∀ n ∈ front, IsName n := fun n hm => h n (by simp [hm])
    rw [descend_concat, isAbsolute_child (isEmpty_descend hp hfront) (h name (by simp)), ih hfront]

theorem lt_length_child (h : IsName name) : path.length < (path.child name).length := by
  obtain ⟨b, rest, rfl⟩ := List.exists_cons_of_ne_nil h.ne_nil
  have hrelative : (⟨b :: rest⟩ : Path).isAbsolute = false := by
    have : b ≠ slash := fun e => h.noSlash (e ▸ List.mem_cons_self)
    simp [isAbsolute, this]
  rw [child, join, if_neg (by simp [hrelative])]
  split_ifs <;> simp [length]

theorem length_le_length_descend (h : ∀ name ∈ names, IsName name) :
    path.length + names.length ≤ (path.descend names).length := by
  induction names using List.reverseRecOn with
  | nil => simp
  | append_singleton front name ih =>
    have hfront := ih fun n hm => h n (by simp [hm])
    have hlast := @lt_length_child (path.descend front) name (h name (by simp))
    rw [descend_concat, List.length_append, List.length_singleton]
    omega

/-! ## Zero bytes -/

theorem noZero_join (hb : 0 ∉ base.bytes) (hp : 0 ∉ path.bytes) : 0 ∉ (base.join path).bytes := by
  have hslash : (0 : UInt8) ≠ slash := by decide
  unfold join
  split_ifs
  · exact hp
  · simp [hb, hp]
  · simp [hb, hp, hslash]

theorem noZero_relative (h : ∀ name ∈ names, IsName name) : 0 ∉ (relative names).bytes := by
  have hslash : (0 : UInt8) ≠ slash := by decide
  rw [relative]
  induction names with
  | nil => simp
  | cons name rest ih =>
    have hname := (h name List.mem_cons_self).noZero
    have hrest := ih fun other hm => h other (List.mem_cons_of_mem _ hm)
    cases rest with
    | nil => simpa using hname
    | cons next rest =>
      rw [unsplit_cons_cons]
      simp only [List.mem_append, List.mem_cons, not_or]
      exact ⟨hname, hslash, hrest⟩

theorem noZero_descend (hp : 0 ∉ path.bytes) (h : ∀ name ∈ names, IsName name) :
    0 ∉ (path.descend names).bytes := by
  induction names using List.reverseRecOn with
  | nil => exact hp
  | append_singleton front name ih =>
    rw [descend_concat, child_eq_join]
    refine noZero_join (ih fun other hm => h other (by simp [hm])) (noZero_relative ?_)
    exact (h name (by simp)).singleton

/-! ## Slashes at the end -/

theorem trimEnd_eq (path : Path) :
    path.trimEnd = ⟨path.bytes.rdropWhile (decide <| · = slash)⟩ := rfl

theorem names_trimEnd (path : Path) : path.trimEnd.names = path.steps := by
  obtain ⟨bytes⟩ := path
  induction bytes using List.reverseRecOn with
  | nil => rfl
  | append_singleton bytes b ih =>
    by_cases hb : b = slash
    · subst hb
      rw [steps_append_slash, ← ih, trimEnd_eq, trimEnd_eq]
      simp
    · rw [trimEnd_eq, List.rdropWhile_concat_neg _ _ _ (by simpa using hb), names_eq]
      simp [endsInSlash, hb]

/-! ## Parents -/

/-- The part of a path before its body, if it counts as a step. -/
def lead (path : Path) : List Name := if path.anchor = here then [here] else []

def body (path : Path) : Bytes := path.bytes.drop path.anchor.length

theorem anchor_cases (path : Path) :
    path.bytes = path.anchor ++ path.body ∧ (path.anchor = [] ∨ path.anchor = [slash] ∨
      path.anchor = here ∧ (path.body = [] ∨ ∃ rest, path.body = slash :: rest)) := by
  obtain ⟨bytes⟩ := path
  match bytes with
  | [] => simp [body, anchor]
  | [b] => by_cases hs : b = slash <;> by_cases hd : b = dot <;> simp_all [body, anchor, here]
  | b :: c :: rest =>
    by_cases hs : b = slash <;> by_cases hd : b = dot <;> by_cases hc : c = slash <;>
      simp_all [body, anchor, here]

/-- Some first parts of the body, put behind the anchor, make a path with the steps they look
like. -/
theorem steps_anchor_append {parts : List Bytes} (h : parts <+: split path.body) :
    steps ⟨path.anchor ++ unsplit parts⟩ = path.lead ++ parts.filter (· ≠ []) := by
  have hs : ∀ part ∈ parts, slash ∉ part := fun part hm => (of_mem_split (h.subset hm)).1
  have hsplit : (split (unsplit parts)).filter (· ≠ []) = parts.filter (· ≠ []) := by
    by_cases hp : parts = []
    · simp [hp, split]
    · rw [split_unsplit hp hs]
  have hslash : slash ≠ dot := by decide
  rcases path.anchor_cases.2 with ha | ha | ⟨ha, hbody⟩
  · simpa [steps, lead, ha, here] using hsplit
  · simpa [steps, lead, ha, here, hslash, split] using hsplit
  · -- Behind a dot stands a slash, so that the first part of the body is empty.
    have hparts : parts = [] ∨ ∃ rest, parts = [] :: rest := by
      cases parts with
      | nil => exact .inl rfl
      | cons part rest =>
        obtain ⟨back, hback⟩ := h
        rcases hbody with hb | ⟨after, hb⟩ <;> simp_all [split]
    have hdot : ([dot] : Name) ≠ [] := by decide
    have hsteps (bytes : Bytes) :
        steps ⟨here ++ slash :: bytes⟩ = here :: (split bytes).filter (· ≠ []) := by
      rw [steps, split_append_slash, split_of_noSlash (by decide)]
      simp [here]
    rw [lead, if_pos ha, ha]
    rcases hparts with rfl | ⟨rest, rfl⟩
    · simp [steps, here, @split_of_noSlash [dot] (by decide)]
    · cases rest with
      | nil => simp [steps, here, @split_of_noSlash [dot] (by decide)]
      | cons next rest =>
        rw [unsplit_cons_cons, List.nil_append, hsteps,
          split_unsplit (List.cons_ne_nil _ _) fun part hm => hs part (List.mem_cons_of_mem _ hm)]
        simp

theorem steps_eq_lead_append (path : Path) :
    path.steps = path.lead ++ (split path.body).filter (· ≠ []) := by
  rw [← steps_anchor_append List.prefix_rfl, unsplit_split, ← path.anchor_cases.1]

def idle (part : Bytes) : Bool := part = [] || part = here

theorem trimParts_eq (parts : List Bytes) : trimParts parts = parts.rdropWhile idle := rfl

theorem exists_trimParts_append (parts : List Bytes) :
    ∃ rest, parts = trimParts parts ++ rest ∧ ∀ part ∈ rest, idle part := by
  refine ⟨parts.rtakeWhile idle, ?_, fun part hm => List.mem_rtakeWhile_imp hm⟩
  rw [trimParts_eq, List.rdropWhile_append_rtakeWhile]

theorem eq_here_of_mem_filter {parts : List Bytes} (h : ∀ part ∈ parts, idle part)
    (hm : name ∈ parts.filter (· ≠ [])) : name = here := by
  obtain ⟨hm, hne⟩ := List.mem_filter.mp hm
  have := h name hm
  simp_all [idle]

theorem body_cases (path : Path) :
    (∀ part ∈ split path.body, idle part) ∧
        path.parent? = (if path.anchor = here then some ⟨[]⟩ else none) ∨
      ∃ front last after, split path.body = front ++ last :: after ∧ idle last = false ∧
        (∀ part ∈ after, idle part) ∧
        path.parent? = some ⟨path.anchor ++ unsplit (trimParts front)⟩ := by
  obtain ⟨after, hbody, hafter⟩ := exists_trimParts_append (split path.body)
  rw [parent?, ← body]
  rcases List.eq_nil_or_concat (trimParts (split path.body)) with ht | ⟨front, last, ht⟩
  · refine .inl ⟨fun part hm => hafter part ?_, by simp [ht]⟩
    rwa [hbody, ht, List.nil_append] at hm
  · refine .inr ⟨front, last, after, by rw [hbody, ht]; simp, ?_, hafter, by simp [ht]⟩
    have := List.rdropWhile_last_not idle (split path.body) (by simp [← trimParts_eq, ht])
    simpa [← trimParts_eq, ht] using this

theorem steps_of_body {front after : List Bytes} {last : Bytes}
    (hb : split path.body = front ++ last :: after) (hl : idle last = false)
    (ha : ∀ part ∈ after, idle part) : ∃ before after',
      path.steps = steps ⟨path.anchor ++ unsplit (trimParts front)⟩ ++ before ++ last :: after' ∧
        (∀ step ∈ before, step = here) ∧ (∀ step ∈ after', step = here) ∧ last ≠ here := by
  obtain ⟨before, hf, hbefore⟩ := exists_trimParts_append front
  have hpre : trimParts front <+: split path.body := ⟨before ++ last :: after, by
    rw [hb, ← List.append_assoc, ← hf]⟩
  obtain ⟨hne, hhere⟩ : last ≠ [] ∧ last ≠ here := by simpa [idle] using hl
  have hfront : front.filter (· ≠ []) =
      (trimParts front).filter (· ≠ []) ++ before.filter (· ≠ []) := by
    rw [← List.filter_append, ← hf]
  refine ⟨before.filter (· ≠ []), after.filter (· ≠ []), ?_,
    fun step => eq_here_of_mem_filter hbefore, fun step => eq_here_of_mem_filter ha, hhere⟩
  rw [steps_anchor_append hpre, steps_eq_lead_append, hb, List.filter_append, hfront,
    List.filter_cons_of_pos (by simpa using hne)]
  simp only [List.append_assoc]

theorem prefix_of_parent? (h : path.parent? = some parent) : parent.bytes <+: path.bytes := by
  rcases path.body_cases with ⟨-, hp⟩ | ⟨front, last, after, hb, -, -, hp⟩ <;> rw [hp] at h
  · split_ifs at h
    cases h
    exact List.nil_prefix
  · cases h
    obtain ⟨before, hf, -⟩ := exists_trimParts_append front
    have hpre : trimParts front <+: split path.body := ⟨before ++ last :: after, by
      rw [hb, ← List.append_assoc, ← hf]⟩
    rw [path.anchor_cases.1, ← unsplit_split path.body]
    exact (List.prefix_append_right_inj _).mpr (unsplit_mono hpre)

theorem isAbsolute_parent? (h : path.parent? = some parent) :
    parent.isAbsolute = path.isAbsolute := by
  obtain ⟨bytes⟩ := path
  have hpre := prefix_of_parent? h
  cases bytes with
  | nil => simp [List.prefix_nil.mp hpre, isAbsolute]
  | cons b rest =>
    by_cases hb : b = slash
    · -- Then the anchor is a slash, with which the parent begins too.
      have hanchor : anchor ⟨b :: rest⟩ = [slash] := by cases rest <;> simp [anchor, hb]
      rcases (⟨b :: rest⟩ : Path).body_cases with ⟨-, hp⟩ | ⟨front, last, after, -, -, -, hp⟩
      · rw [hp, if_neg (by rw [hanchor]; decide)] at h
        cases h
      · rw [hp, hanchor] at h
        cases h
        simp [isAbsolute, hb]
    · rcases List.prefix_cons_iff.mp hpre with hp | ⟨rest', hp, -⟩
      · simp [isAbsolute, hp, hb]
      · simp [isAbsolute, hp]

theorem steps_of_parent? (h : path.parent? = some parent) (hp : parent.isEmpty = false) :
    ∃ before last after, path.steps = parent.steps ++ before ++ last :: after ∧
      (∀ step ∈ before, step = here) ∧ (∀ step ∈ after, step = here) ∧ last ≠ here := by
  rcases path.body_cases with ⟨-, hpar⟩ | ⟨front, last, after, hb, hl, ha, hpar⟩ <;>
    rw [hpar] at h
  · split_ifs at h
    cases h
    cases hp
  · cases h
    obtain ⟨before, after', hs, hrest⟩ := steps_of_body hb hl ha
    exact ⟨before, last, after', hs, hrest⟩

theorem length_lt_of_parent? (h : path.parent? = some parent) (hs : path.steps ≠ parent.steps) :
    parent.length < path.length := by
  have hpre := prefix_of_parent? h
  refine Nat.lt_of_le_of_ne hpre.length_le fun hlen => hs ?_
  obtain ⟨bytes⟩ := path
  obtain ⟨front⟩ := parent
  exact congrArg (fun bytes => steps ⟨bytes⟩) (hpre.eq_of_length hlen).symm

/-- A path with a name at its end has a parent, which has all steps before that name, but for those
that lead nowhere. -/
theorem exists_parent? {front : List Name} (hs : path.steps = front ++ [name])
    (hn : name ≠ here) : ∃ parent before, path.parent? = some parent ∧
      front = parent.steps ++ before ∧ ∀ step ∈ before, step = here := by
  rcases path.body_cases with ⟨hidle, -⟩ | ⟨front', last, after, hb, hl, ha, hp⟩
  · have hm : name ∈ path.steps := by simp [hs]
    rw [steps_eq_lead_append, List.mem_append] at hm
    rcases hm with hm | hm
    · rw [lead] at hm
      split_ifs at hm
      · exact absurd (List.mem_singleton.mp hm) hn
      · cases hm
    · exact absurd (eq_here_of_mem_filter hidle hm) hn
  · obtain ⟨before, after', hsteps, hbefore, hafter, hlast⟩ := steps_of_body hb hl ha
    refine ⟨_, before, hp, ?_, hbefore⟩
    rw [hs] at hsteps
    rcases List.eq_nil_or_concat after' with rfl | ⟨init, step, rfl⟩
    · exact (List.append_inj' hsteps rfl).1
    · -- The last step would be one that leads nowhere.
      have hstep := hafter step (by simp)
      rw [List.concat_eq_append, ← List.cons_append, ← List.append_assoc] at hsteps
      exact absurd (List.singleton_inj.mp (List.append_inj' hsteps rfl).2 |>.trans hstep) hn

theorem exists_parent?_of_names {front : List Name} {last : Name}
    (hs : path.steps = front ++ [last, name]) (hl : last ≠ here) (hn : name ≠ here) :
    ∃ parent, path.parent? = some parent ∧ parent.steps = front ++ [last] := by
  have hs' : path.steps = (front ++ [last]) ++ [name] := by simp [hs]
  obtain ⟨parent, before, hp, hfront, hbefore⟩ := exists_parent? hs' hn
  refine ⟨parent, hp, ?_⟩
  rcases List.eq_nil_or_concat before with rfl | ⟨init, step, rfl⟩
  · rw [hfront, List.append_nil]
  · rw [List.concat_eq_append, ← List.append_assoc] at hfront
    have hlast := List.singleton_inj.mp (List.append_inj' hfront rfl).2
    exact absurd (hlast.trans (hbefore step (by simp))) hl

end Path
end TreePool

import TreePool.Proofs.FileSystem.Order

/-! # Descents

A path without steps upwards goes straight down from any place below which no link stands. So what
it leads to is known from its plain steps, which are those that are names, and a trail can be cut at
any step.
-/

namespace TreePool

def Landing.place : Landing → Location
  | .taken location _ => location
  | .free directory name => name :: directory

def Kind.isLink : Kind → Bool
  | .link _ => true
  | _ => false

namespace FileSystem

variable {fs : FileSystem} {chart : Chart} {followLast : Bool} {links : Nat}
variable {base location directory : Location}
variable {steps names front back : List Name} {tour : List Location} {name : Name} {kind : Kind}
variable {landing : Landing}

/-! ## Going down -/

def down (base : Location) (names : List Name) : Location := names.reverse ++ base

@[simp] theorem down_nil (base : Location) : down base [] = base := rfl

@[simp] theorem down_cons (base : Location) (name : Name) (names : List Name) :
    down base (name :: names) = down (name :: base) names := by
  simp [down]

@[simp] theorem down_concat (base : Location) (names : List Name) (name : Name) :
    down base (names ++ [name]) = name :: down base names := by
  simp [down]

theorem down_append (base : Location) (front back : List Name) :
    down base (front ++ back) = down (down base front) back := by
  simp [down]

theorem suffix_down (base : Location) (names : List Name) : base <:+ down base names :=
  List.suffix_append _ _

theorem exists_down (h : base <:+ location) : ∃ names, location = down base names := by
  obtain ⟨below, rfl⟩ := h
  exact ⟨below.reverse, by simp [down]⟩

theorem down_inj : down base front = down base back ↔ front = back := by
  simp [down]

theorem down_eq_self_iff : down base names = base ↔ names = [] := by
  simp [down]

theorem suffix_down_down (h : front <+: back) : down base front <:+ down base back := by
  obtain ⟨rest, rfl⟩ := h
  rw [down_append]
  exact suffix_down _ _

/-- The steps that are names, if there are none upwards. -/
def plain (steps : List Name) : List Name := steps.filter (· ≠ Path.here)

@[simp] theorem plain_nil : plain [] = [] := rfl

@[simp] theorem plain_here (steps : List Name) : plain (Path.here :: steps) = plain steps := by
  simp [plain]

theorem plain_cons (h : name ≠ Path.here) (steps : List Name) :
    plain (name :: steps) = name :: plain steps := by
  simp [plain, h]

@[simp] theorem plain_append (front back : List Name) :
    plain (front ++ back) = plain front ++ plain back := by
  simp [plain]

theorem plain_eq_nil_iff : plain steps = [] ↔ ∀ step ∈ steps, step = Path.here := by
  simp [plain, List.filter_eq_nil_iff]

theorem plain_of_names (h : ∀ step ∈ steps, step ≠ Path.here) : plain steps = steps :=
  List.filter_eq_self.mpr fun step hm => by simpa using h step hm

theorem plain_mono (h : front <+: back) : plain front <+: plain back :=
  h.filter _

/-! ## Straight ways -/

theorem Trail.descent (hsteps : ∀ step ∈ steps, step ≠ Path.above ∧ step.length ≤ nameLimit)
    (hd : ∀ front, front <+: plain steps → chart (down base front) = some .directory) :
    ∃ tour, Trail chart followLast links base steps tour
      (.ok (.taken (down base (plain steps)) .directory)) := by
  have hbase : chart base = some .directory := hd [] List.nil_prefix
  induction steps generalizing base with
  | nil => exact ⟨_, .stop hbase⟩
  | cons step steps ih =>
    have hrest := fun other hm => hsteps other (List.mem_cons_of_mem step hm)
    by_cases hhere : step = Path.here
    · subst hhere
      obtain ⟨tour, ht⟩ := ih hrest (by simpa using hd) hbase
      exact ⟨_, .stay hbase (by simpa using ht)⟩
    · rw [plain_cons hhere] at hd ⊢
      have hdown : ∀ front, front <+: plain steps →
          chart (down (step :: base) front) = some .directory := by
        intro front hfront
        simpa using hd (step :: front) (List.cons_prefix_cons.mpr ⟨rfl, hfront⟩)
      have hstep := hdown [] List.nil_prefix
      obtain ⟨tour, ht⟩ := ih hrest hdown hstep
      obtain ⟨habove, hlen⟩ := hsteps step List.mem_cons_self
      rw [down_cons]
      exact ⟨_, .enter hbase ⟨hhere, habove, hlen⟩ hstep (by simp) ht⟩

theorem Trail.place_eq (ht : Trail chart followLast links base steps tour (.ok landing))
    (hsteps : Path.above ∉ steps)
    (hl : ∀ front target, front <+: plain steps → front ≠ [] →
      chart (down base front) ≠ some (.link target)) :
    landing.place = down base (plain steps) := by
  generalize he : Except.ok landing = result at ht
  induction ht with
  | stop => cases he; rfl
  | blocked | tooLong | lost | tangled => cases he
  | stay _ _ ih =>
    rw [plain_here] at hl ⊢
    exact ih (fun hm => hsteps (List.mem_cons_of_mem _ hm)) hl he
  | climb => exact absurd List.mem_cons_self hsteps
  | vacant _ hn =>
    cases he
    rw [plain_cons hn.ne_here, plain_nil, down_cons, down_nil, Landing.place]
  | enter _ hn _ _ _ ih =>
    rw [plain_cons hn.ne_here, down_cons]
    refine ih (fun hm => hsteps (List.mem_cons_of_mem _ hm)) (fun front target hf hne => ?_) he
    rw [← down_cons]
    refine hl (_ :: front) target ?_ (List.cons_ne_nil _ _)
    rw [plain_cons hn.ne_here]
    exact List.cons_prefix_cons.mpr ⟨rfl, hf⟩
  | halt _ hn hc | detour _ hn hc =>
    refine absurd hc (hl [_] _ ?_ (List.cons_ne_nil _ _))
    rw [plain_cons hn.ne_here]
    exact List.cons_prefix_cons.mpr ⟨rfl, List.nil_prefix⟩

theorem Orderly.isEntryName (h : fs.Orderly) (hk : fs.kindAt (down base names) ≠ none) :
    ∀ name ∈ names, IsEntryName name := by
  intro name hm
  obtain ⟨front, back, rfl⟩ := List.append_of_mem hm
  rw [down_append, down_cons] at hk
  exact h.entryName (kindAt_ne_none_of_suffix hk (suffix_down _ back))

/-- Names lead down to what is there, unless the last one is a link that is followed. -/
theorem Orderly.trail_down (h : fs.Orderly) (hk : fs.kindAt (down base names) = some kind)
    (hlink : followLast = false ∨ ∀ target, kind ≠ .link target) (links : Nat) :
    ∃ tour, Trail fs.kindAt followLast links base names tour
      (.ok (.taken (down base names) kind)) := by
  induction names generalizing base with
  | nil => exact ⟨_, .stop hk⟩
  | cons name rest ih =>
    rw [down_cons] at hk ⊢
    have hbelow : fs.kindAt (down (name :: base) rest) ≠ none := by simp [hk]
    have hne := kindAt_ne_none_of_suffix hbelow (suffix_down _ _)
    have hd := kindAt_parent hne
    have hname := h.entryName hne
    have hdown : LeadsDown name := ⟨hname.ne_here, hname.ne_above, hname.length_le⟩
    by_cases hr : rest = []
    · subst hr
      cases kind with
      | file => exact ⟨_, .enter hd hdown hk (by simp) (.stop hk)⟩
      | directory => exact ⟨_, .enter hd hdown hk (by simp) (.stop hk)⟩
      | link target =>
        exact ⟨_, .halt hd hdown hk (hlink.resolve_right fun hno => hno target rfl)⟩
    · have hdir : fs.kindAt (name :: base) = some .directory :=
        kindAt_eq_directory_of_suffix hbelow (suffix_down _ _)
          fun he => hr (down_eq_self_iff.mp he.symm)
      obtain ⟨tour, ht⟩ := ih hk
      exact ⟨_, .enter hd hdown hdir (by simp) ht⟩

/-! ## Cutting trails -/

theorem exists_trail_from (hbase : fs.kindAt base ≠ none) (followLast : Bool)
    (links : Nat) (steps : List Name) :
    ∃ tour result, Trail fs.kindAt followLast links base steps tour result := by
  obtain ⟨spot, -, rfl⟩ := Spot.exists_at? hbase
  obtain ⟨-, tour, ht⟩ := exists_trail followLast links spot steps
  exact ⟨tour, _, ht⟩

/-- With more links to spare a trail only goes on where it was given up. -/
theorem Trail.longer {result : Except IoError Landing} {more : Nat}
    (ht : Trail fs.kindAt followLast links base steps tour result)
    (hbase : fs.kindAt base ≠ none) (hle : links ≤ more) :
    ∃ tour' result', Trail fs.kindAt followLast more base steps tour' result' ∧ tour ⊆ tour' := by
  have htarget {target : Path} {location : Location} (hl : fs.kindAt location = some .directory) :
      fs.kindAt (if target.isAbsolute then [] else location) ≠ none := by
    split
    · simp [kindAt_nil fs]
    · simp [hl]
  induction ht generalizing more with
  | stop h => exact ⟨_, _, .stop h, List.Subset.refl _⟩
  | blocked h => exact ⟨_, _, .blocked h, List.Subset.refl _⟩
  | tooLong hd hh ha hl => exact ⟨_, _, .tooLong hd hh ha hl, List.Subset.refl _⟩
  | vacant hd hn hc => exact ⟨_, _, .vacant hd hn hc, List.Subset.refl _⟩
  | lost hd hn hc hr => exact ⟨_, _, .lost hd hn hc hr, List.Subset.refl _⟩
  | halt hd hn hc hf => exact ⟨_, _, .halt hd hn hc hf, List.Subset.refl _⟩
  | stay hd _ ih =>
    obtain ⟨tour', result', ht, hsub⟩ := ih hbase hle
    exact ⟨_, _, .stay hd ht, List.cons_subset_cons _ hsub⟩
  | @climb _ location _ _ _ hd h ih =>
    have hparent : fs.kindAt location.tail ≠ none := by
      cases location with
      | nil => exact hbase
      | cons name parent => simp [kindAt_parent hbase]
    obtain ⟨tour', result', ht, hsub⟩ := ih hparent hle
    exact ⟨_, _, .climb hd ht, List.cons_subset_cons _ hsub⟩
  | enter hd hn hc hk _ ih =>
    obtain ⟨tour', result', ht, hsub⟩ := ih (by simp [hc]) hle
    exact ⟨_, _, .enter hd hn hc hk ht, List.cons_subset_cons _ hsub⟩
  | detour hd hn hc hr _ ih =>
    obtain ⟨more, rfl⟩ := Nat.exists_eq_succ_of_ne_zero (Nat.ne_zero_of_lt hle)
    obtain ⟨tour', result', ht, hsub⟩ := ih (htarget hd) (Nat.le_of_succ_le_succ hle)
    exact ⟨_, _, .detour hd hn hc hr ht, List.cons_subset_cons _ (List.cons_subset_cons _ hsub)⟩
  | @tangled location name rest target hd hn hc hr =>
    cases more with
    | zero => exact ⟨_, _, .tangled hd hn hc hr, List.Subset.refl _⟩
    | succ more =>
      obtain ⟨tour', result', ht⟩ :=
        exists_trail_from (htarget hd) followLast more (target.names ++ rest)
      exact ⟨_, _, .detour hd hn hc hr ht, by simp⟩

theorem Trail.of_le {more : Nat}
    (ht : Trail chart followLast links base steps tour (.ok landing)) (hle : links ≤ more) :
    Trail chart followLast more base steps tour (.ok landing) := by
  generalize he : Except.ok landing = result at ht
  induction ht generalizing more with
  | stop h => cases he; exact .stop h
  | vacant hd hn hc => cases he; exact .vacant hd hn hc
  | halt hd hn hc hf => cases he; exact .halt hd hn hc hf
  | stay hd _ ih => exact .stay hd (ih hle he)
  | climb hd _ ih => exact .climb hd (ih hle he)
  | enter hd hn hc hk _ ih => exact .enter hd hn hc hk (ih hle he)
  | detour hd hn hc hr _ ih =>
    obtain ⟨more, rfl⟩ := Nat.exists_eq_succ_of_ne_zero (Nat.ne_zero_of_lt hle)
    exact .detour hd hn hc hr (ih (Nat.le_of_succ_le_succ hle) he)
  | blocked | tooLong | lost | tangled => cases he

theorem Trail.directory_of_ok (hs : steps ≠ [])
    (ht : Trail chart followLast links base steps tour (.ok landing)) :
    chart base = some .directory := by
  cases ht with
  | stop => exact absurd rfl hs
  | stay hd | climb hd | vacant hd | enter hd | halt hd | detour hd => exact hd

/-- A trail that lands somewhere can be cut before any step, in a directory. -/
theorem Trail.of_append (hbase : fs.kindAt base ≠ none) (hb : back ≠ [])
    (ht : Trail fs.kindAt followLast links base (front ++ back) tour (.ok landing)) :
    ∃ middle left front' back', left ≤ links ∧
      Trail fs.kindAt true links base front front' (.ok (.taken middle .directory)) ∧
      Trail fs.kindAt followLast left middle back back' (.ok landing) := by
  obtain ⟨front', result, hf⟩ := exists_trail_from hbase true links front
  match result, hf with
  | .ok (.taken middle kind), hf =>
    obtain ⟨left, hle, happend⟩ := hf.append
    have hmiddle : fs.kindAt middle ≠ none := by simp [hf.chart_eq]
    obtain ⟨back', result, hk⟩ := exists_trail_from hmiddle followLast left back
    obtain ⟨whole, hwhole, -⟩ := happend hb hk
    obtain rfl := (hwhole.unique ht).2
    obtain rfl : kind = .directory := by simpa [hf.chart_eq] using hk.directory_of_ok hb
    exact ⟨middle, left, front', back', hle, hf, hk⟩
  | .ok (.free _ _), hf | .error _, hf =>
    cases (Trail.unique (hf.append_of_deadEnd? hb rfl) ht).2

/-- The free place at the end of a trail lies under the last step, which is not followed. -/
theorem Trail.of_free (hbase : fs.kindAt base ≠ none)
    (ht : Trail fs.kindAt false links base steps tour (.ok (.free directory name))) :
    ∃ front tour', steps = front ++ [name] ∧
      Trail fs.kindAt true links base front tour' (.ok (.taken directory .directory)) := by
  rcases List.eq_nil_or_concat steps with rfl | ⟨front, last, rfl⟩
  · cases ht
  · rw [List.concat_eq_append] at ht ⊢
    obtain ⟨middle, left, front', back', -, hf, hb⟩ := Trail.of_append hbase (by simp) ht
    cases hb with
    | vacant => exact ⟨front, front', rfl, hf⟩
    | stay _ h | climb _ h | enter _ _ _ _ h => cases h
    | detour _ _ _ hr => simp at hr

/-- The slash at the end of a path makes no difference where the path leads to a directory. -/
theorem Trail.steps_of_names {path : Path} (hbase : fs.kindAt base ≠ none)
    (ht : Trail fs.kindAt followLast links base path.names tour
      (.ok (.taken location .directory))) :
    ∃ tour', Trail fs.kindAt true links base path.steps tour'
      (.ok (.taken location .directory)) := by
  rw [Path.names_eq] at ht
  by_cases hslash : path.endsInSlash = true
  · rw [if_pos hslash] at ht
    obtain ⟨middle, left, front', back', -, hf, hb⟩ := Trail.of_append hbase (by simp) ht
    cases hb with
    | stay _ h =>
      cases h
      exact ⟨front', hf⟩
    | enter _ hn | detour _ hn => exact absurd rfl hn.ne_here
  · rw [if_neg hslash, List.append_nil] at ht
    exact ⟨tour, ht.followed (by simp)⟩

/-! ## Contents -/

theorem mem_contentsOf {entries : List (Name × Node)} {entry : Name × Node}
    {found : List Name × Kind} (hm : entry ∈ entries) (h : found ∈ contentsOfEntry entry) :
    found ∈ contentsOf entries := by
  induction entries with
  | nil => cases hm
  | cons first rest ih =>
    rw [contentsOf, List.mem_append]
    rcases List.mem_cons.mp hm with rfl | hm
    · exact .inl h
    · exact .inr (ih hm)

theorem mem_contents {node : Node} {root : Location} (hn : fs.node? root = some node)
    (hne : names ≠ []) (hk : fs.kindAt (down root names) = some kind) :
    (names, kind) ∈ contents node := by
  induction names generalizing root node with
  | nil => exact absurd rfl hne
  | cons name rest ih =>
    rw [down_cons] at hk
    have hthere : fs.kindAt (down (name :: root) rest) ≠ none := by simp [hk]
    obtain ⟨next, hnext⟩ := Option.ne_none_iff_exists'.mp
      (kindAt_ne_none_of_suffix hthere (suffix_down _ _))
    obtain ⟨child, hchild, -⟩ := exists_node_of_kindAt hnext
    obtain ⟨siblings, hp, hl⟩ := exists_siblings hchild
    cases hn.symm.trans hp
    rw [contents]
    refine mem_contentsOf (Node.mem_of_lookup hl) ?_
    by_cases hr : rest = []
    · subst hr
      rw [down_nil, kindAt_of_node? hchild] at hk
      simp [contentsOfEntry, Option.some.inj hk]
    · exact List.mem_cons_of_mem _ (List.mem_map.mpr ⟨(rest, kind), ih hchild hr hk, rfl⟩)

theorem kindAt_ne_link_of_contents (h : ∀ found ∈ contents fs.root, found.2.isLink = false)
    (location : Location) (target : Path) : fs.kindAt location ≠ some (.link target) := by
  intro hk
  obtain ⟨names, rfl⟩ := exists_down (List.nil_suffix : [] <:+ location)
  have hne : names ≠ [] := by
    rintro rfl
    cases hk
  have hm := mem_contents (node?_nil fs) hne hk
  cases h _ hm

end FileSystem
end TreePool

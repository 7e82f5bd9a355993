import TreePool.Proofs.FileSystem.Descent

/-! # Destinations

A path may stand for a place where nothing is yet: names are missing below a directory that is
there. To make the directory of such a path with its ancestors lays the way down through these
names, and changes nothing else: `laid_of_lay` and `exists_layUpTo`.
-/

namespace TreePool
namespace FileSystem

variable {fs fs' grown made : FileSystem} {path parent : Path} {base location : Location}
variable {names front rest : List Name} {name : Name} {tour : List Location} {kind : Kind}

namespace Orderly

theorem kindAt_origin (h : fs.Orderly) (path : Path) :
    fs.kindAt (fs.origin path) = some .directory := by
  unfold origin
  split_ifs
  · exact kindAt_nil fs
  · exact h.home

theorem origin_ne_none (h : fs.Orderly) (path : Path) : fs.kindAt (fs.origin path) ≠ none := by
  simp [h.kindAt_origin path]

end Orderly

theorem Extends.origin_ne_none {fs' : FileSystem} (h : Extends fs fs') (hfs : fs.Orderly)
    (path : Path) : fs'.kindAt (fs'.origin path) ≠ none := by
  rw [h.origin_eq hfs.home_ne_none]
  exact h.kindAt_ne_none (hfs.origin_ne_none path)

theorem isEntryName_of_mem_steps (hr : refusal? path = none) (hm : name ∈ path.steps)
    (hn : LeadsDown name) : IsEntryName name := by
  have hzero := (refusal?_eq_none_iff.mp hr).1
  exact ⟨⟨Path.ne_nil_of_mem_steps hm, Path.noSlash_of_mem_steps hm,
    Path.noZero_of_mem_steps hzero hm, hn.ne_here, hn.ne_above⟩, hn.length_le⟩

theorem Orderly.makeDirectory (hfs : fs.Orderly) (h : fs.makeDirectory path = .ok made) :
    made.Orderly := by
  obtain ⟨hr, hg, directory, name, tour, hl, rfl, hk⟩ := kindAt_of_makeDirectory h
  obtain ⟨front, -, hs, -⟩ := Trail.of_free (hfs.origin_ne_none path) hl
  have hname := isEntryName_of_mem_steps hr (by simp [hs]) (Trail.chart_of_free hl).2.1
  exact hfs.put hname .empty (hg.kindAt hfs.home)

theorem Orderly.layUpTo (hfs : fs.Orderly) {fuel : Nat} {failure : Option IoError}
    (h : fs.layUpTo fuel path = (made, failure)) : made.Orderly := by
  have hkept : (fs.layUpTo fuel path).1.Orderly :=
    layUpTo_keeps fuel (fun _ _ _ _ hgrown hm => hgrown.makeDirectory hm) hfs
  rwa [h] at hkept

/-! ## Where a path stands -/

/-- The place that a path stands for, with links followed: something that is there, or names that
are missing below a directory. -/
inductive Denotes (fs : FileSystem) (path : Path) : Location → List Name → Prop
  | found {tour : List Location} {location : Location} {kind : Kind}
      (h : Leads fs true (fs.origin path) path.steps tour (.ok (.taken location kind))) :
      Denotes fs path location []
  | missing {front : List Name} {name : Name} {rest : List Name} {tour : List Location}
      {base : Location} (hs : path.steps = front ++ name :: rest)
      (h : Leads fs true (fs.origin path) front tour (.ok (.taken base .directory)))
      (hn : LeadsDown name) (hfree : fs.kindAt (name :: base) = none) :
      Denotes fs path base (name :: plain rest)

theorem Leads.not_taken {origin : Location}
    (h : Leads fs true origin front tour (.ok (.taken base .directory))) (hn : LeadsDown name)
    (hfree : fs.kindAt (name :: base) = none) {followLast : Bool} {tour' : List Location}
    (h' : Leads fs followLast origin (front ++ name :: rest) tour' (.ok (.taken location kind))) :
    False := by
  obtain ⟨left, -, happend⟩ := Trail.append h
  have hd := Trail.chart_eq h
  by_cases hr : rest = []
  · subst hr
    obtain ⟨whole, hw, -⟩ := happend (List.cons_ne_nil _ _) (.vacant hd hn hfree)
    cases (Trail.unique hw h').2
  · obtain ⟨whole, hw, -⟩ := happend (List.cons_ne_nil _ _) (.lost hd hn hfree hr)
    cases (Trail.unique hw h').2

theorem Trail.not_taken_of_none {chart : Chart} {followLast : Bool} {links : Nat}
    {before after : List Name} (hbefore : ∀ step ∈ before, step = Path.here)
    (hhere : name ≠ Path.here) (habove : name ≠ Path.above) (hnone : chart (name :: base) = none)
    (h : Trail chart followLast links base (before ++ name :: after) tour
      (.ok (.taken location kind))) : False := by
  induction before generalizing tour with
  | nil =>
    cases h with
    | stay | climb => contradiction
    | enter _ _ hc | halt _ _ hc | detour _ _ hc => simp [hnone] at hc
  | cons step before ih =>
    obtain rfl := hbefore step List.mem_cons_self
    rw [List.cons_append] at h
    generalize hrest : before ++ name :: after = rest at h
    cases h with
    | stay _ h =>
      subst hrest
      exact ih (fun step hm => hbefore step (List.mem_cons_of_mem _ hm)) h
    | enter _ hn | detour _ hn => exact hn.ne_here rfl
    | halt _ hn => exact hn.ne_here rfl

namespace Denotes

theorem unique {base' : Location} {names' : List Name} (h : Denotes fs path base names)
    (h' : Denotes fs path base' names') : base = base' ∧ names = names' := by
  cases h with
  | found h =>
    cases h' with
    | found h' =>
      cases (Trail.unique h h').2
      exact ⟨rfl, rfl⟩
    | missing hs h' hn hfree => exact (h'.not_taken hn hfree (hs ▸ h)).elim
  | missing hs h hn hfree =>
    cases h' with
    | found h' => exact (h.not_taken hn hfree (hs ▸ h')).elim
    | missing hs' h' hn' hfree' =>
      rcases List.append_eq_append_iff.mp (hs.symm.trans hs') with
        ⟨middle, hf, hb⟩ | ⟨middle, hf, hb⟩
      · cases middle with
        | nil =>
          rw [List.append_nil] at hf
          subst hf
          cases (Trail.unique h h').2
          cases hb
          exact ⟨rfl, rfl⟩
        | cons step middle =>
          cases hb
          exact (h.not_taken hn hfree (hf ▸ h')).elim
      · cases middle with
        | nil =>
          rw [List.append_nil] at hf
          subst hf
          cases (Trail.unique h h').2
          cases hb
          exact ⟨rfl, rfl⟩
        | cons step middle =>
          cases hb
          exact (h'.not_taken hn' hfree' (hf ▸ h)).elim

theorem congr {path' : Path} (h : Denotes fs path base names) (hs : path.steps = path'.steps)
    (ha : path.isAbsolute = path'.isAbsolute) : Denotes fs path' base names := by
  have horigin : fs.origin path = fs.origin path' := by rw [origin, origin, ha]
  cases h with
  | found h => exact .found (by rwa [← hs, ← horigin])
  | missing hsteps h hn hfree => exact .missing (hs ▸ hsteps) (horigin ▸ h) hn hfree

theorem exists_steps (h : Denotes fs path base names) : ∃ front back kind tour,
    path.steps = front ++ back ∧ plain back = names ∧
      Leads fs true (fs.origin path) front tour (.ok (.taken base kind)) := by
  cases h with
  | found h => exact ⟨_, [], _, _, (List.append_nil _).symm, rfl, h⟩
  | missing hs h hn => exact ⟨_, _, _, _, hs, plain_cons hn.ne_here _, h⟩

theorem extend_steps {longer : Path} {more : List Name} (h : Denotes fs path base names)
    (hne : names ≠ []) (hs : longer.steps = path.steps ++ more)
    (ha : longer.isAbsolute = path.isAbsolute) :
    Denotes fs longer base (names ++ plain more) := by
  have horigin : fs.origin longer = fs.origin path := by rw [origin, origin, ha]
  cases h with
  | found => exact absurd rfl hne
  | @missing front name rest _ _ hsteps hl hn hfree =>
    rw [List.cons_append, ← plain_append]
    apply Denotes.missing _ (horigin ▸ hl) hn hfree
    rw [hs, hsteps, List.append_assoc, List.cons_append]

theorem extend {longer : Path} {more : List Name} (h : Denotes fs path base names)
    (hne : names ≠ []) (hs : longer.steps = path.steps ++ more)
    (ha : longer.isAbsolute = path.isAbsolute) (hmore : ∀ name ∈ more, name ≠ Path.here) :
    Denotes fs longer base (names ++ more) := by
  have hlonger := h.extend_steps hne hs ha
  rwa [plain_of_names hmore] at hlonger

theorem free (h : Denotes fs path base (name :: names)) : fs.kindAt (name :: base) = none := by
  cases h with
  | missing _ _ _ hfree => exact hfree

theorem kindAt_down (h : Denotes fs path base names) (hne : names ≠ []) (hf : front <+: names)
    (hfront : front ≠ []) : fs.kindAt (down base front) = none := by
  obtain ⟨name, names, rfl⟩ := List.exists_cons_of_ne_nil hne
  obtain ⟨step, front, rfl⟩ := List.exists_cons_of_ne_nil hfront
  obtain ⟨rfl, -⟩ := List.cons_prefix_cons.mp hf
  by_contra hk
  rw [down_cons] at hk
  exact kindAt_ne_none_of_suffix hk (suffix_down _ _) h.free

theorem leads (h : Denotes fs path base names) (hh : fs.kindAt fs.home ≠ none)
    (hx : Extends fs fs') (hfs' : fs'.Orderly) (habove : Path.above ∉ path.steps)
    (hway : ∀ front, front <+: names → fs'.kindAt (down base front) = some .directory) :
    ∃ tour, Leads fs' true (fs'.origin path) path.steps tour
      (.ok (.taken (down base names) .directory)) := by
  obtain ⟨front, back, kind, tour, hs, rfl, hl⟩ := h.exists_steps
  obtain ⟨kind', hk', hl'⟩ := hx.leads hh hl
  obtain rfl : kind' = .directory := Option.some.inj (hk'.symm.trans (hway [] List.nil_prefix))
  by_cases hb : back = []
  · subst hb
    rw [List.append_nil] at hs
    exact ⟨tour, hs ▸ hl'⟩
  · have hsteps : ∀ step ∈ back, step ≠ Path.above ∧ step.length ≤ nameLimit := by
      intro step hm
      refine ⟨fun e => habove (e ▸ by simp [hs, hm]), ?_⟩
      by_cases hhere : step = Path.here
      · subst hhere
        decide
      · -- The step is the name of a directory on the way.
        have hplain : step ∈ plain back := List.mem_filter.mpr ⟨hm, by simpa using hhere⟩
        obtain ⟨init, tail, hsplit⟩ := List.append_of_mem hplain
        have hstep := hway (init ++ [step]) ⟨tail, by simp [hsplit]⟩
        rw [down_concat] at hstep
        have hne : fs'.kindAt (step :: down base init) ≠ none := by simp [hstep]
        exact (hfs'.entryName hne).length_le
    obtain ⟨left, -, happend⟩ := Trail.append hl'
    obtain ⟨tour', ht⟩ := Trail.descent hsteps hway
    obtain ⟨whole, hw, -⟩ := happend hb ht
    exact ⟨whole, hs ▸ hw⟩

end Denotes

/-! ## Making directories -/

/-- Directories were made of names below a base, and nothing else changed. -/
structure Laid (fs made : FileSystem) (base : Location) (names : List Name) : Prop where
  way : ∀ front, front <+: names → made.kindAt (down base front) = some .directory
  rest : ∀ location, (∀ front, front <+: names → front ≠ [] → location ≠ down base front) →
    made.kindAt location = fs.kindAt location

namespace Laid

theorem refl (h : fs.kindAt base = some .directory) : Laid fs fs base [] := by
  refine ⟨fun front hf => ?_, fun _ _ => rfl⟩
  rwa [List.prefix_nil.mp hf]

theorem kindAt_eq (h : Laid fs made base []) : made.kindAt = fs.kindAt := by
  funext location
  exact h.rest location fun front hf hne => absurd (List.prefix_nil.mp hf) hne

theorem kindAt_unique (h : Laid fs made base names) (h' : Laid fs grown base names) :
    made.kindAt = grown.kindAt := by
  funext location
  by_cases hway : ∃ front, front <+: names ∧ location = down base front
  · obtain ⟨front, hf, rfl⟩ := hway
    rw [h.way front hf, h'.way front hf]
  · have hout : ∀ front, front <+: names → front ≠ [] → location ≠ down base front :=
      fun front hf _ he => hway ⟨front, hf, he⟩
    rw [h.rest location hout, h'.rest location hout]

theorem concat (h : Laid fs grown base names)
    (hk : made.kindAt = Function.update grown.kindAt (name :: down base names) (some .directory)) :
    Laid fs made base (names ++ [name]) := by
  constructor
  · intro front hf
    rw [hk]
    rcases List.prefix_concat_iff.mp hf with rfl | hf
    · rw [down_concat, Function.update_self]
    · rw [Function.update_of_ne, h.way front hf]
      intro he
      have hlen := congrArg List.length he
      have := hf.length_le
      simp only [down, List.length_cons, List.length_append, List.length_reverse] at hlen
      omega
  · intro location hl
    rw [hk, Function.update_of_ne]
    · exact h.rest location fun front hf => hl front (hf.trans (List.prefix_append _ _))
    · exact down_concat base names name ▸ hl (names ++ [name]) List.prefix_rfl (by simp)

end Laid

theorem Denotes.kindAt_beyond (h : Denotes fs path base names) (hl : Laid fs made base names)
    (hne : names ≠ []) (name : Name) : made.kindAt (name :: down base names) = none := by
  rw [hl.rest, kindAt_eq_none_of_parent]
  · rw [h.kindAt_down hne List.prefix_rfl hne]
    simp
  · intro front hf _ he
    have hlen := congrArg List.length he
    have := hf.length_le
    simp only [down, List.length_cons, List.length_append, List.length_reverse] at hlen
    omega

theorem laid_of_makeDirectory (hfs : fs.Orderly) (h : fs.makeDirectory path = .ok made) :
    ∃ base names, Denotes fs path base names ∧ Laid fs made base names := by
  obtain ⟨-, -, directory, name, tour, hl, -, hk⟩ := kindAt_of_makeDirectory h
  obtain ⟨front, tour', hs, hf⟩ := Trail.of_free (hfs.origin_ne_none path) hl
  obtain ⟨hd, hn, hfree⟩ := Trail.chart_of_free hl
  exact ⟨directory, [name], .missing hs hf hn hfree, (Laid.refl hd).concat hk⟩

theorem denotes_of_isDirectory (hfs : fs.Orderly) (h : fs.isDirectory path = true) :
    ∃ base, Denotes fs path base [] ∧ Laid fs fs base [] := by
  obtain ⟨-, location, tour, hl⟩ := leads_of_isDirectory h
  obtain ⟨tour', hs⟩ := Trail.steps_of_names (hfs.origin_ne_none path) hl
  exact ⟨location, .found hs, .refl (Trail.chart_eq hs)⟩

section Parent

variable {before after : List Name} {last : Name}

theorem laid_of_parent (hfs : fs.Orderly) (hgrown : grown.Orderly) (hg : Grows fs grown)
    (habove : Path.above ∉ path.steps) (horigin : fs.origin path = fs.origin parent)
    (hs : path.steps = parent.steps ++ (before ++ last :: after))
    (hbefore : ∀ step ∈ before, step = Path.here) (hafter : ∀ step ∈ after, step = Path.here)
    (hp : Denotes fs parent base names) (hl : Laid fs grown base names)
    (h : grown.makeDirectory path = .ok made) :
    ∃ base names, Denotes fs path base names ∧ Laid fs made base names := by
  obtain ⟨-, -, directory, name, tour, hlead, -, hk⟩ := kindAt_of_makeDirectory h
  obtain ⟨front, tour', hfront, hf⟩ := Trail.of_free (hgrown.origin_ne_none path) hlead
  obtain ⟨-, hn, hfree⟩ := Trail.chart_of_free hlead
  -- The last step is the name, so nothing but stays stands between the parent and the name.
  obtain ⟨rfl, rfl, rfl⟩ : after = [] ∧ last = name ∧ front = parent.steps ++ before := by
    rcases List.eq_nil_or_concat after with rfl | ⟨init, step, rfl⟩
    · rw [hs, ← List.append_assoc] at hfront
      obtain ⟨hfront, hlast⟩ := List.append_inj' hfront rfl
      exact ⟨rfl, List.singleton_inj.mp hlast, hfront.symm⟩
    · have hassoc : parent.steps ++ (before ++ last :: init.concat step) =
          (parent.steps ++ (before ++ last :: init)) ++ [step] := by simp
      rw [hs, hassoc] at hfront
      have hlast := List.singleton_inj.mp (List.append_inj' hfront rfl).2
      exact absurd (hlast ▸ hafter step (by simp)) hn.ne_here
  have habove' : Path.above ∉ parent.steps := fun hm => habove (by simp [hs, hm])
  obtain ⟨tour'', hparent⟩ := hp.leads hfs.home_ne_none hg.isExtension hgrown habove' hl.way
  obtain ⟨stay, hstay⟩ : ∃ stay, Leads grown true (grown.origin path) (parent.steps ++ before)
      stay (.ok (.taken (down base names) .directory)) := by
    rw [hg.isExtension.origin_eq hfs.home_ne_none, horigin,
      ← hg.isExtension.origin_eq hfs.home_ne_none]
    by_cases hb : before = []
    · exact ⟨tour'', by rwa [hb, List.append_nil]⟩
    · obtain ⟨left, -, happend⟩ := Trail.append hparent
      have hd : ∀ front, front <+: plain before →
          grown.kindAt (down (down base names) front) = some .directory := by
        rw [plain_eq_nil_iff.mpr hbefore]
        intro front hf
        rw [List.prefix_nil.mp hf]
        exact hl.way names List.prefix_rfl
      obtain ⟨tour, ht⟩ := Trail.descent (fun step hm => by rw [hbefore step hm]; decide) hd
      rw [plain_eq_nil_iff.mpr hbefore, down_nil] at ht
      obtain ⟨whole, hw, -⟩ := happend hb ht
      exact ⟨whole, hw⟩
  cases (Trail.unique hf hstay).2
  refine ⟨base, names ++ [last], ?_, hl.concat hk⟩
  cases hp with
  | found =>
    rw [hl.kindAt_eq] at hfree
    rw [Leads, hl.kindAt_eq, hg.isExtension.origin_eq hfs.home_ne_none] at hstay
    exact .missing (by rw [hs, ← List.append_assoc]) hstay hn hfree
  | @missing front first rest tour base hsteps hfirst hfn hffree =>
    have hplain : first :: plain rest ++ [last] = first :: plain (rest ++ (before ++ [last])) := by
      simp [plain_eq_nil_iff.mpr hbefore, plain_cons hn.ne_here]
    rw [hplain]
    exact .missing (by simp [hs, hsteps]) (horigin ▸ hfirst) hfn hffree

theorem denotes_of_parent (hfs : fs.Orderly) (hgrown : grown.Orderly) (hg : Grows fs grown)
    (habove : Path.above ∉ path.steps) (horigin : fs.origin path = fs.origin parent)
    (hs : path.steps = parent.steps ++ (before ++ last :: after))
    (hbefore : ∀ step ∈ before, step = Path.here) (hlast : last ≠ Path.here)
    (hp : Denotes fs parent base names) (hl : Laid fs grown base names)
    (h : grown.isDirectory path = true) :
    ∃ base, Denotes fs path base [] ∧ Laid fs grown base [] := by
  obtain ⟨location, hd, hlaid⟩ := denotes_of_isDirectory hgrown h
  cases hd with
  | @found tour location kind hlead =>
  cases hp with
  | found =>
    have hlead' := hlead
    rw [Leads, hl.kindAt_eq, hg.isExtension.origin_eq hfs.home_ne_none] at hlead'
    refine ⟨location, .found hlead', hlaid.way, fun place _ => ?_⟩
    rw [hl.kindAt_eq]
  | @missing front first rest tour base hsteps hfirst hfn hffree =>
    exfalso
    have hp : Denotes fs parent base (first :: plain rest) := .missing hsteps hfirst hfn hffree
    set names := first :: plain rest with hnames
    have habove' : Path.above ∉ parent.steps := fun hm => habove (by simp [hs, hm])
    obtain ⟨tour'', hparent⟩ := hp.leads hfs.home_ne_none hg.isExtension hgrown habove' hl.way
    obtain ⟨middle, left, front', back', -, hfront, hback⟩ := Trail.of_append
      (hgrown.origin_ne_none path) (by simp) (hs ▸ hlead)
    rw [hg.isExtension.origin_eq hfs.home_ne_none, horigin,
      ← hg.isExtension.origin_eq hfs.home_ne_none] at hfront
    cases (Trail.unique hfront hparent).2
    -- The new directory is empty, so that the last step finds nothing there.
    have hnone := hp.kindAt_beyond hl (by simp [hnames]) last
    have hne : last ≠ Path.above := fun e => habove (by simp [hs, e])
    exact hback.not_taken_of_none hbefore hlast hne hnone

end Parent

/-- The steps of a path that gets lost are those of its parent and a name after them. -/
theorem steps_of_lost (hfs : fs.Orderly) (h : fs.makeDirectory path = .error SystemError.noEntry)
    (hp : path.parent? = some parent) : ∃ before last after,
      path.steps = parent.steps ++ (before ++ last :: after) ∧
        (∀ step ∈ before, step = Path.here) ∧ (∀ step ∈ after, step = Path.here) ∧
        last ≠ Path.here := by
  rcases path.body_cases with ⟨hidle, -⟩ | ⟨front, last, after, hb, hl, ha, hpar⟩
  · -- A path without a name leads to where it starts.
    have hsteps : ∀ step ∈ path.steps, step = Path.here := by
      intro step hm
      rw [Path.steps_eq_lead_append, List.mem_append] at hm
      rcases hm with hm | hm
      · rw [Path.lead] at hm
        split_ifs at hm
        · exact List.mem_singleton.mp hm
        · cases hm
      · exact Path.eq_here_of_mem_filter hidle hm
    have hd : ∀ front, front <+: plain path.steps →
        fs.kindAt (down (fs.origin path) front) = some .directory := by
      rw [plain_eq_nil_iff.mpr hsteps]
      intro front hf
      rw [List.prefix_nil.mp hf]
      exact hfs.kindAt_origin path
    obtain ⟨tour, ht⟩ := Trail.descent (fun step hm => by rw [hsteps step hm]; decide) hd
    cases hr : refusal? path with
    | some error =>
      rw [makeDirectory_of_refusal hr] at h
      cases h
      have hbytes : path.bytes = [] := by
        unfold refusal? at hr
        split_ifs at hr with _ he
        · cases hr
        · simpa [Path.isEmpty] using he
        · cases hr
      simp [Path.parent?, Path.anchor, hbytes, Path.split, Path.trimParts, Path.here] at hp
    | none =>
      rw [makeDirectory_of_leads_taken hr ht] at h
      cases h
  · rw [hpar] at hp
    cases hp
    obtain ⟨before, after', hs, hbefore, hafter, hlast⟩ := Path.steps_of_body hb hl ha
    exact ⟨before, last, after', by rw [hs, List.append_assoc], hbefore, hafter, hlast⟩

/-- When the way to a path has been laid, it leads to the place that the path stood for, and nothing
else has changed. -/
theorem laid_of_layUpTo (hfs : fs.Orderly) {fuel : Nat} (hfuel : path.length ≤ fuel)
    (habove : Path.above ∉ path.steps) (h : fs.layUpTo fuel path = (made, none)) :
    ∃ base names, Denotes fs path base names ∧ Laid fs made base names := by
  have hempty {path : Path} (he : path.isEmpty = true) :
      ∃ base names, Denotes fs path base names ∧ Laid fs fs base names := by
    have horigin := hfs.kindAt_origin path
    have hstop : Leads fs true (fs.origin path) path.steps [fs.origin path]
        (.ok (.taken (fs.origin path) .directory)) := by
      rw [Path.steps_of_isEmpty he]
      exact .stop horigin
    exact ⟨_, _, .found hstop, .refl horigin⟩
  induction fuel generalizing path made with
  | zero =>
    rw [layUpTo] at h
    cases h
    apply hempty
    simpa [Path.length, Path.isEmpty] using hfuel
  | succ fuel ih =>
    rcases layUpTo_cases h with ⟨he, rfl⟩ | hm | ⟨hd, rfl⟩ |
      ⟨parent, grown, hno, hp, hgrow, hm⟩
    · exact hempty he
    · exact laid_of_makeDirectory hfs hm
    · obtain ⟨base, hdenotes, hlaid⟩ := denotes_of_isDirectory hfs hd
      exact ⟨base, [], hdenotes, hlaid⟩
    · obtain ⟨before, last, after, hs, hbefore, hafter, hlast⟩ := steps_of_lost hfs hno hp
      have hshorter := Path.length_lt_of_parent? hp (by simp [hs])
      have habove' : Path.above ∉ parent.steps := fun hm => habove (by simp [hs, hm])
      have hgrown := hfs.layUpTo hgrow
      have hg := grows_of_layUpTo hgrow
      have horigin : fs.origin path = fs.origin parent := by
        rw [origin, origin, Path.isAbsolute_parent? hp]
      obtain ⟨base, names, hdenotes, hlaid⟩ := ih (by omega) habove' hgrow
      rcases hm with hm | ⟨hd, rfl⟩
      · exact laid_of_parent hfs hgrown hg habove horigin hs hbefore hafter hdenotes hlaid hm
      · obtain ⟨base, hdenotes, hlaid⟩ := denotes_of_parent hfs hgrown hg habove horigin hs hbefore
          hlast hdenotes hlaid hd
        exact ⟨base, [], hdenotes, hlaid⟩

theorem refusal?_of_parent? (h : path.parent? = some parent) (hp : parent.isEmpty = false)
    (hr : refusal? path = none) : refusal? parent = none := by
  have hpre := Path.prefix_of_parent? h
  obtain ⟨hzero, -, hlength⟩ := refusal?_eq_none_iff.mp hr
  exact refusal?_eq_none_iff.mpr
    ⟨fun hm => hzero (hpre.subset hm), hp, hpre.length_le.trans_lt hlength⟩

theorem exists_parent_of_missing {front init : List Name} {name last : Name}
    (hs : path.steps = front ++ name :: (init ++ [last])) (hname : name ≠ Path.here)
    (hhere : ∀ step ∈ path.steps.tail, step ≠ Path.here) :
    last ≠ Path.here ∧ ∃ parent, path.parent? = some parent ∧
      parent.steps = front ++ name :: init ∧ path.steps = parent.steps ++ [last] := by
  have hnames : ∀ step ∈ name :: init ++ [last], step ≠ Path.here := by
    intro step hm
    rcases List.mem_cons.mp hm with rfl | hm
    · exact hname
    · refine hhere step ?_
      rw [hs]
      cases front <;> simp_all
  obtain ⟨init', step, hinit⟩ := (List.eq_nil_or_concat (name :: init)).resolve_left (by simp)
  rw [List.concat_eq_append] at hinit
  have hsplit : path.steps = (front ++ init') ++ [step, last] := by
    rw [hs, ← List.cons_append, hinit]
    simp
  obtain ⟨parent, hp, hpsteps⟩ := Path.exists_parent?_of_names hsplit
    (hnames step (by simp [hinit])) (hnames last (by simp))
  rw [List.append_assoc, ← hinit] at hpsteps
  exact ⟨hnames last (by simp), parent, hp, hpsteps, by simp [hs, hpsteps]⟩

theorem exists_layUpTo (hfs : fs.Orderly) {fuel : Nat} (hfuel : path.length ≤ fuel)
    (hr : refusal? path = none)
    (hsteps : ∀ step ∈ path.steps, step ≠ Path.above ∧ step.length ≤ nameLimit)
    (hhere : ∀ step ∈ path.steps.tail, step ≠ Path.here) (h : Denotes fs path base names)
    (hne : names ≠ []) : ∃ made, fs.layUpTo fuel path = (made, none) := by
  induction fuel generalizing path base names with
  | zero => exact ⟨fs, rfl⟩
  | succ fuel ih =>
    cases h with
    | found => exact absurd rfl hne
    | @missing front name rest tour base hs hl hn hfree =>
    have hempty := Path.isEmpty_of_steps_ne_nil (by simp [hs] : path.steps ≠ [])
    have hd := Trail.chart_eq hl
    obtain ⟨left, -, happend⟩ := Trail.append hl
    rcases List.eq_nil_or_concat rest with rfl | ⟨init, last, rfl⟩
    · obtain ⟨whole, hw, -⟩ := happend (List.cons_ne_nil _ _) (.vacant hd hn hfree)
      rw [← hs] at hw
      exact ⟨_, by rw [layUpTo, hempty, makeDirectory_of_leads_free hr hw]; rfl⟩
    · rw [List.concat_eq_append] at hs
      obtain ⟨whole, hw, -⟩ := happend (List.cons_ne_nil _ _)
        (.lost hd hn hfree (by simp : init ++ [last] ≠ []))
      rw [← hs] at hw
      have hlost := makeDirectory_of_leads_error hr hw
      obtain ⟨hlast, parent, hp, hpsteps, hs'⟩ := exists_parent_of_missing hs hn.ne_here hhere
      have hsub : parent.steps ⊆ path.steps := hs' ▸ List.subset_append_left _ _
      have hpempty := Path.isEmpty_of_steps_ne_nil (by simp [hpsteps] : parent.steps ≠ [])
      have horigin : fs.origin parent = fs.origin path := by
        rw [origin, origin, Path.isAbsolute_parent? hp]
      have hdenotes : Denotes fs parent base (name :: plain init) :=
        .missing hpsteps (horigin ▸ hl) hn hfree
      have hshorter := Path.length_lt_of_parent? hp (by simp [hs'])
      obtain ⟨grown, hgrow⟩ : ∃ grown, fs.layUpTo fuel parent = (grown, none) := by
        refine ih (by omega) (refusal?_of_parent? hp hpempty hr)
          (fun step hm => hsteps step (hsub hm)) (fun step hm => hhere step ?_) hdenotes
          (List.cons_ne_nil _ _)
        rw [hs', List.tail_append_of_ne_nil (by simp [hpsteps])]
        exact List.mem_append_left _ hm
      have hgrown := hfs.layUpTo hgrow
      have hx := (grows_of_layUpTo hgrow).isExtension
      have habove : Path.above ∉ parent.steps := fun hm => (hsteps _ (hsub hm)).1 rfl
      obtain ⟨base', names', hdenotes', hlaid⟩ :=
        laid_of_layUpTo hfs (by omega) habove hgrow
      obtain ⟨rfl, rfl⟩ := hdenotes.unique hdenotes'
      obtain ⟨tour', hlead⟩ := hdenotes.leads hfs.home_ne_none hx hgrown habove hlaid.way
      obtain ⟨left, -, happend⟩ := Trail.append hlead
      obtain ⟨hup, hlen⟩ := hsteps last (by simp [hs])
      obtain ⟨whole, hw, -⟩ := happend (List.cons_ne_nil _ _) (.vacant (Trail.chart_eq hlead)
        ⟨hlast, hup, hlen⟩
        (hdenotes.kindAt_beyond hlaid (List.cons_ne_nil _ _) last))
      rw [← hs', hx.origin_eq hfs.home_ne_none, horigin, ← hx.origin_eq hfs.home_ne_none] at hw
      have hmade := makeDirectory_of_leads_free hr hw
      exact ⟨_, by simp [layUpTo, hempty, hlost, hp, hgrow, hmade]; rfl⟩

theorem laid_of_lay (hfs : fs.Orderly) (habove : Path.above ∉ path.steps)
    (h : fs.lay path = (made, none)) :
    ∃ base names, Denotes fs path base names ∧ Laid fs made base names :=
  laid_of_layUpTo hfs (Nat.le_refl _) habove h

end FileSystem
end TreePool

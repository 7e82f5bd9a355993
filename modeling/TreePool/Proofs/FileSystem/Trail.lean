import TreePool.Proofs.FileSystem.Chart

/-! # Trails

A trail is the way on which names are followed: the places that are looked at one after the other,
and where the way ends. It depends on nothing but what stands at these places. So a change that
spares all of them leads the same way, and a way that leads to something still does when things are
only added. `exists_trail` says that every path is followed on a trail.
-/

namespace TreePool

/-- Where a path leads, as far as charts tell. -/
inductive Landing where
  | taken (location : Location) (kind : Kind)
  | free (directory : Location) (name : Name)
deriving DecidableEq, Repr

namespace FileSystem

/-- A name that leads down, and that is not too long. -/
structure LeadsDown (name : Name) : Prop where
  ne_here : name ≠ Path.here
  ne_above : name ≠ Path.above
  length_le : name.length ≤ nameLimit

/-- The rules for following names from a place through at most the given number of links, with the
places that are looked at and the place where this ends. -/
inductive Trail (chart : Chart) (followLast : Bool) :
    Nat → Location → List Name → List Location → Except IoError Landing → Prop
  | stop {links location kind} (h : chart location = some kind) :
      Trail chart followLast links location [] [location] (.ok (.taken location kind))
  | blocked {links location name rest} (h : chart location ≠ some .directory) :
      Trail chart followLast links location (name :: rest) [location]
        (.error SystemError.notDirectory)
  | stay {links location rest tour landing} (hd : chart location = some .directory)
      (h : Trail chart followLast links location rest tour landing) :
      Trail chart followLast links location (Path.here :: rest) (location :: tour) landing
  | climb {links location rest tour landing} (hd : chart location = some .directory)
      (h : Trail chart followLast links location.tail rest tour landing) :
      Trail chart followLast links location (Path.above :: rest) (location :: tour) landing
  | tooLong {links location name rest} (hd : chart location = some .directory)
      (hh : name ≠ Path.here) (ha : name ≠ Path.above) (hl : nameLimit < name.length) :
      Trail chart followLast links location (name :: rest) [location]
        (.error SystemError.nameTooLong)
  | vacant {links location name} (hd : chart location = some .directory) (hn : LeadsDown name)
      (hc : chart (name :: location) = none) :
      Trail chart followLast links location [name] [location, name :: location]
        (.ok (.free location name))
  | lost {links location name rest} (hd : chart location = some .directory) (hn : LeadsDown name)
      (hc : chart (name :: location) = none) (hr : rest ≠ []) :
      Trail chart followLast links location (name :: rest) [location, name :: location]
        (.error SystemError.noEntry)
  | enter {links location name rest kind tour landing} (hd : chart location = some .directory)
      (hn : LeadsDown name) (hc : chart (name :: location) = some kind)
      (hk : ∀ target, kind ≠ .link target)
      (h : Trail chart followLast links (name :: location) rest tour landing) :
      Trail chart followLast links location (name :: rest) (location :: tour) landing
  | halt {links location name target} (hd : chart location = some .directory)
      (hn : LeadsDown name) (hc : chart (name :: location) = some (.link target))
      (hf : followLast = false) :
      Trail chart followLast links location [name] [location, name :: location]
        (.ok (.taken (name :: location) (.link target)))
  | detour {links location name rest target tour landing}
      (hd : chart location = some .directory) (hn : LeadsDown name)
      (hc : chart (name :: location) = some (.link target)) (hr : rest ≠ [] ∨ followLast = true)
      (h : Trail chart followLast links (if target.isAbsolute then [] else location)
        (target.names ++ rest) tour landing) :
      Trail chart followLast (links + 1) location (name :: rest)
        (location :: (name :: location) :: tour) landing
  | tangled {location name rest target} (hd : chart location = some .directory)
      (hn : LeadsDown name) (hc : chart (name :: location) = some (.link target))
      (hr : rest ≠ [] ∨ followLast = true) :
      Trail chart followLast 0 location (name :: rest) [location, name :: location]
        (.error SystemError.tooManyLinks)

namespace Trail

variable {chart chart' : Chart} {followLast : Bool} {links : Nat} {location end_ : Location}
variable {names front rest : List Name} {tour tour' : List Location}
variable {landing landing' : Except IoError Landing} {kind : Kind} {name : Name}

theorem location_mem (h : Trail chart followLast links location names tour landing) :
    location ∈ tour := by
  cases h <;> exact List.mem_cons_self

/-- A trail goes by what stands at the places on it. -/
theorem congr (h : Trail chart followLast links location names tour landing)
    (hc : ∀ place ∈ tour, chart' place = chart place) :
    Trail chart' followLast links location names tour landing := by
  induction h with
  | stop h => exact .stop (by rw [hc _ List.mem_cons_self, h])
  | blocked h => exact .blocked (by rwa [hc _ List.mem_cons_self])
  | stay hd _ ih =>
    exact .stay (by rw [hc _ List.mem_cons_self, hd]) (ih fun place hm =>
      hc place (List.mem_cons_of_mem _ hm))
  | climb hd _ ih =>
    exact .climb (by rw [hc _ List.mem_cons_self, hd]) (ih fun place hm =>
      hc place (List.mem_cons_of_mem _ hm))
  | tooLong hd hh ha hl => exact .tooLong (by rw [hc _ List.mem_cons_self, hd]) hh ha hl
  | vacant hd hn hf =>
    exact .vacant (by rw [hc _ (by simp), hd]) hn (by rw [hc _ (by simp), hf])
  | lost hd hn hf hr =>
    exact .lost (by rw [hc _ (by simp), hd]) hn (by rw [hc _ (by simp), hf]) hr
  | enter hd hn hk hl h ih =>
    exact .enter (by rw [hc _ List.mem_cons_self, hd]) hn
      (by rw [hc _ (List.mem_cons_of_mem _ h.location_mem), hk]) hl
      (ih fun place hm => hc place (List.mem_cons_of_mem _ hm))
  | halt hd hn hl hf =>
    exact .halt (by rw [hc _ (by simp), hd]) hn (by rw [hc _ (by simp), hl]) hf
  | detour hd hn hl hr _ ih =>
    exact .detour (by rw [hc _ (by simp), hd]) hn (by rw [hc _ (by simp), hl]) hr
      (ih fun place hm => hc place (List.mem_cons_of_mem _ (List.mem_cons_of_mem _ hm)))
  | tangled hd hn hl hr =>
    exact .tangled (by rw [hc _ (by simp), hd]) hn (by rw [hc _ (by simp), hl]) hr

/-- At each step only one rule applies. -/
theorem unique (h : Trail chart followLast links location names tour landing)
    (h' : Trail chart followLast links location names tour' landing') :
    tour = tour' ∧ landing = landing' := by
  induction h generalizing tour' landing' with
  | stop | vacant | lost | tooLong | blocked | halt | tangled => cases h' <;> grind [LeadsDown]
  | stay _ _ ih | climb _ _ ih | enter _ _ _ _ _ ih | detour _ _ _ _ _ ih =>
    cases h' <;> grind [LeadsDown]

theorem chart_eq (h : Trail chart followLast links location names tour (.ok (.taken end_ kind))) :
    chart end_ = some kind := by
  generalize hl : Except.ok (Landing.taken end_ kind) = landing at h
  induction h with
  | stop h => cases hl; exact h
  | stay _ _ ih | climb _ _ ih | enter _ _ _ _ _ ih | detour _ _ _ _ _ ih => exact ih hl
  | halt _ _ hc => cases hl; exact hc
  | blocked | tooLong | vacant | lost | tangled => cases hl

theorem end_mem (h : Trail chart followLast links location names tour (.ok (.taken end_ kind))) :
    end_ ∈ tour := by
  generalize hl : Except.ok (Landing.taken end_ kind) = landing at h
  induction h with
  | stop => cases hl; exact List.mem_cons_self
  | stay _ _ ih | climb _ _ ih | enter _ _ _ _ _ ih => exact List.mem_cons_of_mem _ (ih hl)
  | detour _ _ _ _ _ ih => exact List.mem_cons_of_mem _ (List.mem_cons_of_mem _ (ih hl))
  | halt => cases hl; exact List.mem_cons_of_mem _ List.mem_cons_self
  | blocked | tooLong | vacant | lost | tangled => cases hl

theorem chart_of_free {directory : Location}
    (h : Trail chart followLast links location names tour (.ok (.free directory name))) :
    chart directory = some .directory ∧ LeadsDown name ∧ chart (name :: directory) = none := by
  generalize hl : Except.ok (Landing.free directory name) = landing at h
  induction h with
  | vacant hd hn hc => cases hl; exact ⟨hd, hn, hc⟩
  | stay _ _ ih | climb _ _ ih | enter _ _ _ _ _ ih | detour _ _ _ _ _ ih => exact ih hl
  | stop | blocked | tooLong | lost | halt | tangled => cases hl

end Trail

/-! ## What is kept -/

structure Keeps (chart chart' : Chart) : Prop where
  directory {location} : chart location = some .directory → chart' location = some .directory
  link {location target} : chart location = some (.link target) →
    chart' location = some (.link target)
  file {location content} : chart location = some (.file content) →
    ∃ content', chart' location = some (.file content')

namespace Keeps

variable {chart chart' chart'' : Chart} {location : Location}

theorem refl (chart : Chart) : Keeps chart chart :=
  ⟨id, id, fun h => ⟨_, h⟩⟩

theorem trans (h : Keeps chart chart') (h' : Keeps chart' chart'') : Keeps chart chart'' :=
  ⟨fun hd => h'.directory (h.directory hd), fun hl => h'.link (h.link hl), fun hf => by
    obtain ⟨content, hf⟩ := h.file hf
    exact h'.file hf⟩

theorem exists_kind (h : Keeps chart chart') {kind : Kind} (hk : chart location = some kind) :
    ∃ kind', chart' location = some kind' ∧
      (∀ target, kind = .link target ↔ kind' = .link target) ∧
      (kind = .directory ↔ kind' = .directory) := by
  cases kind with
  | directory => exact ⟨_, h.directory hk, by simp, by simp⟩
  | link => exact ⟨_, h.link hk, by simp, by simp⟩
  | file =>
    obtain ⟨content, hf⟩ := h.file hk
    exact ⟨_, hf, by simp, by simp⟩

theorem trail (h : Keeps chart chart') {followLast : Bool} {links : Nat} {end_ : Location}
    {names : List Name} {tour : List Location} {kind : Kind}
    (ht : Trail chart followLast links location names tour (.ok (.taken end_ kind))) :
    ∃ kind', chart' end_ = some kind' ∧
      Trail chart' followLast links location names tour (.ok (.taken end_ kind')) := by
  obtain ⟨kind', hk', -⟩ := h.exists_kind ht.chart_eq
  refine ⟨kind', hk', ?_⟩
  generalize hl : Except.ok (Landing.taken end_ kind) = landing at ht
  induction ht with
  | stop hs => cases hl; exact .stop hk'
  | stay hd _ ih => exact .stay (h.directory hd) (ih hl)
  | climb hd _ ih => exact .climb (h.directory hd) (ih hl)
  | enter hd hn hc hk _ ih =>
    obtain ⟨next, hnext, hlink, -⟩ := h.exists_kind hc
    exact .enter (h.directory hd) hn hnext (fun target he => hk target ((hlink target).mpr he))
      (ih hl)
  | halt hd hn hc hf =>
    cases hl
    cases Option.some.inj (hk'.symm.trans (h.link hc))
    exact .halt (h.directory hd) hn (h.link hc) hf
  | detour hd hn hc hr _ ih => exact .detour (h.directory hd) hn (h.link hc) hr (ih hl)
  | blocked | tooLong | vacant | lost | tangled => cases hl

theorem update_free {kind : Kind} (h : chart location = none) :
    Keeps chart (Function.update chart location (some kind)) := by
  have hne {place : Location} {k : Kind} (hk : chart place = some k) : place ≠ location := by
    rintro rfl
    simp [h] at hk
  exact ⟨fun hk => by rw [Function.update_of_ne (hne hk), hk],
    fun hk => by rw [Function.update_of_ne (hne hk), hk],
    fun hk => ⟨_, by rw [Function.update_of_ne (hne hk), hk]⟩⟩

/-- To write over a file keeps everything but its content. -/
theorem update_file {old new : Bytes} (h : chart location = some (.file old)) :
    Keeps chart (Function.update chart location (some (.file new))) := by
  refine ⟨fun hk => ?_, fun hk => ?_, fun {place content} hk => ?_⟩
  · rwa [Function.update_of_ne]
    rintro rfl
    simp [h] at hk
  · rwa [Function.update_of_ne]
    rintro rfl
    simp [h] at hk
  · by_cases hp : place = location
    · exact ⟨new, by rw [hp, Function.update_self]⟩
    · exact ⟨content, by rw [Function.update_of_ne hp, hk]⟩

end Keeps

namespace Trail

variable {chart chart' : Chart} {followLast : Bool} {links : Nat} {location end_ : Location}
variable {names front rest : List Name} {tour tour' : List Location}
variable {landing landing' : Except IoError Landing} {kind : Kind} {name : Name}

/-! ## One trail after another -/

/-- Where a trail leads, another one can go on, also after something was added. -/
theorem append_keeps (h : Trail chart true links location front tour (.ok (.taken end_ kind))) :
    ∃ left ≤ links, ∀ {chart' followLast rest tour' landing}, Keeps chart chart' → rest ≠ [] →
      Trail chart' followLast left end_ rest tour' landing →
      ∃ whole, Trail chart' followLast links location (front ++ rest) whole landing ∧
        whole ⊆ tour ++ tour' := by
  generalize hl : Except.ok (Landing.taken end_ kind) = landing at h
  induction h with
  | @stop links =>
    cases hl
    exact ⟨links, Nat.le_refl _, fun _ _ h => ⟨_, h, List.subset_append_right _ _⟩⟩
  | stay hd _ ih =>
    obtain ⟨left, hle, ih⟩ := ih hl
    refine ⟨left, hle, fun hk hr h => ?_⟩
    obtain ⟨whole, hw, hsub⟩ := ih hk hr h
    exact ⟨_, .stay (hk.directory hd) hw, List.cons_subset_cons _ hsub⟩
  | climb hd _ ih =>
    obtain ⟨left, hle, ih⟩ := ih hl
    refine ⟨left, hle, fun hk hr h => ?_⟩
    obtain ⟨whole, hw, hsub⟩ := ih hk hr h
    exact ⟨_, .climb (hk.directory hd) hw, List.cons_subset_cons _ hsub⟩
  | enter hd hn hc hno _ ih =>
    obtain ⟨left, hle, ih⟩ := ih hl
    refine ⟨left, hle, fun hk hr h => ?_⟩
    obtain ⟨whole, hw, hsub⟩ := ih hk hr h
    obtain ⟨next, hnext, hlink, -⟩ := hk.exists_kind hc
    exact ⟨_, .enter (hk.directory hd) hn hnext
      (fun target he => hno target ((hlink target).mpr he))
      hw, List.cons_subset_cons _ hsub⟩
  | detour hd hn hc _ _ ih =>
    obtain ⟨left, hle, ih⟩ := ih hl
    refine ⟨left, Nat.le_succ_of_le hle, fun hk hr h => ?_⟩
    obtain ⟨whole, hw, hsub⟩ := ih hk hr h
    rw [List.append_assoc] at hw
    exact ⟨_, .detour (hk.directory hd) hn (hk.link hc)
      (.inl (List.append_ne_nil_of_right_ne_nil _ hr)) hw,
      List.cons_subset_cons _ (List.cons_subset_cons _ hsub)⟩
  | halt _ _ _ hf => cases hf
  | blocked | tooLong | vacant | lost | tangled => cases hl

/-- Where a trail leads, another one can go on. -/
theorem append (h : Trail chart true links location front tour (.ok (.taken end_ kind))) :
    ∃ left ≤ links, ∀ {followLast rest tour' landing}, rest ≠ [] →
      Trail chart followLast left end_ rest tour' landing →
      ∃ whole, Trail chart followLast links location (front ++ rest) whole landing ∧
        whole ⊆ tour ++ tour' := by
  obtain ⟨left, hle, happend⟩ := h.append_keeps
  exact ⟨left, hle, fun hr h => happend (.refl chart) hr h⟩

/-- The error that further steps come to, where a trail does not lead to anything. -/
def deadEnd? : Except IoError Landing → Option IoError
  | .ok (.taken _ _) => none
  | .ok (.free _ _) => some SystemError.noEntry
  | .error error => some error

/-- Nothing can be found beyond a free place, and an error stays whatever is still to come. -/
theorem append_of_deadEnd? {error : IoError} (hr : rest ≠ [])
    (h : Trail chart true links location front tour landing) (he : deadEnd? landing = some error) :
    Trail chart followLast links location (front ++ rest) tour (.error error) := by
  have hmore (names : List Name) : names ++ rest ≠ [] := List.append_ne_nil_of_right_ne_nil _ hr
  induction h with
  | vacant hd hn hc => cases he; exact .lost hd hn hc hr
  | blocked h => cases he; exact .blocked h
  | tooLong hd hh ha hlen => cases he; exact .tooLong hd hh ha hlen
  | lost hd hn hc => cases he; exact .lost hd hn hc (hmore _)
  | tangled hd hn hc => cases he; exact .tangled hd hn hc (.inl (hmore _))
  | stay hd _ ih => exact .stay hd (ih he)
  | climb hd _ ih => exact .climb hd (ih he)
  | enter hd hn hc hk _ ih => exact .enter hd hn hc hk (ih he)
  | detour hd hn hc _ _ ih =>
    have hw := ih he
    rw [List.append_assoc] at hw
    exact .detour hd hn hc (.inl (hmore _)) hw
  | stop | halt => cases he

/-- Unless a link stands at the end, it makes no difference whether that link is followed. -/
theorem followed (h : Trail chart followLast links location names tour (.ok (.taken end_ kind)))
    (hk : ∀ target, kind ≠ .link target) :
    Trail chart true links location names tour (.ok (.taken end_ kind)) := by
  generalize hl : Except.ok (Landing.taken end_ kind) = landing at h
  induction h with
  | stop h => exact .stop h
  | stay hd _ ih => exact .stay hd (ih hl)
  | climb hd _ ih => exact .climb hd (ih hl)
  | enter hd hn hc hk' _ ih => exact .enter hd hn hc hk' (ih hl)
  | detour hd hn hc _ _ ih => exact .detour hd hn hc (.inr rfl) (ih hl)
  | halt => cases hl; exact absurd rfl (hk _)
  | blocked | tooLong | vacant | lost | tangled => cases hl

/-- A path that leads to something when the last link is followed leads to something when it is not,
perhaps to that link. -/
theorem exists_unfollowed
    (h : Trail chart followLast links location names tour (.ok (.taken end_ kind))) :
    ∃ tour' place kind',
      Trail chart false links location names tour' (.ok (.taken place kind')) := by
  generalize hl : Except.ok (Landing.taken end_ kind) = landing at h
  induction h with
  | stop h => exact ⟨_, _, _, .stop h⟩
  | stay hd _ ih =>
    obtain ⟨tour', place, kind', ht⟩ := ih hl
    exact ⟨_, _, _, .stay hd ht⟩
  | climb hd _ ih =>
    obtain ⟨tour', place, kind', ht⟩ := ih hl
    exact ⟨_, _, _, .climb hd ht⟩
  | enter hd hn hc hk _ ih =>
    obtain ⟨tour', place, kind', ht⟩ := ih hl
    exact ⟨_, _, _, .enter hd hn hc hk ht⟩
  | @detour _ _ _ rest _ _ _ hd hn hc _ _ ih =>
    by_cases hrest : rest = []
    · subst hrest
      exact ⟨_, _, _, .halt hd hn hc rfl⟩
    · obtain ⟨tour', place, kind', ht⟩ := ih hl
      exact ⟨_, _, _, .detour hd hn hc (.inl hrest) ht⟩
  | halt hd hn hc => exact ⟨_, _, _, .halt hd hn hc rfl⟩
  | blocked | tooLong | vacant | lost | tangled => cases hl

/-! ## Trails that stay away -/

/-- A trail that starts outside a place and does not come by it has nothing to do with what lies
below it. -/
theorem not_suffix (h : Trail chart followLast links location names tour landing)
    {place : Location} (hp : place ∉ tour) (hl : ¬ place <:+ location) {other : Location}
    (ho : other ∈ tour) : ¬ place <:+ other := by
  have hchild {name : Name} {location : Location} (hl : ¬ place <:+ location)
      (hne : place ≠ name :: location) : ¬ place <:+ name :: location := fun hs =>
    (List.suffix_cons_iff.mp hs).elim hne hl
  induction h with
  | stop | blocked | tooLong =>
    rwa [List.mem_singleton.mp ho]
  | stay _ _ ih =>
    obtain ⟨-, hp⟩ := List.ne_and_not_mem_of_not_mem_cons hp
    rcases List.mem_cons.mp ho with rfl | ho
    · exact hl
    · exact ih hp hl ho
  | climb _ _ ih =>
    obtain ⟨-, hp⟩ := List.ne_and_not_mem_of_not_mem_cons hp
    rcases List.mem_cons.mp ho with rfl | ho
    · exact hl
    · exact ih hp (fun hs => hl (hs.trans (List.tail_suffix _))) ho
  | vacant | lost | halt | tangled =>
    rcases List.mem_cons.mp ho with rfl | ho
    · exact hl
    · rw [List.mem_singleton.mp ho]
      exact hchild hl (by simp at hp; exact hp.2)
  | enter _ _ _ _ h ih =>
    obtain ⟨-, hp⟩ := List.ne_and_not_mem_of_not_mem_cons hp
    rcases List.mem_cons.mp ho with rfl | ho
    · exact hl
    · exact ih hp (hchild hl fun he => hp (he ▸ h.location_mem)) ho
  | detour _ _ _ _ _ ih =>
    obtain ⟨-, hp⟩ := List.ne_and_not_mem_of_not_mem_cons hp
    obtain ⟨hne, hp⟩ := List.ne_and_not_mem_of_not_mem_cons hp
    rcases List.mem_cons.mp ho with rfl | ho
    · exact hl
    rcases List.mem_cons.mp ho with rfl | ho
    · exact hchild hl hne
    · refine ih hp ?_ ho
      split
      · intro hs
        rw [List.suffix_nil.mp hs] at hl
        exact hl List.nil_suffix
      · exact hl

end Trail
end FileSystem
end TreePool

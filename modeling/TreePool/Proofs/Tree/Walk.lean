import TreePool.Tree.Walk

/-! # Walks as lists

A walk handles items of a file system that changes meanwhile. `plan` lists what it would come across
if nothing changed. As long as the directories that are still to be read look as they did at the
start, a walk handles the items of the plan one after the other: `walk_eq_visitEach`. What each
handling keeps, the walk keeps.
-/

namespace TreePool
namespace Tree

variable {σ ε : Type} {files : σ → FileSystem} {handle : Item → σ → σ × Option ε}
variable {report : IoError → ε} {fs : FileSystem} {find : Find} {item : Item} {state : σ}

/-! ## What is kept -/

theorem visitEach_ends {visit : Find → σ → σ × Option ε} {J : σ × Option ε → Prop}
    {finds : List Find}
    (hvisit : ∀ find ∈ finds, ∀ state, J (state, none) → J (visit find state))
    (h : J (state, none)) : J (visitEach visit finds state) := by
  induction finds generalizing state with
  | nil => exact h
  | cons find rest ih =>
    have hfind := hvisit find List.mem_cons_self state h
    unfold visitEach
    split
    · next hv =>
      rw [hv] at hfind
      exact ih (fun find hm => hvisit find (List.mem_cons_of_mem _ hm)) hfind
    · next hv => rwa [hv] at hfind

theorem visitEach_keeps {visit : Find → σ → σ × Option ε} {I : σ → Prop} {finds : List Find}
    (hvisit : ∀ find ∈ finds, ∀ state, I state → I (visit find state).1) (h : I state) :
    I (visitEach visit finds state).1 :=
  visitEach_ends (J := fun result => I result.1) hvisit h

section

variable {J : σ × Option ε → Prop}
variable (hreport : ∀ state e, J (state, none) → J (state, some (report e)))
variable (hhandle : ∀ item state, J (state, none) → J (handle item state))

include hreport hhandle

theorem visit_ends (fuel : Nat) (find : Find) (h : J (state, none)) :
    J (visit files handle report fuel find state) := by
  induction fuel generalizing find state with
  | zero =>
    cases find with
    | error => rw [visit]; exact hreport _ _ h
    | ok => rw [visit]; exact h
  | succ fuel ih =>
    cases find with
    | error => rw [visit]; exact hreport _ _ h
    | ok item =>
      rw [visit]
      split
      · exact hreport _ _ h
      · have hitem := hhandle item state h
        split
        · next hv =>
          rw [hv] at hitem
          exact visitEach_ends (fun find _ _ hs => ih find hs) hitem
        · next hv => rwa [hv] at hitem

theorem walk_ends (path : Path) (h : J (state, none)) :
    J (walk files handle report path state) :=
  visit_ends hreport hhandle _ _ h

end

section

variable {I : σ → Prop}

theorem walk_keeps (hhandle : ∀ item state, I state → I (handle item state).1) (path : Path)
    (h : I state) : I (walk files handle report path state).1 :=
  walk_ends (J := fun result => I result.1) (fun _ _ h => h) hhandle path h

theorem walk_keeps_of_ok
    (hhandle : ∀ item state next, I state → handle item state = (next, none) → I next)
    {path : Path} (h : I state) {next : σ}
    (hw : walk files handle report path state = (next, none)) : I next := by
  have hends : (walk files handle report path state).2 = none →
      I (walk files handle report path state).1 := by
    refine walk_ends (J := fun result => result.2 = none → I result.1) ?_ ?_ path fun _ => h
    · intro state e _ hn
      cases hn
    · intro item state hI hn
      exact hhandle item state _ (hI rfl) (Prod.ext rfl hn)
  rw [hw] at hends
  exact hends rfl

end

/-! ## States that hold more -/

section Map

variable {τ : Type} {part : τ → σ} {I : τ → Prop}

theorem visitEach_map {visit : Find → σ → σ × Option ε} {visit' : Find → τ → τ × Option ε}
    (h : ∀ find state, I state → visit find (part state) = (visit' find state).map part id)
    (hkeep : ∀ find state, I state → I (visit' find state).1) (finds : List Find) {state : τ}
    (hI : I state) :
    visitEach visit finds (part state) = (visitEach visit' finds state).map part id := by
  induction finds generalizing state with
  | nil => rfl
  | cons find rest ih =>
    rw [visitEach, visitEach, h find state hI]
    have hnext := hkeep find state hI
    rcases hv : visit' find state with ⟨next, _ | e⟩
    · rw [hv] at hnext
      exact ih hnext
    · rfl

section

variable {handle' : Item → τ → τ × Option ε}
variable (h : ∀ item state, I state →
  handle item (part state) = (handle' item state).map part id)
variable (hkeep : ∀ item state, I state → I (handle' item state).1)

include h hkeep

theorem visit_map (fuel : Nat) (find : Find) {state : τ} (hI : I state) :
    visit files handle report fuel find (part state) =
      (visit (files ∘ part) handle' report fuel find state).map part id := by
  induction fuel generalizing find state with
  | zero => cases find <;> rfl
  | succ fuel ih =>
    cases find with
    | error => rfl
    | ok item =>
      rw [visit, visit, Function.comp]
      cases hb : below (files (part state)) item with
      | error e => rfl
      | ok finds =>
        simp only [h item state hI]
        have hnext := hkeep item state hI
        rcases hv : handle' item state with ⟨next, _ | e⟩
        · rw [hv] at hnext
          refine visitEach_map (fun find state => ih find) (fun find state hI => ?_) finds hnext
          exact visit_ends (J := fun result => I result.1) (fun _ _ h => h) hkeep _ _ hI
        · rfl

theorem walk_map_of_keeps (path : Path) {state : τ} (hI : I state) :
    walk files handle report path (part state) =
      (walk (files ∘ part) handle' report path state).map part id :=
  visit_map h hkeep _ _ hI

end

theorem walk_map {handle' : Item → τ → τ × Option ε}
    (h : ∀ item state, handle item (part state) = (handle' item state).map part id) (path : Path)
    (state : τ) :
    walk files handle report path (part state) =
      (walk (files ∘ part) handle' report path state).map part id :=
  walk_map_of_keeps (I := fun _ => True) (fun item state _ => h item state)
    (fun _ _ _ => trivial) path trivial

end Map

/-! ## Plans -/

/-- All that a walk comes across, from a find on, in a file system that does not change. -/
def plan (fs : FileSystem) : Nat → Find → List Find
  | _, .error e => [.error e]
  | 0, .ok _ => []
  | fuel + 1, .ok item =>
    match below fs item with
    | .error e => [.error e]
    | .ok finds => .ok item :: finds.flatMap (plan fs fuel)

def planFrom (fs : FileSystem) (path : Path) : List Find :=
  plan fs FileSystem.pathLimit (start fs path)

/-- Handles an item, and ends with the report of an error. -/
def attend (handle : Item → σ → σ × Option ε) (report : IoError → ε) :
    Find → σ → σ × Option ε
  | .ok item, state => handle item state
  | .error e, state => (state, some (report e))

theorem visitEach_append (visit : Find → σ → σ × Option ε) (front back : List Find) (state : σ) :
    visitEach visit (front ++ back) state =
      match visitEach visit front state with
      | (state, none) => visitEach visit back state
      | (state, some e) => (state, some e) := by
  induction front generalizing state with
  | nil => rfl
  | cons find front ih =>
    rw [List.cons_append, visitEach, visitEach]
    split
    · exact ih _
    · rfl

/-! ## Items without contents -/

def outlineKind : Kind → Kind
  | .file _ => .file []
  | kind => kind

def Item.outline (item : Item) : Item := { item with kind := outlineKind item.kind }

def outline (finds : List Find) : List Find := finds.map (·.map Item.outline)

theorem outlineKind_eq_directory_iff {kind : Kind} :
    outlineKind kind = .directory ↔ kind = .directory := by
  cases kind <;> simp [outlineKind]

theorem below_outline (fs : FileSystem) (item : Item) :
    below fs item.outline = below fs item := by
  obtain ⟨path, names, kind⟩ := item
  cases kind <;> rfl

theorem visit_of_below {fuel : Nat} {finds : List Find} (h : below (files state) item = .ok finds) :
    visit files handle report (fuel + 1) (.ok item) state =
      match handle item state with
      | (state, none) => visitEach (visit files handle report fuel) finds state
      | (state, some e) => (state, some e) := by
  cases hv : handle item state with
  | mk after failure =>
    cases failure with
    | none => simp only [visit, h, hv]
    | some e => simp only [visit, h, hv]

/-- The handling of an item does not go by what a file holds. -/
def Coarse (handle : Item → σ → σ × Option ε) : Prop :=
  ∀ item state, handle item.outline state = handle item state

theorem visit_outline (h : Coarse handle) (fuel : Nat) (find : Find) (state : σ) :
    visit files handle report fuel (find.map Item.outline) state =
      visit files handle report fuel find state := by
  cases find with
  | error => rfl
  | ok item =>
    cases fuel with
    | zero => rfl
    | succ fuel =>
      rw [Except.map, visit, visit, below_outline, h]

theorem visitEach_visit_outline (h : Coarse handle) (fuel : Nat) {finds finds' : List Find}
    (hf : outline finds = outline finds') (state : σ) :
    visitEach (visit files handle report fuel) finds state =
      visitEach (visit files handle report fuel) finds' state := by
  have hmap (finds : List Find) : ∀ state,
      visitEach (visit files handle report fuel) (outline finds) state =
        visitEach (visit files handle report fuel) finds state := by
    induction finds with
    | nil => exact fun _ => rfl
    | cons find rest ih =>
      intro state
      rw [outline, List.map_cons, ← outline, visitEach, visitEach, visit_outline h]
      split
      · exact ih _
      · rfl
  rw [← hmap finds, hf, hmap]

theorem walk_of_handle_error {path : Path} {finds : List Find} {next : σ} {failure : ε}
    (hs : start (files state) path = .ok item) (hb : below (files state) item = .ok finds)
    (hh : handle item state = (next, some failure)) :
    walk files handle report path state = (next, some failure) := by
  have hlimit : FileSystem.pathLimit = 4095 + 1 := rfl
  rw [walk, hs, hlimit, visit_of_below hb, hh]

/-! ## Walks along a plan -/

/-- What a list of finds does, when each item that is handled leads from what holds after those
before it to what holds after it too. -/
theorem visitEach_attend {I : List Find → σ → Prop} {whole : List Find}
    (hkeep : ∀ done item state next, done ++ [.ok item] <+: whole → I done state →
      handle item state = (next, none) → I (done ++ [.ok item]) next)
    {finds done : List Find} (hw : done ++ finds <+: whole) (h : I done state) {next : σ}
    (hv : visitEach (attend handle report) finds state = (next, none)) :
    I (done ++ finds) next := by
  induction finds generalizing done state with
  | nil =>
    cases hv
    rwa [List.append_nil]
  | cons find rest ih =>
    rw [visitEach] at hv
    split at hv
    · next after ha =>
      cases find with
      | error e => cases ha
      | ok item =>
        have hsplit : done ++ .ok item :: rest = (done ++ [.ok item]) ++ rest := by simp
        rw [hsplit] at hw ⊢
        exact ih hw (hkeep _ _ _ _ ((List.prefix_append _ _).trans hw) h ha) hv
    · cases hv

/-- What a list of finds does, when it is known of each find whether it ends the visit. -/
theorem visitEach_of_verdict {visit : Find → σ → σ × Option ε} {verdict : Find → Option ε}
    {I : List Find → σ → Prop} {whole : List Find}
    (hstep : ∀ done find state, done ++ [find] <+: whole → I done state →
      (visit find state).2 = verdict find ∧
        I (if (verdict find).isNone then done ++ [find] else done) (visit find state).1)
    {finds done : List Find} (hw : done ++ finds <+: whole) (h : I done state) :
    (visitEach visit finds state).2 = finds.findSome? verdict ∧
      I (done ++ finds.takeWhile fun find => (verdict find).isNone)
        (visitEach visit finds state).1 := by
  induction finds generalizing done state with
  | nil => exact ⟨rfl, by rwa [List.takeWhile_nil, List.append_nil]⟩
  | cons find rest ih =>
    have hsplit : done ++ find :: rest = (done ++ [find]) ++ rest := by simp
    rw [hsplit] at hw
    obtain ⟨hv, hI⟩ := hstep done find state ((List.prefix_append _ _).trans hw) h
    rw [visitEach, List.findSome?_cons, List.takeWhile_cons]
    rcases hvisit : visit find state with ⟨next, _ | e⟩
    · rw [hvisit] at hv hI
      rw [← hv] at hI ⊢
      obtain ⟨hfailure, hrest⟩ := ih hw hI
      exact ⟨hfailure, by simpa using hrest⟩
    · rw [hvisit] at hv hI
      rw [← hv] at hI ⊢
      exact ⟨rfl, by simpa using hI⟩

theorem visitEach_of_none {visit : Find → σ → σ × Option ε} {I : List Find → σ → Prop}
    {whole finds done : List Find}
    (hstep : ∀ done find state, done ++ [find] <+: whole → I done state →
      (visit find state).2 = none ∧ I (done ++ [find]) (visit find state).1)
    (hw : done ++ finds <+: whole) (h : I done state) :
    (visitEach visit finds state).2 = none ∧
      I (done ++ finds) (visitEach visit finds state).1 := by
  induction finds generalizing done state with
  | nil => exact ⟨rfl, by rwa [List.append_nil]⟩
  | cons find rest ih =>
    have hsplit : done ++ find :: rest = (done ++ [find]) ++ rest := by simp
    rw [hsplit] at hw ⊢
    obtain ⟨hv, hI⟩ := hstep done find state ((List.prefix_append _ _).trans hw) h
    rw [visitEach]
    rcases hvisit : visit find state with ⟨next, _ | e⟩
    · rw [hvisit] at hI
      exact ih hw hI
    · rw [hvisit] at hv
      cases hv

section

variable {I : List Find → σ → Prop} {whole : List Find}

theorem visitEach_visit_eq
    (hkeep : ∀ done item state next, done ++ [.ok item] <+: whole → I done state →
      handle item state = (next, none) → I (done ++ [.ok item]) next)
    {fuel : Nat}
    (hvisit : ∀ done find state, done ++ plan fs fuel find <+: whole → done ≠ [] →
      I done state → (∀ item, find = .ok item → item.depth ≠ 0) →
      visit files handle report fuel find state =
        visitEach (attend handle report) (plan fs fuel find) state)
    {done finds : List Find} (hw : done ++ finds.flatMap (plan fs fuel) <+: whole)
    (hd : done ≠ []) (hdeep : ∀ item, .ok item ∈ finds → item.depth ≠ 0) (h : I done state) :
    visitEach (visit files handle report fuel) finds state =
      visitEach (attend handle report) (finds.flatMap (plan fs fuel)) state := by
  induction finds generalizing done state with
  | nil => rfl
  | cons find rest ih =>
    rw [List.flatMap_cons, ← List.append_assoc] at hw
    rw [List.flatMap_cons, visitEach_append, visitEach,
      hvisit done find state ((List.prefix_append _ _).trans hw) hd h fun item he =>
        hdeep item (he ▸ List.mem_cons_self)]
    rcases ha : visitEach (attend handle report) (plan fs fuel find) state with ⟨after, _ | e⟩
    · exact ih hw (by simp [hd]) (fun item hm => hdeep item (List.mem_cons_of_mem _ hm))
        (visitEach_attend hkeep ((List.prefix_append _ _).trans hw) h ha)
    · rfl

theorem depth_of_mem_below {finds : List Find} {next : Item} (h : below fs item = .ok finds)
    (hm : .ok next ∈ finds) : ∃ name kind, next = item.child name kind := by
  have hentries : .ok next ∈ entriesOf fs item → ∃ name kind, next = item.child name kind := by
    intro hm
    unfold entriesOf at hm
    split at hm
    · obtain ⟨entry, -, he⟩ := List.mem_map.mp hm
      exact ⟨entry.1, entry.2, (Except.ok.inj he).symm⟩
    · simp at hm
  unfold below at h
  split at h
  · cases h
    exact hentries hm
  · cases h
    cases hm
  · split at h
    · split at h
      · cases h
        split at hm
        · exact hentries hm
        · cases hm
      · cases h
    · cases h
      cases hm

theorem exists_below_of_depth (h : item.depth ≠ 0) : ∃ finds, below fs item = .ok finds := by
  unfold below
  split
  · exact ⟨_, rfl⟩
  · exact ⟨_, rfl⟩
  · exact ⟨[], if_neg h⟩

theorem visit_eq_visitEach (hc : Coarse handle)
    (hkeep : ∀ done item state next, done ++ [.ok item] <+: whole → I done state →
      handle item state = (next, none) → I (done ++ [.ok item]) next)
    (hread : ∀ done item state, done ++ [.ok item] <+: whole → done ≠ [] → I done state →
      (below (files state) item).map outline = (below fs item).map outline)
    (fuel : Nat) {done : List Find} (hw : done ++ plan fs fuel find <+: whole)
    (hd : done ≠ []) (h : I done state) (hdeep : ∀ item, find = .ok item → item.depth ≠ 0) :
    visit files handle report fuel find state =
      visitEach (attend handle report) (plan fs fuel find) state := by
  induction fuel generalizing done find state with
  | zero =>
    cases find with
    | error => rfl
    | ok => rfl
  | succ fuel ih =>
    cases find with
    | error => rfl
    | ok item =>
      obtain ⟨finds, hb⟩ : ∃ finds, below fs item = .ok finds :=
        exists_below_of_depth (hdeep item rfl)
      have hplan : plan fs (fuel + 1) (.ok item) = .ok item :: finds.flatMap (plan fs fuel) := by
        rw [plan, hb]
      have hsplit : done ++ .ok item :: finds.flatMap (plan fs fuel) =
          (done ++ [.ok item]) ++ finds.flatMap (plan fs fuel) := by simp
      rw [hplan, hsplit] at hw
      have hitem := (List.prefix_append (done ++ [.ok item]) _).trans hw
      obtain ⟨finds', hb', ho⟩ : ∃ finds', below (files state) item = .ok finds' ∧
          outline finds' = outline finds := by
        have := hread done item state hitem hd h
        rw [hb] at this
        cases hb' : below (files state) item with
        | error => rw [hb'] at this; cases this
        | ok finds' => rw [hb'] at this; exact ⟨finds', rfl, Except.ok.inj this⟩
      rw [visit_of_below hb', hplan, visitEach, attend]
      rcases ha : handle item state with ⟨after, _ | e⟩
      · refine (visitEach_visit_outline hc fuel ho after).trans ?_
        refine visitEach_visit_eq hkeep (fun done find state hw hd hI hdeep => ih hw hd hI hdeep)
          hw (by simp) (fun next hm => ?_) (hkeep _ _ _ _ hitem h ha)
        obtain ⟨name, kind, rfl⟩ := depth_of_mem_below hb hm
        simp [Item.depth, Item.child]
      · rfl

/-- A walk goes along the plan, as long as what is still to be read looks as it did. -/
theorem walk_eq_visitEach (hc : Coarse handle) {path : Path}
    (hkeep : ∀ done item state next, done ++ [.ok item] <+: planFrom fs path → I done state →
      handle item state = (next, none) → I (done ++ [.ok item]) next)
    (hread : ∀ done item state, done ++ [.ok item] <+: planFrom fs path → done ≠ [] →
      I done state → (below (files state) item).map outline = (below fs item).map outline)
    (hfs : files state = fs) (h : I [] state) :
    walk files handle report path state =
      visitEach (attend handle report) (planFrom fs path) state := by
  have hlimit : FileSystem.pathLimit = 4095 + 1 := rfl
  rw [walk, hfs, planFrom]
  cases hs : start fs path with
  | error => rfl
  | ok item =>
    cases hb : below fs item with
    | error => rw [hlimit, visit, hfs, plan, hb]; rfl
    | ok finds =>
      have hplan : planFrom fs path = [.ok item] ++ finds.flatMap (plan fs 4095) := by
        rw [planFrom, hs, hlimit, plan, hb]
        rfl
      have hitem : [] ++ [.ok item] <+: planFrom fs path := hplan ▸ List.prefix_append _ _
      rw [hlimit, visit_of_below (by rwa [hfs]), plan, hb, visitEach, attend]
      rcases ha : handle item state with ⟨after, _ | e⟩
      · refine visitEach_visit_eq hkeep (fun done find state hw hd hI hdeep =>
          visit_eq_visitEach hc hkeep hread _ hw hd hI hdeep) ?_ (List.cons_ne_nil _ _)
          (fun next hm => ?_) (hkeep _ _ _ _ hitem h ha)
        · exact hplan ▸ List.prefix_rfl
        · obtain ⟨name, kind, rfl⟩ := depth_of_mem_below hb hm
          simp [Item.depth, Item.child]
      · rfl

end

theorem walk_of_step (hc : Coarse handle) {path : Path} {I : List Find → σ → Prop}
    {verdict : Find → Option ε}
    (hread : ∀ done item state, done ++ [.ok item] <+: planFrom fs path → done ≠ [] →
      I done state → (below (files state) item).map outline = (below fs item).map outline)
    (hstep : ∀ done find state, done ++ [find] <+: planFrom fs path → I done state →
      (attend handle report find state).2 = verdict find ∧
        I (if (verdict find).isNone then done ++ [find] else done)
          (attend handle report find state).1)
    (hstart : files state = fs) (hI : I [] state) :
    (walk files handle report path state).2 = (planFrom fs path).findSome? verdict ∧
      I ((planFrom fs path).takeWhile fun find => (verdict find).isNone)
        (walk files handle report path state).1 := by
  have hwalk : walk files handle report path state =
      visitEach (attend handle report) (planFrom fs path) state := by
    refine walk_eq_visitEach hc (fun done item state next hpre hI hnext => ?_) hread hstart hI
    obtain ⟨hv, hnew⟩ := hstep done (.ok item) state hpre hI
    rw [attend, hnext] at hv hnew
    rwa [← hv] at hnew
  rw [hwalk]
  exact visitEach_of_verdict hstep List.prefix_rfl hI

end Tree
end TreePool

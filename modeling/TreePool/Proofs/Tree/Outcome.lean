import TreePool.Proofs.Tree.Course

/-! # What copies come to

A copy whose source and destination lie apart has a course, `Separate.course_or_fails`: that of a
tree whose destination can be made, or that of a single file. Or else it fails at the root of the
tree, for which no directory can be made. -/

namespace TreePool
namespace Tree

open FileSystem

variable {fs fs' made : FileSystem} {source destination : Path} {root base : Location}
variable {missing : List Name} {item : Item} {done : List Find} {fin : List Name → Prop}

def rootItem (source : Path) : Item := ⟨source, [], .directory⟩

/-- What comes after the root lies in a directory that comes before it. -/
theorem eq_rootItem_or_parent (hr : Roots fs source root)
    (hs : start fs source = .ok (rootItem source))
    (hpre : done ++ [.ok item] <+: planFrom fs source) : item = rootItem source ∨
      item.names ≠ [] ∧ item.path = source.descend item.names ∧
      fs.kindAt (down root item.names) = some item.kind ∧
      fs.kindAt (down root item.names.dropLast) = some .directory ∧
      ∃ parent, .ok parent ∈ done ∧ parent.isDirectory = true ∧
        parent.names = item.names.dropLast := by
  rcases parent_mem_of_prefix hr hpre with h | ⟨parent, name, hm, hnames, hd⟩
  · exact .inl (Except.ok.inj (h.symm.trans hs))
  have hne : item.names ≠ [] := by simp [hnames]
  have hstands := (stands_of_mem_planFrom hr (hpre.mem (List.mem_concat_self))).1
  have hkind := hstands.kindAt hne
  have hparent : parent.kind = .directory := by
    rcases hd with h | hd
    · rw [← Except.ok.inj (hs.symm.trans h)]
      rfl
    · exact hd
  refine .inr ⟨hne, hstands.path, hkind, ?_, parent, hm, by simp [Item.isDirectory, hparent],
    by simp [hnames]⟩
  rw [hnames, down_concat] at hkind
  have hthere : fs.kindAt (name :: down root parent.names) ≠ none := by simp [hkind]
  rw [hnames, List.dropLast_concat]
  exact kindAt_parent hthere

theorem kindAt_of_mem_planFrom (hr : Roots fs source root)
    (hs : start fs source = .ok (rootItem source)) (hm : .ok item ∈ planFrom fs source) :
    fs.kindAt (down root item.names) = some item.kind := by
  obtain ⟨done, rest, hsplit⟩ := List.append_of_mem hm
  have hpre : done ++ [.ok item] <+: planFrom fs source := ⟨rest, by simp [hsplit]⟩
  rcases eq_rootItem_or_parent hr hs hpre with rfl | ⟨-, -, hk, -⟩
  · exact hr.kindAt_root
  · exact hk

theorem target_eq_join (h : item.names ≠ [] ∨ item.isDirectory = true) :
    target destination item = destination.join (.relative item.names) := by
  unfold target
  rw [if_neg]
  rintro ⟨hdepth, hd⟩
  rcases h with h | h
  · exact h (List.length_eq_zero_iff.mp hdepth)
  · simp [h] at hd

/-- A walk starts with the root of a tree, when its path is no link. -/
theorem start_of_roots (hr : Roots fs source root)
    (hdirect : ∀ location target, fs.find source false = .ok (location, .link target) →
      fs.isDirectory source = false) : start fs source = .ok (rootItem source) := by
  obtain ⟨tour, hl⟩ := hr.leads
  obtain ⟨tour', location, kind, hl'⟩ := Trail.exists_unfollowed hl
  obtain ⟨node, hf, -, hkind⟩ := find_of_leads hr.refusal hl'
  cases node with
  | link target =>
    have hd := isDirectory_of_leads hr.refusal hl
    rw [hdirect location target hf] at hd
    cases hd
  | file content =>
    subst hkind
    cases (Trail.unique (Trail.followed hl' (by simp [Node.kind])) hl).2
  | directory entries => rw [start, hf]; rfl

theorem planFrom_eq_cons (hs : start fs source = .ok (rootItem source)) :
    ∃ rest, planFrom fs source = .ok (rootItem source) :: rest := by
  have hlimit : pathLimit = 4095 + 1 := rfl
  rw [planFrom, hs, hlimit]
  exact ⟨_, rfl⟩

/-! ## Trees -/

/-- What the copy of a tree makes of the file system: nothing, before the root is done, and then
what becomes of it once the destination was made. -/
def Painted (fs made : FileSystem) (place : Location) (image : List Name → Option Kind)
    (fin : List Name → Prop) (fs' : FileSystem) : Prop :=
  (∀ names, ¬ fin names) ∧ fs' = fs ∨ fin [] ∧ Overlaid made place image fin fs'

namespace Painted

variable {place : Location} {image : List Name → Option Kind}

theorem unique (h : Painted fs made place image fin fs') {fs'' : FileSystem}
    (h' : Painted fs made place image fin fs'') : fs' = fs'' := by
  rcases h with ⟨hno, rfl⟩ | ⟨hnil, st⟩ <;> rcases h' with ⟨hno', rfl⟩ | ⟨hnil', st'⟩
  · rfl
  · exact absurd hnil' (hno [])
  · exact absurd hnil (hno' [])
  · exact st.unique st'

theorem overlaid {parent : Item} (h : Painted fs made place image fin fs')
    (hsettled : Settled fin done) (hm : .ok parent ∈ done) (hp : parent.isDirectory = true)
    (himage : image parent.names = some .directory) :
    fin [] ∧ Overlaid made place image fin fs' ∧
      fs'.kindAt (down place parent.names) = some .directory := by
  have hfin := hsettled parent hm hp
  rcases h with ⟨hno, -⟩ | ⟨hnil, st⟩
  · exact absurd hfin (hno _)
  · exact ⟨hnil, st, (st.painted _ hfin).trans himage⟩

end Painted

/-- What keeps a directory below the destination from being made. -/
def hindrance? (made : FileSystem) (destination : Path) (place : Location) (item : Item) :
    Option IoError :=
  if item.names = [] then none else obstacle? made destination place item.names

namespace Setting

theorem laid (h : Setting fs source destination root base missing)
    (hm : fs.lay (destination.join (.relative [])) = (made, none)) :
    Laid fs made base missing := by
  have hfs := h.roots.orderly
  have hnone : ∀ name ∈ ([] : List Name), IsEntryName name := by simp
  obtain ⟨hsteps, habs, -, -⟩ := join_relative_eq h.isEmpty_destination hnone
  rw [List.append_nil] at hsteps
  obtain ⟨base', missing', hto, hl⟩ := laid_of_lay hfs (hsteps ▸ h.above) hm
  obtain ⟨rfl, rfl⟩ := h.denotes.unique (hto.congr hsteps habs)
  exact hl

section

variable (h : Setting fs source destination root base missing)
variable (hs : start fs source = .ok (rootItem source))
variable (hm : fs.lay (destination.join (.relative [])) = (made, none))

include h hm

omit h in
theorem extends_made : Extends fs made := (grows_of_layUpTo hm).isExtension

theorem orderly_made : made.Orderly := h.roots.orderly.layUpTo hm

theorem ground_made : Ground made source destination root (down base missing) :=
  h.ground (h.laid hm) (extends_made hm) (h.orderly_made hm)

section

variable {image : List Name → Option Kind}
variable (hfits : Painted fs made (down base missing) image fin fs')

include hfits

theorem below_eq (hpre : done ++ [.ok item] <+: planFrom fs source) :
    (below fs' item).map outline = (below fs item).map outline := by
  rcases hfits with ⟨-, rfl⟩ | ⟨-, st⟩
  · rfl
  have hstands := (stands_of_mem_planFrom h.roots (hpre.mem (List.mem_concat_self))).1
  refine below_eq_of_extends hstands h.roots ((extends_made hm).trans st.extended) st.orderly
    fun name hnone => ?_
  rw [← down_concat] at hnone ⊢
  rw [st.rest _ ((h.ground_made hm).not_suffix_down _), h.kindAt_source (h.laid hm), hnone]

include hs

theorem lay_target
    (himage : ∀ names, made.kindAt (down root names) = some .directory →
      image names = some .directory)
    (hpre : done ++ [.ok item] <+: planFrom fs source) (hd : item.isDirectory = true)
    (hsettled : Settled fin done) (hfin : ¬ fin item.names) :
    match hindrance? made destination (down base missing) item with
    | some e => fs'.lay (target destination item) = (fs', some e)
    | none => ∃ next, fs'.lay (target destination item) = (next, none) ∧
        Painted fs made (down base missing) image
          (fun names => fin names ∨ names = item.names) next := by
  have hlaid := h.laid hm
  have hground := h.ground_made hm
  have hsource := h.kindAt_source hlaid
  rw [target_eq_join (.inr hd), hindrance?]
  rcases eq_rootItem_or_parent h.roots hs hpre with rfl |
    ⟨hne, -, hk, hkd, parent, hparent, hp, hnames⟩
  · rw [if_pos (show (rootItem source).names = [] from rfl)]
    rcases hfits with ⟨hno, rfl⟩ | ⟨hnil, -⟩
    · refine ⟨made, hm, .inr ⟨.inr rfl, ?_⟩⟩
      have st : Overlaid made (down base missing) image (· = []) made :=
        .refl (h.orderly_made hm) ((hlaid.way missing List.prefix_rfl).trans
          (himage [] hground.roots.kindAt_root).symm)
      convert st using 1
      funext names
      exact propext (or_iff_right (hno names))
    · exact absurd hnil hfin
  · rw [if_neg hne]
    rw [← hnames] at hkd
    obtain ⟨hnil, st, hdirectory⟩ :=
      hfits.overlaid hsettled hparent hp (himage _ ((hsource _).trans hkd))
    rw [hnames] at hdirectory
    have hkind : item.kind = .directory := by simpa [Item.isDirectory] using hd
    have hthere := (hsource _).trans (hkind ▸ hk)
    have hstep := st.lay hground hne hfin hthere (himage _ hthere) hdirectory
    cases ho : obstacle? made destination (down base missing) item.names with
    | some e =>
      rw [ho] at hstep
      exact hstep
    | none =>
      rw [ho] at hstep
      obtain ⟨next, hnext, st'⟩ := hstep
      exact ⟨next, hnext, .inr ⟨.inl hnil, st'⟩⟩

end

include hs

theorem kindAt_made_of_mem (hmem : .ok item ∈ planFrom fs source) :
    made.kindAt (down root item.names) = some item.kind := by
  rw [h.kindAt_source (h.laid hm)]
  exact kindAt_of_mem_planFrom h.roots hs hmem

theorem course : Course fs source destination
    (Painted fs made (down base missing)
      (image made source destination root (down base missing)))
    (hindrance? made destination (down base missing))
    fun item => (content? made source destination (down base missing) item.names).isSome := by
  have hsource := h.kindAt_source (h.laid hm)
  refine ⟨h.roots.orderly, .inl ⟨fun _ => id, rfl⟩, fun hfits hfits' => hfits.unique hfits',
    fun hpre _ hfits => h.below_eq hm hfits hpre,
    fun hpre hd hsettled hfin hfits => h.lay_target hs hm hfits (fun _ => image_of_directory)
      hpre hd hsettled hfin, ?_⟩
  intro done item fin fs' hpre hd hsettled hfin hfits
  rcases eq_rootItem_or_parent h.roots hs hpre with rfl |
    ⟨hne, hpath, hk, hkd, parent, hparent, hp, hnames⟩
  · cases hd
  · rw [← hnames] at hkd
    obtain ⟨hnil, st, hdirectory⟩ :=
      hfits.overlaid hsettled hparent hp (image_of_directory ((hsource _).trans hkd))
    rw [hnames] at hdirectory
    have hkind : item.kind ≠ .directory := by simpa [Item.isDirectory] using hd
    rw [target_eq_join (.inl hne), hpath]
    obtain ⟨hsuccess, st'⟩ := Stage.copy st (h.ground_made hm) hne hfin (by simp [hsource, hk])
      hdirectory (by simpa [hsource, hk] using hkind)
    exact ⟨hsuccess, .inr ⟨.inl hnil, st'⟩⟩

end

end Setting

/-! ## Single files -/

theorem eq_start_of_not_roots (hfs : fs.Orderly) (h : ∀ root, ¬ Roots fs source root)
    (hpre : done ++ [.ok item] <+: planFrom fs source) :
    done = [] ∧ item.path = source ∧ item.names = [] ∧ item.isDirectory = false := by
  rcases planFrom_of_not_roots hfs h with he | ⟨e, he⟩
  · rw [he] at hpre
    have hdone : done = [] := by
      have hlen := hpre.length_le
      simpa using hlen
    subst hdone
    obtain ⟨rest, hrest⟩ := hpre
    have hs : start fs source = .ok item := by
      simpa using (List.cons.inj hrest).1.symm
    unfold start at hs
    split at hs
    · next location node hf =>
      cases hs
      refine ⟨rfl, rfl, rfl, ?_⟩
      by_contra hd
      obtain ⟨hr, -, tour, hl⟩ := leads_of_find hf
      have hk : node.kind = .directory := by simpa [Item.isDirectory] using hd
      rw [hk] at hl
      exact h location ⟨hfs, hr, tour, Trail.followed hl (by simp)⟩
    · cases hs
  · rw [he] at hpre
    have hm := hpre.mem (List.mem_concat_self)
    simp at hm

theorem course_of_single (hfs : fs.Orderly) (h : ∀ root, ¬ Roots fs source root) :
    Course fs source destination
      (fun fin fs' => (fin [] → fs' = (fs.copy source destination).getD fs) ∧ (¬ fin [] → fs' = fs))
      (fun _ => none) fun _ => (fs.copy source destination).isSome := by
  refine ⟨hfs, ⟨False.elim, fun _ => rfl⟩, ?_, ?_, ?_, ?_⟩
  · rintro fin fs' fs'' ⟨hfin, hno⟩ ⟨hfin', hno'⟩
    by_cases hnil : fin []
    · exact (hfin hnil).trans (hfin' hnil).symm
    · exact (hno hnil).trans (hno' hnil).symm
  · intro done item fin fs' hpre hd
    exact absurd (eq_start_of_not_roots hfs h hpre).1 hd
  · intro done item fin fs' hpre hd
    simp [(eq_start_of_not_roots hfs h hpre).2.2.2] at hd
  · rintro done item fin fs' hpre hd - hnot ⟨-, hno⟩
    obtain ⟨-, hpath, hnames, -⟩ := eq_start_of_not_roots hfs h hpre
    rw [hnames] at hnot
    have htarget : target destination item = destination := by
      unfold target
      rw [if_pos ⟨by simp [Item.depth, hnames], by simp [hd]⟩]
    rw [hno hnot, hpath, htarget, hnames]
    exact ⟨rfl, fun _ => rfl, fun hnil => absurd (.inr rfl) hnil⟩

/-! ## Separate sources and destinations -/

/-- The source and the destination of a copy lie apart, nothing at the destination or below it is a
link, and no link of the source leads by the destination or by a directory that is missing on the
way there. -/
structure Separate (fs : FileSystem) (source destination : Path) : Prop where
  orderly : fs.Orderly
  isEmpty_destination : destination.isEmpty = false
  above : Path.above ∉ destination.steps
  direct : ∀ location target, fs.find source false = .ok (location, .link target) →
    fs.isDirectory source = false
  distinct : ∀ root base missing, Roots fs source root → Denotes fs destination base missing →
    ¬ root <:+ down base missing ∧ ¬ down base missing <:+ root
  plain : ∀ base missing, Denotes fs destination base missing →
    ∀ location target, down base missing <:+ location → fs.kindAt location ≠ some (.link target)
  links : ∀ root base missing, Roots fs source root → Denotes fs destination base missing →
    ∀ name directory target, root <:+ directory →
      fs.kindAt (name :: directory) = some (.link target) → ∀ tour result,
        Trail fs.kindAt true linkLimit directory [name] tour result →
          ∀ front, front <+: missing → (front = missing ∨ front ≠ []) → down base front ∉ tour

namespace Separate

theorem of_no_links (hfs : fs.Orderly) (hempty : destination.isEmpty = false)
    (habove : Path.above ∉ destination.steps)
    (hlinks : ∀ location target, fs.kindAt location ≠ some (.link target)) {tour : List Location}
    (hsource : Leads fs true (fs.origin source) source.names tour (.ok (.taken root .directory)))
    (hto : Denotes fs destination base missing) (hbelow : ¬ root <:+ down base missing)
    (hroot : ¬ down base missing <:+ root) : Separate fs source destination := by
  refine ⟨hfs, hempty, habove, fun location target hf => ?_, fun root' base' missing' hr hd => ?_,
    fun base' missing' _ location target _ => hlinks _ _,
    fun root' base' missing' _ _ name directory target _ hk => absurd hk (hlinks _ _)⟩
  · obtain ⟨-, hn, -⟩ := leads_of_find hf
    exact absurd (kindAt_of_node? hn) (hlinks _ _)
  · obtain ⟨tour', hl⟩ := hr.leads
    cases (Trail.unique hsource hl).2
    obtain ⟨rfl, rfl⟩ := hto.unique hd
    exact ⟨hbelow, hroot⟩

theorem of_side_by_side {a b : Name} (hfs : fs.Orderly) (hhome : fs.home = [])
    (hlinks : ∀ location target, fs.kindAt location ≠ some (.link target))
    (hsource : source.names = [a]) (hdestination : destination.steps = [b])
    (hempty : destination.isEmpty = false) (ha : fs.kindAt [a] = some .directory)
    (hb : fs.kindAt [b] = some .directory) (hne : a ≠ b) : Separate fs source destination := by
  have hleads (path : Path) {name : Name} (hk : fs.kindAt [name] = some .directory) :
      ∃ tour, Leads fs true (fs.origin path) [name] tour (.ok (.taken [name] .directory)) := by
    rw [show fs.origin path = [] by simp [origin, hhome]]
    exact hfs.trail_down (show fs.kindAt (down [] [name]) = _ from hk) (.inr (by simp)) linkLimit
  obtain ⟨tour, hla⟩ := hleads source ha
  obtain ⟨tour', hlb⟩ := hleads destination hb
  have hthere : fs.kindAt [b] ≠ none := by simp [hb]
  have habove : Path.above ∉ destination.steps := by
    simpa [hdestination] using (hfs.entryName hthere).ne_above.symm
  refine of_no_links hfs hempty habove hlinks (by rwa [hsource])
    (.found (by rwa [hdestination])) ?_ ?_
  · simpa [down, List.suffix_cons_iff] using hne
  · simpa [down, List.suffix_cons_iff] using hne.symm

/-- A copy is that of a tree whose destination can be made, or fails at the root of the tree, or
there is no tree. -/
theorem cases (h : Separate fs source destination) :
    (∃ root base missing made, Setting fs source destination root base missing ∧
      start fs source = .ok (rootItem source) ∧
      fs.lay (destination.join (.relative [])) = (made, none)) ∨
    (start fs source = .ok (rootItem source) ∧
      ∃ left error, fs.lay (target destination (rootItem source)) = (left, some error)) ∨
    ∀ root, ¬ Roots fs source root := by
  by_cases hroots : ∃ root, Roots fs source root
  · obtain ⟨root, hr⟩ := hroots
    have hs := start_of_roots hr h.direct
    rw [target_eq_join (.inr rfl)]
    rcases hm : fs.lay (destination.join (.relative (rootItem source).names)) with
      ⟨made, _ | error⟩
    · have hnone : ∀ name ∈ ([] : List Name), IsEntryName name := by simp
      obtain ⟨hsteps, habs, -, -⟩ := join_relative_eq h.isEmpty_destination hnone
      rw [List.append_nil] at hsteps
      obtain ⟨base, missing, hto, -⟩ := laid_of_lay h.orderly (hsteps ▸ h.above) hm
      have hto : Denotes fs destination base missing := hto.congr hsteps habs
      have hsetting : Setting fs source destination root base missing :=
        ⟨hr, hto, h.above, h.isEmpty_destination, h.plain base missing hto,
          (h.distinct root base missing hr hto).1, (h.distinct root base missing hr hto).2,
          h.links root base missing hr hto⟩
      exact .inl ⟨root, base, missing, made, hsetting, hs, hm⟩
    · exact .inr (.inl ⟨hs, made, error, rfl⟩)
  · exact .inr (.inr (not_exists.mp hroots))

theorem course_or_fails (h : Separate fs source destination) :
    (∃ describes obstacle? succeeds, Course fs source destination describes obstacle? succeeds) ∨
      start fs source = .ok (rootItem source) ∧
        ∃ left error, fs.lay (target destination (rootItem source)) = (left, some error) := by
  rcases h.cases with ⟨root, base, missing, made, hsetting, hs, hm⟩ | hfails | hroots
  · exact .inl ⟨_, _, _, hsetting.course hs hm⟩
  · exact .inr hfails
  · exact .inl ⟨_, _, _, course_of_single h.orderly hroots⟩

end Separate

theorem steps_target_rootItem (source destination : Path) :
    (target destination (rootItem source)).steps = destination.steps := by
  have hnone : ∀ name ∈ (rootItem source).names, IsEntryName name := by simp [rootItem]
  rw [steps_target hnone]
  exact List.append_nil _

theorem Separate.above_target (h : Separate fs source destination) :
    Path.above ∉ (target destination (rootItem source)).steps := by
  rw [steps_target_rootItem]
  exact h.above

theorem copy_of_fails {shop : Workshop} {left : FileSystem} {error : IoError}
    (hs : start shop.files source = .ok (rootItem source))
    (hl : shop.files.lay (target destination (rootItem source)) = (left, some error))
    (crew : Option PoolId) :
    copy shop source destination crew = ({ shop with files := left }, .error (.io error)) := by
  have hroot : (Progress.mk shop []).handle source destination crew (rootItem source) =
      (⟨{ shop with files := left }, []⟩, some (.io error)) := by
    rw [handle_directory rfl, Progress.makeDirectories, hl]
    rfl
  have hb : below shop.files (rootItem source) = .ok (entriesOf shop.files (rootItem source)) := rfl
  have hwalk : walk (fun progress => progress.shop.files)
      (Progress.handle source destination crew) Error.io source (Progress.mk shop []) =
      (⟨{ shop with files := left }, []⟩, some (.io error)) := by
    refine walk_of_handle_error ?_ hb hroot
    exact hs
  rw [copy, hwalk]

end Tree
end TreePool

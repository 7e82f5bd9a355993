import TreePool.Proofs.Tree.Outcome
import TreePool.Proofs.Tree.Stopped

/-! # Copies that end in an error

What a copy has done that ended in an error is told by the first find of its walk that failed, and
the error is that of the find. Every directory before it is there, every file before it was
attempted once, and nothing has changed at its own place or at that of any later find:
`aborted_of_error`.
-/

namespace TreePool
namespace Tree

open FileSystem

variable {fs made after : FileSystem} {shop final : Workshop} {source destination : Path}
variable {root base : Location} {missing : List Name} {item : Item} {front back : List Find}
variable {find : Find} {crew : Option PoolId} {error : Error} {destroyed : Bool}
variable {describes : (List Name → Prop) → FileSystem → Prop} {obstacle? : Item → Option IoError}
variable {succeeds : Item → Bool}

/-! ## Errors -/

def checkedPaths (source destination : Path) (item : Item) : List (PathField × Path) :=
  [(.directory, source), (.source, item.path), (.destination, target destination item)]

def overlong? (source destination : Path) (item : Item) : Option (PathField × Path) :=
  (checkedPaths source destination item).find? fun checked =>
    Errand.pathLimit ≤ checked.2.length

/-- Where levels are no issue, it is the first path that is too long why there is no errand. -/
theorem refusalOf?_eq (h : item.depth ≤ int32Max) :
    refusalOf? source destination item = (overlong? source destination item).map fun checked =>
      .pathTooLong checked.1 checked.2.length (Errand.pathLimit - 1) := by
  unfold refusalOf? Progress.errandFor level Errand.make Errand.checkLength overlong? checkedPaths
  by_cases hd : Errand.pathLimit ≤ source.length
  · simp [h, hd, bind, Except.bind]
  by_cases hs : Errand.pathLimit ≤ item.path.length
  · simp [h, hd, hs, bind, Except.bind]
  by_cases ht : Errand.pathLimit ≤ (target destination item).length
  · simp [h, hd, hs, ht, bind, Except.bind]
  · simp [h, hd, hs, ht, bind, Except.bind]

theorem depth_lt_of_mem_plan {fuel : Nat} {found : Item}
    (hm : .ok found ∈ plan fs fuel (.ok item)) : found.depth < item.depth + fuel := by
  induction fuel generalizing item with
  | zero => cases hm
  | succ fuel ih =>
    rw [plan] at hm
    cases hb : below fs item with
    | error e => simp [hb] at hm
    | ok finds =>
      rw [hb] at hm
      rcases List.mem_cons.mp hm with he | hm
      · cases he
        omega
      · obtain ⟨next, hnext, hm⟩ := List.mem_flatMap.mp hm
        cases next with
        | error => cases fuel <;> simp [plan] at hm
        | ok next =>
          obtain ⟨name, kind, rfl⟩ := depth_of_mem_below hb hnext
          have hlt := ih hm
          simp only [Item.depth, Item.child, List.length_append, List.length_singleton] at hlt ⊢
          omega

theorem depth_le_of_mem_planFrom (hm : .ok item ∈ planFrom fs source) : item.depth ≤ int32Max := by
  have hlimit : pathLimit ≤ int32Max := by decide
  rw [planFrom] at hm
  cases hs : start fs source with
  | error e => simp [hs, plan] at hm
  | ok first =>
    rw [hs] at hm
    have hlt := depth_lt_of_mem_plan hm
    unfold start at hs
    split at hs
    · cases hs
      simp only [Item.depth, List.length_nil] at hlt ⊢
      omega
    · cases hs

/-- Why a copy failed at a find. The files are those that it left. -/
inductive Fails (shop : Workshop) (files : FileSystem) (source destination : Path)
    (crew : Option PoolId) : Find → Error → Prop
  | unread (e : IoError) : Fails shop files source destination crew (.error e) (.io e)
  | unmade {item : Item} {e : IoError} (hd : item.isDirectory = true)
      (h : files.lay (target destination item) = (files, some e)) :
      Fails shop files source destination crew (.ok item) (.io e)
  | tooLong {item : Item} {field : PathField} {path : Path} (hd : item.isDirectory = false)
      (h : overlong? source destination item = some (field, path)) :
      Fails shop files source destination crew (.ok item)
        (.pathTooLong field path.length (Errand.pathLimit - 1))
  | refused {item : Item} (hd : item.isDirectory = false)
      (h : overlong? source destination item = none) (hup : GivenUp shop crew) :
      Fails shop files source destination crew (.ok item) .poolDestroyed

namespace Stopped

section

variable (h : Stopped describes obstacle? succeeds shop final source destination crew destroyed
  front find back error)

include h

theorem obstacle?_eq_none (hm : .ok item ∈ front) (hd : item.isDirectory = true) :
    obstacle? item = none := by
  have hpassed := h.passed _ hm
  rw [stop?_directory hd] at hpassed
  exact Option.map_eq_none_iff.mp hpassed

theorem fails
    (hlay : ∀ item e, find = .ok item → item.isDirectory = true → obstacle? item = some e →
      final.files.lay (target destination item) = (final.files, some e)) :
    Fails shop final.files source destination crew find error := by
  have hfailed := h.failed
  cases find with
  | error e =>
    cases hfailed
    exact .unread e
  | ok item =>
    have hmem : .ok item ∈ planFrom shop.files source := by simp [h.plan]
    cases hd : item.isDirectory with
    | true =>
      rw [stop?_directory hd] at hfailed
      obtain ⟨e, he, rfl⟩ := Option.map_eq_some_iff.mp hfailed
      exact .unmade hd (hlay item e rfl hd he)
    | false =>
      rw [stop?_file hd, refusalOf?_eq (depth_le_of_mem_planFrom hmem)] at hfailed
      cases hlong : overlong? source destination item with
      | some checked =>
        rw [hlong] at hfailed
        cases hfailed
        exact .tooLong hd hlong
      | none =>
        rw [hlong] at hfailed
        cases destroyed with
        | false => cases hfailed
        | true =>
          cases hfailed
          exact .refused hd hlong (h.givenUp.mp rfl)

theorem not_fails (hfiles : final.files.Orderly)
    (hdirectory : ∀ item, .ok item ∈ front → item.isDirectory = true → obstacle? item = none →
      final.files.isDirectory (target destination item) = true)
    {earlier : Find} (hm : earlier ∈ front) (e : Error) :
    ¬ Fails shop final.files source destination crew earlier e := by
  have hpassed := h.passed earlier hm
  have hplanned : earlier ∈ planFrom shop.files source := by simp [h.plan, hm]
  intro hfails
  cases hfails with
  | unread => cases hpassed
  | unmade hd hlay =>
    have hthere := hdirectory _ hm hd (h.obstacle?_eq_none hm hd)
    rw [FileSystem.lay, layUpTo_of_isDirectory hfiles hthere] at hlay
    cases hlay
  | tooLong hd hlong =>
    rw [stop?_file hd, refusalOf?_eq (depth_le_of_mem_planFrom hplanned), hlong] at hpassed
    cases hpassed
  | refused hd hlong hup =>
    rw [stop?_file hd, refusalOf?_eq (depth_le_of_mem_planFrom hplanned), hlong,
      h.givenUp.mpr hup] at hpassed
    cases hpassed

end

end Stopped

/-! ## What was done -/

/-- What an attempt to copy a file has come to: its content is there, or it cannot be copied. -/
inductive Handled (fs after : FileSystem) (source destination : Path) : Bool → Prop
  | copied {origin place : Location} {content : Bytes}
      (hf : fs.regular? source = some (origin, content))
      (ha : after.regular? destination = some (place, content)) :
      Handled fs after source destination true
  | failed (h : after.copy source destination = none) : Handled fs after source destination false

/-- Where a copy that got past some finds may have changed something: at their places, and at places
above the destination where nothing was and a directory is. -/
inductive Touched (fs after : FileSystem) (destination : Path) (front : List Find) : Location → Prop
  | item {base : Location} {missing : List Name} {item : Item}
      (hto : Denotes fs destination base missing) (hm : .ok item ∈ front) :
      Touched fs after destination front (down base (missing ++ item.names))
  | ancestor {base : Location} {missing init : List Name}
      (hto : Denotes fs destination base missing) (hi : init <+: missing) (hne : init ≠ missing)
      (hd : after.kindAt (down base init) = some .directory) :
      Touched fs after destination front (down base init)

/-- What a copy has done that failed at a find. -/
structure Aborted (shop final : Workshop) (source destination : Path) (crew : Option PoolId)
    (front : List Find) (find : Find) (back : List Find) (error : Error) : Prop where
  plan : planFrom shop.files source = front ++ find :: back
  failed : Fails shop final.files source destination crew find error
  first : ∀ earlier ∈ front, ∀ e, ¬ Fails shop final.files source destination crew earlier e
  directory : ∀ item, .ok item ∈ front → item.isDirectory = true →
    final.files.isDirectory (target destination item) = true
  /-- Each file before the find was attempted once; an errand that a pool refused never was. -/
  file : ∃ (succeeds : Item → Bool) (idle : List Errand),
    final.errands = shop.errands ++ ((carried front).map fun item =>
      (errandOf source destination crew item).attempted (succeeds item)) ++ idle ∧
    (∀ errand ∈ idle, errand.all = []) ∧
    ∀ item ∈ carried front,
      Handled shop.files final.files item.path (target destination item) (succeeds item)
  changed : ∀ location, final.files.kindAt location ≠ shop.files.kindAt location →
    Touched shop.files final.files destination front location
  /-- The places of the find itself and of all that comes after it are as they were. -/
  untouched : ∀ base missing, Denotes shop.files destination base missing →
    ∀ item, .ok item ∈ find :: back →
      final.files.kindAt (down base (missing ++ item.names)) =
        shop.files.kindAt (down base (missing ++ item.names))

theorem Touched.not_later (hfs : fs.Orderly) (hplan : planFrom fs source = front ++ back)
    (hto : Denotes fs destination base missing) (hm : .ok item ∈ back) :
    ¬ Touched fs after destination front (down base (missing ++ item.names)) := by
  intro htouched
  generalize hplace : down base (missing ++ item.names) = place at htouched
  cases htouched with
  | @item base' missing' other hto' hother =>
    obtain ⟨rfl, rfl⟩ := hto.unique hto'
    have hnames : item.names = other.names := List.append_cancel_left (down_inj.mp hplace)
    have hpair := pairwise_planFrom hfs source
    rw [hplan] at hpair
    have hlt := (List.pairwise_append.mp hpair).2.2 _ hother _ hm other item rfl rfl
    rw [hnames] at hlt
    exact List.lt_irrefl _ hlt
  | ancestor hto' hi hne =>
    obtain ⟨rfl, rfl⟩ := hto.unique hto'
    obtain rfl := down_inj.mp hplace
    have hle := hi.length_le
    rw [List.length_append] at hle
    have hnil : item.names = [] := List.eq_nil_of_length_eq_zero (by omega)
    exact hne (by simp [hnil])

theorem kindAt_of_later (hfs : fs.Orderly) (hplan : planFrom fs source = front ++ back)
    (hchanged : ∀ location, after.kindAt location ≠ fs.kindAt location →
      Touched fs after destination front location)
    (hto : Denotes fs destination base missing) (hm : .ok item ∈ back) :
    after.kindAt (down base (missing ++ item.names)) =
      fs.kindAt (down base (missing ++ item.names)) :=
  by_contra fun hne => Touched.not_later hfs hplan hto hm (hchanged _ hne)

theorem Stopped.aborted (hfs : shop.files.Orderly)
    (h : Stopped describes obstacle? succeeds shop final source destination crew destroyed front
      find back error) (hfiles : final.files.Orderly)
    (hlay : ∀ item e, find = .ok item → item.isDirectory = true → obstacle? item = some e →
      final.files.lay (target destination item) = (final.files, some e))
    (hdirectory : ∀ item, .ok item ∈ front → item.isDirectory = true → obstacle? item = none →
      final.files.isDirectory (target destination item) = true)
    (hfile : ∀ item, .ok item ∈ front → item.isDirectory = false →
      Handled shop.files final.files item.path (target destination item) (succeeds item))
    (hchanged : ∀ location, final.files.kindAt location ≠ shop.files.kindAt location →
      Touched shop.files final.files destination front location) :
    Aborted shop final source destination crew front find back error := by
  obtain ⟨idle, hidle, hall⟩ := h.errands
  refine ⟨h.plan, h.fails hlay, fun earlier hm e => h.not_fails hfiles hdirectory hm e,
    fun item hm hd => hdirectory item hm hd (h.obstacle?_eq_none hm hd),
    ⟨succeeds, idle, hidle, hall, fun item hc => ?_⟩, hchanged, fun base missing hto item hm => ?_⟩
  · obtain ⟨hm, hd⟩ := mem_carried.mp hc
    exact hfile item hm hd
  · exact kindAt_of_later hfs h.plan hchanged hto hm

/-! ## Trees -/

/-- What is to stay as it is need not count as done. -/
theorem Stage.without {place : Location} {names : List Name} {fin : List Name → Prop}
    (st : Stage fs source destination root place fin after)
    (hk : image fs source destination root place names = fs.kindAt (down place names)) :
    Stage fs source destination root place (fun other => fin other ∧ other ≠ names) after := by
  refine ⟨st.extended, st.orderly, fun other hfin => st.painted other hfin.1, ?_, st.rest⟩
  intro other hfin
  by_cases hother : fin other
  · obtain rfl : other = names := by
      by_contra hne
      exact hfin ⟨hother, hne⟩
    rw [st.painted other hother, hk]
  · exact st.bare other hother

/-- The copy of a tree that got past some finds, the root of the tree among them, and is over. -/
structure Halted (fs made after : FileSystem) (source destination : Path) (root base : Location)
    (missing : List Name) (front : List Find) : Prop
    extends Setting fs source destination root base missing where
  started : start fs source = .ok (rootItem source)
  lay : fs.lay (destination.join (.relative [])) = (made, none)
  planned : front <+: planFrom fs source
  begun : .ok (rootItem source) ∈ front
  stage : Stage made source destination root (down base missing)
    (fun names => ∃ item, .ok item ∈ front ∧ item.names = names) after

namespace Halted

variable (h : Halted fs made after source destination root base missing front)

include h

theorem grown : Extends fs made := (grows_of_layUpTo h.lay).isExtension

theorem made_laid : Laid fs made base missing := h.laid h.lay

theorem made_ground : Ground made source destination root (down base missing) :=
  h.toSetting.ground_made h.lay

theorem kindAt_of_isDirectory (hm : .ok item ∈ planFrom fs source) (hd : item.isDirectory = true) :
    made.kindAt (down root item.names) = some .directory := by
  rw [h.kindAt_made_of_mem h.started h.lay hm]
  simpa [Item.isDirectory] using hd

theorem kindAt_dropLast {done : List Find} (hpre : done ++ [.ok item] <+: planFrom fs source)
    (hdone : done ⊆ front) (hne : item.names ≠ []) :
    after.kindAt (down (down base missing) item.names.dropLast) = some .directory := by
  rcases eq_rootItem_or_parent h.roots h.started hpre with rfl |
    ⟨-, -, -, hkd, parent, hparent, -, hnames⟩
  · exact absurd rfl hne
  · rw [h.stage.painted _ ⟨parent, hdone hparent, hnames⟩, image, if_pos]
    rwa [h.kindAt_source h.made_laid]

/-- What kept a directory from being made keeps it from being made in the end. -/
theorem lay_of_hindrance? (hpre : front ++ [.ok item] <+: planFrom fs source)
    (hd : item.isDirectory = true) {e : IoError}
    (ho : hindrance? made destination (down base missing) item = some e) :
    after.lay (target destination item) = (after, some e) := by
  have hne : item.names ≠ [] := by
    intro hnil
    rw [hindrance?, if_pos hnil] at ho
    cases ho
  rw [hindrance?, if_neg hne] at ho
  have hnew : ¬ ∃ other, .ok other ∈ front ∧ other.names = item.names := by
    rintro ⟨other, hm, hnames⟩
    exact Underway.names_ne h.roots.orderly hpre hm hnames
  have hkind := h.kindAt_of_isDirectory (hpre.mem List.mem_concat_self) hd
  have hstep := h.stage.lay h.made_ground hne hnew hkind (image_of_directory hkind)
    (h.kindAt_dropLast hpre (List.Subset.refl _) hne)
  rw [ho] at hstep
  rw [target_eq_join (.inr hd)]
  exact hstep

theorem isDirectory_target (hm : .ok item ∈ front) (hd : item.isDirectory = true)
    (ho : hindrance? made destination (down base missing) item = none) :
    after.isDirectory (target destination item) = true := by
  have hkind := h.kindAt_of_isDirectory (h.planned.subset hm) hd
  have hnames := h.made_ground.roots.orderly.isEntryName
    (by simp [hkind] : made.kindAt (down root item.names) ≠ none)
  have hrefusal : refusal? (destination.join (.relative item.names)) = none := by
    by_cases hnil : item.names = []
    · have hempty := (join_relative_eq h.isEmpty_destination hnames).2.2.1
      rw [hnil] at hempty ⊢
      exact refusal?_of_lay hempty h.lay
    · rw [hindrance?, if_neg hnil, obstacle?] at ho
      split at ho
      · cases ho
      · assumption
  have hplace : after.kindAt (down (down base missing) item.names) = some .directory := by
    rw [h.stage.painted _ ⟨item, hm, rfl⟩, image, if_pos hkind]
  obtain ⟨tour, hl⟩ := h.stage.leads_of_kindAt h.made_ground hnames hplace (by simp)
  rw [target_eq_join (.inr hd)]
  exact isDirectory_of_leads hrefusal hl

/-- A file that the copy got past is where it should be, or cannot be copied. -/
theorem handled (hm : .ok item ∈ front) (hd : item.isDirectory = false) :
    Handled fs after item.path (target destination item)
      (content? made source destination (down base missing) item.names).isSome := by
  obtain ⟨done, rest, hsplit⟩ := List.append_of_mem hm
  have hpre : done ++ [.ok item] <+: planFrom fs source :=
    List.IsPrefix.trans ⟨rest, by simp [hsplit]⟩ h.planned
  rcases eq_rootItem_or_parent h.roots h.started hpre with rfl | ⟨hne, hpath, hk, -⟩
  · cases hd
  have hfile : made.kindAt (down root item.names) ≠ some .directory := by
    rw [h.kindAt_source h.made_laid, hk]
    simpa [Item.isDirectory] using hd
  have hthere : made.kindAt (down root item.names) ≠ none := by
    simp [h.kindAt_source h.made_laid, hk]
  have hplace := h.stage.painted _ ⟨item, hm, rfl⟩
  rw [hpath, target_eq_join (.inl hne)]
  cases hc : content? made source destination (down base missing) item.names with
  | some content =>
    rw [image, if_neg hfile, hc] at hplace
    have hnames := h.made_ground.roots.orderly.isEntryName hthere
    obtain ⟨tour, hl⟩ := h.stage.leads_of_kindAt h.made_ground hnames hplace (by simp)
    unfold content? at hc
    split at hc
    · next origin found hf =>
      split_ifs at hc with hfree
      cases hc
      rw [h.spares.regular?_eq h.grown (fun _ => Setting.kindAt_of_laid h.made_laid) hne
        (by simp [hk])] at hf
      exact .copied hf (regular?_eq_some_iff_leads.mpr ⟨hfree.1, tour, hl⟩)
    · cases hc
  | none =>
    -- Nothing has come to the place, so it is as if the file were still to be copied.
    have himage : image made source destination root (down base missing) item.names =
        made.kindAt (down (down base missing) item.names) := by
      rw [image, if_neg hfile, hc]
    have hdone : done ⊆ front := by simp [hsplit]
    exact .failed ((h.stage.without himage).copy_of_content?_eq_none h.made_ground hne (by simp)
      hthere (h.kindAt_dropLast hpre hdone hne) hc)

theorem touched {location : Location} (hne : after.kindAt location ≠ fs.kindAt location) :
    Touched fs after destination front location := by
  by_cases hway : ∃ init, init <+: missing ∧ location = down base init
  · obtain ⟨init, hi, rfl⟩ := hway
    by_cases hall : init = missing
    · have hroot : Touched fs after destination front
          (down base (missing ++ (rootItem source).names)) := .item h.denotes h.begun
      rwa [show (rootItem source).names = [] from rfl, List.append_nil, ← hall] at hroot
    · exact .ancestor h.denotes hi hall
        (h.stage.extended.keeps.directory (h.made_laid.way init hi))
  · rw [← h.made_laid.rest location fun init hi _ he => hway ⟨init, hi, he⟩] at hne
    have hbelow : down base missing <:+ location := by
      by_contra hout
      exact hne (h.stage.rest location hout)
    obtain ⟨names, rfl⟩ := exists_down hbelow
    obtain ⟨item, hm, rfl⟩ := not_imp_comm.mp (h.stage.bare names) hne
    rw [← down_append]
    exact .item h.denotes hm

end Halted

/-- A copy of a tree that was stopped has got past the root, if the destination can be made. -/
theorem Stopped.halted
    (hsetting : Setting shop.files source destination root base missing)
    (hs : start shop.files source = .ok (rootItem source))
    (hm : shop.files.lay (destination.join (.relative [])) = (made, none))
    (h : Stopped (Painted shop.files made (down base missing)
      (image made source destination root (down base missing)))
      (hindrance? made destination (down base missing)) succeeds shop final source destination crew
      destroyed front find back error) :
    Halted shop.files made final.files source destination root base missing front := by
  have hbegun : .ok (rootItem source) ∈ front := by
    obtain ⟨rest, hrest⟩ := planFrom_eq_cons hs
    have hplan := h.plan
    rw [hrest] at hplan
    cases front with
    | nil =>
      have hfailed := h.failed
      rw [← (List.cons.inj hplan).1] at hfailed
      cases hfailed
    | cons first front =>
      rw [(List.cons.inj hplan).1]
      exact List.mem_cons_self
  refine ⟨hsetting, hs, hm, ⟨find :: back, h.plan.symm⟩, hbegun, ?_⟩
  have hfits := h.files
  rw [show Finished shop.errands.length [] front = _ from
    funext fun names => propext finished_nil_iff] at hfits
  rcases hfits with ⟨hno, -⟩ | ⟨-, st⟩
  · exact absurd ⟨_, hbegun, rfl⟩ (hno [])
  · exact st

/-! ## Single files -/

theorem Stopped.of_single (hfs : shop.files.Orderly)
    (hno : ∀ root, ¬ Roots shop.files source root)
    (h : Stopped (fun fin fs' =>
        (fin [] → fs' = (shop.files.copy source destination).getD shop.files) ∧
          (¬ fin [] → fs' = shop.files))
      (fun _ => none) succeeds shop final source destination crew destroyed front find back error) :
    front = [] ∧ final.files = shop.files := by
  have hlength : (planFrom shop.files source).length = 1 := by
    rcases planFrom_of_not_roots hfs hno with hplan | ⟨e, hplan⟩ <;> rw [hplan] <;> rfl
  rw [h.plan, List.length_append, List.length_cons] at hlength
  obtain rfl : front = [] := List.eq_nil_of_length_eq_zero (by omega)
  refine ⟨rfl, h.files.2 ?_⟩
  simp [finished_nil_iff]

/-! ## Roots that cannot be made -/

theorem Performs.of_fails {left : FileSystem} {e : IoError}
    {answer : Except Error (List ErrandId)}
    (hs : start shop.files source = .ok (rootItem source))
    (hl : shop.files.lay (target destination (rootItem source)) = (left, some e))
    (hp : Performs shop source destination crew final answer) :
    answer = .error (.io e) ∧ final.files = left ∧ final.errands = shop.errands := by
  cases hp with
  | inline hcopy =>
    rw [copy_of_fails hs hl] at hcopy
    cases hcopy
    exact ⟨rfl, rfl, rfl⟩
  | @pooled crew pool schedule rest _ _ hpool hr hserves hschedule hrest hcopy hwait =>
    obtain ⟨P, hP, hshop⟩ : ∃ P, Workshop.Rests crew P ∧ P shop := by
      cases hserves with
      | running ho hl hi =>
        exact ⟨_, Workshop.rests_of_crewed crew, pool, hpool, .nil hr ho hi hl⟩
      | destroyed ho hf => exact ⟨_, Workshop.rests_of_shut crew, pool, hpool, hr, ho, hf⟩
    obtain ⟨amid, hamid, hf, he, hafter⟩ := exists_copyAmid_of_fails hP hs hl hshop hschedule
    cases hcopy.symm.trans hamid
    obtain ⟨-, hf', he'⟩ := hP.takeAll hafter (isHarmless_wait hrest)
    exact ⟨rfl, hf'.trans hf, he'.trans he⟩

theorem touched_of_fails (h : Separate fs source destination) {left : FileSystem} {e : IoError}
    (hl : fs.lay (target destination (rootItem source)) = (left, some e)) {location : Location}
    (hne : left.kindAt location ≠ fs.kindAt location) :
    Touched fs left destination [] location := by
  rcases (layUpTo_stuck h.orderly (Nat.le_refl _) h.above_target hl).2 with rfl | hstuck
  · exact absurd rfl hne
  obtain ⟨base, init, rest, hto, -, hrest, hlaid⟩ := hstuck.laid
  have habs : (target destination (rootItem source)).isAbsolute = destination.isAbsolute := by
    rw [target_eq_join (.inr rfl)]
    exact (join_relative_eq h.isEmpty_destination (by simp [rootItem])).2.1
  have hto' : Denotes fs destination base (init ++ rest) :=
    hto.congr (steps_target_rootItem source destination) habs
  obtain ⟨front, hfront, rfl⟩ : ∃ front, front <+: init ∧ location = down base front := by
    by_contra hout
    exact hne (hlaid.rest location fun front hf _ he => hout ⟨front, hf, he⟩)
  refine .ancestor hto' (hfront.trans (List.prefix_append _ _)) ?_ (hlaid.way front hfront)
  rintro rfl
  have hle := hfront.length_le
  rw [List.length_append] at hle
  exact hrest (List.eq_nil_of_length_eq_zero (by omega))

theorem aborted_of_fails (h : Separate shop.files source destination) {left : FileSystem}
    {e : IoError} (hs : start shop.files source = .ok (rootItem source))
    (hl : shop.files.lay (target destination (rootItem source)) = (left, some e))
    (hp : Performs shop source destination crew final (.error error)) :
    ∃ back, Aborted shop final source destination crew [] (.ok (rootItem source)) back error := by
  obtain ⟨hanswer, rfl, herrands⟩ := hp.of_fails hs hl
  cases hanswer
  obtain ⟨back, hplan⟩ := planFrom_eq_cons hs
  have hchanged := fun location => @touched_of_fails _ _ _ h _ _ hl location
  refine ⟨back, hplan, .unmade rfl (lay_again h.orderly h.above_target hl), by simp, by simp,
    ⟨fun _ => false, [], by simp [carried, itemsIn, herrands], by simp, by simp [carried, itemsIn]⟩,
    hchanged, fun base missing hto item hm => ?_⟩
  exact kindAt_of_later h.orderly hplan hchanged hto hm

/-- A copy that ended in an error has done all that comes before the first find that failed, each
file once, and nothing at the place of that find or of any that comes after it. This is so without a
pool, on a pool in use and on one that was destroyed, and whatever the schedule. -/
theorem aborted_of_error (h : Separate shop.files source destination)
    (hp : Performs shop source destination crew final (.error error)) :
    ∃ front find back, Aborted shop final source destination crew front find back error := by
  rcases h.cases with ⟨root, base, missing, made, hsetting, hs, hm⟩ | ⟨hs, left, e, hl⟩ | hno
  · obtain ⟨destroyed, front, find, back, hstopped⟩ := hp.stopped (hsetting.course hs hm)
    have hhalted := hstopped.halted hsetting hs hm
    refine ⟨front, find, back, hstopped.aborted h.orderly hhalted.stage.orderly
      (fun item e he hd ho => ?_) (fun item => hhalted.isDirectory_target)
      (fun item => hhalted.handled) fun location => hhalted.touched⟩
    subst he
    exact hhalted.lay_of_hindrance? ⟨back, by simp [hstopped.plan]⟩ hd ho
  · obtain ⟨back, haborted⟩ := aborted_of_fails h hs hl hp
    exact ⟨[], _, back, haborted⟩
  · obtain ⟨destroyed, front, find, back, hstopped⟩ :=
      hp.stopped (course_of_single h.orderly hno)
    obtain ⟨rfl, hsame⟩ := hstopped.of_single h.orderly hno
    refine ⟨[], find, back, hstopped.aborted h.orderly (hsame ▸ h.orderly)
      (fun item e _ _ ho => ?_) (by simp) (by simp) fun location hne => ?_⟩
    · cases ho
    · rw [hsame] at hne
      exact absurd rfl hne

/-- A tree with a directory for which a file is in the way, and a pool of two workers. -/
def crowded : Workshop :=
  { files :=
    { entries := [(Bytes.ofString "a", .directory
        [(Bytes.ofString "x", .file (Bytes.ofString "1")), (Bytes.ofString "y", .directory [])]),
        (Bytes.ofString "b", .directory [(Bytes.ofString "y", .file (Bytes.ofString "2"))])]
      home := [] }
    pools := twoFiles.pools }

/-- A worker copies the one file that was submitted, and the caller that waits gets to know. -/
def closing : List (Action Effect) := List.replicate 8 (.worker 0 none) ++ [.caller 1 none]

theorem aborted_of_error_crowded :
    let a := Path.ofString "a"
    let b := Path.ofString "b"
    let amid := copyAmid crowded a b 0 fun _ => []
    let final := amid.1.takeAll 0 (.call .wait :: closing)
    amid.1.files.kindAt [Bytes.ofString "x", Bytes.ofString "b"] = none ∧
      final.files.kindAt [Bytes.ofString "x", Bytes.ofString "b"] =
        some (.file (Bytes.ofString "1")) ∧
      ∃ front find back, Aborted crowded final a b (some 0) front find back
        (.io SystemError.alreadyExists) := by
  intro a b amid final
  obtain ⟨pool, hpool, hreachable, howner, hload, hincoming⟩ := exists_pool_twoFiles
  have hcrowded : crowded.pool? 0 = some pool := hpool
  have herror : amid.2 = .error (.io SystemError.alreadyExists) := by decide +kernel
  have hcopy : copyAmid crowded a b 0 (fun _ => []) =
      (amid.1, .error (.io SystemError.alreadyExists)) := by rw [← herror]
  have hclosing : ∀ action ∈ closing, action.IsHarmless := by decide
  have hwait : final.reply? 0 (amid.1.nextCaller 0) = some .drained := by decide +kernel
  have hperforms :
      Performs crowded a b (some 0) final (.error (.io SystemError.alreadyExists)) := by
    apply Performs.pooled hcrowded hreachable _ _ hclosing hcopy hwait
    · exact .running howner hload hincoming
    · intro pauses
      simp
  have hseparate : Separate crowded.files a b :=
    .of_side_by_side (a := Bytes.ofString "a") (b := Bytes.ofString "b") (by decide) rfl
      (kindAt_ne_link_of_contents (by decide +kernel)) (by decide) (by decide) (by decide) rfl rfl
      (by decide)
  exact ⟨by decide +kernel, by decide +kernel, aborted_of_error hseparate hperforms⟩

end Tree
end TreePool

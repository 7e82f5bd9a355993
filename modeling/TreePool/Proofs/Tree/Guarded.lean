import TreePool.Proofs.FileSystem.Permissions
import TreePool.Proofs.Tree.Outcome
import TreePool.Tree.Guarded

/-! # Copies under permission bits

What becomes of each place below the destination is settled before the copy of a tree begins also
when permission bits hold: no place is written twice, and no file of the source is written at all.
So `writingAt` tells what the copy does at each place, and `Setting.copyGuarded_eq` what it leaves
and answers. A privileged process copies as `Tree.copy` does, `copyGuarded_of_privileged`. -/

namespace TreePool
namespace Tree

open FileSystem

variable {fs made : FileSystem} {rights : Rights} {source destination : Path}
variable {root base place location : Location} {missing names : List Name}
variable {fin : List Name → Prop} {done : List Find} {item : Item} {errand : Errand}
variable {progress : Guarded Progress} {after : Guarded FileSystem}

/-! ## Errands -/

theorem carryGuarded_eq (progress : Guarded Progress) (errand : Errand) :
    let copied := Guarded.copy ⟨progress.state.shop.files, progress.rights⟩ errand.source
      errand.destination
    let next := carryGuarded progress errand
    next.state.shop.files = copied.1.state ∧ next.rights = copied.1.rights ∧
      next.state.shop.errands = progress.state.shop.errands ++ [errand.attempted copied.2] ∧
      next.state.errands = progress.state.errands ++ [progress.state.shop.errands.length] := by
  intro copied next
  have hadded : (progress.state.shop.addErrand errand).errands[
      progress.state.shop.errands.length]? = some errand := List.getElem?_concat_length
  refine ⟨Workshop.files_recordAll _ _ _, rfl, ?_, rfl⟩
  have hrecord := Workshop.errands_recordAll
    { progress.state.shop.addErrand errand with files := copied.1.state } hadded
    (errand.copyRecords copied.2)
  have hset : (progress.state.shop.errands ++ [errand]).set progress.state.shop.errands.length
      (errand.attempted copied.2) = progress.state.shop.errands ++ [errand.attempted copied.2] := by
    simp
  exact hrecord.trans hset

theorem coarse_handleGuarded (source destination : Path) :
    Coarse (handleGuarded source destination) := by
  intro item progress
  obtain ⟨path, names, kind⟩ := item
  cases kind <;> rfl

theorem handleGuarded_directory (hd : item.isDirectory = true) (progress : Guarded Progress) :
    handleGuarded source destination item progress =
      (⟨(progress.state.makeDirectories (target destination item)).1, progress.rights⟩,
        (progress.state.makeDirectories (target destination item)).2) := by
  simp [handleGuarded, hd]

theorem handleGuarded_file (hd : item.isDirectory = false) (progress : Guarded Progress) :
    handleGuarded source destination item progress =
      match refusalOf? source destination item with
      | none => (carryGuarded progress (errandOf source destination none item), none)
      | some e => (progress, some e) := by
  unfold handleGuarded
  rw [if_neg (by simp [hd]), errandFor_eq]
  cases refusalOf? source destination item <;> rfl

theorem copyGuarded_eq_walk (shop : Guarded Workshop) (source destination : Path) :
    let result := walk (fun progress => progress.state.shop.files)
      (handleGuarded source destination) Error.io source
      (⟨Progress.mk shop.state [], shop.rights⟩ : Guarded Progress)
    copyGuarded shop source destination =
      (⟨result.1.state.shop, result.1.rights⟩,
        result.2.elim (.ok result.1.state.errands) .error) := by
  intro result
  rcases hwalk : result with ⟨progress, failure⟩
  simp only [copyGuarded, show walk _ _ _ _ _ = _ from hwalk]
  cases failure <;> rfl

/-! ## Privileged copies -/

theorem privileged_carryGuarded (progress : Guarded Progress) (errand : Errand) :
    (carryGuarded progress errand).rights.privileged = progress.rights.privileged :=
  Guarded.privileged_copy _ _ _

theorem privileged_handleGuarded (item : Item) (progress : Guarded Progress) :
    (handleGuarded source destination item progress).1.rights.privileged =
      progress.rights.privileged := by
  unfold handleGuarded
  split_ifs
  · rfl
  · split
    · exact privileged_carryGuarded _ _
    · rfl

/-- Where no bits hold, the file of an errand is copied as `Progress.carry` does that. -/
theorem state_carryGuarded (h : progress.rights.privileged = true) (errand : Errand) :
    (carryGuarded progress errand).state = (progress.state.carry none errand).1 := by
  let shop := progress.state.shop
  have hadded : (shop.addErrand errand).errands[shop.errands.length]? = some errand :=
    List.getElem?_concat_length
  obtain ⟨hfiles, hsuccess⟩ := @Guarded.copy_of_privileged ⟨shop.files, progress.rights⟩
    errand.source errand.destination h
  have hcopy : (shop.addErrand errand).copy shop.errands.length =
      { shop.addErrand errand with
        files := (shop.files.copy errand.source errand.destination).getD shop.files }.recordAll
          shop.errands.length
          (errand.copyRecords (shop.files.copy errand.source errand.destination).isSome) := by
    simp only [Workshop.copy, hadded, Errand.carryOut]
    cases hc : shop.files.copy errand.source errand.destination <;>
      simp [Workshop.addErrand, hc]
  rw [← hfiles, ← hsuccess] at hcopy
  simp only [carryGuarded, Progress.carry]
  exact congrArg (Progress.mk · _) hcopy.symm

theorem privileged_copyGuarded (shop : Guarded Workshop) (source destination : Path) :
    (copyGuarded shop source destination).1.rights.privileged = shop.rights.privileged := by
  rw [copyGuarded_eq_walk]
  have hkept (item : Item) (progress : Guarded Progress)
      (hp : progress.rights.privileged = shop.rights.privileged) :
      (handleGuarded source destination item progress).1.rights.privileged =
        shop.rights.privileged :=
    (privileged_handleGuarded item progress).trans hp
  exact walk_keeps hkept source (by rfl)

/-- A privileged process copies as if there were no permission bits. -/
theorem copyGuarded_of_privileged {shop : Guarded Workshop} (h : shop.rights.privileged = true)
    (source destination : Path) :
    (copyGuarded shop source destination).map Guarded.state id =
      copy shop.state source destination none := by
  have hhandle (item : Item) (progress : Guarded Progress)
      (hp : progress.rights.privileged = true) :
      Progress.handle source destination none item progress.state =
        (handleGuarded source destination item progress).map Guarded.state id := by
    cases hd : item.isDirectory with
    | true =>
      rw [handleGuarded_directory hd, handle_directory hd]
      rfl
    | false =>
      rw [handleGuarded_file hd, handle_file hd]
      cases refusalOf? source destination item with
      | some e => rfl
      | none => exact Prod.ext (state_carryGuarded hp _).symm rfl
  have hwalk := @walk_map_of_keeps _ _ (fun progress => progress.shop.files) _ Error.io _ _ _ _
    hhandle (fun item progress hp => (privileged_handleGuarded item progress).trans hp) source
    ⟨Progress.mk shop.state [], shop.rights⟩ h
  rw [copyGuarded_eq_walk, copy_eq_walk, hwalk, Function.comp_def]
  generalize walk _ _ _ _ _ = result
  rfl

/-! ## What writing a copy comes to -/

section

variable (made : FileSystem) (rights : Rights) (source destination : Path) (root place : Location)
variable (names : List Name)

def writingAt : Writing :=
  match made.regular? (source.descend names) with
  | some (origin, content) =>
    if rights.mayRead origin ∧ refusal? (destination.join (.relative names)) = none ∧
        made.kindAt (down place names) ≠ some .directory then
      rights.writing (down place names) (made.kindAt (down place names)).isNone content
        (rights.permit origin).mode
    else .left
  | none => .left

def guardedImage : Option Kind :=
  if made.kindAt (down root names) = some .directory then some .directory
  else (writingAt made rights source destination place names).kind (made.kindAt (down place names))

end

theorem writingAt_of_directory (hr : Roots made source root)
    (h : made.kindAt (down root names) = some .directory) :
    writingAt made rights source destination place names = .left := by
  rw [writingAt, hr.regular?_eq_none_of_directory h]

/-- A copy under way: what is done holds its image and has the permit that comes with that. -/
structure GuardedStage (fs made : FileSystem) (rights : Rights) (source destination : Path)
    (root place : Location) (fin : List Name → Prop) (after : Guarded FileSystem) : Prop where
  files : Painted fs made place (guardedImage made rights source destination root place) fin
    after.state
  privileged : after.rights.privileged = rights.privileged
  done : ∀ names, fin names → after.rights.permit (down place names) =
    (writingAt made rights source destination place names).permit (rights.permit (down place names))
  rest : ∀ location, (∀ names, fin names → location ≠ down place names) →
    after.rights.permit location = rights.permit location

namespace GuardedStage

variable (hg : GuardedStage fs made rights source destination root place fin after)

include hg

theorem unique {after' : Guarded FileSystem}
    (hg' : GuardedStage fs made rights source destination root place fin after') :
    after = after' := by
  have hstate := hg.files.unique hg'.files
  have hrights : after'.rights = after.rights := by
    refine Rights.ext (hg'.privileged.trans hg.privileged.symm) fun location => ?_
    by_cases h : ∃ names, fin names ∧ location = down place names
    · obtain ⟨names, hfin, rfl⟩ := h
      rw [hg.done names hfin, hg'.done names hfin]
    · have hno (names : List Name) (hfin : fin names) : location ≠ down place names :=
        fun he => h ⟨names, hfin, he⟩
      rw [hg.rest location hno, hg'.rest location hno]
  obtain ⟨state, rights⟩ := after
  exact congrArg₂ Guarded.mk hstate hrights.symm

theorem permit_of_not_fin (hfin : ¬ fin names) :
    after.rights.permit (down place names) = rights.permit (down place names) :=
  hg.rest _ fun _ ho he => hfin (down_inj.mp he ▸ ho)

theorem permit_of_not_suffix (h : ¬ place <:+ location) :
    after.rights.permit location = rights.permit location := by
  refine hg.rest _ ?_
  rintro names - rfl
  exact h (suffix_down _ _)

theorem directory (hwriting : writingAt made rights source destination place names = .left)
    (hfin : ¬ fin names) {next : FileSystem}
    (hfiles : Painted fs made place (guardedImage made rights source destination root place)
      (fun other => fin other ∨ other = names) next) :
    GuardedStage fs made rights source destination root place
      (fun other => fin other ∨ other = names) ⟨next, after.rights⟩ := by
  refine ⟨hfiles, hg.privileged, ?_, fun location hno =>
    hg.rest location fun other ho => hno other (.inl ho)⟩
  rintro other (ho | rfl)
  · exact hg.done other ho
  · rw [hwriting]
    exact hg.permit_of_not_fin hfin

section

variable (st : Overlaid made place (guardedImage made rights source destination root place) fin
  after.state)
variable (h : Ground made source destination root place)
variable (hne : names ≠ []) (hfin : ¬ fin names) (hthere : made.kindAt (down root names) ≠ none)
variable (hparent : after.state.kindAt (down place names.dropLast) = some .directory)

include st h hne hfin hthere hparent

theorem copy_eq :
    let writing := writingAt made rights source destination place names
    after.copy (source.descend names) (destination.join (.relative names)) =
        (after.perform (down place names) writing, writing.succeeds) ∧
      (writing = .left ∨
        after.state.Opens (destination.join (.relative names)) (down place names)) := by
  have hnames := h.roots.orderly.isEntryName hthere
  have hregular := st.regular?_eq h hne hthere
  intro writing
  have hleft (hwriting : writing = .left)
      (hcopy : after.copy (source.descend names) (destination.join (.relative names)) =
        (after, false)) :
      after.copy (source.descend names) (destination.join (.relative names)) =
          (after.perform (down place names) writing, writing.succeeds) ∧
        (writing = .left ∨
          after.state.Opens (destination.join (.relative names)) (down place names)) := by
    rw [hwriting]
    exact ⟨hcopy, .inl rfl⟩
  cases hf : made.regular? (source.descend names) with
  | none =>
    refine hleft ?_ (Guarded.copy_of_regular?_eq_none (hregular.trans hf))
    simp only [writing, writingAt, hf]
  | some found =>
    obtain ⟨origin, content⟩ := found
    have hf' := hregular.trans hf
    have hout := h.not_suffix_of_regular? hne hthere hf
    have hpermit := hg.permit_of_not_suffix hout
    have hmayRead : after.rights.mayRead origin = rights.mayRead origin := by
      rw [Rights.mayRead, Rights.mayRead, Rights.access, Rights.access, hpermit, hg.privileged]
    cases hread : rights.mayRead origin with
    | false =>
      refine hleft ?_ (Guarded.copy_of_mayRead_eq_false hf' (hmayRead.trans hread))
      simp [writing, writingAt, hf, hread]
    | true =>
      by_cases hopen : refusal? (destination.join (.relative names)) = none ∧
          made.kindAt (down place names) ≠ some .directory
      · have ho := (st.opens_target_iff h hnames hne hfin hparent).mpr ⟨rfl, hopen⟩
        have haway : down place names ≠ origin := by
          rintro rfl
          exact hout (suffix_down _ _)
        have hwriting : writing = after.rights.writing (down place names)
            (after.state.kindAt (down place names)).isNone
            (written (down place names) origin content) (after.rights.permit origin).mode := by
          rw [st.bare names hfin, written, if_neg haway, hpermit,
            Rights.writing_congr hg.privileged (hg.permit_of_not_fin hfin)]
          simp only [writing, writingAt, hf]
          exact if_pos ⟨hread, hopen⟩
        rw [hwriting]
        exact ⟨Guarded.copy_eq ho hf' (hmayRead.trans hread), .inr ho⟩
      · refine hleft ?_ (Guarded.copy_of_not_opens fun location ho =>
          hopen ((st.opens_target_iff h hnames hne hfin hparent).mp ho).2)
        simp only [writing, writingAt, hf]
        exact if_neg fun hall => hopen hall.2

theorem copy (hnil : fin []) (hd : made.kindAt (down root names) ≠ some .directory) :
    let copied := after.copy (source.descend names) (destination.join (.relative names))
    copied.2 = (writingAt made rights source destination place names).succeeds ∧
      GuardedStage fs made rights source destination root place
        (fun other => fin other ∨ other = names) copied.1 := by
  obtain ⟨hcopy, hopens⟩ := hg.copy_eq st h hne hfin hthere hparent
  set writing := writingAt made rights source destination place names with hwriting
  rw [hcopy]
  have himage : guardedImage made rights source destination root place names =
      writing.kind (after.state.kindAt (down place names)) := by
    rw [guardedImage, if_neg hd, st.bare names hfin]
  refine ⟨rfl, .inr ⟨.inl hnil, ?_⟩, ?_, ?_, ?_⟩
  · rcases hopens with hleft | ho
    · rw [hleft] at himage ⊢
      exact st.skip himage.symm
    · obtain ⟨hx, hkind⟩ := Guarded.perform_opens ho writing
      refine st.step hx ?_ (by rw [hkind, himage])
      obtain ⟨init, name, rfl⟩ := (List.eq_nil_or_concat' names).resolve_left hne
      rw [down_concat] at ho ⊢
      exact Guarded.orderly_perform st.orderly
        (h.roots.orderly.isEntryName hthere name (by simp)) ho writing
  · rw [Guarded.rights_perform, Rights.privileged_set, hg.privileged]
  · rintro other (ho | rfl)
    · have hother : down place other ≠ down place names := fun he => hfin (down_inj.mp he ▸ ho)
      rw [Guarded.rights_perform, Rights.permit_set_of_ne hother, hg.done other ho]
    · rw [Guarded.rights_perform, Rights.permit_set_self, hg.permit_of_not_fin hfin]
  · intro location hno
    rw [Guarded.rights_perform, Rights.permit_set_of_ne (hno names (.inr rfl))]
    exact hg.rest location fun other ho => hno other (.inl ho)

end

end GuardedStage

/-! ## Whole copies -/

def Visited (done : List Find) (names : List Name) : Prop :=
  ∃ item, .ok item ∈ done ∧ item.names = names

theorem visited_concat (done : List Find) (item : Item) :
    Visited (done ++ [.ok item]) = fun names => Visited done names ∨ names = item.names := by
  funext names
  refine propext ⟨?_, ?_⟩
  · rintro ⟨other, hm, rfl⟩
    rcases List.mem_append.mp hm with hm | hm
    · exact .inl ⟨other, hm, rfl⟩
    · cases List.mem_singleton.mp hm
      exact .inr rfl
  · rintro (⟨other, hm, rfl⟩ | rfl)
    · exact ⟨other, List.mem_append_left _ hm, rfl⟩
    · exact ⟨item, List.mem_concat_self, rfl⟩

theorem not_visited (hfs : fs.Orderly) (hpre : done ++ [.ok item] <+: planFrom fs source) :
    ¬ Visited done item.names := by
  rintro ⟨other, hm, he⟩
  exact Underway.names_ne hfs hpre hm he

/-- A copy under permission bits that went along a plan so far. -/
structure GuardedUnderway (fs made : FileSystem) (rights : Rights) (source destination : Path)
    (root place : Location) (old : List Errand) (done : List Find) (progress : Guarded Progress) :
    Prop where
  stage : GuardedStage fs made rights source destination root place (Visited done)
    ⟨progress.state.shop.files, progress.rights⟩
  errands_eq : progress.state.shop.errands = old ++ (carried done).map fun item =>
    (errandOf source destination none item).attempted
      (writingAt made rights source destination place item.names).succeeds
  ids : progress.state.errands = List.range' old.length (carried done).length

namespace Setting

variable {shop : Guarded Workshop} {old : List Errand}
variable (h : Setting fs source destination root base missing)
variable (hs : start fs source = .ok (rootItem source))
variable (hm : fs.lay (destination.join (.relative [])) = (made, none))

include h hs hm

section

variable (hpre : done ++ [.ok item] <+: planFrom fs source)
variable (hu : GuardedUnderway fs made rights source destination root (down base missing) old done
  progress)

include hpre hu

theorem guarded_directory (hd : item.isDirectory = true) {failure : Option IoError}
    (ho : hindrance? made destination (down base missing) item = failure) :
    (handleGuarded source destination item progress).2 = failure.map .io ∧
      GuardedUnderway fs made rights source destination root (down base missing) old
        (if failure.isNone then done ++ [.ok item] else done)
        (handleGuarded source destination item progress).1 := by
  have hnot := not_visited h.roots.orderly hpre
  have hsettled : Settled (Visited done) done := fun item hm _ => ⟨item, hm, rfl⟩
  have hstep := h.lay_target hs hm hu.stage.files (fun _ hdir => if_pos hdir) hpre hd hsettled hnot
  rw [ho] at hstep
  rw [handleGuarded_directory hd, Progress.makeDirectories]
  cases failure with
  | some e =>
    rw [hstep]
    exact ⟨rfl, hu⟩
  | none =>
    obtain ⟨next, hnext, hfits⟩ := hstep
    rw [hnext, Option.isNone_none, if_pos rfl]
    refine ⟨rfl, ?_, ?_, ?_⟩
    · rw [visited_concat]
      refine hu.stage.directory (writingAt_of_directory (h.ground_made hm).roots ?_) hnot hfits
      rw [h.kindAt_made_of_mem hs hm (hpre.mem List.mem_concat_self)]
      simpa [Item.isDirectory] using hd
    all_goals rw [carried_concat_directory hd]
    · exact hu.errands_eq
    · exact hu.ids

theorem guarded_file (hd : item.isDirectory = false) :
    GuardedUnderway fs made rights source destination root (down base missing) old
      (done ++ [.ok item]) (carryGuarded progress (errandOf source destination none item)) := by
  have hnot := not_visited h.roots.orderly hpre
  have hsettled : Settled (Visited done) done := fun item hm _ => ⟨item, hm, rfl⟩
  have hkind := h.kindAt_made_of_mem hs hm (hpre.mem List.mem_concat_self)
  have hdir : item.kind ≠ .directory := by simpa [Item.isDirectory] using hd
  rcases eq_rootItem_or_parent h.roots hs hpre with rfl |
    ⟨hne, hpath, -, hkd, parent, hparent, hp, hnames⟩
  · cases hd
  rw [← hnames, ← h.kindAt_source (h.laid hm)] at hkd
  obtain ⟨hnil, st, hdirectory⟩ := hu.stage.files.overlaid hsettled hparent hp (if_pos hkd)
  rw [hnames] at hdirectory
  obtain ⟨hsucceeds, hstage⟩ := hu.stage.copy st (h.ground_made hm) hne hnot (by simp [hkind])
    hdirectory hnil (by simpa [hkind] using hdir)
  rw [← hpath, ← target_eq_join (.inl hne)] at hsucceeds hstage
  obtain ⟨hfiles, hrights, herrands, hids⟩ :=
    carryGuarded_eq progress (errandOf source destination none item)
  refine ⟨?_, ?_, ?_⟩
  · rw [visited_concat, hfiles, hrights]
    exact hstage
  · rw [herrands, hu.errands_eq, carried_concat_file hd, List.map_append, List.append_assoc]
    simp [hsucceeds]
  · rw [hids, hu.ids, hu.errands_eq, carried_concat_file hd, List.length_append, List.length_append,
      List.length_map, List.length_singleton, List.range'_concat, Nat.one_mul]

end

/-- A copy under permission bits goes as far as the verdicts on its finds let it. -/
theorem walk_guarded (hfs : shop.state.files = fs) :
    let verdict? := verdict? source destination (hindrance? made destination (down base missing))
    let result := walk (fun progress => progress.state.shop.files)
      (handleGuarded source destination) Error.io source
      (⟨Progress.mk shop.state [], shop.rights⟩ : Guarded Progress)
    result.2 = (planFrom fs source).findSome? verdict? ∧
      GuardedUnderway fs made shop.rights source destination root (down base missing)
        shop.state.errands ((planFrom fs source).takeWhile fun find => (verdict? find).isNone)
        result.1 := by
  intro verdict? result
  refine walk_of_step (coarse_handleGuarded source destination)
    (fun done item progress hpre _ hu => h.below_eq hm hu.stage.files hpre)
    (fun done find progress hpre hu => ?_) hfs ?_
  · cases find with
    | error e => exact ⟨rfl, hu⟩
    | ok item =>
      rw [attend]
      simp only [verdict?, Tree.verdict?]
      cases hd : item.isDirectory with
      | true =>
        have hnext := h.guarded_directory hs hm hpre hu hd rfl
        rwa [if_pos rfl, Option.isNone_map]
      | false =>
        rw [handleGuarded_file hd]
        cases hr : refusalOf? source destination item with
        | some e => exact ⟨rfl, hu⟩
        | none => exact ⟨rfl, h.guarded_file hs hm hpre hu hd⟩
  · refine ⟨⟨.inl ⟨?_, hfs⟩, rfl, ?_, fun _ _ => rfl⟩, (List.append_nil _).symm, rfl⟩
    all_goals simp [Visited]

theorem copyGuarded_eq (hfs : shop.state.files = fs) :
    let verdict? := verdict? source destination (hindrance? made destination (down base missing))
    let result := copyGuarded shop source destination
    GuardedStage fs made shop.rights source destination root (down base missing)
        (Visited ((planFrom fs source).takeWhile fun find => (verdict? find).isNone))
        ⟨result.1.state.files, result.1.rights⟩ ∧
      result.2.map result.1.state.errandsAt =
        match (planFrom fs source).findSome? verdict? with
        | none => .ok ((carried (planFrom fs source)).map fun item =>
            (errandOf source destination none item).attempted
              (writingAt made shop.rights source destination (down base missing)
                item.names).succeeds)
        | some e => .error e := by
  intro verdict? result
  obtain ⟨hfailure, hu⟩ := h.walk_guarded hs hm hfs
  simp only [result, copyGuarded_eq_walk]
  rw [hfailure]
  refine ⟨hu.stage, ?_⟩
  cases hverdict : (planFrom fs source).findSome? verdict? with
  | some e => rfl
  | none =>
    have hnone := List.findSome?_eq_none_iff.mp hverdict
    rw [List.takeWhile_eq_self_iff.mpr fun find hm =>
      Option.isNone_iff_eq_none.mpr (hnone find hm)] at hu
    have hlength : (carried (planFrom fs source)).length =
        ((carried (planFrom fs source)).map fun item =>
          (errandOf source destination none item).attempted (writingAt made shop.rights source
            destination (down base missing) item.names).succeeds).length := by simp
    rw [Option.elim_none, Except.map, hu.ids, hlength]
    refine congrArg _ (Workshop.errandsAt_range' fun i errand hi => ?_)
    rw [hu.errands_eq, List.getElem?_append_right (Nat.le_add_right _ _),
      Nat.add_sub_cancel_left, hi]

end Setting

end Tree
end TreePool

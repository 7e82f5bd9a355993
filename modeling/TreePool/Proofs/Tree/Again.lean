import TreePool.Proofs.Tree.GuardedFile

/-! # Copies made again

A copy that is made again meets what the first one left. A directory that was made is there, a file
that was copied is written over with what it holds, and whatever stood in the way still stands
there. But the files that were copied have the permission bits of their sources by then. Unless
these keep their owner from writing, the second copy changes nothing, and its answer is that of the
first, `copyGuarded_again`, whether that came to its end or to an error. A file that its owner may
not write is copied once, `copyGuarded_refused`. -/

namespace TreePool
namespace Tree

open FileSystem

variable {fs fs' made : FileSystem} {source destination : Path} {root base place : Location}
variable {missing names : List Name} {fin : List Name → Prop} {item : Item} {find : Find}
variable {rights : Rights} {after : Guarded FileSystem} {shop : Guarded Workshop}

/-! ## Trees that are read again -/

theorem start_of_extends (hfs : fs.Orderly) (hx : Extends fs fs')
    (hs : start fs source = .ok (rootItem source)) :
    start fs' source = .ok (rootItem source) := by
  unfold start at hs
  split at hs
  · next location node hf =>
    obtain ⟨hr, hn, tour, hl⟩ := leads_of_find hf
    have hd : node.kind = .directory := congrArg Item.kind (Except.ok.inj hs)
    obtain ⟨kind, hk, hl'⟩ := hx.leads hfs.home_ne_none hl
    rw [hx.keeps.directory (hd ▸ kindAt_of_node? hn)] at hk
    cases hk
    obtain ⟨node', hf', -, hd'⟩ := find_of_leads hr hl'
    rw [start, hf']
    exact congrArg Except.ok (congrArg (Item.mk source []) hd')
  · cases hs

theorem plan_eq_of_kindAt (hr : Roots fs source root) (hr' : Roots fs' source root)
    (hk : ∀ names, fs'.kindAt (down root names) = fs.kindAt (down root names))
    (h : Stands fs source root item) (fuel : Nat) :
    plan fs' fuel (.ok item) = plan fs fuel (.ok item) := by
  induction fuel generalizing item with
  | zero => rfl
  | succ fuel ih =>
    have h' : Stands fs' source root item :=
      ⟨h.path, fun hne => (hk item.names).trans (h.kindAt hne), h.start⟩
    have hbelow : below fs' item = below fs item := by
      rw [h.below_eq hr, h'.below_eq hr']
      split_ifs with hd
      · obtain ⟨entries, hentries⟩ := h.directory hr hd
        obtain ⟨entries', hentries'⟩ := h'.directory hr' hd
        rw [h.entriesOf_eq hr hentries, h'.entriesOf_eq hr' hentries']
        have hsame := hr.orderly.map_entries_eq id hr'.orderly hentries hentries' fun name => by
          rw [← down_concat, hk]
        let find (entry : Name × Kind) : Find := .ok (item.child entry.1 entry.2)
        have hfinds := congrArg (List.map find) hsame
        rw [List.map_map, List.map_map] at hfinds
        split
        · rfl
        · exact congrArg Except.ok hfinds.symm
      · rfl
    obtain ⟨finds, hb, hplan⟩ := plan_succ h hr fuel
    rw [hplan, plan, hbelow, hb]
    refine congrArg _ (List.flatMap_congr fun find hm => ?_)
    cases find with
    | error => cases fuel <;> rfl
    | ok next =>
      obtain ⟨name, kind, rfl, -, hnext⟩ := h.of_mem_below hr hb hm
      exact ih hnext

theorem planFrom_eq_of_kindAt (hr : Roots fs source root) (hr' : Roots fs' source root)
    (hk : ∀ names, fs'.kindAt (down root names) = fs.kindAt (down root names))
    (hs : start fs source = .ok item) (hs' : start fs' source = .ok item) :
    planFrom fs' source = planFrom fs source := by
  rw [planFrom, planFrom, hs, hs']
  exact plan_eq_of_kindAt hr hr' hk (stands_of_start hr hs).2 _

/-! ## What is done stays done -/

namespace GuardedStage

variable (hg : GuardedStage fs made rights source destination root place fin after)
variable (st : Overlaid made place (guardedImage made rights source destination root place) fin
  after.state)

include st

/-- A place at or below the destination is a directory after the copy if it was one before it. -/
theorem kindAt_eq_directory_iff (hd : made.kindAt (down root names) ≠ some .directory) :
    after.state.kindAt (down place names) = some .directory ↔
      made.kindAt (down place names) = some .directory := by
  refine ⟨fun ha => ?_, st.extended.keeps.directory⟩
  by_cases hfin : fin names
  · rw [st.painted names hfin, guardedImage, if_neg hd] at ha
    cases hwriting : writingAt made rights source destination place names with
    | left => rwa [hwriting] at ha
    | emptied | filled => rw [hwriting] at ha; cases ha
  · rwa [st.bare names hfin] at ha

/-- What kept a directory from being made still does. -/
theorem obstacle?_again
    (hfin : fin names → made.kindAt (down root names) = some .directory ∧
      obstacle? made destination place names = none) :
    obstacle? after.state destination place names = obstacle? made destination place names := by
  by_cases hdone : fin names
  · obtain ⟨hd, hnone⟩ := hfin hdone
    have hpainted := st.painted names hdone
    rw [guardedImage, if_pos hd] at hpainted
    rw [hnone]
    unfold obstacle? at hnone ⊢
    split at hnone
    · cases hnone
    · rw [hpainted]
  · rw [obstacle?, obstacle?, st.bare names hdone]

variable (h : Ground made source destination root place)

include h

theorem plain (hs : place <:+ location) (target : Path) :
    after.state.kindAt location ≠ some (.link target) := by
  obtain ⟨names, rfl⟩ := exists_down hs
  by_cases hfin : fin names
  · rw [st.painted names hfin, guardedImage]
    split_ifs
    · simp
    · cases writingAt made rights source destination place names with
      | left => exact h.plain _ target hs
      | emptied | filled => simp [Writing.kind]
  · rw [st.bare names hfin]
    exact h.plain _ target hs

theorem lay_again (hplace : made.kindAt place = some .directory)
    (hr : refusal? (destination.join (.relative [])) = none) :
    after.state.lay (destination.join (.relative [])) = (after.state, none) := by
  have hd : after.state.kindAt (down place []) = some .directory :=
    st.extended.keeps.directory hplace
  obtain ⟨tour, hl⟩ := st.leads_of_kindAt h (by simp) hd (by simp)
  exact layUpTo_of_isDirectory st.orderly (isDirectory_of_leads hr hl) _

include hg

/-- What was done is done again in the same way, if the owner of a file that has the bits of the
source may write it. -/
theorem writingAt_again (hfin : fin names) (hthere : made.kindAt (down root names) ≠ none)
    (hd : made.kindAt (down root names) ≠ some .directory)
    (hmode : ∀ origin content, made.regular? (source.descend names) = some (origin, content) →
      rights.mayRead origin = true →
        rights.privileged = true ∨ (rights.permit origin).mode.owner.write = true) :
    let again := writingAt after.state after.rights source destination place names
    again.kind (after.state.kindAt (down place names)) = after.state.kindAt (down place names) ∧
      again.permit (after.rights.permit (down place names)) =
        after.rights.permit (down place names) ∧
      again.succeeds = (writingAt made rights source destination place names).succeeds := by
  have hne : names ≠ [] := by
    rintro rfl
    exact hd h.roots.kindAt_root
  have hkind := st.painted names hfin
  rw [guardedImage, if_neg hd] at hkind
  have hpermit := hg.done names hfin
  have hdir := kindAt_eq_directory_iff st hd
  cases hf : made.regular? (source.descend names) with
  | none =>
    have hf' := (st.regular?_eq h hne hthere).trans hf
    simp [writingAt, hf, hf', Writing.kind, Writing.permit]
  | some found =>
    obtain ⟨origin, content⟩ := found
    have hf' := (st.regular?_eq h hne hthere).trans hf
    have horigin := hg.permit_of_not_suffix (h.not_suffix_of_regular? hne hthere hf)
    have hmayRead : after.rights.mayRead origin = rights.mayRead origin := by
      rw [Rights.mayRead, Rights.mayRead, Rights.access, Rights.access, horigin, hg.privileged]
    by_cases hall : rights.mayRead origin = true ∧
        refusal? (destination.join (.relative names)) = none ∧
          made.kindAt (down place names) ≠ some .directory
    · have hwriting : writingAt made rights source destination place names = rights.writing
          (down place names) (made.kindAt (down place names)).isNone content
            (rights.permit origin).mode := by
        simp only [writingAt, hf]
        exact if_pos hall
      have hagain : writingAt after.state after.rights source destination place names =
          after.rights.writing (down place names) (after.state.kindAt (down place names)).isNone
            content (rights.permit origin).mode := by
        simp only [writingAt, hf', horigin, hmayRead, Ne, hdir]
        exact if_pos hall
      rw [hagain, hkind]
      exact Rights.writing_again (hmode origin content hf hall.1) hg.privileged hwriting.symm
        hpermit
    · have hwriting : writingAt made rights source destination place names = .left := by
        simp only [writingAt, hf]
        exact if_neg hall
      have hagain : writingAt after.state after.rights source destination place names = .left := by
        simp only [writingAt, hf', hmayRead, Ne, hdir]
        exact if_neg hall
      rw [hagain, hwriting]
      exact ⟨rfl, rfl, rfl⟩

end GuardedStage

/-! ## Copies made again -/

/-- Two copies left the same files with the same permission bits, and returned errands that are the
same in every field, or the same error. -/
structure SameOutcome (first second : Guarded Workshop × Except Error (List ErrandId)) : Prop where
  files : second.1.state.files = first.1.state.files
  rights : second.1.rights = first.1.rights
  answer : second.2.map second.1.state.errandsAt = first.2.map first.1.state.errandsAt

/-- No bits hold for the process, or each file that it reads to copy it has bits that let the owner
write. -/
def Rewritable (shop : Guarded Workshop) (source : Path) : Prop :=
  shop.rights.privileged = true ∨
    ∀ item origin content, .ok item ∈ planFrom shop.state.files source →
      shop.state.files.regular? item.path = some (origin, content) →
        shop.rights.mayRead origin = true → (shop.rights.permit origin).mode.owner.write = true

theorem Rewritable.mode (h : Rewritable shop source)
    (hm : .ok item ∈ planFrom shop.state.files source) (origin : Location) (content : Bytes)
    (hf : shop.state.files.regular? item.path = some (origin, content))
    (hread : shop.rights.mayRead origin = true) :
    shop.rights.privileged = true ∨ (shop.rights.permit origin).mode.owner.write = true :=
  h.imp id fun hall => hall item origin content hm hf hread

theorem stops_congr {verdict verdict' : Find → Option Error} {finds : List Find}
    (h : ∀ find ∈ finds, verdict find = verdict' find) :
    finds.findSome? verdict = finds.findSome? verdict' ∧
      (finds.takeWhile fun find => (verdict find).isNone) =
        finds.takeWhile fun find => (verdict' find).isNone := by
  induction finds with
  | nil => exact ⟨rfl, rfl⟩
  | cons find rest ih =>
    obtain ⟨hsome, htake⟩ := ih fun find hm => h find (List.mem_cons_of_mem _ hm)
    rw [List.findSome?_cons, List.findSome?_cons, List.takeWhile_cons, List.takeWhile_cons,
      h find List.mem_cons_self, hsome, htake]
    exact ⟨rfl, rfl⟩

namespace Setting

/-- A tree whose destination was made is in a setting where nothing is missing. -/
theorem of_stage (h : Setting fs source destination root base missing)
    (hg : Ground made source destination root (down base missing))
    (st : Overlaid made (down base missing)
      (guardedImage made rights source destination root (down base missing)) fin after.state) :
    Setting after.state source destination root (down base missing) [] := by
  have hspares := hg.toSpares.mono st.extended st.orderly st.rest List.suffix_rfl h.not_below
  refine ⟨hspares.roots, ?_, h.above, h.isEmpty_destination,
    fun location target hs => GuardedStage.plain st hg hs target, h.not_below, hspares.not_above,
    fun name directory target hd hk tour result ht front hf _ => ?_⟩
  · obtain ⟨tour, hl⟩ := hg.leads
    obtain ⟨kind, -, hl'⟩ := st.extended.leads hg.roots.orderly.home_ne_none hl
    exact .found hl'
  · rw [List.prefix_nil.mp hf]
    exact hspares.links name directory target hd hk tour result ht

theorem rootItem_mem_done (hs : start fs source = .ok (rootItem source)) :
    .ok (rootItem source) ∈ (planFrom fs source).takeWhile fun find =>
      (verdict? source destination (hindrance? made destination (down base missing))
        find).isNone := by
  obtain ⟨rest, hplan⟩ := planFrom_eq_cons hs
  rw [hplan, List.takeWhile_cons_of_pos rfl]
  exact List.mem_cons_self

section

variable (h : Setting fs source destination root base missing)
variable (hs : start fs source = .ok (rootItem source))
variable (hm : fs.lay (destination.join (.relative [])) = (made, none))

include h hs hm

/-- The verdict on each find is the same when the tree is copied again. -/
theorem verdict?_again {done : List Find}
    (hdone : done = (planFrom fs source).takeWhile fun find =>
      (verdict? source destination (hindrance? made destination (down base missing)) find).isNone)
    (st : Overlaid made (down base missing)
      (guardedImage made rights source destination root (down base missing)) (Visited done)
      after.state)
    (hmem : find ∈ planFrom fs source) :
    verdict? source destination (hindrance? after.state destination (down base missing)) find =
      verdict? source destination (hindrance? made destination (down base missing)) find := by
  match find with
  | .error e => rfl
  | .ok item =>
    cases hd : item.isDirectory with
    | false => simp [verdict?, hd]
    | true =>
      have hagain : item.names ≠ [] →
          obstacle? after.state destination (down base missing) item.names =
            obstacle? made destination (down base missing) item.names := by
        intro hne
        apply GuardedStage.obstacle?_again st
        rintro ⟨other, hother, hnames⟩
        -- What is done was not in the way of the first copy.
        rw [hdone] at hother
        have hplanned := (List.takeWhile_prefix _).subset hother
        obtain rfl : other = item := List.inj_on_of_nodup_map
          (nodup_names h.roots.orderly (List.prefix_refl _)) (mem_itemsIn.mpr hplanned)
          (mem_itemsIn.mpr hmem) hnames
        have hnone := List.mem_takeWhile_imp hother
        constructor
        · rw [h.kindAt_made_of_mem hs hm hmem]
          simpa [Item.isDirectory] using hd
        · simpa [verdict?, hd, hindrance?, hne] using hnone
      simp only [verdict?, hd, if_true, hindrance?]
      split_ifs with hne
      · rfl
      · rw [hagain hne]

end

section

variable (h : Setting shop.state.files source destination root base missing)
variable (hs : start shop.state.files source = .ok (rootItem source))
variable (hm : shop.state.files.lay (destination.join (.relative [])) = (made, none))
variable (hw : Rewritable shop source)

include h hs hm hw

theorem writingAt_again {done : List Find}
    (hg : GuardedStage shop.state.files made shop.rights source destination root
      (down base missing) (Visited done) after)
    (st : Overlaid made (down base missing)
      (guardedImage made shop.rights source destination root (down base missing)) (Visited done)
      after.state)
    (hmem : .ok item ∈ planFrom shop.state.files source) (hdone : .ok item ∈ done)
    (hd : item.isDirectory = false) :
    let again :=
      writingAt after.state after.rights source destination (down base missing) item.names
    again.kind (after.state.kindAt (down (down base missing) item.names)) =
        after.state.kindAt (down (down base missing) item.names) ∧
      again.permit (after.rights.permit (down (down base missing) item.names)) =
        after.rights.permit (down (down base missing) item.names) ∧
      again.succeeds = (writingAt made shop.rights source destination (down base missing)
        item.names).succeeds := by
  have hkind := h.kindAt_made_of_mem hs hm hmem
  have hfile : item.kind ≠ .directory := by simpa [Item.isDirectory] using hd
  refine hg.writingAt_again st (h.ground_made hm) ⟨item, hdone, rfl⟩ (by simp [hkind])
    (by simpa [hkind] using hfile) fun origin content hf => hw.mode hmem origin content ?_
  have hne : item.names ≠ [] := by
    intro hnil
    rw [hnil, down_nil, (h.ground_made hm).roots.kindAt_root] at hkind
    exact hfile (Option.some.inj hkind).symm
  have hthere := kindAt_of_mem_planFrom h.roots hs hmem
  have hsame := h.spares.regular?_eq (extends_made hm) (fun _ => kindAt_of_laid (h.laid hm)) hne
    (by simp [hthere])
  rw [(stands_of_mem_planFrom h.roots hmem).1.path, ← hsame, hf]

theorem sameOutcome {first : Guarded Workshop × Except Error (List ErrandId)}
    (hfirst : copyGuarded shop source destination = first) :
    SameOutcome first (copyGuarded first.1 source destination) := by
  have hr := h.roots
  have hground := h.ground_made hm
  obtain ⟨hg, hanswer⟩ := h.copyGuarded_eq hs hm rfl
  rw [hfirst] at hg hanswer
  set done := (planFrom shop.state.files source).takeWhile fun find => (verdict? source destination
    (hindrance? made destination (down base missing)) find).isNone with hdone
  set after : Guarded FileSystem := ⟨first.1.state.files, first.1.rights⟩
  have hroot : Visited done [] := ⟨_, rootItem_mem_done hs, rfl⟩
  rcases hg.files with ⟨hno, -⟩ | ⟨-, st⟩
  · exact absurd hroot (hno [])
  -- The second copy has the same plan, and ends at the same find.
  have h' : Setting after.state source destination root (down base missing) [] :=
    h.of_stage hground st
  have hs' : start after.state source = .ok (rootItem source) :=
    start_of_extends hr.orderly ((extends_made hm).trans st.extended) hs
  have hempty : (destination.join (.relative [])).isEmpty = false :=
    (join_relative_eq h.isEmpty_destination (by simp)).2.2.1
  have hm' := GuardedStage.lay_again st hground ((h.laid hm).way missing List.prefix_rfl)
    (refusal?_of_lay hempty hm)
  have hsource (names : List Name) :
      after.state.kindAt (down root names) = made.kindAt (down root names) :=
    st.rest _ (hground.not_suffix_down names)
  have hplan : planFrom after.state source = planFrom shop.state.files source :=
    planFrom_eq_of_kindAt hr h'.roots
      (fun names => (hsource names).trans (h.kindAt_source (h.laid hm) names)) hs hs'
  obtain ⟨hstop, htake⟩ := stops_congr fun find hmem => h.verdict?_again hs hm hdone st hmem
  obtain ⟨hg', hanswer'⟩ := @copyGuarded_eq _ _ _ _ _ _ _ first.1 h' hs' hm' rfl
  rw [down_nil, hplan, htake, ← hdone] at hg'
  rw [down_nil, hplan, hstop] at hanswer'
  have hagain {item : Item} (hdone : .ok item ∈ done) (hd : item.isDirectory = false) :=
    h.writingAt_again hs hm hw hg st ((List.takeWhile_prefix _).subset hdone) hdone hd
  have hsame : GuardedStage after.state after.state after.rights source destination root
      (down base missing) (Visited done) after := by
    refine ⟨.inr ⟨hroot, .refl _, st.orderly, ?_, fun _ _ => rfl, fun _ _ => rfl⟩, rfl, ?_,
      fun _ _ => rfl⟩
    · rintro names ⟨item, hmem, rfl⟩
      have hkind := h.kindAt_made_of_mem hs hm ((List.takeWhile_prefix _).subset hmem)
      cases hd : item.isDirectory with
      | true =>
        have hdir : item.kind = .directory := by simpa [Item.isDirectory] using hd
        rw [st.painted _ ⟨item, hmem, rfl⟩, guardedImage, guardedImage, hsource, hkind, hdir,
          if_pos rfl, if_pos rfl]
      | false =>
        have hfile : item.kind ≠ .directory := by simpa [Item.isDirectory] using hd
        rw [guardedImage, hsource, hkind, if_neg fun he => hfile (Option.some.inj he)]
        exact (hagain hmem hd).1.symm
    · rintro names ⟨item, hmem, rfl⟩
      have hkind := h.kindAt_made_of_mem hs hm ((List.takeWhile_prefix _).subset hmem)
      cases hd : item.isDirectory with
      | true =>
        have hdir : item.kind = .directory := by simpa [Item.isDirectory] using hd
        rw [writingAt_of_directory h'.roots ((hsource _).trans (hdir ▸ hkind))]
        rfl
      | false => exact (hagain hmem hd).2.1.symm
  obtain ⟨hfiles, hrights⟩ := Guarded.mk.inj (hg'.unique hsame)
  refine ⟨hfiles, hrights, ?_⟩
  rw [hanswer, hanswer']
  cases hverdict : (planFrom shop.state.files source).findSome? (verdict? source destination
    (hindrance? made destination (down base missing))) with
  | some e => rfl
  | none =>
    have hnone := List.findSome?_eq_none_iff.mp hverdict
    have hall : done = planFrom shop.state.files source := List.takeWhile_eq_self_iff.mpr
      fun find hm => Option.isNone_iff_eq_none.mpr (hnone find hm)
    refine congrArg Except.ok (List.map_congr_left fun item hc => ?_)
    obtain ⟨hmem, hd⟩ := mem_carried.mp hc
    rw [(hagain (hall ▸ hmem) hd).2.2]

end

end Setting

/-! ## Single files -/

theorem SameOutcome.of_unchanged {e : Error}
    (h : copyGuarded shop source destination = (shop, .error e)) :
    SameOutcome (copyGuarded shop source destination)
      (copyGuarded (copyGuarded shop source destination).1 source destination) := by
  rw [h, h]
  exact ⟨rfl, rfl, rfl⟩

theorem sameOutcome_of_single (hh : shop.state.files.kindAt shop.state.files.home ≠ none)
    (hplan : planFrom shop.state.files source = [.ok item]) (hpath : item.path = source)
    (hnames : item.names = []) (hd : item.isDirectory = false) (hw : Rewritable shop source) :
    SameOutcome (copyGuarded shop source destination)
      (copyGuarded (copyGuarded shop source destination).1 source destination) := by
  have hcopy := copyGuarded_of_single hplan hpath hnames hd destination
  cases hr : refusalOf? source destination (fileItem source) with
  | some e =>
    rw [hr] at hcopy
    exact .of_unchanged hcopy
  | none =>
    rw [hr] at hcopy
    obtain ⟨hfiles, hrights, hanswer⟩ := hcopy
    generalize copyGuarded shop source destination = first at hfiles hrights hanswer ⊢
    have hagain := @Guarded.copy_again ⟨shop.state.files, shop.rights⟩ source destination hh
      fun origin content hf =>
        hw.mode (hplan ▸ List.mem_singleton_self _) origin content (hpath ▸ hf)
    -- The second copy comes across the same file, and copies it as the first one did.
    obtain ⟨item', hplan', hpath', hnames', hd'⟩ := @exists_single_of_copy _ _
      ⟨shop.state.files, shop.rights⟩ hh hplan hpath hnames hd destination
    rw [← hfiles] at hplan'
    have hcopy' := copyGuarded_of_single hplan' hpath' hnames' hd' destination
    have hleft : Guarded.mk first.1.state.files first.1.rights =
        (Guarded.copy ⟨shop.state.files, shop.rights⟩ source destination).1 := by
      rw [hfiles, hrights]
    rw [hr, hleft, hagain] at hcopy'
    obtain ⟨hfiles', hrights', hanswer'⟩ := hcopy'
    exact ⟨hfiles'.trans hfiles.symm, hrights'.trans hrights.symm, hanswer'.trans hanswer.symm⟩

theorem sameOutcome_of_not_roots (hfs : shop.state.files.Orderly)
    (hno : ∀ root, ¬ Roots shop.state.files source root) (hw : Rewritable shop source) :
    SameOutcome (copyGuarded shop source destination)
      (copyGuarded (copyGuarded shop source destination).1 source destination) := by
  have herror {e : IoError} (hplan : planFrom shop.state.files source = [.error e]) :=
    SameOutcome.of_unchanged (copyGuarded_of_find hplan destination)
  rcases planFrom_of_not_roots hfs hno with hplan | ⟨e, hplan⟩
  · cases hs : start shop.state.files source with
    | error e => exact herror (hs ▸ hplan)
    | ok item =>
      rw [hs] at hplan
      have hpre : [] ++ [.ok item] <+: planFrom shop.state.files source := by
        rw [hplan]
        exact List.prefix_rfl
      obtain ⟨-, hpath, hnames, hd⟩ := eq_start_of_not_roots hfs hno hpre
      exact sameOutcome_of_single hfs.home_ne_none hplan hpath hnames hd hw
  · exact herror hplan

theorem sameOutcome_of_fails (h : Separate shop.state.files source destination)
    (hs : start shop.state.files source = .ok (rootItem source)) {left : FileSystem}
    {error : IoError}
    (hl : shop.state.files.lay (target destination (rootItem source)) = (left, some error)) :
    SameOutcome (copyGuarded shop source destination)
      (copyGuarded (copyGuarded shop source destination).1 source destination) := by
  have hx := (grows_of_layUpTo hl).isExtension
  have hs' : start left source = .ok (rootItem source) := start_of_extends h.orderly hx hs
  have hl' : left.lay (target destination (rootItem source)) = (left, some error) :=
    lay_again h.orderly h.above_target hl
  rw [copyGuarded_of_fails hs hl,
    @copyGuarded_of_fails source destination ⟨{ shop.state with files := left }, shop.rights⟩ hs'
      left error hl']
  exact ⟨rfl, rfl, rfl⟩

theorem Separate.sameOutcome (h : Separate shop.state.files source destination)
    (hw : Rewritable shop source) :
    SameOutcome (copyGuarded shop source destination)
      (copyGuarded (copyGuarded shop source destination).1 source destination) := by
  rcases h.cases with ⟨root, base, missing, made, hsetting, hs, hm⟩ | ⟨hs, left, error, hl⟩ | hno
  · exact hsetting.sameOutcome hs hm hw rfl
  · exact sameOutcome_of_fails h hs hl
  · exact sameOutcome_of_not_roots h.orderly hno hw

/-- Without permission bits, a copy that is made again changes nothing at all. -/
theorem copy_again {shop : Workshop} (h : Separate shop.files source destination) :
    let first := copy shop source destination none
    let second := copy first.1 source destination none
    second.1.files = first.1.files ∧
      second.2.map second.1.errandsAt = first.2.map first.1.errandsAt := by
  let anything : Access := ⟨true, true⟩
  let guarded : Guarded Workshop :=
    ⟨shop, ⟨true, fun _ => ⟨⟨anything, anything, anything⟩, .owner⟩⟩⟩
  let once := copyGuarded guarded source destination
  let twice := copyGuarded once.1 source destination
  have honce : copy shop source destination none = (once.1.state, once.2) :=
    (@copyGuarded_of_privileged guarded rfl source destination).symm
  have htwice : copy once.1.state source destination none = (twice.1.state, twice.2) :=
    (copyGuarded_of_privileged (privileged_copyGuarded guarded _ _) source destination).symm
  obtain ⟨hfiles, -, hanswer⟩ := @Separate.sameOutcome source destination guarded h (.inl rfl)
  simp only [honce, htwice]
  exact ⟨hfiles, hanswer⟩

end Tree
end TreePool

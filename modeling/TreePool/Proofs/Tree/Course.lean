import TreePool.Errand.Report
import TreePool.Proofs.Tree.Stage
import Mathlib.Data.List.Nodup

/-! # The course of a copy

A copy goes along a plan. When it is known what each item comes to whatever else is done meanwhile,
`Course`, then the errands, the error that ends the copy and the file system are known as well, also
while files are still to be copied: `Underway`.
-/

namespace TreePool
namespace Tree

open FileSystem

variable {fs fs' fs'' : FileSystem} {source destination : Path} {item : Item}
variable {done : List Find} {fin : List Name → Prop}

/-! ## Courses -/

def Settled (fin : List Name → Prop) (done : List Find) : Prop :=
  ∀ item, .ok item ∈ done → item.isDirectory = true → fin item.names

/-- What the items of a plan come to. `describes` tells what the file system is once some of them
are done, `obstacle?` what keeps a directory from being made, and `succeeds` whether a file is
copied. -/
structure Course (fs : FileSystem) (source destination : Path)
    (describes : (List Name → Prop) → FileSystem → Prop) (obstacle? : Item → Option IoError)
    (succeeds : Item → Bool) : Prop where
  orderly : fs.Orderly
  start : describes (fun _ => False) fs
  unique {fin : List Name → Prop} {fs' fs'' : FileSystem} :
    describes fin fs' → describes fin fs'' → fs' = fs''
  read {done : List Find} {item : Item} {fin : List Name → Prop} {fs' : FileSystem} :
    done ++ [.ok item] <+: planFrom fs source → done ≠ [] →
    describes fin fs' → (below fs' item).map outline = (below fs item).map outline
  directory {done : List Find} {item : Item} {fin : List Name → Prop} {fs' : FileSystem} :
    done ++ [.ok item] <+: planFrom fs source →
    item.isDirectory = true → Settled fin done → ¬ fin item.names → describes fin fs' →
      match obstacle? item with
      | some e => fs'.lay (target destination item) = (fs', some e)
      | none => ∃ made, fs'.lay (target destination item) = (made, none) ∧
          describes (fun names => fin names ∨ names = item.names) made
  file {done : List Find} {item : Item} {fin : List Name → Prop} {fs' : FileSystem} :
    done ++ [.ok item] <+: planFrom fs source →
    item.isDirectory = false → Settled fin done → ¬ fin item.names → describes fin fs' →
      let copied? := fs'.copy item.path (target destination item)
      copied?.isSome = succeeds item ∧
        describes (fun names => fin names ∨ names = item.names) (copied?.getD fs')

/-! ## Errands -/

def errandOf (source destination : Path) (crew : Option PoolId) (item : Item) : Errand :=
  { directory := source, source := item.path, destination := target destination item
    level := item.depth, outcome := crew }

@[simp] theorem source_errandOf (source destination : Path) (crew : Option PoolId) (item : Item) :
    (errandOf source destination crew item).source = item.path := rfl

@[simp] theorem destination_errandOf (source destination : Path) (crew : Option PoolId)
    (item : Item) :
    (errandOf source destination crew item).destination = target destination item := rfl

def refusalOf? (source destination : Path) (item : Item) : Option Error :=
  match Progress.errandFor source destination none item with
  | .ok _ => none
  | .error e => some e

theorem errandFor_eq (source destination : Path) (crew : Option PoolId) (item : Item) :
    Progress.errandFor source destination crew item =
      match refusalOf? source destination item with
      | none => .ok (errandOf source destination crew item)
      | some e => .error e := by
  unfold refusalOf? Progress.errandFor level Errand.make Errand.checkLength
  split_ifs <;> rfl

def verdict? (source destination : Path) (obstacle? : Item → Option IoError) : Find → Option Error
  | .error e => some (.io e)
  | .ok item =>
    if item.isDirectory then (obstacle? item).map .io else refusalOf? source destination item

def itemsIn (done : List Find) : List Item := done.filterMap Except.toOption

theorem mem_itemsIn : item ∈ itemsIn done ↔ .ok item ∈ done := by
  rw [itemsIn, List.mem_filterMap]
  constructor
  · rintro ⟨_ | other, hm, he⟩ <;> cases he
    exact hm
  · exact fun hm => ⟨_, hm, rfl⟩

theorem pairwise_itemsIn (hfs : fs.Orderly) (h : done <+: planFrom fs source) :
    (itemsIn done).Pairwise (·.names < ·.names) := by
  refine List.pairwise_filterMap.mpr (((pairwise_planFrom hfs source).sublist h.sublist).imp ?_)
  rintro (e | first) (e' | second) hbefore item hi item' hi' <;> cases hi <;> cases hi'
  exact hbefore first second rfl rfl

theorem nodup_names (hfs : fs.Orderly) (h : done <+: planFrom fs source) :
    ((itemsIn done).map Item.names).Nodup := by
  refine List.pairwise_map.mpr ((pairwise_itemsIn hfs h).imp fun hlt he => ?_)
  exact List.lt_irrefl _ (he ▸ hlt)

/-- The items that errands are made for. -/
def carried (done : List Find) : List Item := (itemsIn done).filter (!·.isDirectory)

theorem mem_carried : item ∈ carried done ↔ .ok item ∈ done ∧ item.isDirectory = false := by
  rw [carried, List.mem_filter, mem_itemsIn, Bool.not_eq_true']

theorem carried_append (front back : List Find) :
    carried (front ++ back) = carried front ++ carried back := by
  simp [carried, itemsIn]

theorem carried_concat_directory (h : item.isDirectory = true) (done : List Find) :
    carried (done ++ [.ok item]) = carried done := by
  simp [carried, itemsIn, Except.toOption, h]

theorem carried_concat_file (h : item.isDirectory = false) (done : List Find) :
    carried (done ++ [.ok item]) = carried done ++ [item] := by
  simp [carried, itemsIn, Except.toOption, h]

theorem getElem?_carried_concat (h : item.isDirectory = false) {i : Nat} {other : Item} :
    (carried (done ++ [.ok item]))[i]? = some other ↔
      (carried done)[i]? = some other ∧ i < (carried done).length ∨
        i = (carried done).length ∧ other = item := by
  rw [carried_concat_file h]
  grind

theorem nodup_carried (h : ((itemsIn done).map Item.names).Nodup) : (carried done).Nodup :=
  (List.Nodup.of_map _ h).filter _

/-! ## Copies under way -/

/-- The names of the items that are done, when some errands are still to be carried out. -/
def Finished (count : Nat) (pending : List ErrandId) (done : List Find) (names : List Name) :
    Prop :=
  ∃ item, .ok item ∈ done ∧ item.names = names ∧
    ∀ i, (carried done)[i]? = some item → count + i ∉ pending

theorem finished_nil_iff {count : Nat} {names : List Name} :
    Finished count [] done names ↔ ∃ item, .ok item ∈ done ∧ item.names = names := by
  simp [Finished]

theorem settled_finished {count : Nat} {pending : List ErrandId} {front : List Find}
    (h : front ⊆ done) : Settled (Finished count pending done) front := by
  intro item hm hd
  refine ⟨item, h hm, rfl, fun i hi => ?_⟩
  have := (mem_carried.mp (List.mem_of_getElem? hi)).2
  simp [hd] at this

section

variable {count : Nat} {pending : List ErrandId}

theorem finished_concat_directory (hd : item.isDirectory = true) :
    Finished count pending (done ++ [.ok item]) =
      fun names => Finished count pending done names ∨ names = item.names := by
  have hcarried := carried_concat_directory hd done
  funext names
  refine propext ⟨?_, ?_⟩
  · rintro ⟨other, hm, rfl, hfin⟩
    rw [hcarried] at hfin
    rcases List.mem_append.mp hm with hm | hm
    · exact .inl ⟨other, hm, rfl, hfin⟩
    · cases List.mem_singleton.mp hm
      exact .inr rfl
  · rintro (⟨other, hm, rfl, hfin⟩ | rfl)
    · exact ⟨other, List.mem_append_left _ hm, rfl, by rwa [hcarried]⟩
    · exact settled_finished (List.Subset.refl _) item (by simp) hd

theorem finished_concat_file (hd : item.isDirectory = false) (hnew : .ok item ∉ done) :
    Finished count (pending ++ [count + (carried done).length]) (done ++ [.ok item]) =
      Finished count pending done := by
  have hold {i : Nat} (hi : i < (carried done).length) :
      count + i ∈ pending ++ [count + (carried done).length] ↔ count + i ∈ pending := by
    rw [List.mem_append, List.mem_singleton]
    exact or_iff_left (by omega)
  funext names
  refine propext ⟨?_, ?_⟩
  · rintro ⟨other, hm, rfl, hfin⟩
    rcases List.mem_append.mp hm with hm | hm
    · refine ⟨other, hm, rfl, fun i hi => ?_⟩
      have hlt := (List.getElem?_eq_some_iff.mp hi).1
      rw [← hold hlt]
      exact hfin i ((getElem?_carried_concat hd).mpr (.inl ⟨hi, hlt⟩))
    · cases List.mem_singleton.mp hm
      have hlast := hfin _ ((getElem?_carried_concat hd).mpr (.inr ⟨rfl, rfl⟩))
      exact absurd (by simp) hlast
  · rintro ⟨other, hm, rfl, hfin⟩
    refine ⟨other, List.mem_append_left _ hm, rfl, fun i hi => ?_⟩
    rcases (getElem?_carried_concat hd).mp hi with ⟨hi, hlt⟩ | ⟨-, rfl⟩
    · rw [hold hlt]
      exact hfin i hi
    · exact absurd hm hnew

variable (hnames : ((itemsIn done).map Item.names).Nodup)

include hnames

theorem not_finished_of_pending {i : Nat} (hi : (carried done)[i]? = some item)
    (hm : count + i ∈ pending) : ¬ Finished count pending done item.names := by
  rintro ⟨other, ho, he, hfin⟩
  have hitem := (mem_carried.mp (List.mem_of_getElem? hi)).1
  obtain rfl : other = item :=
    List.inj_on_of_nodup_map hnames (mem_itemsIn.mpr ho) (mem_itemsIn.mpr hitem) he
  exact hfin i hi hm

theorem finished_erase (hpending : pending.Nodup) {i : Nat}
    (hi : (carried done)[i]? = some item) :
    Finished count (pending.erase (count + i)) done =
      fun names => Finished count pending done names ∨ names = item.names := by
  obtain ⟨hlt, hget⟩ := List.getElem?_eq_some_iff.mp hi
  funext names
  refine propext ⟨?_, ?_⟩
  · rintro ⟨other, ho, rfl, hfin⟩
    by_cases he : other.names = item.names
    · exact .inr he
    · refine .inl ⟨other, ho, rfl, fun j hj hm => hfin j hj ?_⟩
      refine (List.mem_erase_of_ne fun hid => ?_).mpr hm
      obtain rfl : j = i := Nat.add_left_cancel hid
      exact he (congrArg Item.names (Option.some.inj (hj.symm.trans hi)))
  · rintro (⟨other, ho, rfl, hfin⟩ | rfl)
    · exact ⟨other, ho, rfl, fun j hj hm => hfin j hj (List.mem_of_mem_erase hm)⟩
    · refine ⟨item, (mem_carried.mp (List.mem_of_getElem? hi)).1, rfl, fun j hj => ?_⟩
      obtain ⟨hlt', hget'⟩ := List.getElem?_eq_some_iff.mp hj
      obtain rfl : j = i :=
        (List.Nodup.getElem_inj_iff (nodup_carried hnames)).mp (hget'.trans hget.symm)
      exact hpending.not_mem_erase

end

/-- A copy that went along a plan so far, with errands that are still to be carried out. -/
structure Underway (describes : (List Name → Prop) → FileSystem → Prop) (succeeds : Item → Bool)
    (source destination : Path) (crew : Option PoolId) (old : List Errand)
    (pending : List ErrandId) (done : List Find) (progress : Progress) : Prop where
  files : describes (Finished old.length pending done) progress.shop.files
  length : progress.shop.errands.length = old.length + (carried done).length
  old_eq : ∀ id < old.length, progress.shop.errands[id]? = old[id]?
  new : ∀ i item, (carried done)[i]? = some item →
    progress.shop.errands[old.length + i]? =
      some (if old.length + i ∈ pending then errandOf source destination crew item
        else (errandOf source destination crew item).attempted (succeeds item))
  ids : progress.errands = List.range' old.length (carried done).length
  nodup : pending.Nodup
  exists_item : ∀ id ∈ pending, ∃ i item, id = old.length + i ∧ (carried done)[i]? = some item

namespace Underway

variable {describes : (List Name → Prop) → FileSystem → Prop} {obstacle? : Item → Option IoError}
variable {succeeds : Item → Bool} {crew : Option PoolId} {old : List Errand}
variable {pending : List ErrandId} {progress next : Progress}
variable (h : Course fs source destination describes obstacle? succeeds)
variable (hu : Underway describes succeeds source destination crew old pending done progress)

section

variable (hfs : fs.Orderly) (hpre : done ++ [.ok item] <+: planFrom fs source)

include hfs hpre

theorem names_ne {other : Item} (hm : .ok other ∈ done) : other.names ≠ item.names := by
  intro he
  have hpair := (pairwise_planFrom hfs source).sublist hpre.sublist
  have hlt :=
    (List.pairwise_append.mp hpair).2.2 _ hm _ (List.mem_singleton_self _) other item rfl rfl
  rw [he] at hlt
  exact List.lt_irrefl _ hlt

theorem not_finished {count : Nat} : ¬ Finished count pending done item.names := by
  rintro ⟨other, hm, he, -⟩
  exact names_ne hfs hpre hm he

end

include h hu

theorem directory (hpre : done ++ [.ok item] <+: planFrom fs source)
    (hd : item.isDirectory = true) :
    match obstacle? item with
    | some e => progress.makeDirectories (target destination item) = (progress, some (.io e))
    | none => ∃ next, progress.makeDirectories (target destination item) = (next, none) ∧
        next.shop.pools = progress.shop.pools ∧
        Underway describes succeeds source destination crew old pending (done ++ [.ok item])
          next := by
  have hstep := h.directory hpre hd (settled_finished (List.Subset.refl _))
    (not_finished h.orderly hpre) hu.files
  unfold Progress.makeDirectories
  split at hstep
  · next e he => rw [hstep]; rfl
  · next he =>
    obtain ⟨made, hmade, hdescribes⟩ := hstep
    rw [hmade]
    have hcarried := carried_concat_directory hd done
    refine ⟨_, rfl, rfl, ⟨?_, by rw [hcarried]; exact hu.length, hu.old_eq,
      by rw [hcarried]; exact hu.new, by rw [hcarried]; exact hu.ids, hu.nodup,
      by rw [hcarried]; exact hu.exists_item⟩⟩
    rw [finished_concat_directory hd]
    exact hdescribes

omit h

theorem lt_of_mem {id : ErrandId} (hm : id ∈ pending) :
    id < old.length + (carried done).length := by
  obtain ⟨i, item, rfl, hi⟩ := hu.exists_item id hm
  exact Nat.add_lt_add_left (List.getElem?_eq_some_iff.mp hi).1 _

theorem congr (hfiles : next.shop.files = progress.shop.files)
    (herrands : next.shop.errands = progress.shop.errands)
    (hids : next.errands = progress.errands) :
    Underway describes succeeds source destination crew old pending done next := by
  refine ⟨?_, ?_, ?_, ?_, hids.trans hu.ids, hu.nodup, hu.exists_item⟩
  · rw [hfiles]
    exact hu.files
  all_goals rw [herrands]
  · exact hu.length
  · exact hu.old_eq
  · exact hu.new

include h

theorem file (hpre : done ++ [.ok item] <+: planFrom fs source) (hd : item.isDirectory = false)
    (hfiles : next.shop.files = progress.shop.files)
    (herrands : next.shop.errands =
      progress.shop.errands ++ [errandOf source destination crew item])
    (hids : next.errands = progress.errands ++ [progress.shop.errands.length]) :
    Underway describes succeeds source destination crew old
      (pending ++ [progress.shop.errands.length]) (done ++ [.ok item]) next := by
  have hcarried := carried_concat_file hd done
  have hlength := hu.length
  have hnew : .ok item ∉ done := fun hm => names_ne h.orderly hpre hm rfl
  constructor
  · rw [hfiles, hlength, finished_concat_file hd hnew]
    exact hu.files
  · rw [herrands, hcarried, List.length_append, List.length_append, hlength, Nat.add_assoc]
    rfl
  · intro id hid
    rw [herrands, List.getElem?_append_left (by omega)]
    exact hu.old_eq id hid
  · intro i other hi
    rcases (getElem?_carried_concat hd).mp hi with ⟨hi, hlt⟩ | ⟨rfl, rfl⟩
    · have hne : old.length + i ≠ progress.shop.errands.length := by omega
      rw [herrands, List.getElem?_append_left (by omega), hu.new i other hi]
      simp only [List.mem_append, List.mem_singleton, hne, or_false]
    · rw [herrands, ← hlength, List.getElem?_concat_length, if_pos (by simp)]
  · rw [hids, hu.ids, hcarried, hlength, List.length_append, List.length_singleton,
      List.range'_concat]
    simp
  · refine List.nodup_append.mpr ⟨hu.nodup, by simp, fun id hm id' hm' => ?_⟩
    rw [List.mem_singleton.mp hm']
    exact Nat.ne_of_lt (hlength ▸ hu.lt_of_mem hm)
  · intro id hm
    rcases List.mem_append.mp hm with hm | hm
    · obtain ⟨i, other, he, hi⟩ := hu.exists_item id hm
      exact ⟨i, other, he, (getElem?_carried_concat hd).mpr
        (.inl ⟨hi, (List.getElem?_eq_some_iff.mp hi).1⟩)⟩
    · exact ⟨_, item, (List.mem_singleton.mp hm).trans hlength,
        (getElem?_carried_concat hd).mpr (.inr ⟨rfl, rfl⟩)⟩

/-- An errand is carried out, whichever it is. -/
theorem copy (hdone : done <+: planFrom fs source) {id : ErrandId} (hm : id ∈ pending)
    (hfiles : next.shop.files = (progress.shop.copy id).files)
    (herrands : next.shop.errands = (progress.shop.copy id).errands)
    (hids : next.errands = progress.errands) :
    Underway describes succeeds source destination crew old (pending.erase id) done next := by
  obtain ⟨i, item, rfl, hi⟩ := hu.exists_item id hm
  obtain ⟨hitem, hd⟩ := mem_carried.mp (List.mem_of_getElem? hi)
  have hnames := nodup_names h.orderly hdone
  have hnot := not_finished_of_pending hnames hi hm
  obtain ⟨front, back, hsplit⟩ := List.append_of_mem hitem
  have hpre : front ++ [.ok item] <+: planFrom fs source :=
    List.IsPrefix.trans ⟨back, by simp [hsplit]⟩ hdone
  have hsettled : Settled (Finished old.length pending done) front :=
    settled_finished (by simp [hsplit])
  obtain ⟨hsuccess, hdescribes⟩ := h.file hpre hd hsettled hnot hu.files
  have hnew := hu.new i item hi
  rw [if_pos hm] at hnew
  obtain ⟨hcopy, hrecord⟩ := Workshop.copy_eq progress.shop hnew
  simp only [source_errandOf, destination_errandOf] at hcopy hrecord
  rw [← hfiles] at hcopy
  rw [← herrands, hsuccess] at hrecord
  constructor
  · rw [hcopy, finished_erase hnames hu.nodup hi]
    exact hdescribes
  · rw [hrecord, List.length_set, hu.length]
  · intro other ho
    rw [hrecord, List.getElem?_set_ne (by omega)]
    exact hu.old_eq other ho
  · intro j other hj
    have hnext := hu.new j other hj
    rw [hrecord]
    by_cases hji : j = i
    · subst hji
      cases Option.some.inj (hj.symm.trans hi)
      rw [List.getElem?_set_self (List.getElem?_eq_some_iff.mp hnew).1,
        if_neg hu.nodup.not_mem_erase]
    · have hne : old.length + j ≠ old.length + i := fun he => hji (Nat.add_left_cancel he)
      rw [List.getElem?_set_ne hne.symm, hnext]
      simp only [List.mem_erase_of_ne hne]
  · rw [hids, hu.ids]
  · exact hu.nodup.erase _
  · exact fun other ho => hu.exists_item other (List.mem_of_mem_erase ho)

end Underway

/-! ## Whole copies -/

section

variable {describes : (List Name → Prop) → FileSystem → Prop} {obstacle? : Item → Option IoError}
variable {succeeds : Item → Bool}

/-- Once all is carried out, the new errands are those for the items, each of them attempted once.
-/
theorem Underway.errands_eq {crew : Option PoolId} {old : List Errand} {progress : Progress}
    (hu : Underway describes succeeds source destination crew old [] done progress) :
    progress.shop.errands = old ++ (carried done).map fun item =>
      (errandOf source destination crew item).attempted (succeeds item) := by
  refine List.ext_getElem? fun id => ?_
  by_cases hid : id < old.length
  · rw [hu.old_eq id hid, List.getElem?_append_left hid]
  obtain ⟨i, rfl⟩ := Nat.exists_eq_add_of_le (Nat.not_lt.mp hid)
  rw [List.getElem?_append_right (Nat.le_add_right _ _), Nat.add_sub_cancel_left,
    List.getElem?_map]
  cases hi : (carried done)[i]? with
  | none =>
    have hle := List.getElem?_eq_none_iff.mp hi
    exact List.getElem?_eq_none (by rw [hu.length]; omega)
  | some item =>
    rw [hu.new i item hi, if_neg List.not_mem_nil]
    rfl

/-- Once all is carried out, it does not show in the reports by whom that was done. -/
theorem Underway.map_report_eq {crew crew' : Option PoolId} {old : List Errand}
    {progress progress' : Progress}
    (hu : Underway describes succeeds source destination crew old [] done progress)
    (hu' : Underway describes succeeds source destination crew' old [] done progress') :
    progress.shop.errands.map Errand.report = progress'.shop.errands.map Errand.report := by
  rw [hu.errands_eq, hu'.errands_eq, List.map_append, List.map_append, List.map_map, List.map_map]
  refine congrArg _ (List.map_congr_left fun item _ => ?_)
  simp [Errand.report, Errand.attempted_eq, errandOf]

theorem underway_nil (h : Course fs source destination describes obstacle? succeeds)
    {shop : Workshop} (hshop : shop.files = fs) (crew : Option PoolId) :
    Underway describes succeeds source destination crew shop.errands [] [] (.mk shop []) := by
  refine ⟨?_, rfl, fun _ _ => rfl, fun i item hi => by simp [carried, itemsIn] at hi, rfl, .nil,
    fun id hm => by cases hm⟩
  rw [hshop]
  convert h.start using 1
  funext names
  simp [Finished]

/-- A walk that keeps to the course of a copy, find by find, keeps to it as a whole. -/
theorem Course.walk_of_step (h : Course fs source destination describes obstacle? succeeds)
    {σ : Type} {files : σ → FileSystem} {handle : Item → σ → σ × Option Error}
    {I : List Find → σ → Prop} {verdict : Find → Option Error} (hc : Coarse handle)
    (hfiles : ∀ done state, I done state → ∃ fin, describes fin (files state))
    (hstep : ∀ done find state, done ++ [find] <+: planFrom fs source → I done state →
      (attend handle Error.io find state).2 = verdict find ∧
        I (if (verdict find).isNone then done ++ [find] else done)
          (attend handle Error.io find state).1)
    {state : σ} (hstart : files state = fs) (hI : I [] state) :
    (walk files handle Error.io source state).2 = (planFrom fs source).findSome? verdict ∧
      I ((planFrom fs source).takeWhile fun find => (verdict find).isNone)
        (walk files handle Error.io source state).1 := by
  refine Tree.walk_of_step hc (fun done item state hpre hd hI => ?_) hstep hstart hI
  obtain ⟨fin, hdescribes⟩ := hfiles done state hI
  exact h.read hpre hd hdescribes

theorem copy_eq_walk (shop : Workshop) (source destination : Path) (crew : Option PoolId) :
    let result := walk (fun progress => progress.shop.files)
      (Progress.handle source destination crew) Error.io source (Progress.mk shop [])
    copy shop source destination crew =
      (result.1.shop, result.2.elim (.ok result.1.errands) .error) := by
  intro result
  rcases hwalk : result with ⟨progress, failure⟩
  simp only [copy, show walk _ _ _ _ _ = _ from hwalk]
  cases failure <;> rfl

theorem handle_directory {crew : Option PoolId} (hd : item.isDirectory = true)
    (progress : Progress) : progress.handle source destination crew item =
      progress.makeDirectories (target destination item) := by
  simp [Progress.handle, hd]

theorem handle_file {crew : Option PoolId} (hd : item.isDirectory = false) (progress : Progress) :
    progress.handle source destination crew item =
      match refusalOf? source destination item with
      | none => progress.carry crew (errandOf source destination crew item)
      | some e => (progress, some e) := by
  unfold Progress.handle
  rw [if_neg (by simp [hd]), errandFor_eq]
  cases refusalOf? source destination item <;> rfl

theorem Course.inline (h : Course fs source destination describes obstacle? succeeds)
    {shop : Workshop} (hshop : shop.files = fs) :
    let verdict? := verdict? source destination obstacle?
    let result := walk (fun progress => progress.shop.files)
      (Progress.handle source destination none) Error.io source (Progress.mk shop [])
    result.2 = (planFrom fs source).findSome? verdict? ∧
      Underway describes succeeds source destination none shop.errands []
        ((planFrom fs source).takeWhile fun find => (verdict? find).isNone) result.1 := by
  refine h.walk_of_step (coarse_handle source destination none)
    (fun done progress hu => ⟨_, hu.files⟩) (fun done find progress hpre hu => ?_) hshop
    (underway_nil h hshop none)
  cases find with
  | error e => exact ⟨rfl, hu⟩
  | ok item =>
    rw [attend, verdict?]
    cases hd : item.isDirectory with
    | true =>
      rw [handle_directory hd]
      have hstep := hu.directory h hpre hd
      cases ho : obstacle? item with
      | some e =>
        rw [ho] at hstep
        rw [hstep]
        exact ⟨rfl, hu⟩
      | none =>
        rw [ho] at hstep
        obtain ⟨next, hnext, -, hu'⟩ := hstep
        rw [hnext]
        exact ⟨rfl, hu'⟩
    | false =>
      rw [handle_file hd]
      cases hr : refusalOf? source destination item with
      | some e => exact ⟨rfl, hu⟩
      | none =>
        refine ⟨rfl, ?_⟩
        -- The errand is made, and then carried out at once.
        let id := progress.shop.errands.length
        let made : Progress :=
          ⟨progress.shop.addErrand (errandOf source destination none item),
            progress.errands ++ [id]⟩
        have hmade : Underway describes succeeds source destination none shop.errands ([] ++ [id])
            (done ++ [.ok item]) made := hu.file h hpre hd rfl rfl rfl
        have hcopied : Underway describes succeeds source destination none shop.errands
            (([] ++ [id]).erase id) (done ++ [.ok item]) ⟨made.shop.copy id, made.errands⟩ :=
          hmade.copy h hpre List.mem_cons_self rfl rfl rfl
        rw [List.nil_append, List.erase_cons_head] at hcopied
        exact hcopied

end

end Tree
end TreePool

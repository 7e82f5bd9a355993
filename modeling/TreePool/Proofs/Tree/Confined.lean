import TreePool.Proofs.Tree.Growth
import Mathlib.Data.List.Perm.Subperm

/-! # Copies that do not feed on themselves

A copy handles only what was at or below its source when it began, each thing once, if all that it
makes at or below the source is there already, or lies below a name that the source does not have
yet. Where a directory of the source is the destination, the copy is copied too.
-/

namespace TreePool
namespace Tree

open FileSystem

variable {σ ε : Type} {files : σ → FileSystem} {handle : Item → σ → σ × Option ε}
variable {report : IoError → ε} {fs fs' : FileSystem} {source destination : Path}
variable {root base : Location} {missing names : List Name} {item : Item}

/-! ## Records of what is handled -/

def recorded (handle : Item → σ → σ × Option ε) (item : Item) (state : σ × List Item) :
    (σ × List Item) × Option ε :=
  let (next, failure) := handle item state.1
  ((next, state.2 ++ [item.outline]), failure)

def itemsOf (finds : List Find) : List Item := (outline finds).filterMap Except.toOption

theorem mem_itemsOf {finds : List Find} {outlined : Item} (h : outlined ∈ itemsOf finds) :
    ∃ item, .ok item ∈ finds ∧ item.outline = outlined := by
  obtain ⟨find, hm, hf⟩ := List.mem_filterMap.mp h
  cases find with
  | error => cases hf
  | ok item =>
    obtain ⟨find, hm, he⟩ := List.mem_map.mp hm
    cases find with
    | error => cases he
    | ok item' => exact ⟨item', hm, (Except.ok.inj he).trans (Option.some.inj hf)⟩

theorem Item.outline_outline (item : Item) : item.outline.outline = item.outline := by
  obtain ⟨path, names, kind⟩ := item
  cases kind <;> rfl

theorem coarse_recorded (h : Coarse handle) : Coarse (recorded handle) := by
  intro item state
  rw [recorded, recorded, h, Item.outline_outline]

theorem record_visitEach (finds : List Find) (state : σ × List Item) :
    (visitEach (attend (recorded handle) report) finds state).1.2 <+: state.2 ++ itemsOf finds := by
  induction finds generalizing state with
  | nil => simp [visitEach, itemsOf, outline]
  | cons find rest ih =>
    cases find with
    | error e => exact List.prefix_append _ _
    | ok item =>
      have hitems : state.2 ++ itemsOf (.ok item :: rest) =
          (state.2 ++ [item.outline]) ++ itemsOf rest := by
        simp [itemsOf, outline, Except.map, Except.toOption]
      rw [hitems, visitEach, attend, recorded]
      rcases handle item state.1 with ⟨next, _ | e⟩
      · exact ih (next, state.2 ++ [item.outline])
      · exact List.prefix_append _ _

/-! ## What is there when a copy begins -/

/-- All that is at or below a path, each with the names that lead there. -/
def stock (fs : FileSystem) (source : Path) : List (List Name × Kind) :=
  match start fs source with
  | .error _ => []
  | .ok item =>
    ([], item.kind) :: match fs.find source true with
      | .ok (_, node) => contents node
      | .error _ => []

theorem mem_stock_of_mem_planFrom (hfs : fs.Orderly) (hm : .ok item ∈ planFrom fs source) :
    (item.names, item.kind) ∈ stock fs source := by
  by_cases h : ∃ root, Roots fs source root
  · obtain ⟨root, hr⟩ := h
    unfold stock
    obtain ⟨hstands, hs | ⟨parent, name, -, hnames, -⟩⟩ := stands_of_mem_planFrom hr hm
    · rw [hs, (stands_of_start hr hs).1]
      exact List.mem_cons_self
    · have hne : item.names ≠ [] := by simp [hnames]
      obtain ⟨entries, hroot⟩ := exists_entries hr.kindAt_root
      have hfind : fs.find source true = .ok (root, .directory entries) :=
        hr.find_descend (show fs.node? (down root []) = _ from hroot) hr.refusal
      cases hs : start fs source with
      | error e => simp [planFrom, hs, plan] at hm
      | ok first =>
        rw [hfind]
        exact List.mem_cons_of_mem _ (mem_contents hroot hne (hstands.kindAt hne))
  · rcases planFrom_of_not_roots hfs (not_exists.mp h) with he | ⟨e, he⟩
    · rw [he] at hm
      have hs := List.mem_singleton.mp hm
      have hnil : item.names = [] := by
        unfold start at hs
        split at hs
        · cases hs
          rfl
        · cases hs
      unfold stock
      rw [← hs, hnil]
      exact List.mem_cons_self
    · simp [he] at hm

/-! ## Copies that stay apart -/

/-- Whatever a copy would make at or below the root of its source is there already, or the root is
where the names of the destination are missing. -/
def Apart (fs : FileSystem) (root base : Location) (missing : List Name) : Prop :=
  (base = root ∧ missing ≠ []) ∨
    ∀ names, fs.kindAt (down root names) ≠ none → root <:+ down base (missing ++ names) →
      fs.kindAt (down base (missing ++ names)) ≠ none

def OnTheWay (fs : FileSystem) (root base : Location) (missing : List Name)
    (location : Location) : Prop :=
  ∃ names front, fs.kindAt (down root names) ≠ none ∧ front <+: missing ++ names ∧
    location = down base front

/-- Nothing new comes to be right below something of the source. -/
theorem kindAt_eq_none_of_apart (hapart : Apart fs root base missing)
    (hto : Denotes fs destination base missing) (hg : Grown fs (OnTheWay fs root base missing) fs')
    (hne : names ≠ []) (hk : fs.kindAt (down root names) ≠ none) {name : Name}
    (hnone : fs.kindAt (name :: down root names) = none) :
    fs'.kindAt (name :: down root names) = none := by
  by_contra hsome
  obtain ⟨others, front, hothers, hfront, hplace⟩ := hg.new _ hnone hsome
  rcases hapart with ⟨rfl, hmissing⟩ | hthere
  · -- Then the item itself would be below the missing name.
    obtain ⟨first, missing, rfl⟩ := List.exists_cons_of_ne_nil hmissing
    obtain ⟨head, names, rfl⟩ := List.exists_cons_of_ne_nil hne
    rw [← down_concat, down_inj] at hplace
    obtain rfl : head = first := by
      rw [← hplace] at hfront
      exact (List.cons_prefix_cons.mp hfront).1
    rw [down_cons] at hk
    exact kindAt_ne_none_of_suffix hk (suffix_down _ _) hto.free
  · have hroot : root <:+ down base front :=
      hplace ▸ (suffix_down root names).trans (List.suffix_cons _ _)
    rcases List.prefix_or_prefix_of_prefix hfront (List.prefix_append missing others) with
      hpre | ⟨rest, rfl⟩
    · have hbase := hthere [] (kindAt_ne_none_of_suffix hk (suffix_down root names)) (by
        rw [List.append_nil]
        exact hroot.trans (suffix_down_down hpre))
      rw [List.append_nil] at hbase
      exact kindAt_ne_none_of_suffix hbase (suffix_down_down hpre) (hplace ▸ hnone)
    · have hrest := (List.prefix_append_right_inj missing).mp hfront
      exact hthere rest (kindAt_ne_none_of_suffix hothers (suffix_down_down hrest)) hroot
        (hplace ▸ hnone)

/-- What stands on the way of a target at first is no link, if none stands at or below the
destination. -/
theorem kindAt_ne_link (hto : Denotes fs destination base missing)
    (hlinks : ∀ location target, down base missing <:+ location →
      fs.kindAt location ≠ some (.link target)) {front : List Name} (target : Path)
    (hf : front <+: missing ++ names) (hne : front ≠ []) :
    fs.kindAt (down base front) ≠ some (.link target) := by
  rcases List.prefix_or_prefix_of_prefix hf (List.prefix_append missing names) with hpre | hpre
  · have hmissing : missing ≠ [] := by
      rintro rfl
      exact hne (List.prefix_nil.mp hpre)
    simp [hto.kindAt_down hmissing hpre hne]
  · exact hlinks _ _ (suffix_down_down hpre)

def recordedCopy (shop : Workshop) (source destination : Path) :
    (Progress × List Item) × Option Error :=
  walk (fun state => state.1.shop.files) (recorded (Progress.handle source destination none))
    Error.io source (Progress.mk shop [], [])

def handled (shop : Workshop) (source destination : Path) : List Item :=
  (recordedCopy shop source destination).1.2

theorem walk_eq_recordedCopy (shop : Workshop) (source destination : Path) :
    walk (fun progress => progress.shop.files) (Progress.handle source destination none) Error.io
      source (Progress.mk shop []) =
        (recordedCopy shop source destination).map Prod.fst id := by
  have h (item : Item) (state : Progress × List Item) :
      Progress.handle source destination none item state.1 =
        (recorded (Progress.handle source destination none) item state).map Prod.fst id := rfl
  exact walk_map h source (Progress.mk shop [], [])

theorem copy_eq_recordedCopy (shop : Workshop) (source destination : Path) :
    copy shop source destination none =
      let ((progress, _), failure) := recordedCopy shop source destination
      (progress.shop, match failure with | none => .ok progress.errands | some e => .error e) := by
  rw [copy, walk_eq_recordedCopy]
  rcases recordedCopy shop source destination with ⟨⟨progress, items⟩, _ | e⟩ <;> rfl

theorem length_errands_le (shop : Workshop) (source destination : Path) :
    (recordedCopy shop source destination).1.1.errands.length ≤
      ((handled shop source destination).filter (!·.isDirectory)).length := by
  refine walk_keeps (I := fun state : Progress × List Item =>
    state.1.errands.length ≤ (state.2.filter (!·.isDirectory)).length) (fun item state h => ?_)
    source (Nat.le_refl 0)
  have houtline : item.outline.isDirectory = item.isDirectory := by
    simp [Item.isDirectory, Item.outline, outlineKind_eq_directory_iff]
  simp only [recorded, List.filter_append, List.length_append]
  unfold Progress.handle
  split
  · exact Nat.le_add_right_of_le h
  · next hd =>
    split
    · next errand _ =>
      rw [(carry_inline state.1 errand).2.1, List.length_append]
      have hone : [item.outline].filter (!·.isDirectory) = [item.outline] := by
        simp [houtline, hd]
      simpa [hone] using h
    · exact Nat.le_add_right_of_le h

theorem grown_of_handle (hr : Roots fs source root) (hto : Denotes fs destination base missing)
    (habove : Path.above ∉ destination.steps)
    (hlinks : ∀ location target, down base missing <:+ location →
      fs.kindAt location ≠ some (.link target))
    (hitem : Stands fs source root item) {progress : Progress}
    (hg : Grown fs (OnTheWay fs root base missing) progress.shop.files) :
    Grown fs (OnTheWay fs root base missing)
      (progress.handle source destination none item).1.shop.files := by
  have hthere : fs.kindAt (down root item.names) ≠ none := by
    by_cases hne : item.names = []
    · simp [hne, hr.kindAt_root]
    · simp [hitem.kindAt hne]
  have hnames := hr.orderly.isEntryName hthere
  have hway : ∀ front, front <+: missing ++ item.names →
      OnTheWay fs root base missing (down base front) :=
    fun front hf => ⟨item.names, front, hthere, hf, rfl⟩
  have hlink := fun front target (hf : front <+: missing ++ item.names) hne =>
    kindAt_ne_link hto hlinks target hf hne
  unfold Progress.handle
  split
  · exact hg.lay hr.orderly habove hnames hlink hto hway
  · split
    · next errand he =>
      obtain ⟨-, hmake⟩ := errandFor_eq_ok_iff.mp he
      obtain ⟨-, -, -, rfl⟩ := Errand.make_eq_ok_iff.mp hmake
      rw [(carry_inline progress _).2.2.1]
      cases hc : progress.shop.files.copy item.path (target destination item) with
      | none => exact hg
      | some copied =>
        obtain ⟨origin, place, content, hcopies⟩ := copies_of_copy hc
        have hne : item.names ≠ [] := by
          intro hnil
          have hsource := hcopies.source
          rw [hitem.path, hnil, Path.descend_nil,
            (hr.of_extends hg.extended hg.orderly).regular?_eq_none] at hsource
          cases hsource
        exact hg.copies hr.orderly habove hnames hlink hto hway hne hcopies
    · exact hg

section Confined

variable {shop : Workshop} (hfs : shop.files.Orderly)
variable (hto : Denotes shop.files destination base missing)
variable (habove : Path.above ∉ destination.steps)
variable (hlinks : ∀ location target, down base missing <:+ location →
  shop.files.kindAt location ≠ some (.link target))
variable (hapart : ∀ root, Roots shop.files source root → Apart shop.files root base missing)

include hfs hto habove hlinks hapart

/-- The walk goes along the plan that was there when the copy began. -/
theorem recordedCopy_eq_visitEach :
    recordedCopy shop source destination =
      visitEach (attend (recorded (Progress.handle source destination none)) Error.io)
        (planFrom shop.files source) (Progress.mk shop [], []) := by
  have hc : Coarse (recorded (Progress.handle source destination none)) :=
    coarse_recorded (coarse_handle source destination none)
  by_cases h : ∃ root, Roots shop.files source root
  · obtain ⟨root, hr⟩ := h
    let I (_ : List Find) (state : Progress × List Item) : Prop :=
      Grown shop.files (OnTheWay shop.files root base missing) state.1.shop.files
    have hmem {done : List Find} {item : Item}
        (hpre : done ++ [.ok item] <+: planFrom shop.files source) :
        Stands shop.files source root item :=
      (stands_of_mem_planFrom hr (hpre.subset (by simp))).1
    refine walk_eq_visitEach (I := I) hc (fun done item state next hpre hI hnext => ?_)
      (fun done item state hpre hd hI => ?_) rfl (.refl hfs _)
    · have hgrown := grown_of_handle hr hto habove hlinks (hmem hpre) hI
      rw [recorded] at hnext
      rw [Prod.ext_iff] at hnext
      obtain ⟨rfl, -⟩ := hnext
      exact hgrown
    · have hne := names_ne_nil_of_prefix hfs hpre hd
      have hstands := hmem hpre
      have hthere : shop.files.kindAt (down root item.names) ≠ none := by
        simp [hstands.kindAt hne]
      exact below_eq_of_extends hstands hr hI.extended hI.orderly fun name hnone =>
        kindAt_eq_none_of_apart (hapart root hr) hto hI hne hthere hnone
  · have hshort : (planFrom shop.files source).length ≤ 1 := by
      rcases planFrom_of_not_roots hfs (not_exists.mp h) with he | ⟨e, he⟩ <;> simp [he]
    refine walk_eq_visitEach (I := fun _ _ => True) hc (fun _ _ _ _ _ _ _ => trivial)
      (fun done item state hpre hd _ => ?_) rfl trivial
    have hlen := hpre.length_le
    have hpos := List.length_pos_of_ne_nil hd
    rw [List.length_append, List.length_singleton] at hlen
    omega

theorem handled_prefix_itemsOf :
    handled shop source destination <+: itemsOf (planFrom shop.files source) := by
  rw [handled, recordedCopy_eq_visitEach hfs hto habove hlinks hapart]
  exact record_visitEach _ _

theorem mem_stock_of_mem_handled (hm : item ∈ handled shop source destination) :
    ∃ kind, (item.names, kind) ∈ stock shop.files source ∧ outlineKind kind = item.kind := by
  obtain ⟨found, hf, rfl⟩ :=
    mem_itemsOf ((handled_prefix_itemsOf hfs hto habove hlinks hapart).subset hm)
  exact ⟨found.kind, mem_stock_of_mem_planFrom hfs hf, rfl⟩

theorem nodup_handled : ((handled shop source destination).map Item.names).Nodup := by
  have hplan : (itemsOf (planFrom shop.files source)).Pairwise
      fun first second => first.names < second.names := by
    refine List.pairwise_filterMap.mpr
      (List.pairwise_map.mpr ((pairwise_planFrom hfs source).imp ?_))
    rintro (e | found) (e' | found') hbefore item hi item' hi' <;> cases hi <;> cases hi'
    exact hbefore found found' rfl rfl
  have hpair := hplan.sublist (handled_prefix_itemsOf hfs hto habove hlinks hapart).sublist
  refine List.pairwise_map.mpr (hpair.imp fun hlt he => ?_)
  exact List.lt_irrefl _ (he ▸ hlt)

theorem length_filter_handled_le :
    ((handled shop source destination).filter (!·.isDirectory)).length ≤
      ((stock shop.files source).filter (·.2 ≠ .directory)).length := by
  have hnodup := (nodup_handled hfs hto habove hlinks hapart).sublist
    ((List.filter_sublist (p := (!·.isDirectory))).map Item.names)
  have hsub : ((handled shop source destination).filter (!·.isDirectory)).map Item.names ⊆
      ((stock shop.files source).filter (·.2 ≠ .directory)).map Prod.fst := by
    intro names hm
    obtain ⟨item, hitem, rfl⟩ := List.mem_map.mp hm
    obtain ⟨hitem, hd⟩ := List.mem_filter.mp hitem
    obtain ⟨kind, hk, ho⟩ := mem_stock_of_mem_handled hfs hto habove hlinks hapart hitem
    refine List.mem_map.mpr ⟨(item.names, kind), List.mem_filter.mpr ⟨hk, ?_⟩, rfl⟩
    rw [Item.isDirectory, ← ho] at hd
    simpa [outlineKind_eq_directory_iff] using hd
  simpa using (hnodup.subperm hsub).length_le

theorem grown_of_copy (hr : Roots shop.files source root) :
    Grown shop.files (OnTheWay shop.files root base missing)
      (copy shop source destination none).1.files := by
  rw [copy_eq_recordedCopy, recordedCopy_eq_visitEach hfs hto habove hlinks hapart]
  refine visitEach_keeps (I := fun state : Progress × List Item =>
    Grown shop.files (OnTheWay shop.files root base missing) state.1.shop.files)
    (fun find hm state hI => ?_) (.refl hfs _)
  cases find with
  | error e => exact hI
  | ok item => exact grown_of_handle hr hto habove hlinks (stands_of_mem_planFrom hr hm).1 hI

/-- A copy that stays apart from its source handles only what was there when it began, each thing
once. It makes no more errands than there were things other than directories, and whatever it adds
is on the way to the copy of something that was there. -/
theorem copy_confined :
    (∀ item ∈ handled shop source destination, ∃ kind,
      (item.names, kind) ∈ stock shop.files source ∧ outlineKind kind = item.kind) ∧
    ((handled shop source destination).map Item.names).Nodup ∧
    (∀ after ids, copy shop source destination none = (after, .ok ids) →
      ids.length ≤ ((stock shop.files source).filter (·.2 ≠ .directory)).length) ∧
    ∀ root, Roots shop.files source root → ∀ location,
      shop.files.kindAt location = none →
      (copy shop source destination none).1.files.kindAt location ≠ none →
        OnTheWay shop.files root base missing location := by
  refine ⟨fun item hm => mem_stock_of_mem_handled hfs hto habove hlinks hapart hm,
    nodup_handled hfs hto habove hlinks hapart, fun after ids hcopy => ?_,
    fun root hr => (grown_of_copy hfs hto habove hlinks hapart hr).new⟩
  have hlen := (length_errands_le shop source destination).trans
    (length_filter_handled_le hfs hto habove hlinks hapart)
  rw [copy_eq_recordedCopy] at hcopy
  rcases hrec : recordedCopy shop source destination with ⟨⟨progress, items⟩, _ | e⟩
  · rw [hrec] at hcopy hlen
    cases hcopy
    exact hlen
  · rw [hrec] at hcopy
    cases hcopy

end Confined

def lone : Workshop :=
  { files :=
    { entries := [(Bytes.ofString "a", .directory
        [(Bytes.ofString "x", .file (Bytes.ofString "1"))])]
      home := [] } }

/-- A directory may be copied to a fresh name inside it. -/
theorem copy_confined_fresh :
    (handled lone (.ofString "a") (.ofString "a/z")).length = 2 ∧
      ((handled lone (.ofString "a") (.ofString "a/z")).map Item.names).Nodup ∧
      ∀ after ids, copy lone (.ofString "a") (.ofString "a/z") none = (after, .ok ids) →
        ids.length ≤ ((stock lone.files (.ofString "a")).filter (·.2 ≠ .directory)).length := by
  let a := Bytes.ofString "a"
  let z := Bytes.ofString "z"
  have ha : lone.files.kindAt [a] = some .directory := by decide
  have hz : lone.files.kindAt [z, a] = none := by decide
  have hl : Trail lone.files.kindAt true linkLimit [] [a] [[], [a]]
      (.ok (.taken [a] .directory)) :=
    .enter (by decide) ⟨by decide, by decide, by decide⟩ ha (by simp) (.stop ha)
  have hto : Denotes lone.files (.ofString "a/z") [a] [z] :=
    .missing (show _ = [a] ++ z :: [] by decide) hl ⟨by decide, by decide, by decide⟩ hz
  have hapart : ∀ root, Roots lone.files (.ofString "a") root →
      Apart lone.files root [a] [z] := by
    intro root hr
    obtain ⟨tour, hl'⟩ := hr.leads
    cases (Trail.unique hl hl').2
    exact .inl ⟨rfl, by simp⟩
  obtain ⟨-, hnodup, hlength, -⟩ := copy_confined (by decide) hto (by decide)
    (fun location target hs hk => kindAt_ne_none_of_suffix (by simp [hk]) hs hz) hapart
  exact ⟨by decide +kernel, hnodup, hlength⟩

/-- A directory that is copied to a directory inside it, which is there already, is copied with its
copy: one file comes to two errands. -/
theorem copy_into_itself :
    let shop : Workshop :=
      { files :=
        { entries := [(Bytes.ofString "a", .directory
            [(Bytes.ofString "x", .file (Bytes.ofString "1")),
              (Bytes.ofString "z", .directory [])])]
          home := [] } }
    let source := Path.ofString "a"
    let (after, result) := copy shop source (.ofString "a/z") none
    result = .ok [0, 1] ∧
      after.errands.map (·.source) = [.ofString "a/x", .ofString "a/z/x"] ∧
      (stock shop.files source).filter (·.2 ≠ .directory) =
        [([Bytes.ofString "x"], .file (Bytes.ofString "1"))] := by
  decide +kernel

end Tree
end TreePool

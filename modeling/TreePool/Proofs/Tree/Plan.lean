import TreePool.Proofs.FileSystem.Destination
import TreePool.Proofs.Tree.Walk

/-! # The plan of a walk

What a walk comes across below a directory: each item stands where its names lead down to, comes
after the directory that it is an entry of, and items come in the order of their names. Nothing is
left out unless a path is too long. A directory reads the same as before when nothing new is in it.
-/

namespace TreePool
namespace Tree

open FileSystem

variable {fs fs' : FileSystem} {source : Path} {root : Location} {names : List Name}
variable {item found : Item} {finds : List Find} {fuel : Nat}

/-! ## Reading directories -/

/-- A path leads to a directory, the root of a tree. -/
structure Roots (fs : FileSystem) (source : Path) (root : Location) : Prop where
  orderly : fs.Orderly
  refusal : refusal? source = none
  leads : ∃ tour, Leads fs true (fs.origin source) source.names tour
    (.ok (.taken root .directory))

namespace Roots

theorem isEmpty_source (h : Roots fs source root) : source.isEmpty = false :=
  (refusal?_eq_none_iff.mp h.refusal).2.1

theorem kindAt_root (h : Roots fs source root) : fs.kindAt root = some .directory := by
  obtain ⟨tour, hl⟩ := h.leads
  exact Trail.chart_eq hl

theorem of_extends (h : Roots fs source root) (hx : Extends fs fs') (hfs' : fs'.Orderly) :
    Roots fs' source root := by
  obtain ⟨tour, hl⟩ := h.leads
  obtain ⟨kind, hk, hl'⟩ := hx.leads h.orderly.home_ne_none hl
  obtain rfl : kind = .directory := by
    simpa [hx.keeps.directory h.kindAt_root] using hk.symm
  exact ⟨hfs', h.refusal, tour, hl'⟩

theorem isName (h : Roots fs source root) (hk : fs.kindAt (down root names) ≠ none) :
    ∀ name ∈ names, Path.IsName name :=
  fun name hm => (h.orderly.isEntryName hk name hm).toIsName

theorem leads_descend (h : Roots fs source root) {kind : Kind}
    (hk : fs.kindAt (down root names) = some kind) {followLast : Bool}
    (hlink : followLast = false ∨ ∀ target, kind ≠ .link target) (hne : names ≠ []) :
    ∃ tour, Leads fs followLast (fs.origin (source.descend names)) (source.descend names).names tour
      (.ok (.taken (down root names) kind)) := by
  have hthere : fs.kindAt (down root names) ≠ none := by simp [hk]
  have hnames := h.isName hthere
  obtain ⟨tour, hl⟩ := h.leads
  obtain ⟨tour', hl'⟩ := Trail.steps_of_names (h.orderly.origin_ne_none source) hl
  obtain ⟨left, -, happend⟩ := hl'.append
  obtain ⟨tour'', ht⟩ := h.orderly.trail_down hk hlink left
  obtain ⟨whole, hw, -⟩ := happend hne ht
  rw [origin, Path.isAbsolute_descend h.isEmpty_source hnames, ← origin,
    Path.names_descend hnames hne]
  exact ⟨whole, hw⟩

theorem find_descend (h : Roots fs source root) {entries : List (Name × Node)}
    (hd : fs.node? (down root names) = some (.directory entries))
    (hr : refusal? (source.descend names) = none) :
    fs.find (source.descend names) true = .ok (down root names, .directory entries) := by
  have hfind {path : Path} {tour : List Location} (hr : refusal? path = none)
      (hl : Leads fs true (fs.origin path) path.names tour
        (.ok (.taken (down root names) .directory))) :
      fs.find path true = .ok (down root names, .directory entries) := by
    obtain ⟨node, hf, hn, -⟩ := find_of_leads hr hl
    cases hn.symm.trans hd
    exact hf
  by_cases hne : names = []
  · subst hne
    obtain ⟨tour, hl⟩ := h.leads
    exact hfind hr hl
  · obtain ⟨tour, hl⟩ := h.leads_descend (kindAt_of_node? hd) (.inr (by simp [Node.kind])) hne
    exact hfind hr hl

/-- A directory of the tree is read unless its path is too long. -/
theorem list_descend (h : Roots fs source root) {entries : List (Name × Node)}
    (hd : fs.node? (down root names) = some (.directory entries)) :
    fs.list (source.descend names) =
      match refusal? (source.descend names) with
      | some e => .error e
      | none => .ok (entries.map fun entry => (entry.1, entry.2.kind)) := by
  cases hr : refusal? (source.descend names) with
  | some e => simp [list, find_of_refusal hr]
  | none => simp [list, h.find_descend hd hr]

theorem regular?_eq_none (h : Roots fs source root) : fs.regular? source = none := by
  cases hf : fs.regular? source with
  | none => rfl
  | some found =>
    obtain ⟨tour, hl⟩ := h.leads
    obtain ⟨-, tour', hl'⟩ := regular?_eq_some_iff_leads.mp hf
    cases (Trail.unique hl hl').2

theorem regular?_eq_none_of_directory (h : Roots fs source root)
    (hd : fs.kindAt (down root names) = some .directory) :
    fs.regular? (source.descend names) = none := by
  by_cases hne : names = []
  · rw [hne, Path.descend_nil]
    exact h.regular?_eq_none
  · cases hf : fs.regular? (source.descend names) with
    | none => rfl
    | some found =>
      obtain ⟨origin, content⟩ := found
      obtain ⟨-, tour, hl⟩ := regular?_eq_some_iff_leads.mp hf
      obtain ⟨tour', hl'⟩ := h.leads_descend hd (.inr (by simp)) hne
      cases (Trail.unique hl hl').2

end Roots

/-! ## Items -/

/-- An item of a tree stands where its names lead down to. The start of the walk is the root or a
link to it. -/
structure Stands (fs : FileSystem) (source : Path) (root : Location) (item : Item) : Prop where
  path : item.path = source.descend item.names
  kindAt : item.names ≠ [] → fs.kindAt (down root item.names) = some item.kind
  start : item.names = [] → ∀ content, item.kind ≠ .file content

namespace Stands

theorem directory (h : Stands fs source root item) (hr : Roots fs source root)
    (hd : item.names = [] ∨ item.kind = .directory) :
    ∃ entries, fs.node? (down root item.names) = some (.directory entries) := by
  apply exists_entries
  by_cases hne : item.names = []
  · rw [hne]
    exact hr.kindAt_root
  · rw [h.kindAt hne, hd.resolve_left hne]

theorem entriesOf_eq (h : Stands fs source root item) (hr : Roots fs source root)
    {entries : List (Name × Node)}
    (hd : fs.node? (down root item.names) = some (.directory entries)) :
    entriesOf fs item =
      match refusal? item.path with
      | some e => [.error (.walking item.path e)]
      | none => entries.map fun entry => .ok (item.child entry.1 entry.2.kind) := by
  rw [entriesOf, h.path, hr.list_descend hd]
  cases refusal? (source.descend item.names) with
  | some e => rfl
  | none => simp

theorem below_eq (h : Stands fs source root item) (hr : Roots fs source root) :
    below fs item =
      .ok (if item.names = [] ∨ item.kind = .directory then entriesOf fs item else []) := by
  by_cases hne : item.names = []
  · cases hk : item.kind with
    | directory => simp [below, hk]
    | file content => exact absurd hk (h.start hne content)
    | link target =>
      obtain ⟨entries, hd⟩ := h.directory hr (.inl hne)
      have hpath : item.path = source := by rw [h.path, hne, Path.descend_nil]
      rw [hne] at hd
      have hfind : fs.find item.path true = .ok (root, .directory entries) :=
        hpath ▸ hr.find_descend hd hr.refusal
      simp [below, hk, Item.depth, hne, hfind, Node.isDirectory]
  · cases hk : item.kind <;> simp [below, hk, Item.depth, hne]

theorem of_mem_below (h : Stands fs source root item) (hr : Roots fs source root)
    (hb : below fs item = .ok finds) (hm : .ok found ∈ finds) :
    ∃ name kind, found = item.child name kind ∧
      fs.kindAt (name :: down root item.names) = some kind ∧ Stands fs source root found := by
  rw [h.below_eq hr] at hb
  cases hb
  split_ifs at hm with hd
  · obtain ⟨entries, hentries⟩ := h.directory hr hd
    rw [h.entriesOf_eq hr hentries] at hm
    split at hm
    · simp at hm
    · obtain ⟨⟨name, node⟩, hentry, he⟩ := List.mem_map.mp hm
      cases he
      have hlookup := (hr.orderly.inOrder hentries).lookup_eq_some_iff.mpr hentry
      have hk : fs.kindAt (name :: down root item.names) = some node.kind := by
        rw [kindAt_child hentries, hlookup, Option.map_some]
      refine ⟨name, node.kind, rfl, hk, ?_, fun _ => ?_, ?_⟩
      · rw [Item.child, h.path, Path.descend_concat]
      · rw [Item.child, down_concat, hk]
      · simp [Item.child]
  · cases hm

theorem pairwise_below (h : Stands fs source root item) (hr : Roots fs source root)
    (hb : below fs item = .ok finds) :
    finds.Pairwise fun first second => ∀ name name' kind kind',
      first = .ok (item.child name kind) → second = .ok (item.child name' kind') →
        name < name' := by
  rw [h.below_eq hr] at hb
  cases hb
  split_ifs with hd
  · obtain ⟨entries, hentries⟩ := h.directory hr hd
    rw [h.entriesOf_eq hr hentries]
    split
    · exact List.pairwise_singleton _ _
    · refine List.pairwise_map.mpr ((hr.orderly.inOrder hentries).imp ?_)
      intro entry entry' hlt name name' kind kind' he he'
      have hname := congrArg Item.names (Except.ok.inj he)
      have hname' := congrArg Item.names (Except.ok.inj he')
      simp only [Item.child, List.append_cancel_left_eq, List.cons.injEq, and_true] at hname hname'
      rwa [← hname, ← hname']
  · exact .nil

end Stands

theorem stands_of_start (hr : Roots fs source root) (hs : start fs source = .ok item) :
    item.names = [] ∧ Stands fs source root item := by
  unfold start at hs
  split at hs
  · next location node hf =>
    cases hs
    refine ⟨rfl, rfl, fun hne => absurd rfl hne, fun _ content hk => ?_⟩
    obtain ⟨-, -, tour, hl⟩ := leads_of_find hf
    obtain ⟨tour', hl'⟩ := hr.leads
    have hfile : node.kind = .file content := hk
    rw [hfile] at hl
    cases (Trail.unique (Trail.followed hl (by simp)) hl').2
  · cases hs

/-! ## Plans -/

/-- What is planned from an item on is the item and what is planned from what is below it. -/
theorem plan_succ (h : Stands fs source root item) (hr : Roots fs source root) (fuel : Nat) :
    ∃ finds, below fs item = .ok finds ∧
      plan fs (fuel + 1) (.ok item) = .ok item :: finds.flatMap (plan fs fuel) :=
  ⟨_, h.below_eq hr, by rw [plan, h.below_eq hr]⟩

/-- What is planned from an item on stands in the tree, at the item or below it, and the directory
that it is an entry of is planned too. -/
theorem stands_of_mem_plan (h : Stands fs source root item) (hr : Roots fs source root)
    (hm : .ok found ∈ plan fs fuel (.ok item)) :
    Stands fs source root found ∧ item.names <+: found.names ∧
      (found = item ∨ ∃ parent name, .ok parent ∈ plan fs fuel (.ok item) ∧
        found.names = parent.names ++ [name] ∧
        (parent.names = [] ∨ parent.kind = .directory)) := by
  induction fuel generalizing item with
  | zero => cases hm
  | succ fuel ih =>
    obtain ⟨finds, hb, hplan⟩ := plan_succ h hr fuel
    rw [hplan] at hm ⊢
    rcases List.mem_cons.mp hm with he | hm
    · cases he
      exact ⟨h, List.prefix_rfl, .inl rfl⟩
    · obtain ⟨find, hfind, hm⟩ := List.mem_flatMap.mp hm
      cases find with
      | error e => cases fuel <;> simp [plan] at hm
      | ok next =>
        obtain ⟨name, kind, rfl, hk, hnext⟩ := h.of_mem_below hr hb hfind
        obtain ⟨hfound, hpre, hparent⟩ := ih hnext hm
        refine ⟨hfound, (List.prefix_append _ _).trans hpre, .inr ?_⟩
        rcases hparent with rfl | ⟨parent, name', hp, hnames, hd⟩
        · refine ⟨item, name, List.mem_cons_self, rfl, ?_⟩
          by_cases hne : item.names = []
          · exact .inl hne
          · have hthere : fs.kindAt (name :: down root item.names) ≠ none := by simp [hk]
            have hdir := kindAt_parent hthere
            rw [h.kindAt hne] at hdir
            exact .inr (Option.some.inj hdir)
        · refine ⟨parent, name', List.mem_cons_of_mem _ ?_, hnames, hd⟩
          exact List.mem_flatMap.mpr ⟨_, hfind, hp⟩

/-- One find comes before another, as far as both are items. -/
def Before (first second : Find) : Prop :=
  ∀ item item', first = .ok item → second = .ok item' → item.names < item'.names

theorem lt_append {names rest : List Name} (h : rest ≠ []) : names < names ++ rest := by
  induction names with
  | nil =>
    obtain ⟨name, rest, rfl⟩ := List.exists_cons_of_ne_nil h
    exact List.nil_lt_cons _ _
  | cons name names ih => exact List.cons_lt_cons_iff.mpr (.inr ⟨rfl, ih⟩)

theorem append_lt_append {names rest rest' : List Name} {name name' : Name} (h : name < name') :
    names ++ name :: rest < names ++ name' :: rest' := by
  induction names with
  | nil => exact List.cons_lt_cons_iff.mpr (.inl h)
  | cons first names ih => exact List.cons_lt_cons_iff.mpr (.inr ⟨rfl, ih⟩)

theorem pairwise_plan (h : Stands fs source root item) (hr : Roots fs source root) (fuel : Nat) :
    (plan fs fuel (.ok item)).Pairwise Before := by
  induction fuel generalizing item with
  | zero => exact .nil
  | succ fuel ih =>
    obtain ⟨finds, hb, hplan⟩ := plan_succ h hr fuel
    have hmem {find : Find} {found : Item} (hf : find ∈ finds)
        (hm : .ok found ∈ plan fs fuel find) :
        ∃ name kind, find = .ok (item.child name kind) ∧
          item.names ++ [name] <+: found.names := by
      cases find with
      | error e => cases fuel <;> simp [plan] at hm
      | ok next =>
        obtain ⟨name, kind, rfl, -, hnext⟩ := h.of_mem_below hr hb hf
        exact ⟨name, kind, rfl, (stands_of_mem_plan hnext hr hm).2.1⟩
    rw [hplan]
    refine List.pairwise_cons.mpr ⟨fun find hm first second hfirst hsecond => ?_, ?_⟩
    · cases hfirst
      subst hsecond
      obtain ⟨find, hf, hm⟩ := List.mem_flatMap.mp hm
      obtain ⟨name, kind, -, rest, hrest⟩ := hmem hf hm
      rw [← hrest, List.append_assoc]
      exact lt_append (by simp)
    · refine List.pairwise_flatMap.mpr ⟨fun find hf => ?_, ?_⟩
      · cases find with
        | error e => cases fuel <;> exact List.pairwise_singleton _ _
        | ok next =>
          obtain ⟨name, kind, rfl, -, hnext⟩ := h.of_mem_below hr hb hf
          exact ih hnext
      · refine (h.pairwise_below hr hb).imp_of_mem ?_
        intro first second hf hf' hlt find hm find' hm' found found' he he'
        subst he he'
        obtain ⟨name, kind, rfl, rest, hrest⟩ := hmem hf hm
        obtain ⟨name', kind', rfl, rest', hrest'⟩ := hmem hf' hm'
        rw [← hrest, ← hrest', List.append_assoc, List.append_assoc]
        exact append_lt_append (hlt name name' kind kind' rfl rfl)

/-- Where a path leads to no directory, nothing but its start is planned. -/
theorem planFrom_of_not_roots (hfs : fs.Orderly) (h : ∀ root, ¬ Roots fs source root) :
    planFrom fs source = [start fs source] ∨ ∃ e, planFrom fs source = [.error e] := by
  have hlimit : pathLimit = 4095 + 1 := rfl
  have hno {followLast : Bool} {location : Location} {node : Node}
      (hf : fs.find source followLast = .ok (location, node)) : node.kind ≠ .directory := by
    intro hk
    obtain ⟨hr, -, tour, hl⟩ := leads_of_find hf
    rw [hk] at hl
    exact h location ⟨hfs, hr, tour, Trail.followed hl (by simp)⟩
  cases hs : start fs source with
  | error e => exact .inr ⟨e, by rw [planFrom, hs]; rfl⟩
  | ok item =>
    obtain ⟨location, node, hf, rfl⟩ :
      ∃ location node, fs.find source false = .ok (location, node) ∧
        item = ⟨source, [], node.kind⟩ := by
      unfold start at hs
      split at hs
      · next location node hf => exact ⟨location, node, hf, (Except.ok.inj hs).symm⟩
      · cases hs
    have hkind := hno hf
    rw [planFrom, hs, hlimit, plan]
    cases node with
    | directory => exact absurd rfl hkind
    | file content => exact .inl (by simp [below, Node.kind])
    | link target =>
      cases hfollow : fs.find source true with
      | error e => exact .inr ⟨.walking source e, by simp [below, Node.kind, Item.depth, hfollow]⟩
      | ok found =>
        obtain ⟨root, node⟩ := found
        have hnode : node.isDirectory = false := by
          rw [← Bool.not_eq_true, isDirectory_iff]
          exact hno hfollow
        exact .inl (by simp [below, Node.kind, Item.depth, hfollow, hnode])

theorem pairwise_planFrom (hfs : fs.Orderly) (source : Path) :
    (planFrom fs source).Pairwise Before := by
  by_cases h : ∃ root, Roots fs source root
  · obtain ⟨root, hr⟩ := h
    rw [planFrom]
    cases hs : start fs source with
    | error e => exact List.pairwise_singleton _ _
    | ok item => exact pairwise_plan (stands_of_start hr hs).2 hr _
  · rcases planFrom_of_not_roots hfs (not_exists.mp h) with he | ⟨e, he⟩ <;> rw [he] <;>
      exact List.pairwise_singleton _ _

theorem names_ne_nil_of_prefix (hfs : fs.Orderly) {done : List Find}
    (hpre : done ++ [.ok item] <+: planFrom fs source) (hd : done ≠ []) : item.names ≠ [] := by
  have hlimit : pathLimit = 4095 + 1 := rfl
  have hlater {first : Find} (hf : first ∈ done) : Before first (.ok item) := by
    have hpair := (pairwise_planFrom hfs source).sublist hpre.sublist
    exact (List.pairwise_append.mp hpair).2.2 first hf _ (List.mem_singleton_self _)
  obtain ⟨first, rest, rfl⟩ := List.exists_cons_of_ne_nil hd
  obtain ⟨tail, hplan⟩ := hpre
  rw [planFrom] at hplan
  cases hs : start fs source with
  | error e => simp [hs, plan] at hplan
  | ok next =>
    rw [hs, hlimit, plan] at hplan
    split at hplan
    · simp at hplan
    · rw [List.cons_append, List.cons_append] at hplan
      obtain ⟨rfl, -⟩ := List.cons.inj hplan
      have hlt := hlater List.mem_cons_self next item rfl rfl
      rintro hnil
      rw [hnil] at hlt
      exact List.not_lt_nil _ hlt

theorem stands_of_mem_planFrom (hr : Roots fs source root) (hm : .ok item ∈ planFrom fs source) :
    Stands fs source root item ∧ (start fs source = .ok item ∨
      ∃ parent name, .ok parent ∈ planFrom fs source ∧ item.names = parent.names ++ [name] ∧
        (parent.names = [] ∨ parent.kind = .directory)) := by
  rw [planFrom] at *
  cases hs : start fs source with
  | error e => simp [hs, plan] at hm
  | ok first =>
    rw [hs] at hm
    obtain ⟨hstands, -, rfl | hparent⟩ := stands_of_mem_plan (stands_of_start hr hs).2 hr hm
    · exact ⟨hstands, .inl rfl⟩
    · exact ⟨hstands, .inr hparent⟩

theorem parent_mem_of_prefix (hr : Roots fs source root) {done : List Find}
    (hpre : done ++ [.ok item] <+: planFrom fs source) :
    start fs source = .ok item ∨ ∃ parent name, .ok parent ∈ done ∧
      item.names = parent.names ++ [name] ∧
      (start fs source = .ok parent ∨ parent.kind = .directory) := by
  obtain ⟨-, hs | ⟨parent, name, hm, hnames, hd⟩⟩ :=
    stands_of_mem_planFrom hr (hpre.subset (by simp : .ok item ∈ done ++ [.ok item]))
  · exact .inl hs
  refine .inr ⟨parent, name, ?_, hnames, ?_⟩
  · -- Otherwise the parent would come after the item.
    obtain ⟨rest, hplan⟩ := hpre
    have hpair := pairwise_planFrom hr.orderly source
    rw [← hplan] at hm hpair
    rw [List.append_assoc] at hm hpair
    rcases List.mem_append.mp hm with hm | hm
    · exact hm
    exfalso
    have hlt : parent.names < item.names := hnames ▸ lt_append (List.cons_ne_nil name [])
    rcases List.mem_cons.mp hm with he | hm
    · cases he
      exact List.lt_irrefl _ hlt
    · have htail := (List.pairwise_append.mp hpair).2.1
      have hlt' := (List.pairwise_cons.mp htail).1 _ hm item parent rfl rfl
      exact List.lt_irrefl _ (List.lt_trans hlt hlt')
  · rcases hd with hnil | hd
    · rcases (stands_of_mem_planFrom hr hm).2 with hs | ⟨_, _, -, hnames', -⟩
      · exact .inl hs
      · simp [hnil] at hnames'
    · exact .inr hd

/-! ## Reading again -/

theorem map_outlineKind_eq (hx : Extends fs fs') {location : Location}
    (hnew : fs.kindAt location = none → fs'.kindAt location = none) :
    (fs.kindAt location).map outlineKind = (fs'.kindAt location).map outlineKind := by
  cases hk : fs.kindAt location with
  | none => rw [hnew hk]
  | some kind =>
    cases kind with
    | directory => rw [hx.keeps.directory hk]
    | link target => rw [hx.keeps.link hk]
    | file content =>
      obtain ⟨content', hk'⟩ := hx.keeps.file hk
      rw [hk']
      rfl

/-- An item reads the same as before when nothing new is right below it. -/
theorem below_eq_of_extends (h : Stands fs source root item) (hr : Roots fs source root)
    (hx : Extends fs fs') (hfs' : fs'.Orderly)
    (hnew : ∀ name, fs.kindAt (name :: down root item.names) = none →
      fs'.kindAt (name :: down root item.names) = none) :
    (below fs' item).map outline = (below fs item).map outline := by
  by_cases hd : item.names = [] ∨ item.kind = .directory
  · have hr' := hr.of_extends hx hfs'
    have h' : Stands fs' source root item := by
      refine ⟨h.path, fun hne => ?_, h.start⟩
      have hdir := hd.resolve_left hne
      rw [hdir]
      exact hx.keeps.directory (hdir ▸ h.kindAt hne)
    obtain ⟨entries, hentries⟩ := h.directory hr hd
    obtain ⟨entries', hentries'⟩ := h'.directory hr' hd
    rw [h.below_eq hr, h'.below_eq hr', if_pos hd, if_pos hd, h.entriesOf_eq hr hentries,
      h'.entriesOf_eq hr' hentries']
    split
    · rfl
    · have hsame := hr.orderly.map_entries_eq outlineKind hfs' hentries hentries'
        fun name => map_outlineKind_eq hx (hnew name)
      let find (entry : Name × Kind) : Find := .ok (item.child entry.1 entry.2)
      have hfinds := congrArg (List.map find) hsame
      rw [List.map_map, List.map_map] at hfinds
      simp only [Except.map, outline, List.map_map]
      exact congrArg Except.ok hfinds.symm
  · obtain ⟨hne, hk⟩ := not_or.mp hd
    cases hkind : item.kind with
    | directory => exact absurd hkind hk
    | file content => simp [below, hkind]
    | link target => simp [below, hkind, Item.depth, hne]

/-! ## Completeness -/

/-- All that stands below an item is planned, if the paths of directories are not too long. -/
theorem exists_mem_plan (h : Stands fs source root item) (hr : Roots fs source root)
    (hd : item.names = [] ∨ item.kind = .directory ∨ names = []) {kind : Kind}
    (hk : names ≠ [] → fs.kindAt (down root (item.names ++ names)) = some kind)
    (hkind : names = [] → item.kind = kind)
    (hshort : ∀ front, front <+: names → front ≠ names →
      refusal? (source.descend (item.names ++ front)) = none)
    (hfuel : names.length < fuel) :
    ∃ found, .ok found ∈ plan fs fuel (.ok item) ∧ found.names = item.names ++ names ∧
      found.kind = kind := by
  induction names generalizing item fuel with
  | nil =>
    obtain ⟨fuel, rfl⟩ := Nat.exists_eq_succ_of_ne_zero (Nat.ne_zero_of_lt hfuel)
    obtain ⟨finds, -, hplan⟩ := plan_succ h hr fuel
    exact ⟨item, by simp [hplan], by simp, hkind rfl⟩
  | cons name rest ih =>
    obtain ⟨fuel, rfl⟩ := Nat.exists_eq_succ_of_ne_zero (Nat.ne_zero_of_lt hfuel)
    obtain ⟨finds, hb, hplan⟩ := plan_succ h hr fuel
    have hd' : item.names = [] ∨ item.kind = .directory := by simpa using hd
    obtain ⟨entries, hentries⟩ := h.directory hr hd'
    have hpath : refusal? item.path = none := by
      rw [h.path]
      simpa using hshort [] List.nil_prefix (List.cons_ne_nil _ _).symm
    have hwhole := hk (List.cons_ne_nil _ _)
    have hsplit : item.names ++ name :: rest = (item.names ++ [name]) ++ rest := by simp
    rw [hsplit, down_append, down_concat] at hwhole
    have hthere : fs.kindAt (down (name :: down root item.names) rest) ≠ none := by simp [hwhole]
    obtain ⟨next, hnext⟩ := Option.ne_none_iff_exists'.mp
      (kindAt_ne_none_of_suffix hthere (suffix_down _ _))
    have hmem : .ok (item.child name next) ∈ finds := by
      rw [h.below_eq hr, if_pos hd', h.entriesOf_eq hr hentries, hpath] at hb
      cases hb
      rw [kindAt_child hentries] at hnext
      obtain ⟨node, hl, rfl⟩ := Option.map_eq_some_iff.mp hnext
      exact List.mem_map.mpr ⟨(name, node), Node.mem_of_lookup hl, rfl⟩
    obtain ⟨name', kind', he, -, hstands⟩ := h.of_mem_below hr hb hmem
    obtain ⟨found, hf, hnames, hfk⟩ := @ih (item.child name next) fuel hstands
      (by
        by_cases hrest : rest = []
        · exact .inr (.inr hrest)
        · refine .inr (.inl ?_)
          have := kindAt_eq_directory_of_suffix hthere (suffix_down _ _)
            fun he => hrest (down_eq_self_iff.mp he.symm)
          exact Option.some.inj (hnext.symm.trans this))
      (fun _ => by rw [Item.child, down_append, down_concat, hwhole])
      (fun hrest => by
        subst hrest
        exact Option.some.inj (hnext.symm.trans hwhole))
      (fun front hfront hne => by
        have := hshort (name :: front) (List.cons_prefix_cons.mpr ⟨rfl, hfront⟩)
          (by simpa using hne)
        simpa [Item.child] using this)
      (Nat.lt_of_succ_lt_succ hfuel)
    refine ⟨found, ?_, ?_, hfk⟩
    · rw [hplan]
      exact List.mem_cons_of_mem _ (List.mem_flatMap.mpr ⟨_, hmem, hf⟩)
    · rw [hnames, Item.child, hsplit]

theorem ok_of_mem_plan (h : Stands fs source root item) (hr : Roots fs source root)
    (hshort : ∀ found, Stands fs source root found → item.names <+: found.names →
      refusal? found.path = none) {find : Find} (hm : find ∈ plan fs fuel (.ok item)) :
    ∃ found, find = .ok found := by
  induction fuel generalizing item with
  | zero => cases hm
  | succ fuel ih =>
    obtain ⟨finds, hb, hplan⟩ := plan_succ h hr fuel
    rw [hplan] at hm
    rcases List.mem_cons.mp hm with rfl | hm
    · exact ⟨item, rfl⟩
    · obtain ⟨find', hf, hm⟩ := List.mem_flatMap.mp hm
      cases find' with
      | ok next =>
        obtain ⟨name, kind, rfl, -, hnext⟩ := h.of_mem_below hr hb hf
        exact ih hnext (fun found hfound hpre =>
          hshort found hfound ((List.prefix_append _ _).trans hpre)) hm
      | error e =>
        rw [h.below_eq hr] at hb
        cases hb
        split_ifs at hf with hd
        · obtain ⟨entries, hentries⟩ := h.directory hr hd
          rw [h.entriesOf_eq hr hentries, hshort item h List.prefix_rfl] at hf
          simp at hf
        · cases hf

end Tree
end TreePool

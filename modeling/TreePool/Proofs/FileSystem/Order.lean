import TreePool.Proofs.FileSystem.Change

/-! # File systems in order

A file system is in order when the entries of every directory stand in the order of their names,
each of which an operation could have made, and relative paths start in a directory. Operations keep
it in order. Of two file systems in order that look the same from everywhere, both are the same.
-/

namespace TreePool

/-! ## Entries in order -/

def InOrder {β : Type} (entries : List (Name × β)) : Prop := entries.Pairwise (·.1 < ·.1)

instance {β : Type} (entries : List (Name × β)) : Decidable (InOrder entries) :=
  inferInstanceAs (Decidable (entries.Pairwise (·.1 < ·.1)))

namespace InOrder

variable {β γ : Type} {name : Name} {value : β} {left right : List (Name × β)}

theorem lookup_eq_some_iff (h : InOrder left) :
    left.lookup name = some value ↔ (name, value) ∈ left := by
  induction left with
  | nil => simp
  | cons entry rest ih =>
    obtain ⟨key, first⟩ := entry
    obtain ⟨hfirst, hrest⟩ := List.pairwise_cons.mp h
    by_cases hk : name = key
    · subst hk
      have hnot : (name, value) ∉ rest := fun hm =>
        List.lt_irrefl name (hfirst (name, value) hm)
      simp [hnot, eq_comm]
    · have hne : (name == key) = false := by simpa using hk
      simp [List.lookup_cons, hne, hk, ih hrest]

/-- Entries in order are known by what stands under each name. -/
theorem ext (hl : InOrder left) (hr : InOrder right)
    (h : ∀ name, left.lookup name = right.lookup name) : left = right := by
  have hmem : ∀ entry, entry ∈ left ↔ entry ∈ right := by
    rintro ⟨name, value⟩
    rw [← hl.lookup_eq_some_iff, ← hr.lookup_eq_some_iff, h]
  clear h
  induction left generalizing right with
  | nil =>
    refine (List.eq_nil_iff_forall_not_mem.mpr fun entry hm => ?_).symm
    simpa using (hmem entry).2 hm
  | cons first left ih =>
    obtain ⟨hfirst, hleft⟩ := List.pairwise_cons.mp hl
    cases right with
    | nil => simpa using hmem first
    | cons other right =>
      obtain ⟨hother, hright⟩ := List.pairwise_cons.mp hr
      -- Each head is the least entry, so the heads are the same.
      obtain rfl : first = other := by
        rcases List.mem_cons.mp ((hmem first).1 List.mem_cons_self) with he | hm
        · exact he
        rcases List.mem_cons.mp ((hmem other).2 List.mem_cons_self) with he | hm'
        · exact he.symm
        exact absurd (List.lt_trans (hother _ hm) (hfirst _ hm')) (List.lt_irrefl _)
      refine congrArg _ (ih hleft hright fun entry => ?_)
      have hne : ∀ entry, entry ∈ left ∨ entry ∈ right → entry ≠ first := by
        rintro entry (hm | hm) rfl
        · exact List.lt_irrefl _ (hfirst _ hm)
        · exact List.lt_irrefl _ (hother _ hm)
      have := hmem entry
      constructor
      · intro hm
        exact List.mem_of_ne_of_mem (hne _ (.inl hm)) (this.1 (List.mem_cons_of_mem _ hm))
      · intro hm
        exact List.mem_of_ne_of_mem (hne _ (.inr hm)) (this.2 (List.mem_cons_of_mem _ hm))

theorem lookup_map (f : β → γ) (entries : List (Name × β)) (name : Name) :
    (entries.map fun entry => (entry.1, f entry.2)).lookup name = (entries.lookup name).map f := by
  induction entries with
  | nil => rfl
  | cons entry rest ih =>
    obtain ⟨key, value⟩ := entry
    cases hk : name == key <;> simp [List.lookup_cons, hk, ih]

theorem map (f : β → γ) (h : InOrder left) :
    InOrder (left.map fun entry => (entry.1, f entry.2)) :=
  List.pairwise_map.mpr h

end InOrder

/-! ## Nodes in order -/

structure IsEntryName (name : Name) : Prop extends Path.IsName name where
  length_le : name.length ≤ FileSystem.nameLimit

instance (name : Name) : Decidable (IsEntryName name) :=
  decidable_of_iff (Path.IsName name ∧ name.length ≤ FileSystem.nameLimit)
    ⟨fun ⟨h, hl⟩ => ⟨h, hl⟩, fun h => ⟨h.toIsName, h.length_le⟩⟩

namespace Node

inductive Orderly : Node → Prop
  | file (content : Bytes) : Orderly (.file content)
  | link (target : Path) : Orderly (.link target)
  | directory {entries : List (Name × Node)} (inOrder : InOrder entries)
      (names : ∀ entry ∈ entries, IsEntryName entry.1)
      (nodes : ∀ entry ∈ entries, Orderly entry.2) : Orderly (.directory entries)

theorem Orderly.empty : Orderly (.directory []) := .directory .nil (by simp) (by simp)

mutual

def checkOrder : Node → Bool
  | .directory entries => decide (InOrder entries) && checkOrders entries
  | _ => true

def checkOrders : List (Name × Node) → Bool
  | [] => true
  | entry :: rest => checkEntry entry && checkOrders rest

def checkEntry : Name × Node → Bool
  | (name, node) => decide (IsEntryName name) && checkOrder node

end

theorem checkOrders_eq_true_iff {entries : List (Name × Node)} :
    checkOrders entries = true ↔ ∀ entry ∈ entries, checkEntry entry = true := by
  induction entries with
  | nil => simp [checkOrders]
  | cons entry rest ih => simp [checkOrders, ih]

theorem orderly_iff_checkOrder (node : Node) : node.Orderly ↔ node.checkOrder = true := by
  induction hsize : sizeOf node using Nat.strong_induction_on generalizing node with
  | h size ih =>
    cases node with
    | file content => exact ⟨fun _ => rfl, fun _ => .file content⟩
    | link target => exact ⟨fun _ => rfl, fun _ => .link target⟩
    | directory entries =>
      have hentry : ∀ entry ∈ entries,
          checkEntry entry = true ↔ IsEntryName entry.1 ∧ entry.2.Orderly := by
        rintro ⟨name, node⟩ hm
        have hlt : sizeOf node < size := by
          have := List.sizeOf_lt_of_mem hm
          simp only [← hsize, directory.sizeOf_spec, Prod.mk.sizeOf_spec] at this ⊢
          omega
        simp [checkEntry, ih _ hlt node rfl]
      rw [checkOrder, Bool.and_eq_true, decide_eq_true_iff, checkOrders_eq_true_iff]
      constructor
      · rintro ⟨⟩
        next hin hnames hnodes =>
          exact ⟨hin, fun entry hm => (hentry entry hm).mpr ⟨hnames entry hm, hnodes entry hm⟩⟩
      · rintro ⟨hin, hall⟩
        exact .directory hin (fun entry hm => ((hentry entry hm).mp (hall entry hm)).1)
          fun entry hm => ((hentry entry hm).mp (hall entry hm)).2

instance (node : Node) : Decidable node.Orderly :=
  decidable_of_iff _ (orderly_iff_checkOrder node).symm

theorem mem_of_lookup {entries : List (Name × Node)} {name : Name} {node : Node}
    (h : entries.lookup name = some node) : (name, node) ∈ entries := by
  obtain ⟨front, back, rfl, -⟩ := List.lookup_eq_some_iff.mp h
  simp

theorem mem_insert {entries : List (Name × Node)} {name : Name} {node : Node}
    {entry : Name × Node} (h : entry ∈ insert name node entries) :
    entry = (name, node) ∨ entry ∈ entries := by
  induction entries with
  | nil => simpa [insert] using h
  | cons other rest ih =>
    unfold insert at h
    split_ifs at h
    · rcases List.mem_cons.mp h with h | h
      · exact .inl h
      · exact .inr (List.mem_cons_of_mem _ h)
    · exact List.mem_cons.mp h
    · rcases List.mem_cons.mp h with rfl | h
      · exact .inr List.mem_cons_self
      · exact (ih h).imp_right (List.mem_cons_of_mem _)

theorem inOrder_insert {entries : List (Name × Node)} (h : InOrder entries) (name : Name)
    (node : Node) : InOrder (insert name node entries) := by
  induction entries with
  | nil => exact List.pairwise_singleton _ _
  | cons other rest ih =>
    obtain ⟨hother, hrest⟩ := List.pairwise_cons.mp h
    unfold insert
    split_ifs with he hl
    · subst he
      exact List.pairwise_cons.mpr ⟨hother, hrest⟩
    · refine List.pairwise_cons.mpr ⟨fun entry hm => ?_, h⟩
      rcases List.mem_cons.mp hm with rfl | hm
      · exact hl
      · exact List.lt_trans hl (hother _ hm)
    · refine List.pairwise_cons.mpr ⟨fun entry hm => ?_, ih hrest⟩
      rcases mem_insert hm with rfl | hm
      · have htri : name < other.1 ∨ name = other.1 ∨ other.1 < name :=
          Std.Trichotomous.rel_or_eq_or_rel_swap
        exact (htri.resolve_left hl).resolve_left he
      · exact hother _ hm

theorem Orderly.insert {entries : List (Name × Node)} (h : Orderly (.directory entries))
    {name : Name} (hname : IsEntryName name) {node : Node} (hnode : node.Orderly) :
    Orderly (.directory (insert name node entries)) := by
  cases h with
  | directory hin hnames hnodes =>
    refine .directory (inOrder_insert hin _ _) (fun entry hm => ?_) fun entry hm => ?_
    · rcases mem_insert hm with rfl | hm
      · exact hname
      · exact hnames _ hm
    · rcases mem_insert hm with rfl | hm
      · exact hnode
      · exact hnodes _ hm

end Node

namespace FileSystem

variable {fs fs' : FileSystem} {location parent : Location} {name : Name} {node : Node}
variable {entries : List (Name × Node)}

/-- Every directory is in order, and relative paths start in one. -/
structure Orderly (fs : FileSystem) : Prop where
  root : fs.root.Orderly
  home : fs.kindAt fs.home = some .directory

instance (fs : FileSystem) : Decidable fs.Orderly :=
  decidable_of_iff (fs.root.Orderly ∧ fs.kindAt fs.home = some .directory)
    ⟨fun ⟨hroot, hhome⟩ => ⟨hroot, hhome⟩, fun h => ⟨h.root, h.home⟩⟩

namespace Orderly

theorem home_ne_none (h : fs.Orderly) : fs.kindAt fs.home ≠ none := by simp [h.home]

theorem child (h : Node.Orderly (.directory entries)) (hl : entries.lookup name = some node) :
    IsEntryName name ∧ node.Orderly := by
  cases h with
  | directory _ hnames hnodes =>
    have hm := Node.mem_of_lookup hl
    exact ⟨hnames _ hm, hnodes _ hm⟩

theorem of_node? (h : fs.Orderly) (hn : fs.node? location = some node) : node.Orderly := by
  induction location generalizing node with
  | nil =>
    cases hn
    exact h.root
  | cons name parent ih =>
    obtain ⟨siblings, hp, hl⟩ := exists_siblings hn
    exact (child (ih hp) hl).2

theorem entryName (h : fs.Orderly) (hk : fs.kindAt (name :: parent) ≠ none) :
    IsEntryName name := by
  obtain ⟨kind, hk⟩ := Option.ne_none_iff_exists'.mp hk
  obtain ⟨node, hn, -⟩ := exists_node_of_kindAt hk
  obtain ⟨siblings, hp, hl⟩ := exists_siblings hn
  exact (child (h.of_node? hp) hl).1

theorem inOrder (h : fs.Orderly) (hn : fs.node? location = some (.directory entries)) :
    InOrder entries := by
  cases h.of_node? hn with
  | directory hin => exact hin

theorem update (h : fs.Orderly) {change : List (Name × Node) → List (Name × Node)}
    (hn : fs.node? location = some (.directory entries))
    (hc : Node.Orderly (.directory (change entries))) :
    (fs.update location change).root.Orderly := by
  induction location generalizing change entries with
  | nil =>
    have he : fs.entries = entries := by simpa [FileSystem.root] using hn
    simpa [FileSystem.update, FileSystem.root, he] using hc
  | cons name parent ih =>
    obtain ⟨siblings, hp, hl⟩ := exists_siblings hn
    refine ih hp ?_
    simp only [hl]
    exact (h.of_node? hp).insert (child (h.of_node? hp) hl).1 hc

theorem put (h : fs.Orderly) (hname : IsEntryName name) (hnode : node.Orderly)
    (hhome : (fs.put parent name node).kindAt fs.home = some .directory) :
    (fs.put parent name node).Orderly := by
  refine ⟨?_, by rwa [home_put]⟩
  unfold FileSystem.put
  split
  · next entries hd => exact h.update hd ((h.of_node? hd).insert hname hnode)
  · exact h.root

/-- A file system in order is known by what stands where. -/
theorem ext (h : fs.Orderly) (h' : fs'.Orderly) (hhome : fs.home = fs'.home)
    (hk : fs.kindAt = fs'.kindAt) : fs = fs' := by
  have hnode (node : Node) : ∀ location node', fs.node? location = some node →
      fs'.node? location = some node' → node = node' := by
    induction hsize : sizeOf node using Nat.strong_induction_on generalizing node with
    | h size ih =>
      intro location node' hn hn'
      have hkind : node.kind = node'.kind := by
        have := congrFun hk location
        rwa [kindAt_of_node? hn, kindAt_of_node? hn', Option.some.injEq] at this
      match node, node' with
      | .file _, .file _ | .link _, .link _ => simpa [Node.kind] using hkind
      | .file _, .link _ | .file _, .directory _ | .link _, .file _ | .link _, .directory _
      | .directory _, .file _ | .directory _, .link _ => cases hkind
      | .directory entries, .directory entries' =>
        refine congrArg _ ((h.inOrder hn).ext (h'.inOrder hn') fun name => ?_)
        have hname := congrFun hk (name :: location)
        rw [kindAt_child hn, kindAt_child hn'] at hname
        cases hl : entries.lookup name with
        | none =>
          rw [hl, Option.map_none] at hname
          exact (Option.map_eq_none_iff.mp hname.symm).symm
        | some child =>
          obtain ⟨child', hl', -⟩ : ∃ child', entries'.lookup name = some child' ∧
              child'.kind = child.kind := by simpa [hl] using hname.symm
          have hlt : sizeOf child < size := by
            have := List.sizeOf_lt_of_mem (Node.mem_of_lookup hl)
            simp only [← hsize, Node.directory.sizeOf_spec, Prod.mk.sizeOf_spec] at this ⊢
            omega
          rw [hl', ih _ hlt child rfl (name :: location) child'
            (by simp [hn, Node.child?, Node.entries, hl])
            (by simp [hn', Node.child?, Node.entries, hl'])]
  obtain ⟨entries, home⟩ := fs
  obtain ⟨entries', home'⟩ := fs'
  obtain rfl : home = home' := hhome
  have hroot := hnode (.directory entries) [] (.directory entries') rfl rfl
  cases hroot
  rfl

/-- What a directory lists depends on what stands in it. -/
theorem map_entries_eq {β : Type} {entries' : List (Name × Node)} (f : Kind → β)
    (h : fs.Orderly) (h' : fs'.Orderly) {location' : Location}
    (hn : fs.node? location = some (.directory entries))
    (hn' : fs'.node? location' = some (.directory entries'))
    (hk : ∀ name, (fs.kindAt (name :: location)).map f = (fs'.kindAt (name :: location')).map f) :
    entries.map (fun entry => (entry.1, f entry.2.kind)) =
      entries'.map fun entry => (entry.1, f entry.2.kind) := by
  let g (node : Node) : β := f node.kind
  refine ((h.inOrder hn).map g).ext ((h'.inOrder hn').map g) fun name => ?_
  have hname := hk name
  rw [kindAt_child hn, kindAt_child hn', Option.map_map, Option.map_map] at hname
  exact (InOrder.lookup_map g entries name).trans
    (hname.trans (InOrder.lookup_map g entries' name).symm)

end Orderly
end FileSystem
end TreePool

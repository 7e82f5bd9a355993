import TreePool.Proofs.Tree.Plan
import TreePool.Proofs.Workshop.Copying

/-! # What a copy adds

A copy puts new things only on the way to its destination and below it, each at the place of an item
of its source. This holds as long as no link stands there, since then the path of a target leads
straight down from what was there when the copy began.
-/

namespace TreePool
namespace Tree

open FileSystem

variable {fs fs' made copied : FileSystem} {destination path : Path} {base : Location}
variable {missing names : List Name} {item : Item} {tour : List Location} {name : Name}

/-! ## Targets -/

theorem steps_target (h : ∀ name ∈ item.names, IsEntryName name) :
    (target destination item).steps = destination.steps ++ item.names := by
  have hnames := fun name hm => (h name hm).toIsName
  unfold target
  split_ifs with hd
  · have hnil : item.names = [] := List.length_eq_zero_iff.mp hd.1
    rw [hnil, List.append_nil]
  · rw [Path.steps_join (Path.isAbsolute_relative hnames), Path.steps_relative hnames]

theorem isAbsolute_target (h : ∀ name ∈ item.names, IsEntryName name) :
    (target destination item).isAbsolute = destination.isAbsolute := by
  unfold target
  split_ifs with hd
  · rfl
  · have hrelative := Path.isAbsolute_relative fun name hm => (h name hm).toIsName
    by_cases he : destination.isEmpty = true
    · have hbytes : destination.bytes = [] := by simpa [Path.isEmpty] using he
      rw [Path.join, if_neg (by simp [hrelative]), he, Bool.true_or, if_pos rfl, hbytes,
        List.nil_append]
      rw [hrelative, Path.isAbsolute, hbytes]
      rfl
    · exact Path.isAbsolute_join (by simpa using he) hrelative

theorem names_target (h : ∀ name ∈ item.names, IsEntryName name) (hne : item.names ≠ []) :
    (target destination item).names = destination.steps ++ item.names := by
  have hnames := fun name hm => (h name hm).toIsName
  have hslash : (target destination item).endsInSlash = false := by
    unfold target
    rw [if_neg fun hd => hne (List.length_eq_zero_iff.mp hd.1),
      Path.endsInSlash_join (Path.isEmpty_relative hnames hne) (Path.isAbsolute_relative hnames)]
    exact Path.endsInSlash_relative hnames
  rw [Path.names_eq, steps_target h, hslash]
  simp

/-! ## Growth -/

/-- What a file system became: it extends what it was, and only some places are new, where no links
stand. -/
structure Grown (fs : FileSystem) (allowed : Location → Prop) (fs' : FileSystem) : Prop where
  extended : Extends fs fs'
  orderly : fs'.Orderly
  new : ∀ location, fs.kindAt location = none → fs'.kindAt location ≠ none → allowed location
  links : ∀ location target, fs'.kindAt location = some (.link target) →
    fs.kindAt location = some (.link target)

namespace Grown

variable {allowed : Location → Prop}

theorem refl (h : fs.Orderly) (allowed : Location → Prop) : Grown fs allowed fs :=
  ⟨.refl _, h, fun _ hn hk => absurd hn hk, fun _ _ => id⟩

theorem update (h : Grown fs allowed fs') {location : Location} {kind : Kind}
    (hx : Extends fs' made) (horderly : made.Orderly)
    (hk : made.kindAt = Function.update fs'.kindAt location (some kind))
    (hlink : ∀ target, kind ≠ .link target)
    (hallowed : fs'.kindAt location = none → allowed location) : Grown fs allowed made := by
  refine ⟨h.extended.trans hx, horderly, fun place hnone hsome => ?_, fun place target hl => ?_⟩
  · rw [hk] at hsome
    by_cases hp : place = location
    · subst hp
      by_cases hfree : fs'.kindAt place = none
      · exact hallowed hfree
      · exact h.new place hnone hfree
    · rw [Function.update_of_ne hp] at hsome
      exact h.new place hnone hsome
  · rw [hk] at hl
    by_cases hp : place = location
    · subst hp
      rw [Function.update_self] at hl
      exact absurd (Option.some.inj hl) (hlink target)
    · rw [Function.update_of_ne hp] at hl
      exact h.links place target hl

theorem makeDirectory (h : Grown fs allowed fs') (hm : fs'.makeDirectory path = .ok made)
    (hallowed : ∀ directory name tour,
      Leads fs' false (fs'.origin path) path.steps tour (.ok (.free directory name)) →
        allowed (name :: directory)) : Grown fs allowed made := by
  obtain ⟨-, hg, directory, name, tour, hl, -, hk⟩ := kindAt_of_makeDirectory hm
  exact h.update hg.isExtension (h.orderly.makeDirectory hm) hk (by simp)
    fun _ => hallowed directory name tour hl

end Grown

/-! ## Where targets are -/

section Place

variable (hfs : fs.Orderly) (hx : Extends fs fs') (habove : Path.above ∉ destination.steps)
variable (hnames : ∀ name ∈ names, IsEntryName name)
variable (hlinks : ∀ front target, front <+: missing ++ names → front ≠ [] →
  fs'.kindAt (down base front) ≠ some (.link target))

include hfs hx habove hnames hlinks

theorem place_eq {front steps : List Name} {kind : Kind} {followLast : Bool} {landing : Landing}
    (hfront : Leads fs true (fs.origin destination) front tour (.ok (.taken base kind)))
    (hsteps : ∀ step ∈ steps, step ∈ destination.steps ∨ step ∈ names)
    (hplain : plain steps <+: missing ++ names) (hne : steps ≠ []) {tour' : List Location}
    (hl : Leads fs' followLast (fs'.origin destination) (front ++ steps) tour' (.ok landing)) :
    landing.place = down base (plain steps) := by
  obtain ⟨kind', -, hfront'⟩ := hx.leads hfs.home_ne_none hfront
  have horigin := hx.origin_ne_none hfs destination
  obtain ⟨middle, left, front'', back', -, hf, hb⟩ := Trail.of_append horigin hne hl
  cases (Trail.unique hf hfront').2
  refine hb.place_eq (fun hm => ?_) fun front target hpre => hlinks front target (hpre.trans hplain)
  rcases hsteps _ hm with hm | hm
  · exact habove hm
  · exact (hnames _ hm).ne_above rfl

variable (hto : Denotes fs destination base missing)

include hto

/-- A target is where the names of its item lead down to from the destination. -/
theorem place_of_target (hne : names ≠ []) {followLast : Bool} {landing : Landing}
    (hl : Leads fs' followLast (fs'.origin destination) (destination.steps ++ names) tour
      (.ok landing)) : landing.place = down base (missing ++ names) := by
  obtain ⟨front, back, kind, tour', hs, hback, hfront⟩ := hto.exists_steps
  have hplain : plain (back ++ names) = missing ++ names := by
    rw [plain_append, hback, plain_of_names fun step hm => (hnames step hm).ne_here]
  rw [hs, List.append_assoc] at hl
  rw [← hplain]
  refine place_eq hfs hx habove hnames hlinks hfront (fun step hm => ?_)
    (hplain ▸ List.prefix_rfl) (by simp [hne]) hl
  rcases List.mem_append.mp hm with hm | hm
  · exact .inl (by simp [hs, hm])
  · exact .inr hm

/-- A free place that a target or an ancestor of it leads to is on the way to the target. -/
theorem place_of_free {steps : List Name} (hsteps : steps <+: destination.steps ++ names)
    {directory : Location}
    (hl : Leads fs' false (fs'.origin destination) steps tour (.ok (.free directory name))) :
    ∃ front, front <+: missing ++ names ∧ name :: directory = down base front := by
  obtain ⟨front, back, kind, tour', hs, hback, hfront⟩ := hto.exists_steps
  obtain ⟨kind', -, hfront'⟩ := hx.leads hfs.home_ne_none hfront
  have horigin := hx.origin_ne_none hfs destination
  have hplain : plain (back ++ names) = missing ++ names := by
    rw [plain_append, hback, plain_of_names fun step hm => (hnames step hm).ne_here]
  -- Steps that lead to what was there lead to nothing free.
  have hnot : ¬ steps <+: front := by
    rintro ⟨more, rfl⟩
    obtain ⟨tour₁, location, kind₁, htaken⟩ : ∃ tour location kind,
        Leads fs' true (fs'.origin destination) steps tour (.ok (.taken location kind)) := by
      by_cases hm : more = []
      · subst hm
        rw [List.append_nil] at hfront'
        exact ⟨_, _, _, hfront'⟩
      · obtain ⟨middle, -, tour₁, -, -, hf, -⟩ := Trail.of_append horigin hm hfront'
        exact ⟨_, _, _, hf⟩
    obtain ⟨tour₂, location₂, kind₂, hun⟩ := Trail.exists_unfollowed htaken
    cases (Trail.unique hun hl).2
  rw [hs, List.append_assoc] at hsteps
  rcases List.prefix_or_prefix_of_prefix hsteps (List.prefix_append front (back ++ names)) with
    h | ⟨rest, rfl⟩
  · exact absurd h hnot
  · have hrest : rest <+: back ++ names := (List.prefix_append_right_inj front).mp hsteps
    have hne : rest ≠ [] := by
      rintro rfl
      exact hnot (by simp)
    have hpre : plain rest <+: missing ++ names := hplain ▸ plain_mono hrest
    refine ⟨plain rest, hpre, place_eq hfs hx habove hnames hlinks hfront (fun step hm => ?_)
      hpre hne hl⟩
    rcases List.mem_append.mp (hrest.subset hm) with hm | hm
    · exact .inl (by simp [hs, hm])
    · exact .inr hm

end Place

theorem steps_of_ancestor {ancestor : Path} (h : Ancestor path ancestor) :
    ancestor.steps <+: path.steps ∧ ancestor.isAbsolute = path.isAbsolute := by
  induction h with
  | refl => exact ⟨List.prefix_rfl, rfl⟩
  | @tail lower upper _ hp ih =>
    refine ⟨List.IsPrefix.trans ?_ ih.1, (Path.isAbsolute_parent? hp).trans ih.2⟩
    by_cases he : upper.isEmpty = true
    · rw [Path.steps_of_isEmpty he]
      exact List.nil_prefix
    · obtain ⟨before, last, after, hs, -⟩ := Path.steps_of_parent? hp (by simpa using he)
      rw [hs, List.append_assoc]
      exact List.prefix_append _ _

namespace Grown

variable {allowed : Location → Prop}

section

variable (h : Grown fs allowed fs') (hfs : fs.Orderly) (habove : Path.above ∉ destination.steps)
variable (hnames : ∀ name ∈ item.names, IsEntryName name)
variable (hlinks : ∀ front target, front <+: missing ++ item.names → front ≠ [] →
  fs.kindAt (down base front) ≠ some (.link target))
variable (hto : Denotes fs destination base missing)
variable (hallowed : ∀ front, front <+: missing ++ item.names → allowed (down base front))

include h hfs habove hnames hlinks hto hallowed

theorem lay : Grown fs allowed (fs'.lay (target destination item)).1 := by
  refine layUpTo_keeps _ (fun grown made ancestor ha hgrown hmade => ?_) h
  obtain ⟨hsteps, habs⟩ := steps_of_ancestor ha
  rw [steps_target hnames] at hsteps
  rw [isAbsolute_target hnames] at habs
  have horigin : grown.origin ancestor = grown.origin destination := by rw [origin, origin, habs]
  refine hgrown.makeDirectory hmade fun directory name tour hl => ?_
  rw [horigin] at hl
  obtain ⟨front, hfront, hplace⟩ := place_of_free hfs hgrown.extended habove hnames
    (fun front target hpre hne hk => hlinks front target hpre hne (hgrown.links _ _ hk)) hto hsteps
    hl
  rw [hplace]
  exact hallowed front hfront

theorem copies (hne : item.names ≠ []) {source : Path} {origin place : Location} {content : Bytes}
    (hc : Copies fs' copied source (target destination item) origin place content) :
    Grown fs allowed copied := by
  have hplace : place = down base (missing ++ item.names) := by
    obtain ⟨tour, hl⟩ := hc.leads
    have horigin : fs'.origin (target destination item) = copied.origin destination := by
      rw [hc.extended.origin_eq h.orderly.home_ne_none, FileSystem.origin, FileSystem.origin,
        isAbsolute_target hnames]
    rw [names_target hnames hne, horigin] at hl
    refine place_of_target hfs (h.extended.trans hc.extended) habove hnames
      (fun front target hpre hfront hk => hlinks front target hpre hfront ?_) hto hne hl
    rw [hc.kindAt, Function.update_apply] at hk
    split_ifs at hk
    · cases hk
    · exact h.links _ _ hk
  have hcopied : copied.Orderly := by
    obtain ⟨name, directory, hdown, hput⟩ := hc.put
    rw [hput]
    refine h.orderly.put ?_ (.file _) (hput ▸ hc.extended.keeps.directory h.orderly.home)
    obtain ⟨init, last, hlast⟩ := (List.eq_nil_or_concat item.names).resolve_left hne
    rw [hplace, hlast, List.concat_eq_append, ← List.append_assoc, down_concat] at hdown
    obtain ⟨rfl, -⟩ := List.cons.inj hdown
    exact hnames last (by simp [hlast])
  refine h.update hc.extended hcopied hc.kindAt (by simp) fun _ => ?_
  rw [hplace]
  exact hallowed _ List.prefix_rfl

end

end Grown
end Tree
end TreePool

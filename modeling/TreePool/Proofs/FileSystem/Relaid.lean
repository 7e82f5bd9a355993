import TreePool.Proofs.FileSystem.Destination

/-! # Ways laid again

To lay a way a second time comes to the same as the first time: a way that was laid is left as it
is, and one that could not be laid fails again with the same error at the same place, `lay_again`.
By then the first attempt has made directories of some names on the way, and the path leads to the
error from the last of them.
-/

namespace TreePool
namespace FileSystem

variable {fs left made : FileSystem} {path parent : Path} {base location : Location}
variable {names front rest : List Name} {fuel : Nat} {error : IoError}

/-! ## Ways that were laid -/

/-- A slash at the end of a path to a directory leads there too. -/
theorem Trail.names_of_steps {chart : Chart} {links : Nat} {tour : List Location}
    (h : Trail chart true links base path.steps tour (.ok (.taken location .directory))) :
    ∃ tour', Trail chart true links base path.names tour' (.ok (.taken location .directory)) := by
  rw [Path.names_eq]
  by_cases hslash : path.endsInSlash = true
  · have hd := h.chart_eq
    obtain ⟨more, -, happend⟩ := h.append
    obtain ⟨whole, hw, -⟩ := happend (List.cons_ne_nil Path.here []) (.stay hd (.stop hd))
    rw [if_pos hslash]
    exact ⟨whole, hw⟩
  · rw [if_neg hslash, List.append_nil]
    exact ⟨tour, h⟩

theorem makeDirectory_of_isDirectory (hfs : fs.Orderly) (h : fs.isDirectory path = true) :
    fs.makeDirectory path = .error SystemError.alreadyExists := by
  obtain ⟨hr, location, tour, hl⟩ := leads_of_isDirectory h
  obtain ⟨tour', hsteps⟩ := Trail.steps_of_names (hfs.origin_ne_none path) hl
  obtain ⟨_, _, _, hunfollowed⟩ := Trail.exists_unfollowed hsteps
  exact makeDirectory_of_leads_taken hr hunfollowed

theorem layUpTo_of_isDirectory (hfs : fs.Orderly) (h : fs.isDirectory path = true) (fuel : Nat) :
    fs.layUpTo fuel path = (fs, none) := by
  have hempty := (refusal?_eq_none_iff.mp (leads_of_isDirectory h).1).2.1
  cases fuel with
  | zero => rfl
  | succ fuel =>
    rw [layUpTo_of_error hempty (makeDirectory_of_isDirectory hfs h) (by decide), if_pos h]

theorem refusal?_of_layUpTo (he : path.isEmpty = false)
    (h : fs.layUpTo (fuel + 1) path = (made, none)) : refusal? path = none := by
  rcases layUpTo_cases h with ⟨hempty, -⟩ | hm | ⟨hd, -⟩ |
    ⟨parent, grown, -, -, -, hm | ⟨hd, -⟩⟩
  · simp [he] at hempty
  · exact (kindAt_of_makeDirectory hm).1
  · exact (leads_of_isDirectory hd).1
  · exact (kindAt_of_makeDirectory hm).1
  · exact (leads_of_isDirectory hd).1

theorem refusal?_of_lay (he : path.isEmpty = false) (h : fs.lay path = (made, none)) :
    refusal? path = none := by
  have hlength : path.length ≠ 0 := by simpa [Path.length, Path.isEmpty] using he
  obtain ⟨fuel, hfuel⟩ := Nat.exists_eq_succ_of_ne_zero hlength
  rw [lay, hfuel] at h
  exact refusal?_of_layUpTo he h

section

variable (hfs : fs.Orderly) (hfuel : path.length ≤ fuel) (habove : Path.above ∉ path.steps)

include hfs hfuel habove

theorem isDirectory_of_layUpTo (he : path.isEmpty = false)
    (h : fs.layUpTo fuel path = (made, none)) : made.isDirectory path = true := by
  have hlength : path.length ≠ 0 := by simpa [Path.length, Path.isEmpty] using he
  obtain ⟨more, rfl⟩ := Nat.exists_eq_succ_of_ne_zero (by omega : fuel ≠ 0)
  obtain ⟨base, names, hto, hlaid⟩ := laid_of_layUpTo hfs hfuel habove h
  have hx := (grows_of_layUpTo h).isExtension
  obtain ⟨tour, hsteps⟩ := hto.leads hfs.home_ne_none hx (hfs.layUpTo h) habove hlaid.way
  obtain ⟨tour', hnames⟩ := Trail.names_of_steps hsteps
  exact isDirectory_of_leads (refusal?_of_layUpTo he h) hnames

theorem layUpTo_again_of_none (h : fs.layUpTo fuel path = (made, none)) :
    made.layUpTo fuel path = (made, none) := by
  cases he : path.isEmpty with
  | true => cases fuel <;> simp [layUpTo, he]
  | false =>
    apply layUpTo_of_isDirectory (hfs.layUpTo h)
    exact isDirectory_of_layUpTo hfs hfuel habove he h

end

/-! ## Ways that could not be laid -/

theorem Trail.followed_of_error {chart : Chart} {followLast : Bool} {links : Nat}
    {tour : List Location} (h : Trail chart followLast links base names tour (.error error)) :
    Trail chart true links base names tour (.error error) := by
  generalize hl : Except.error error = landing at h
  induction h with
  | blocked hd => exact .blocked hd
  | tooLong hd hh ha hlen => exact .tooLong hd hh ha hlen
  | lost hd hn hc hr => exact .lost hd hn hc hr
  | tangled hd hn hc => exact .tangled hd hn hc (.inr rfl)
  | stay hd _ ih => exact .stay hd (ih hl)
  | climb hd _ ih => exact .climb hd (ih hl)
  | enter hd hn hc hk _ ih => exact .enter hd hn hc hk (ih hl)
  | detour hd hn hc _ _ ih => exact .detour hd hn hc (.inr rfl) (ih hl)
  | stop | vacant | halt => cases hl

/-- Some directories on the way to a path were made, not all of them, and from there the path leads
to an error. -/
structure Stuck (fs left : FileSystem) (path : Path) (error : IoError) : Prop where
  leads : ∃ tour, Leads left false (left.origin path) path.steps tour (.error error)
  laid : ∃ base front rest, Denotes fs path base (front ++ rest) ∧ front ≠ [] ∧ rest ≠ [] ∧
    Laid fs left base front

namespace Stuck

theorem extend {more : List Name} (h : Stuck fs left parent error)
    (ha : parent.isAbsolute = path.isAbsolute) (hs : path.steps = parent.steps ++ more)
    (hne : more ≠ []) : Stuck fs left path error := by
  constructor
  · obtain ⟨tour, hl⟩ := h.leads
    have horigin : left.origin path = left.origin parent := by rw [origin, origin, ha]
    rw [horigin, hs]
    exact ⟨tour, Trail.append_of_deadEnd? hne (Trail.followed_of_error hl) rfl⟩
  · obtain ⟨base, front, rest, hto, hfront, hrest, hlaid⟩ := h.laid
    refine ⟨base, front, rest ++ plain more, ?_, hfront, by simp [hrest], hlaid⟩
    rw [← List.append_assoc]
    exact hto.extend_steps (by simp [hfront]) hs ha.symm

theorem isDirectory_eq_false (h : Stuck fs left path error) : left.isDirectory path = false := by
  by_contra hd
  obtain ⟨-, location, tour, hl⟩ := leads_of_isDirectory (by simpa using hd)
  obtain ⟨tour', hstuck⟩ := h.leads
  have hsteps := Trail.followed_of_error hstuck
  rw [Path.names_eq] at hl
  split at hl
  · cases (Trail.unique (Trail.append_of_deadEnd? (List.cons_ne_nil _ _) hsteps rfl) hl).2
  · rw [List.append_nil] at hl
    cases (Trail.unique hsteps hl).2

/-- The way cannot be laid either from where it got stuck, if the parent of the path is found there,
or cannot be laid for the same reason. -/
theorem layUpTo (h : Stuck fs left path error) (hr : refusal? path = none)
    (hp : path.parent? = some parent) {failure : Option IoError}
    (hparent : left.layUpTo fuel parent = (left, failure))
    (hfailure : failure = none ∨ failure = some error) :
    left.layUpTo (fuel + 1) path = (left, some error) := by
  obtain ⟨tour, hl⟩ := h.leads
  have hempty := (refusal?_eq_none_iff.mp hr).2.1
  have hmake := makeDirectory_of_leads_error hr hl
  have hd := h.isDirectory_eq_false
  by_cases hno : error = SystemError.noEntry
  · subst hno
    rcases hfailure with rfl | rfl <;>
      simp [FileSystem.layUpTo, hempty, hmake, hp, hparent, hd]
  · rw [layUpTo_of_error hempty hmake hno, hd]
    rfl

end Stuck

/-- Where the parent of a path was laid and the path itself cannot be made, it is stuck there,
unless nothing was made at all. -/
theorem stuck_of_parent (hfs : fs.Orderly) (hleft : left.Orderly) (hg : Grows fs left)
    (hr : refusal? path = none) (habove : Path.above ∉ path.steps)
    (ha : parent.isAbsolute = path.isAbsolute) {before after : List Name} {last : Name}
    (hs : path.steps = parent.steps ++ (before ++ last :: after))
    (hbefore : ∀ step ∈ before, step = Path.here) (hlast : last ≠ Path.here)
    (hto : Denotes fs parent base names) (hlaid : Laid fs left base names)
    (h : left.makeDirectory path = .error error) : left = fs ∨ Stuck fs left path error := by
  by_cases hnames : names = []
  · subst hnames
    exact .inl (hleft.ext hfs hg.home hlaid.kindAt_eq)
  refine .inr ⟨?_, base, names, plain (before ++ last :: after),
    hto.extend_steps hnames hs ha.symm, hnames, by simp [plain_cons hlast], hlaid⟩
  obtain ⟨tour, landing, hl⟩ := exists_leads left false path path.steps
  match landing, hl with
  | .error error', hl =>
    cases (makeDirectory_of_leads_error hr hl).symm.trans h
    exact ⟨tour, hl⟩
  | .ok (.free directory name), hl =>
    cases (makeDirectory_of_leads_free hr hl).symm.trans h
  | .ok (.taken location kind), hl =>
    -- The last directory that was made is empty.
    exfalso
    have horigin : left.origin path = left.origin parent := by rw [origin, origin, ha]
    have habove' : Path.above ∉ parent.steps := fun hm => habove (by simp [hs, hm])
    obtain ⟨tour', hparent⟩ :=
      hto.leads hfs.home_ne_none hg.isExtension hleft habove' hlaid.way
    obtain ⟨middle, _, _, _, -, hfront, hback⟩ :=
      Trail.of_append (hleft.origin_ne_none path) (by simp) (hs ▸ hl)
    cases (Trail.unique (horigin ▸ hfront) hparent).2
    have hne : last ≠ Path.above := fun e => habove (by simp [hs, e])
    exact hback.not_taken_of_none hbefore hlast hne (hto.kindAt_beyond hlaid hnames last)

/-- When a way could not be laid, nothing was made, or the way is stuck at what was made; in any
case it cannot be laid from there either. -/
theorem layUpTo_stuck (hfs : fs.Orderly) (hfuel : path.length ≤ fuel)
    (habove : Path.above ∉ path.steps) (h : fs.layUpTo fuel path = (left, some error)) :
    left.layUpTo fuel path = (left, some error) ∧ (left = fs ∨ Stuck fs left path error) := by
  induction fuel generalizing path with
  | zero => cases h
  | succ fuel ih =>
    rcases layUpTo_error_cases h with rfl | ⟨hempty, hm, parent, hp, hparent⟩
    · exact ⟨h, .inl rfl⟩
    obtain ⟨before, last, after, hs, hbefore, -, hlast⟩ := steps_of_lost hfs hm hp
    have hshorter := Path.length_lt_of_parent? hp (by simp [hs])
    have habove' : Path.above ∉ parent.steps := fun hm => habove (by simp [hs, hm])
    have habs := Path.isAbsolute_parent? hp
    have hr : refusal? path = none := by
      cases hr : refusal? path with
      | none => rfl
      | some error' =>
        cases (makeDirectory_of_refusal hr).symm.trans hm
        exact absurd rfl (refusal?_ne_noEntry hempty hr)
    rcases hparent with hparent | ⟨hparent, hm', -⟩
    · obtain ⟨hagain, rfl | hstuck⟩ := ih (by omega) habove' hparent
      · exact ⟨h, .inl rfl⟩
      · have hstuck' : Stuck fs left path error := hstuck.extend habs hs (by simp)
        exact ⟨hstuck'.layUpTo hr hp hagain (.inr rfl), .inr hstuck'⟩
    · obtain ⟨base, names, hto, hlaid⟩ := laid_of_layUpTo hfs (by omega) habove' hparent
      rcases stuck_of_parent hfs (hfs.layUpTo hparent) (grows_of_layUpTo hparent) hr habove habs hs
        hbefore hlast hto hlaid hm' with rfl | hstuck
      · exact ⟨h, .inl rfl⟩
      · have hagain := layUpTo_again_of_none hfs (by omega) habove' hparent
        exact ⟨hstuck.layUpTo hr hp hagain (.inl rfl), .inr hstuck⟩

theorem lay_again (hfs : fs.Orderly) (habove : Path.above ∉ path.steps) {failure : Option IoError}
    (h : fs.lay path = (left, failure)) : left.lay path = (left, failure) := by
  cases failure with
  | none => exact layUpTo_again_of_none hfs (Nat.le_refl _) habove h
  | some error => exact (layUpTo_stuck hfs (Nat.le_refl _) habove h).1

end FileSystem
end TreePool

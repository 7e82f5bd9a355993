import TreePool.FileSystem.Permissions
import TreePool.Proofs.FileSystem.Order

/-! # Copies under permission bits

Whether a copy is written depends on the rights at the two files, `Guarded.copy_eq`. For a
privileged process the bits make no difference, `Guarded.copy_of_privileged`. For any other one they
may, when a file is copied again: the first copy gives the destination the bits of the source, and
the second one has to write a file that has them. It comes to the same when these let the owner
write, `Guarded.copy_again`. -/

namespace TreePool

namespace FileSystem

variable {fs : FileSystem}

/-! ## Files written twice -/

theorem insert_insert (name : Name) (first second : Node) (entries : List (Name × Node)) :
    Node.insert name second (Node.insert name first entries) = Node.insert name second entries := by
  induction entries with
  | nil => simp [Node.insert]
  | cons entry rest ih =>
    by_cases he : name = entry.1
    · simp [Node.insert, he]
    by_cases hlt : name < entry.1
    · simp [Node.insert, he, hlt]
    · simp [Node.insert, he, hlt, ih]

theorem update_update (fs : FileSystem) (location : Location)
    (first second : List (Name × Node) → List (Name × Node)) :
    (fs.update location first).update location second =
      fs.update location fun entries => second (first entries) := by
  induction location generalizing first second with
  | nil => rfl
  | cons name parent ih =>
    rw [update, update, ih, update]
    congr 1
    funext entries
    cases hl : entries.lookup name with
    | none => simp [hl]
    | some node => cases node <;> simp [hl, Node.lookup_insert_self, insert_insert]

theorem put_put (fs : FileSystem) (directory : Location) (name : Name) (first second : Node) :
    (fs.put directory name first).put directory name second = fs.put directory name second := by
  cases hd : fs.node? directory with
  | none => simp [put, hd]
  | some node =>
    cases node with
    | file | link => simp [put, hd]
    | directory entries => simp [put, hd, node?_update hd, update_update, insert_insert]

theorem putAt_putAt (fs : FileSystem) (location : Location) (first second : Node) :
    (fs.putAt location first).putAt location second = fs.putAt location second := by
  cases location with
  | nil => rfl
  | cons name directory => exact fs.put_put directory name first second

end FileSystem

/-! ## What writing a copy comes to -/

namespace Writing

def kind (old : Option Kind) : Writing → Option Kind
  | left => old
  | emptied => some (.file [])
  | filled content _ => some (.file content)

def permit (old : Permit) : Writing → Permit
  | filled _ permit => permit
  | _ => old

end Writing

namespace Rights

variable {rights : Rights} {location other : Location} {permit : Permit}

@[simp] theorem privileged_set : (rights.set location permit).privileged = rights.privileged := rfl

@[simp] theorem permit_set_self : (rights.set location permit).permit location = permit :=
  if_pos rfl

theorem permit_set_of_ne (h : other ≠ location) :
    (rights.set location permit).permit other = rights.permit other := if_neg h

@[simp] theorem set_set (rights : Rights) (location : Location) (first second : Permit) :
    (rights.set location first).set location second = rights.set location second := by
  simp only [set]
  congr
  funext other
  split_ifs <;> rfl

@[simp] theorem set_permit (rights : Rights) (location : Location) :
    rights.set location (rights.permit location) = rights := by
  simp only [set]
  congr
  funext other
  split_ifs with h
  · rw [h]
  · rfl

theorem ext {rights rights' : Rights} (hp : rights'.privileged = rights.privileged)
    (h : ∀ location, rights'.permit location = rights.permit location) : rights' = rights := by
  obtain ⟨privileged, permit⟩ := rights
  obtain ⟨privileged', permit'⟩ := rights'
  obtain rfl : privileged' = privileged := hp
  obtain rfl : permit' = permit := funext h
  rfl

theorem writing_congr {rights' : Rights} (hp : rights'.privileged = rights.privileged)
    (h : rights'.permit location = rights.permit location) (fresh : Bool) (content : Bytes)
    (mode : Mode) :
    rights'.writing location fresh content mode = rights.writing location fresh content mode := by
  unfold writing mayWrite maySetMode access
  rw [hp, h]

/-- A copy that is written again over what it left leaves the same, if its bits let the owner of a
file write. -/
theorem writing_again {rights' : Rights} {content : Bytes} {mode : Mode} {old : Option Kind}
    (hmode : rights.privileged = true ∨ mode.owner.write = true)
    (hprivileged : rights'.privileged = rights.privileged) {writing : Writing}
    (hwriting : rights.writing location old.isNone content mode = writing)
    (hpermit : rights'.permit location = writing.permit (rights.permit location)) :
    let again := rights'.writing location (writing.kind old).isNone content mode
    again.kind (writing.kind old) = writing.kind old ∧
      again.permit (rights'.permit location) = rights'.permit location ∧
      again.succeeds = writing.succeeds := by
  subst hwriting
  unfold writing at hpermit ⊢
  split_ifs at hpermit ⊢
  all_goals
    simp_all [mayWrite, maySetMode, access, Writing.kind, Writing.permit, Writing.succeeds,
      Mode.access]

end Rights

namespace Guarded

open FileSystem

variable {fs : Guarded FileSystem} {source destination path : Path} {origin place : Location}
variable {content : Bytes} {writing : Writing}

/-! ## Rights after writing -/

@[simp] theorem rights_perform : (fs.perform place writing).rights =
    fs.rights.set place (writing.permit (fs.rights.permit place)) := by
  cases writing <;> simp [perform, Writing.permit]

theorem perform_opens (ho : fs.state.Opens path place) (writing : Writing) :
    Extends fs.state (fs.perform place writing).state ∧
      (fs.perform place writing).state.kindAt =
        Function.update fs.state.kindAt place (writing.kind (fs.state.kindAt place)) := by
  cases writing with
  | left => exact ⟨.refl _, (Function.update_eq_self _ _).symm⟩
  | emptied => exact ⟨(ho.fills []).extended, (ho.fills []).kindAt⟩
  | filled content permit => exact ⟨(ho.fills content).extended, (ho.fills content).kindAt⟩

theorem orderly_perform {name : Name} {directory : Location} (hfs : fs.state.Orderly)
    (hname : IsEntryName name) (ho : fs.state.Opens path (name :: directory)) (writing : Writing) :
    (fs.perform (name :: directory) writing).state.Orderly := by
  have hput (content : Bytes) : (fs.state.putAt (name :: directory) (.file content)).Orderly :=
    hfs.put hname (.file _) ((ho.fills content).extended.keeps.directory hfs.home)
  cases writing with
  | left => exact hfs
  | emptied => exact hput []
  | filled content permit => exact hput content

theorem opens_perform (hh : fs.state.kindAt fs.state.home ≠ none)
    (ho : fs.state.Opens path place) (writing : Writing) :
    (fs.perform place writing).state.Opens path place := by
  cases writing with
  | left => exact ho
  | emptied => exact (ho.fills []).opens hh
  | filled content permit => exact (ho.fills content).opens hh

theorem perform_perform {again : Writing} {old : Option Kind} {permit : Permit}
    (hleft : writing ≠ .left) (hkind : again.kind (writing.kind old) = writing.kind old)
    (hpermit : again.permit (writing.permit permit) = writing.permit permit)
    (hsucceeds : again.succeeds = writing.succeeds) :
    (fs.perform place writing).perform place again = fs.perform place writing := by
  cases writing with
  | left => exact absurd rfl hleft
  | emptied =>
    cases again with
    | left => rfl
    | emptied => simp [perform, putAt_putAt]
    | filled => cases hsucceeds
  | filled content permit =>
    cases again with
    | left | emptied => cases hsucceeds
    | filled content' permit' =>
      obtain rfl : content' = content := by simpa [Writing.kind] using hkind
      obtain rfl : permit' = permit := hpermit
      simp [perform, putAt_putAt]

/-! ## Copies -/

theorem copy_of_regular?_eq_none (h : fs.state.regular? source = none) :
    fs.copy source destination = (fs, false) := by
  unfold copy
  split
  · next hf => rw [regular?_eq_some_iff.mpr hf] at h; cases h
  · rfl

theorem copy_of_mayRead_eq_false (hs : fs.state.regular? source = some (origin, content))
    (h : fs.rights.mayRead origin = false) : fs.copy source destination = (fs, false) := by
  simp [copy, regular?_eq_some_iff.mp hs, h]

theorem copy_of_not_opens (h : ∀ place, ¬ fs.state.Opens destination place) :
    fs.copy source destination = (fs, false) := by
  unfold copy
  split
  · split
    · split
      · next hf => exact absurd (opens_of_free hf) (h _)
      · next hf => exact absurd (opens_of_file hf) (h _)
      · rfl
    · rfl
  · rfl

theorem copy_eq (ho : fs.state.Opens destination place)
    (hs : fs.state.regular? source = some (origin, content))
    (hread : fs.rights.mayRead origin = true) :
    let writing :=
      fs.rights.writing place (fs.state.kindAt place).isNone (written place origin content)
      (fs.rights.permit origin).mode
    fs.copy source destination = (fs.perform place writing, writing.succeeds) := by
  rcases ho.resolve_eq with ⟨directory, name, rfl, hfree, hr⟩ | ⟨old, hold, hr⟩
  · have hne : name :: directory ≠ origin := by
      rintro rfl
      rw [kindAt_of_regular? hs] at hfree
      cases hfree
    simp [copy, regular?_eq_some_iff.mp hs, hread, hr, hfree, written, hne]
  · simp [copy, regular?_eq_some_iff.mp hs, hread, hr, hold, written]

theorem copy_cases (fs : Guarded FileSystem) (source destination : Path) :
    fs.copy source destination = (fs, false) ∨
      ∃ place writing, fs.state.Opens destination place ∧
        fs.copy source destination = (fs.perform place writing, writing.succeeds) := by
  cases hs : fs.state.regular? source with
  | none => exact .inl (copy_of_regular?_eq_none hs)
  | some found =>
    cases hread : fs.rights.mayRead found.1 with
    | false => exact .inl (copy_of_mayRead_eq_false hs hread)
    | true =>
      by_cases ho : ∃ place, fs.state.Opens destination place
      · obtain ⟨place, ho⟩ := ho
        exact .inr ⟨place, _, ho, copy_eq ho hs hread⟩
      · exact .inl (copy_of_not_opens (not_exists.mp ho))

theorem privileged_copy (fs : Guarded FileSystem) (source destination : Path) :
    (fs.copy source destination).1.rights.privileged = fs.rights.privileged := by
  rcases copy_cases fs source destination with h | ⟨place, writing, -, h⟩ <;> simp [h]

theorem extends_copy (fs : Guarded FileSystem) (source destination : Path) :
    Extends fs.state (fs.copy source destination).1.state := by
  rcases copy_cases fs source destination with h | ⟨place, writing, ho, h⟩
  · rw [h]
    exact .refl _
  · rw [h]
    exact (perform_opens ho writing).1

/-- Where the bits allow everything, a copy goes by the files alone. -/
theorem copy_of_privileged (h : fs.rights.privileged = true) :
    (fs.copy source destination).1.state =
        (fs.state.copy source destination).getD fs.state ∧
      (fs.copy source destination).2 = (fs.state.copy source destination).isSome := by
  have hread (origin : Location) : fs.rights.mayRead origin = true := by simp [Rights.mayRead, h]
  cases hs : fs.state.regular? source with
  | none =>
    rw [copy_of_regular?_eq_none hs, FileSystem.copy_of_regular?_eq_none hs]
    exact ⟨rfl, rfl⟩
  | some found =>
    by_cases ho : ∃ place, fs.state.Opens destination place
    · obtain ⟨place, ho⟩ := ho
      rw [copy_eq ho hs (hread _), ho.copy_eq hs]
      simp only [Rights.writing, Rights.mayWrite, Rights.maySetMode, h, Bool.true_or, Bool.not_true,
        Bool.false_eq_true, if_false]
      split_ifs <;> exact ⟨rfl, rfl⟩
    · rw [copy_of_not_opens (not_exists.mp ho), copy_eq_none_of_not_opens (not_exists.mp ho)]
      exact ⟨rfl, rfl⟩

section

variable (hh : fs.state.kindAt fs.state.home ≠ none) (ho : fs.state.Opens destination place)
variable (hs : fs.state.regular? source = some (origin, content))

include hh ho hs

/-- What a copy leaves at the source: only a file copied onto itself is not as it was. -/
theorem source_of_copy {mode : Mode} (hmode : mode = (fs.rights.permit origin).mode)
    (hwriting : fs.rights.writing place (fs.state.kindAt place).isNone
      (written place origin content)
      mode = writing) :
    (fs.perform place writing).rights.permit origin = fs.rights.permit origin ∧
      ∃ held, (fs.perform place writing).state.regular? source = some (origin, held) ∧
        written place origin held = written place origin content := by
  obtain ⟨hx, hkind⟩ := perform_opens ho writing
  obtain ⟨held, hheld, hs'⟩ := hx.regular? hh hs
  have horigin := kindAt_of_regular? hs
  rw [rights_perform]
  by_cases he : origin = place
  · subst he
    refine ⟨?_, held, hs', by rw [written, written, if_pos rfl, if_pos rfl]⟩
    rw [Rights.permit_set_self, ← hwriting, hmode, horigin]
    unfold Rights.writing
    split_ifs <;> simp_all [Writing.permit]
  · refine ⟨Rights.permit_set_of_ne he, held, hs', ?_⟩
    rw [hkind, Function.update_of_ne he, horigin] at hheld
    cases hheld
    rfl

theorem copy_again_of_opens (hread : fs.rights.mayRead origin = true)
    (hmode : fs.rights.privileged = true ∨ (fs.rights.permit origin).mode.owner.write = true) :
    (fs.copy source destination).1.copy source destination = fs.copy source destination := by
  have hcopy := copy_eq ho hs hread
  generalize hwriting : fs.rights.writing place (fs.state.kindAt place).isNone
    (written place origin content) (fs.rights.permit origin).mode = writing at hcopy
  by_cases hleft : writing = .left
  · subst hleft
    rw [hcopy]
    exact hcopy
  obtain ⟨hpermit, held, hs', hheld⟩ := source_of_copy hh ho hs rfl hwriting
  have hprivileged : (fs.perform place writing).rights.privileged = fs.rights.privileged := by simp
  have hplace : (fs.perform place writing).rights.permit place =
      writing.permit (fs.rights.permit place) := by simp
  have hread' : (fs.perform place writing).rights.mayRead origin = true := by
    rw [Rights.mayRead, Rights.access, hpermit, hprivileged]
    exact hread
  obtain ⟨hkind, hagain, hsucceeds⟩ := Rights.writing_again hmode hprivileged hwriting hplace
  rw [hplace] at hagain
  rw [hcopy, copy_eq (opens_perform hh ho writing) hs' hread', hheld, hpermit,
    (perform_opens ho writing).2, Function.update_self, hsucceeds]
  exact Prod.ext (perform_perform hleft hkind hagain hsucceeds) rfl

end

/-- To copy a file once more changes nothing, if the owner of a file with the bits of the source may
write that. -/
theorem copy_again (hh : fs.state.kindAt fs.state.home ≠ none)
    (hmode : ∀ origin content, fs.state.regular? source = some (origin, content) →
      fs.rights.mayRead origin = true →
        fs.rights.privileged = true ∨ (fs.rights.permit origin).mode.owner.write = true) :
    (fs.copy source destination).1.copy source destination = fs.copy source destination := by
  cases hs : fs.state.regular? source with
  | none => simp only [copy_of_regular?_eq_none hs]
  | some found =>
    obtain ⟨origin, content⟩ := found
    cases hread : fs.rights.mayRead origin with
    | false => simp only [copy_of_mayRead_eq_false hs hread]
    | true =>
      by_cases ho : ∃ place, fs.state.Opens destination place
      · obtain ⟨place, ho⟩ := ho
        exact copy_again_of_opens hh ho hs hread (hmode origin content hs hread)
      · simp only [copy_of_not_opens (not_exists.mp ho)]

end Guarded
end TreePool

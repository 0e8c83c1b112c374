import DesignLoads.Proofs.Outcomes
import DesignLoads.Proofs.Storage.Disk
import DesignLoads.Storage.Documents

/-! Saving. Either everything is written, or nothing changes but the temporary file. -/

namespace DesignLoads

namespace Path

variable {p : Path} {name : List Char}

theorem place_eq (h : p.fileName? = some name) :
    p.place = p.names.dropLast.foldl Disk.step [] ++ [name] := by
  have hup : name ≠ up := by
    rw [fileName?, Option.filter_eq_some_iff] at h
    simpa using h.2
  rw [place, names_eq_append h, List.foldl_append, List.dropLast_concat]
  exact if_neg hup

/-- The temporary file is never the file itself. -/
theorem place_temporary_ne (h : p.fileName? = some name) : p.temporary.place ≠ p.place := by
  rw [place_eq h, place]
  by_cases hlost : p.LosesName
  · -- one directory up, where the place of the file is one name further down
    rw [temporary_of_losesName h hlost, List.foldl_append]
    intro heq
    have hlength := congrArg List.length heq
    simp only [List.foldl_cons, List.foldl_nil, Disk.step, if_pos, List.length_dropLast,
      List.length_append, List.length_singleton] at hlength
    omega
  · have hup : name ++ ['.', 't', 'm', 'p'] ≠ up := fun hup => by
      simpa [up] using congrArg List.length hup
    rw [(temporary_of_not_losesName h hlost).2, List.foldl_append]
    intro heq
    have hlast : p.names.dropLast.foldl Disk.step [] ++ [name ++ ['.', 't', 'm', 'p']] =
        p.names.dropLast.foldl Disk.step [] ++ [name] := by
      rw [← heq]
      exact (if_neg hup).symm
    simpa using List.append_cancel_left hlast

/-- A path that ends in a point can only be that of a directory. -/
theorem endsInSlash_of_endsInPoint (h : p.fileName? = some name) (hpoint : p.endsInPoint) :
    p.endsInSlash := by
  obtain ⟨front, trail, hparts⟩ := exists_parts h
  rw [hparts.endsInSlash_iff]
  rintro rfl
  have hkept : [name].filter (· ≠ []) = [name] := by simp [hparts.isFileName.ne_nil]
  have hlast : ∃ before, (splitAtEach '/' p.chars).filter (· ≠ []) = before ++ [name] := by
    rw [hparts.chars, List.append_nil]
    rcases hparts.isFront with rfl | ⟨a, rfl⟩
    · exact ⟨[], by rw [List.nil_append, splitAtEach_of_notMem hparts.isFileName.slash, hkept]; rfl⟩
    · refine ⟨(splitAtEach '/' a).filter (· ≠ []), ?_⟩
      rw [List.append_assoc, List.singleton_append, splitAtEach_append,
        splitAtEach_of_notMem hparts.isFileName.slash, List.filter_append, hkept]
  obtain ⟨before, hbefore⟩ := hlast
  rw [endsInPoint, hbefore, List.getLast?_concat] at hpoint
  exact hparts.isFileName.ne_point (by simpa using hpoint)

end Path

namespace Disk

variable {d d' : Disk} {p q : Path}

/-- Whether a path leads to a place where there is a file or can be one. -/
def Takes (d : Disk) (p : Path) : Prop :=
  d.locate p = .ok p.place ∧ d.entry? p.place ≠ some .directory

theorem AgreeBut.takes {places : List Place} (h : d.AgreeBut d' places) (ht : d.Takes p) :
    d'.Takes p :=
  ⟨h.locate ht.1, fun hdirectory => ht.2 ((h.directory_iff _).mpr hdirectory)⟩

/-- What a write does when it is possible, and when it is. -/
theorem write_eq_ok_iff {content : ByteArray} : d.write p content = .ok d' ↔
    d.Takes p ∧ p.endsInSlash = false ∧ d' = d.put p.place (.file content) := by
  unfold write
  rw [bind_eq_ok_iff]
  constructor
  · rintro ⟨x, hlocate, h⟩
    obtain rfl := place_of_locate hlocate
    split at h
    · cases h
    · next hdirectory =>
      split_ifs at h with hslash
      cases h
      exact ⟨⟨hlocate, hdirectory⟩, by simpa using hslash, rfl⟩
  · rintro ⟨⟨hlocate, hdirectory⟩, hslash, rfl⟩
    refine ⟨p.place, hlocate, ?_⟩
    split
    · next hentry => exact absurd hentry hdirectory
    · rw [hslash]
      rfl

theorem remove_eq_ok_iff : d.remove p = .ok d' ↔ ∃ content, d.locate p = .ok p.place ∧
    d.entry? p.place = some (.file content) ∧ d' = ⟨d.entries.erase p.place.key⟩ := by
  unfold remove
  rw [bind_eq_ok_iff]
  constructor
  · rintro ⟨x, hlocate, h⟩
    obtain rfl := place_of_locate hlocate
    split at h
    · next content hentry =>
      cases h
      exact ⟨content, hlocate, hentry, rfl⟩
    · cases h
    · cases h
  · rintro ⟨content, hlocate, hentry, rfl⟩
    refine ⟨p.place, hlocate, ?_⟩
    rw [hentry]

/-- A file is moved to a path that takes one and does not look like that of a directory. -/
theorem rename_eq_ok_iff : d.rename p q = .ok d' ↔ ∃ content, d.locate p = .ok p.place ∧
    d.entry? p.place = some (.file content) ∧ d.Takes q ∧ q.endsInPoint = false ∧
    q.endsInSlash = false ∧
    d' = put ⟨d.entries.erase p.place.key⟩ q.place (.file content) := by
  unfold rename
  rw [bind_eq_ok_iff]
  simp only [bind_eq_ok_iff]
  constructor
  · rintro ⟨x, hsource, y, htarget, h⟩
    obtain rfl := place_of_locate hsource
    obtain rfl := place_of_locate htarget
    split at h
    · cases h
    · cases h
    · next content hentry =>
      split_ifs at h with hpoint hslash
      split at h
      · cases h
      · next hdirectory =>
        cases h
        exact ⟨content, hsource, hentry, ⟨htarget, hdirectory⟩, by simpa using hpoint,
          by simpa using hslash, rfl⟩
  · rintro ⟨content, hsource, hentry, ⟨htarget, hdirectory⟩, hpoint, hslash, rfl⟩
    refine ⟨p.place, hsource, q.place, htarget, ?_⟩
    rw [hentry, hpoint, hslash]
    cases hentry' : d.entry? q.place with
    | none => rfl
    | some e =>
      cases e with
      | file content' => rfl
      | directory => exact absurd hentry' hdirectory

theorem barring_eq_ok_iff {mishap : Option Obstacle} {operation : Except Obstacle Disk} :
    barring mishap operation = .ok d ↔ mishap = none ∧ operation = .ok d := by
  cases mishap with
  | none => exact (and_iff_right rfl).symm
  | some o => exact iff_of_false nofun nofun

/-- A walk that ends one directory up ends at a directory, since it came through there. -/
theorem walk_up_of_prefixes {place x : Place} {names : List (List Char)}
    (hprefixes : ∀ a, a <+: place → d.entry? a = some .directory)
    (h : d.walk place (names ++ [Path.up]) = .ok x) : d.entry? x = some .directory := by
  induction names generalizing place with
  | nil =>
    rw [(walk_singleton_eq_ok_iff.mp h).2]
    exact hprefixes _ (List.dropLast_prefix _)
  | cons name names ih =>
    obtain ⟨next, rest, hrest⟩ := List.exists_cons_of_ne_nil
      (List.append_ne_nil_of_right_ne_nil names (List.cons_ne_nil Path.up []))
    rw [List.cons_append, hrest] at h
    obtain ⟨-, hentry, hwalk⟩ := walk_cons_eq_ok_iff.mp h
    rw [← hrest] at hwalk
    -- the walk goes on from a directory, and so are all places before it
    refine ih (fun a ha => ?_) hwalk
    unfold step at ha hentry
    split at ha
    · exact hprefixes a (ha.trans (List.dropLast_prefix _))
    · next hup =>
      rw [if_neg hup] at hentry
      rcases List.prefix_concat_iff.mp ha with rfl | ha
      · exact hentry
      · exact hprefixes a ha

/-- Where nothing but two points is left of the name, there is always a directory. -/
theorem not_takes_of_losesName {name : List Char} (h : p.fileName? = some name)
    (hlost : p.LosesName) : ¬ d.Takes p.temporary := by
  rintro ⟨hlocate, hdirectory⟩
  unfold locate at hlocate
  split_ifs at hlocate
  rw [Path.temporary_of_losesName h hlost] at hlocate
  refine hdirectory (walk_up_of_prefixes (fun a ha => ?_) hlocate)
  rw [List.prefix_nil.mp ha]
  exact d.entry?_nil

theorem Takes.endsInSlash {name : List Char} (h : p.fileName? = some name)
    (ht : d.Takes p.temporary) : p.temporary.endsInSlash = false := by
  have hkept : ¬ p.LosesName := fun hlost => not_takes_of_losesName h hlost ht
  obtain ⟨front, trail, -, hparts⟩ := Path.exists_parts_temporary h hkept
  rw [← Bool.not_eq_true, hparts.endsInSlash_iff]
  exact not_not_intro rfl

/-- Nothing stands in the way of a save: none of its steps goes wrong, and both the temporary file
and the file can be written. -/
structure Clear (m : Mishaps) (d : Disk) (p : Path) : Prop where
  create : m.create = none
  write : m.write = none
  sync : m.sync = none
  rename : m.rename = none
  temporary : d.Takes p.temporary
  target : d.Takes p
  endsInSlash : p.endsInSlash = false

/-- What a save comes to: `r` is its result and `d'` the disk afterwards. -/
structure Saved (m : Mishaps) (d : Disk) (p : Path) (content : ByteArray) (r : Except Failure Unit)
    (d' : Disk) : Prop where
  ok_iff : r = .ok () ↔ Clear m d p
  complete : r = .ok () → d'.read p = .ok content ∧ d'.found? p.temporary = none ∧
    d.AgreeBut d' [p.place, p.temporary.place]
  nothing : ∀ e, r = .error e → d.AgreeBut d' [p.temporary.place]
  removed : ∀ reason, r = .error (.file "rename to final" p.text reason) → m.remove = none →
    d'.found? p.temporary = none

/-- A failure before the last step. -/
theorem saved_of_failure {m : Mishaps} {content : ByteArray} {operation path reason : String}
    (hoperation : operation ≠ "rename to final") (hclear : ¬ Clear m d p)
    (h : d.AgreeBut d' [p.temporary.place]) :
    Saved m d p content (.error (.file operation path reason)) d' := by
  refine ⟨iff_of_false nofun hclear, nofun, fun _ _ => h, fun reason' heq => ?_⟩
  simp only [Except.error.injEq, Failure.file.injEq] at heq
  exact absurd heq.1 hoperation

theorem agreeBut_write (d : Disk) (p : Path) (content : ByteArray) :
    d.AgreeBut ((d.write p content).toOption.getD d) [p.place] := by
  cases h : d.write p content with
  | error o => exact .refl d _
  | ok d' =>
    obtain ⟨ht, -, rfl⟩ := write_eq_ok_iff.mp h
    exact agreeBut_put content p.isProper_place ht.2

theorem agreeBut_remove (m : Option Obstacle) (d : Disk) (p : Path) :
    d.AgreeBut ((barring m (d.remove p)).toOption.getD d) [p.place] := by
  cases h : barring m (d.remove p) with
  | error o => exact .refl d _
  | ok d' =>
    obtain ⟨content, -, hentry, rfl⟩ := remove_eq_ok_iff.mp (barring_eq_ok_iff.mp h).2
    refine agreeBut_erase p.isProper_place ?_
    rw [hentry]
    nofun

/-- What has been written to a file is moved, if nothing is in the way. -/
theorem moved {content : ByteArray} (hne : p.place ≠ q.place)
    (hentry : d.entry? p.place = some (.file content)) (hlocate : d.locate p = .ok p.place)
    (h : d.rename p q = .ok d') : d'.read q = .ok content ∧ d'.found? p = none ∧
      d.AgreeBut d' [q.place, p.place] := by
  obtain ⟨content', -, hentry', ht, -, hslash, rfl⟩ := rename_eq_ok_iff.mp h
  obtain rfl : content = content' := by
    rw [hentry] at hentry'
    cases hentry'
    rfl
  have hfile : d.entry? p.place ≠ some .directory := by
    rw [hentry]
    nofun
  have herased := agreeBut_erase p.isProper_place hfile
  have ht' := herased.takes ht
  have hput := agreeBut_put content q.isProper_place ht'.2
  have hall : d.AgreeBut _ [q.place, p.place] :=
    (herased.mono (by simp)).trans (hput.mono (by simp))
  refine ⟨?_, ?_, hall⟩
  · unfold read
    rw [bind_eq_ok_iff]
    refine ⟨q.place, hall.locate ht.1, ?_⟩
    rw [entry?_put_self _ (ne_nil_of_not_directory ht'.2), hslash]
    rfl
  · rw [found?_of_locate (hall.locate hlocate), hput.same _ p.isProper_place (by simpa using hne)]
    exact entry?_erase_self (ne_nil_of_not_directory hfile)

variable {m : Mishaps} {content : ByteArray} {name : List Char}

/-- The last step of a save, when the temporary file has been written. -/
theorem saved_rename {d₂ : Disk} {outcome : Except Failure Unit × Disk}
    (hname : p.fileName? = some name) (hcreate : m.create = none) (hwrite : m.write = none)
    (hsync : m.sync = none) (ht : d.Takes p.temporary) (h : d.AgreeBut d₂ [p.temporary.place])
    (hentry : d₂.entry? p.temporary.place = some (.file content))
    (hfailed : ∀ o, barring m.rename (d₂.rename p.temporary p) = .error o →
      outcome = (.error (.file "rename to final" p.text o.reason),
        (barring m.remove (d₂.remove p.temporary)).toOption.getD d₂))
    (hdone : ∀ d₃, barring m.rename (d₂.rename p.temporary p) = .ok d₃ → outcome = (.ok (), d₃)) :
    Saved m d p content outcome.1 outcome.2 := by
  have hlocate := h.locate ht.1
  cases hrename : barring m.rename (d₂.rename p.temporary p) with
  | error o =>
    rw [hfailed o hrename]
    have hremove := agreeBut_remove m.remove d₂ p.temporary
    refine ⟨iff_of_false nofun fun hclear => ?_, nofun, fun _ _ => h.trans hremove,
      fun reason _ hm => ?_⟩
    · -- nothing would have been in the way
      have hpoint : p.endsInPoint = false := by
        by_contra hpoint
        have hslash := Path.endsInSlash_of_endsInPoint hname (by simpa using hpoint)
        rw [hclear.endsInSlash] at hslash
        cases hslash
      have hok := barring_eq_ok_iff.mpr ⟨hclear.rename, rename_eq_ok_iff.mpr
        ⟨content, hlocate, hentry, h.takes hclear.target, hpoint, hclear.endsInSlash, rfl⟩⟩
      rw [hrename] at hok
      cases hok
    · have hok := barring_eq_ok_iff.mpr
        ⟨hm, remove_eq_ok_iff.mpr ⟨content, hlocate, hentry, rfl⟩⟩
      rw [hok] at hremove
      show Disk.found? ((barring m.remove (d₂.remove p.temporary)).toOption.getD d₂) _ = _
      rw [hok, found?_of_locate (hremove.locate hlocate)]
      have hfile : d₂.entry? p.temporary.place ≠ some .directory := by
        rw [hentry]
        nofun
      exact entry?_erase_self (ne_nil_of_not_directory hfile)
  | ok d₃ =>
    rw [hdone d₃ hrename]
    obtain ⟨hmrename, hmoved⟩ := barring_eq_ok_iff.mp hrename
    obtain ⟨hread, hgone, hagree⟩ :=
      moved (Path.place_temporary_ne hname) hentry hlocate hmoved
    obtain ⟨-, -, -, htarget, -, hslash, -⟩ := rename_eq_ok_iff.mp hmoved
    refine ⟨iff_of_true rfl ⟨hcreate, hwrite, hsync, hmrename, ht, h.symm.takes htarget, hslash⟩,
      fun _ => ⟨hread, hgone, (h.mono (by simp)).trans hagree⟩, nofun, nofun⟩

/-- If the temporary file cannot be made, nothing else is done. -/
theorem save_of_create {o : Obstacle} (h : barring m.create (d.write p.temporary .empty) = .error o) :
    d.save m p content = (.error (.file "create temp file" p.temporary.text o.reason), d) := by
  simp only [save, h]

/-- The steps of a save, one after the other, with what each of them leaves behind. -/
theorem saved_save (hname : p.fileName? = some name) (m : Mishaps) (d : Disk)
    (content : ByteArray) :
    Saved m d p content (d.save m p content).1 (d.save m p content).2 := by
  cases hcreate : barring m.create (d.write p.temporary .empty) with
  | error o =>
    rw [save_of_create hcreate]
    refine saved_of_failure (by decide) (fun hclear => ?_) (.refl d _)
    have hwrite : d.write p.temporary .empty = .ok (d.put p.temporary.place (.file .empty)) :=
      write_eq_ok_iff.mpr ⟨hclear.temporary, hclear.temporary.endsInSlash hname, rfl⟩
    rw [barring_eq_ok_iff.mpr ⟨hclear.create, hwrite⟩] at hcreate
    cases hcreate
  | ok d₁ =>
    obtain ⟨hmcreate, hwrite⟩ := barring_eq_ok_iff.mp hcreate
    obtain ⟨ht, hslash, hd₁⟩ := write_eq_ok_iff.mp hwrite
    have h₁ : d.AgreeBut d₁ [p.temporary.place] := by
      rw [hd₁]
      exact agreeBut_put _ p.temporary.isProper_place ht.2
    cases hmwrite : m.write with
    | some mishap =>
      obtain ⟨n, o⟩ := mishap
      have hsave : d.save m p content =
          (.error (.file "write temp file" p.temporary.text o.reason),
            (d₁.write p.temporary (content.extract 0 n)).toOption.getD d₁) := by
        simp only [save, hcreate, hmwrite]
      rw [hsave]
      refine saved_of_failure (by decide) (fun hclear => ?_) (h₁.trans (agreeBut_write d₁ _ _))
      rw [hclear.write] at hmwrite
      cases hmwrite
    | none =>
      -- a file that has just been created can be written
      have ht₁ := h₁.takes ht
      have hwrite₁ : d₁.write p.temporary content =
          .ok (d₁.put p.temporary.place (.file content)) :=
        write_eq_ok_iff.mpr ⟨ht₁, hslash, rfl⟩
      have h₂ := h₁.trans (agreeBut_put content p.temporary.isProper_place ht₁.2)
      have hentry := d₁.entry?_put_self (.file content) (ne_nil_of_not_directory ht₁.2)
      cases hmsync : m.sync with
      | some o =>
        have hsynced (d₂ : Disk) : barring m.sync (.ok d₂) = .error o := by
          rw [hmsync]
          rfl
        have hsave : d.save m p content =
            (.error (.file "sync temp file" p.temporary.text o.reason),
              d₁.put p.temporary.place (.file content)) := by
          simp only [save, hcreate, hmwrite, hwrite₁, hsynced]
        rw [hsave]
        refine saved_of_failure (by decide) (fun hclear => ?_) h₂
        rw [hclear.sync] at hmsync
        cases hmsync
      | none =>
        have hsynced (d₂ : Disk) : barring m.sync (.ok d₂) = .ok d₂ :=
          barring_eq_ok_iff.mpr ⟨hmsync, rfl⟩
        refine saved_rename hname hmcreate hmwrite hmsync ht h₂ hentry ?_ ?_
        · intro o hrename
          simp only [save, hcreate, hmwrite, hwrite₁, hsynced, hrename]
        · intro d₃ hrename
          simp only [save, hcreate, hmwrite, hwrite₁, hsynced, hrename]

/-- A file is saved completely, or it is left as it was. The temporary file has the name of the file
with one more extension, unless nothing is left of the name but two points; it is never the file
itself. A save succeeds just if nothing stands in its way. After it the file holds the document, the
temporary file is gone, and everything else is as before; after a failure everything but the
temporary file is as before, and this is gone if it could be removed. Where nothing is left of the
name but two points, every save fails at its first step and leaves the disk as it is. -/
theorem saveRuleSet_all_or_nothing (hname : p.fileName? = some name) (s : RuleSet) :
    (¬ p.LosesName → p.temporary.chars = p.upToName ++ ['.', 't', 'm', 'p'] ∧
      p.temporary.names = p.names.dropLast ++ [name ++ ['.', 't', 'm', 'p']]) ∧
    (p.LosesName → p.temporary.names = p.names.dropLast ++ [Path.up]) ∧
    p.temporary ≠ p ∧ p.temporary.place ≠ p.place ∧
    ∀ m d r d', d.saveRuleSet m p s = (r, d') →
      (r = .ok () ↔ Clear m d p) ∧
      (r = .ok () → d'.read p = .ok s.document.toUTF8 ∧ d'.found? p.temporary = none ∧
        ∀ q : Path, q.place ≠ p.place → q.place ≠ p.temporary.place → d'.found? q = d.found? q) ∧
      (∀ e, r = .error e → ∀ q : Path, q.place ≠ p.temporary.place → d'.found? q = d.found? q) ∧
      (∀ reason, r = .error (.file "rename to final" p.text reason) → m.remove = none →
        d'.found? p.temporary = none) ∧
      (p.LosesName → d' = d ∧
        ∃ reason, r = .error (.file "create temp file" p.temporary.text reason)) := by
  have hplace := Path.place_temporary_ne hname
  refine ⟨Path.temporary_of_not_losesName hname, Path.temporary_of_losesName hname,
    fun heq => hplace (congrArg Path.place heq), hplace, fun m d r d' h => ?_⟩
  have hsaved := saved_save hname m d s.document.toUTF8
  have hsave : d.save m p s.document.toUTF8 = (r, d') := h
  rw [hsave] at hsaved
  refine ⟨hsaved.ok_iff, fun hok => ?_, fun e he q hq => ?_, hsaved.removed, fun hlost => ?_⟩
  · obtain ⟨hread, hgone, hagree⟩ := hsaved.complete hok
    exact ⟨hread, hgone, fun q hp ht => hagree.found? (by simp [hp, ht])⟩
  · exact (hsaved.nothing e he).found? (by simpa using hq)
  · cases hcreate : barring m.create (d.write p.temporary .empty) with
    | error o =>
      rw [save_of_create hcreate] at hsave
      cases hsave
      exact ⟨rfl, o.reason, rfl⟩
    | ok d₁ =>
      have hwrite := (barring_eq_ok_iff.mp hcreate).2
      exact absurd (write_eq_ok_iff.mp hwrite).1 (not_takes_of_losesName hname hlost)

/-- A new file beside another one: it is saved, and if it cannot be moved nothing is left of it. -/
theorem saveRuleSet_all_or_nothing_of_new :
    let p := Path.ofString "a.b"
    let other := Path.ofString "c"
    let s := RuleSet.empty "" .epoch
    let d := Disk.empty.provide other "x = g".toUTF8
    (∃ d', d.saveRuleSet .none p s = (.ok (), d') ∧ d'.read p = .ok s.document.toUTF8 ∧
      d'.found? (.ofString "a.b.tmp") = none ∧ d'.found? other = some (.file "x = g".toUTF8)) ∧
    ∃ d', d.saveRuleSet { Mishaps.none with rename := some .busy } p s =
        (.error (.file "rename to final" "a.b" Obstacle.busy.reason), d') ∧
      d'.found? (.ofString "a.b.tmp") = none ∧ d'.found? other = some (.file "x = g".toUTF8) := by
  intro p other s d
  obtain ⟨-, -, -, -, hsave⟩ := saveRuleSet_all_or_nothing (p := p)
    (show p.fileName? = some ['a', '.', 'b'] by decide) s
  have htemporary : p.temporary = .ofString "a.b.tmp" := by decide
  have hplaces : other.place ≠ p.place ∧ other.place ≠ p.temporary.place := by decide
  have hfound : d.found? other = some (.file "x = g".toUTF8) := rfl
  have hfree (q : Path) (hlocate : (d.locate q).toOption = some q.place)
      (hnone : d.entry? q.place = none) : d.Takes q := by
    refine ⟨?_, by simp [hnone]⟩
    cases h : d.locate q with
    | ok x => rw [place_of_locate h]
    | error o =>
      rw [h] at hlocate
      cases hlocate
  constructor
  · obtain ⟨hiff, hcomplete, -⟩ := hsave .none d _ _ (Prod.eta _).symm
    have hclear : Clear .none d p :=
      ⟨rfl, rfl, rfl, rfl,
        hfree _ (by decide) (Option.isNone_iff_eq_none.mp (by decide +kernel)),
        hfree _ (by decide) (Option.isNone_iff_eq_none.mp (by decide +kernel)), by decide⟩
    have hok := hiff.mpr hclear
    obtain ⟨hread, hgone, hothers⟩ := hcomplete hok
    rw [htemporary] at hgone
    have hothers' := (hothers other hplaces.1 hplaces.2).trans hfound
    generalize d.saveRuleSet .none p s = outcome at hok hread hgone hothers' ⊢
    exact ⟨outcome.2, Prod.ext hok rfl, hread, hgone, hothers'⟩
  · obtain ⟨-, -, hnothing, hremoved, -⟩ :=
      hsave { Mishaps.none with rename := some .busy } d _ _ (Prod.eta _).symm
    have hfailed : (d.saveRuleSet { Mishaps.none with rename := some .busy } p s).1 =
        .error (.file "rename to final" "a.b" Obstacle.busy.reason) := by decide +kernel
    have hgone := hremoved _ hfailed rfl
    rw [htemporary] at hgone
    have hothers := (hnothing _ hfailed other hplaces.2).trans hfound
    generalize d.saveRuleSet { Mishaps.none with rename := some .busy } p s = outcome
      at hfailed hgone hothers ⊢
    exact ⟨outcome.2, Prod.ext hfailed rfl, hgone, hothers⟩

/-- Of this name only two points are left, and no file can be saved under it. -/
theorem saveRuleSet_of_two_points :
    let p := Path.ofString "..b"
    p.fileName? = some ['.', '.', 'b'] ∧ p.temporary ≠ .ofString "..b.tmp" ∧
    p.temporary = .ofString ".." ∧ Disk.empty.saveRuleSet .none p (.empty "" .epoch) =
      (.error (.file "create temp file" ".." Obstacle.isDirectory.reason), .empty) :=
  ⟨by decide, by decide, by decide, rfl⟩

end Disk

end DesignLoads

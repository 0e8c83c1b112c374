import DesignLoads.Storage.Path
import Mathlib.Data.List.Induction
import Mathlib.Data.List.TakeWhile
import Mathlib.Tactic.Common

/-! The path of the temporary file. Its name is that of the file with one more extension, except
where the name of the file consists of two points and an extension and nothing is written behind
it: of such a name only the two points are left. -/

namespace DesignLoads

section Separators

variable {separator : Char}

theorem splitAtEach_ne_nil (cs : List Char) : splitAtEach separator cs ≠ [] := by
  cases cs with
  | nil => exact List.cons_ne_nil _ _
  | cons c cs =>
    unfold splitAtEach
    split
    · exact List.cons_ne_nil _ _
    · split <;> exact List.cons_ne_nil _ _

theorem splitAtEach_of_notMem {cs : List Char} (h : separator ∉ cs) :
    splitAtEach separator cs = [cs] := by
  induction cs with
  | nil => rfl
  | cons c cs ih =>
    obtain ⟨hc, hcs⟩ := List.ne_and_not_mem_of_not_mem_cons h
    rw [splitAtEach, if_neg (Ne.symm hc), ih hcs]

theorem splitAtEach_append (a b : List Char) :
    splitAtEach separator (a ++ separator :: b) =
      splitAtEach separator a ++ splitAtEach separator b := by
  induction a with
  | nil =>
    rw [List.nil_append, splitAtEach.eq_2, if_pos rfl]
    rfl
  | cons c a ih =>
    rw [List.cons_append, splitAtEach, splitAtEach, ih]
    split
    · rfl
    · -- the first part of `a` goes on with `c`
      cases h : splitAtEach separator a with
      | nil => exact absurd h (splitAtEach_ne_nil a)
      | cons p ps => rfl

/-- A text ends in what is behind its last separator. -/
theorem exists_append_of_separator (separator : Char) (cs : List Char) : ∃ front last,
    cs = front ++ last ∧ separator ∉ last ∧ (front = [] ∨ ∃ a, front = a ++ [separator]) := by
  induction cs using List.reverseRecOn with
  | nil => exact ⟨[], [], rfl, List.not_mem_nil, .inl rfl⟩
  | append_singleton cs c ih =>
    by_cases hc : c = separator
    · exact ⟨cs ++ [c], [], (List.append_nil _).symm, List.not_mem_nil, .inr ⟨cs, by rw [hc]⟩⟩
    · obtain ⟨front, last, rfl, hlast, hfront⟩ := ih
      refine ⟨front, last ++ [c], List.append_assoc .., ?_, hfront⟩
      rw [List.mem_append, List.mem_singleton, not_or]
      exact ⟨hlast, Ne.symm hc⟩

end Separators

namespace Path

theorem names_append_slash (a b : List Char) :
    names ⟨a ++ '/' :: b⟩ = names ⟨a⟩ ++ names ⟨b⟩ := by
  unfold names
  rw [splitAtEach_append, List.filter_append]

/-- What can stand in front of a name. -/
def IsFront (front : List Char) : Prop := front = [] ∨ ∃ a, front = a ++ ['/']

theorem names_append_of_isFront {front name : List Char} (hfront : IsFront front)
    (hslash : '/' ∉ name) : names ⟨front ++ name⟩ = names ⟨front⟩ ++
      [name].filter fun n => n ≠ [] && n ≠ ['.'] := by
  have hname : names ⟨name⟩ = [name].filter fun n => n ≠ [] && n ≠ ['.'] := by
    rw [names, splitAtEach_of_notMem hslash]
  rcases hfront with rfl | ⟨a, rfl⟩
  · exact hname
  · rw [List.append_assoc, List.singleton_append, names_append_slash, names_append_slash, hname]
    exact congrArg (· ++ _) (List.append_nil _).symm

/-- What can stand behind the last name and leads nowhere else. -/
inductive IsTrail : List Char → Prop
  | nil : IsTrail []
  | slash {t : List Char} : IsTrail t → IsTrail (t ++ ['/'])
  | point {t : List Char} : IsTrail t → IsTrail (t ++ ['/', '.'])

theorem IsTrail.take {t : List Char} (h : IsTrail t) (n : Nat) : IsTrail (t.take n) := by
  induction h with
  | nil => simpa using IsTrail.nil
  | @slash t ht ih =>
    by_cases hn : n ≤ t.length
    · rwa [List.take_append_of_le_length hn]
    · rw [List.take_of_length_le (by simp; omega)]
      exact ht.slash
  | @point t ht ih =>
    by_cases hn : n ≤ t.length
    · rwa [List.take_append_of_le_length hn]
    · obtain ⟨k, rfl⟩ := Nat.exists_eq_add_of_lt (Nat.lt_of_not_le hn)
      rw [Nat.add_assoc, List.take_length_add_append]
      cases k with
      | zero => exact ht.slash
      | succ k =>
        rw [List.take_of_length_le (by simp)]
        exact ht.point

theorem names_append_of_isTrail {a t : List Char} (h : IsTrail t) :
    names ⟨a ++ t⟩ = names ⟨a⟩ := by
  induction h with
  | nil => rw [List.append_nil]
  | slash _ ih =>
    rw [← List.append_assoc, names_append_slash, ih]
    exact List.append_nil _
  | point _ ih =>
    rw [← List.append_assoc, names_append_slash, ih]
    exact List.append_nil _

theorem dropSlashes_of_isTrail {t : List Char} (h : IsTrail t) (r : List Char) :
    dropSlashes (t.reverse ++ r) = dropSlashes r := by
  induction h with
  | nil => rfl
  | slash _ ih => rw [List.reverse_append, List.append_assoc]; exact ih
  | point _ ih => rw [List.reverse_append, List.append_assoc]; exact ih

theorem exists_isTrail (r : List Char) :
    ∃ t, IsTrail t ∧ r.reverse = (dropSlashes r).reverse ++ t := by
  induction r using dropSlashes.induct with
  | case1 r ih =>
    obtain ⟨t, ht, heq⟩ := ih
    refine ⟨t ++ ['/'], ht.slash, ?_⟩
    rw [List.reverse_cons, heq, List.append_assoc]
    rfl
  | case2 r ih =>
    obtain ⟨t, ht, heq⟩ := ih
    refine ⟨t ++ ['/', '.'], ht.point, ?_⟩
    rw [List.reverse_cons, List.reverse_cons, heq, List.append_assoc, List.append_assoc]
    rfl
  | case3 r hslash hpoint =>
    refine ⟨[], .nil, ?_⟩
    rw [dropSlashes, List.append_nil]
    · exact hslash
    · exact hpoint

/-- After the slashes and points at the end have been dropped, none are left. -/
theorem dropSlashes_ne (r x : List Char) :
    dropSlashes r ≠ '/' :: x ∧ dropSlashes r ≠ '.' :: '/' :: x := by
  induction r using dropSlashes.induct with
  | case1 r ih => exact ih
  | case2 r ih => exact ih
  | case3 r hslash hpoint =>
    rw [dropSlashes]
    · exact ⟨fun h => hslash x h, fun h => hpoint x h⟩
    · exact hslash
    · exact hpoint

/-- What a file can have for its name. -/
structure IsFileName (name : List Char) : Prop where
  ne_nil : name ≠ []
  ne_point : name ≠ ['.']
  ne_up : name ≠ up
  slash : '/' ∉ name

theorem dropSlashes_of_isFileName {name : List Char} (h : IsFileName name) (r : List Char) :
    dropSlashes (name.reverse ++ r) = name.reverse ++ r := by
  have hslash : '/' ∉ name.reverse := fun hmem => h.slash (List.mem_reverse.mp hmem)
  have hpoint : name.reverse ≠ ['.'] := fun heq => h.ne_point (List.reverse_eq_iff.mp heq)
  have hne : name.reverse ≠ [] := fun heq => h.ne_nil (List.reverse_eq_nil_iff.mp heq)
  generalize name.reverse = cs at hslash hpoint hne
  rw [dropSlashes]
  · rintro x heq
    cases cs with
    | nil => exact hne rfl
    | cons c cs =>
      obtain ⟨rfl, -⟩ := List.cons.inj heq
      exact hslash List.mem_cons_self
  · rintro x heq
    match cs with
    | [] => exact hne rfl
    | [c] =>
      obtain ⟨rfl, -⟩ := List.cons.inj heq
      exact hpoint rfl
    | c :: c' :: cs =>
      obtain ⟨-, htail⟩ := List.cons.inj heq
      obtain ⟨rfl, -⟩ := List.cons.inj htail
      exact hslash (List.mem_cons_of_mem _ List.mem_cons_self)

/-- A path taken apart: what leads to the directory, the name of the file, and what is behind it. -/
structure Parts (p : Path) (front name trail : List Char) : Prop where
  chars : p.chars = front ++ name ++ trail
  isFront : IsFront front
  isFileName : IsFileName name
  isTrail : IsTrail trail

namespace Parts

variable {p : Path} {front name trail : List Char}

theorem names (h : p.Parts front name trail) : p.names = Path.names ⟨front⟩ ++ [name] := by
  have hkept : [name].filter (fun n => n ≠ [] && n ≠ ['.']) = [name] := by
    simp [h.isFileName.ne_nil, h.isFileName.ne_point]
  obtain ⟨cs⟩ := p
  obtain rfl : cs = _ := h.chars
  rw [names_append_of_isTrail h.isTrail, names_append_of_isFront h.isFront h.isFileName.slash, hkept]

theorem fileName? (h : p.Parts front name trail) : p.fileName? = some name := by
  rw [Path.fileName?, h.names, List.getLast?_concat, Option.filter_some,
    if_pos (by simpa using h.isFileName.ne_up)]

theorem upToName (h : p.Parts front name trail) : p.upToName = front ++ name := by
  rw [Path.upToName, h.chars, List.reverse_append, dropSlashes_of_isTrail h.isTrail,
    List.reverse_append, dropSlashes_of_isFileName h.isFileName, ← List.reverse_append,
    List.reverse_reverse]

end Parts

/-- A path with a file name can be taken apart. -/
theorem exists_parts {p : Path} {name : List Char} (h : p.fileName? = some name) :
    ∃ front trail, p.Parts front name trail := by
  obtain ⟨cs⟩ := p
  obtain ⟨trail, htrail, hcs⟩ := exists_isTrail cs.reverse
  rw [List.reverse_reverse] at hcs
  obtain ⟨front, last, hsplit, hlast, hfront⟩ :=
    exists_append_of_separator '/' (dropSlashes cs.reverse).reverse
  have hdropped : dropSlashes cs.reverse = last.reverse ++ front.reverse := by
    rw [← List.reverse_append, ← hsplit, List.reverse_reverse]
  have hne := dropSlashes_ne cs.reverse
  rw [hdropped] at hne
  have hnames : names ⟨cs⟩ = names ⟨front⟩ ++ [last].filter fun n => n ≠ [] && n ≠ ['.'] := by
    rw [hcs, names_append_of_isTrail htrail, hsplit, names_append_of_isFront hfront hlast]
  -- an empty last part or a single point would have been dropped, unless there is no name at all
  have hproper : last ≠ [] ∧ last ≠ ['.'] := by
    by_contra hnot
    rw [not_and_or, not_not, not_not] at hnot
    have hnone : [last].filter (fun n => n ≠ [] && n ≠ ['.']) = [] := by
      rcases hnot with rfl | rfl <;> rfl
    rw [hnone, List.append_nil] at hnames
    rcases hfront with rfl | ⟨a, rfl⟩
    · rw [fileName?, hnames] at h
      cases h
    · rcases hnot with rfl | rfl
      · exact (hne a.reverse).1 (by simp)
      · exact (hne a.reverse).2 (by simp)
  have hkept : [last].filter (fun n => n ≠ [] && n ≠ ['.']) = [last] := by simp [hproper]
  rw [hkept] at hnames
  rw [fileName?, hnames, List.getLast?_concat, Option.filter_eq_some_iff] at h
  obtain ⟨hname, hup⟩ := h
  obtain rfl := Option.some.inj hname
  exact ⟨front, trail, by rw [hcs, hsplit], hfront,
    ⟨hproper.1, hproper.2, by simpa using hup, hlast⟩, htrail⟩

/-- What the search for the last point passes over. -/
theorem forall_ne_point {cs : List Char} (h : '.' ∉ cs) :
    ∀ c ∈ cs.reverse, decide (c ≠ '.') = true := by
  intro c hc
  have hne : c ≠ '.' := fun heq => h (heq ▸ List.mem_reverse.mp hc)
  simpa using hne

theorem splitName_append {stem extension : List Char} (hstem : stem ≠ [])
    (hextension : '.' ∉ extension) :
    splitName (stem ++ '.' :: extension) = (stem, some extension) := by
  have hreverse : (stem ++ '.' :: extension).reverse = extension.reverse ++ '.' :: stem.reverse := by
    rw [List.reverse_append, List.reverse_cons, List.append_assoc]
    rfl
  have hbehind := forall_ne_point hextension
  obtain ⟨c, cs, hcs⟩ := List.exists_cons_of_ne_nil (List.reverse_ne_nil_iff.mpr hstem)
  unfold splitName
  rw [hreverse, List.dropWhile_append_of_pos hbehind, List.takeWhile_append_of_pos hbehind,
    List.dropWhile_cons_of_neg (by decide), List.takeWhile_cons_of_neg (by decide), hcs]
  show ((c :: cs).reverse, some (extension.reverse ++ []).reverse) = _
  rw [← hcs, List.reverse_reverse, List.append_nil, List.reverse_reverse]

/-- A name has an extension if there is a point in it, not at its head; the last such point counts. -/
theorem splitName_cases (name : List Char) : splitName name = (name, none) ∨
    ∃ stem extension, name = stem ++ '.' :: extension ∧ stem ≠ [] ∧ '.' ∉ extension ∧
      splitName name = (stem, some extension) := by
  obtain ⟨front, last, rfl, hlast, rfl | ⟨stem, rfl⟩⟩ := exists_append_of_separator '.' name
  · refine .inl ?_
    rw [splitName, List.nil_append, List.dropWhile_eq_nil_iff.mpr (forall_ne_point hlast)]
  · rw [List.append_assoc, List.singleton_append]
    by_cases hstem : stem = []
    · refine .inl ?_
      subst hstem
      rw [splitName, List.nil_append, List.reverse_cons,
        List.dropWhile_append_of_pos (forall_ne_point hlast)]
      rfl
    · exact .inr ⟨stem, last, rfl, hstem, hlast, splitName_append hstem hlast⟩

/-- A name of which a part of the extension is left is a name, unless it is two points. -/
theorem IsFileName.cut {stem extension : List Char} {n : Nat}
    (h : IsFileName (stem ++ '.' :: extension)) (hstem : stem ≠ []) (hn : stem = ['.'] → n ≠ 0) :
    IsFileName (stem ++ '.' :: extension.take n) := by
  have hlength := List.length_pos_iff.mpr hstem
  refine ⟨by simp, ?_, ?_, ?_⟩
  · intro heq
    have := congrArg List.length heq
    simp only [List.length_append, List.length_cons, List.length_nil] at this
    omega
  · -- two points alone: the stem would be one, and nothing would be left of the extension
    intro heq
    obtain ⟨rfl, hrest⟩ := List.append_inj (show _ = ['.'] ++ ['.'] from heq) (by
      have := congrArg List.length heq
      simp only [up, List.length_append, List.length_cons, List.length_nil] at this ⊢
      omega)
    rcases List.take_eq_nil_iff.mp (List.cons.inj hrest).2 with hzero | rfl
    · exact hn rfl hzero
    · exact h.ne_up rfl
  · have hslash := h.slash
    rw [List.mem_append, List.mem_cons, not_or, not_or] at hslash ⊢
    exact ⟨hslash.1, hslash.2.1, fun hmem => hslash.2.2 (List.mem_of_mem_take hmem)⟩

namespace Parts

variable {p : Path} {front name trail : List Char}

theorem stem (h : p.Parts front name trail) : p.stem = (splitName name).1 := by
  rw [Path.stem, h.fileName?]
  rfl

theorem extension? (h : p.Parts front name trail) : p.extension? = (splitName name).2 := by
  rw [Path.extension?, h.fileName?]
  rfl

theorem endsInSlash_iff (h : p.Parts front name trail) : p.endsInSlash ↔ trail ≠ [] := by
  rw [endsInSlash, h.upToName, h.chars, decide_eq_true_iff, not_iff_not]
  exact List.self_eq_append_right

theorem setExtension {stem rest : List Char} (h : p.Parts front (stem ++ rest) trail)
    (hstem : (splitName (stem ++ rest)).1 = stem) (extension : List Char) :
    p.setExtension extension = ⟨front ++ stem ++ '.' :: extension⟩ := by
  have hcut : p.upToStem = front ++ stem := by
    rw [upToStem, h.upToName, h.fileName?, h.stem, hstem, ← List.append_assoc]
    refine List.take_left' ?_
    simp only [Option.getD_some, List.length_append]
    omega
  rw [Path.setExtension, h.fileName?, hcut]
  rfl

/-- If something is left of the name, the temporary file has the name with one more extension. -/
theorem temporary (h : p.Parts front name trail) (hkept : ¬ (p.stem = ['.'] ∧ trail = [])) :
    p.temporary = ⟨front ++ (name ++ ['.', 't', 'm', 'p'])⟩ := by
  rw [h.stem] at hkept
  rcases splitName_cases name with hsplit | ⟨stem, extension, rfl, hstem, hextension, hsplit⟩
  · -- there is no extension, and nothing is cut off
    have hall : p.chars.take (p.chars.length - ([] : List Char).length) = p.chars :=
      List.take_length
    rw [← List.append_nil name] at h hsplit
    rw [Path.temporary, h.extension?, hsplit, withExtension, h.extension?, hsplit, Option.getD_none,
      hall, h.setExtension (by rw [hsplit, List.append_nil]), List.append_assoc]
  · rw [hsplit] at hkept
    -- what is cut off at the end leaves the stem and the point behind it
    have hcut : p.chars.take (p.chars.length - extension.length) =
        front ++ (stem ++ '.' :: extension.take trail.length) ++
          trail.take (trail.length - extension.length) := by
      have hchars : p.chars = front ++ (stem ++ ['.']) ++ (extension ++ trail) := by
        rw [h.chars]
        simp
      have hlength : p.chars.length - extension.length =
          (front ++ (stem ++ ['.'])).length + trail.length := by
        rw [hchars]
        simp only [List.length_append]
        omega
      rw [hlength, hchars, List.take_length_add_append, List.take_append]
      simp
    have htail : '.' ∉ extension.take trail.length :=
      fun hmem => hextension (List.mem_of_mem_take hmem)
    have hname : IsFileName (stem ++ '.' :: extension.take trail.length) :=
      h.isFileName.cut hstem fun hpoint hzero =>
        hkept ⟨hpoint, List.length_eq_zero_iff.mp hzero⟩
    have hparts : Parts ⟨p.chars.take (p.chars.length - extension.length)⟩ front
        (stem ++ '.' :: extension.take trail.length) (trail.take (trail.length - extension.length)) :=
      ⟨hcut, h.isFront, hname, h.isTrail.take _⟩
    rw [Path.temporary, h.extension?, hsplit, withExtension, h.extension?, hsplit, Option.getD_some,
      hparts.setExtension (by rw [splitName_append hstem htail])]
    simp

/-- If nothing is left of the name but two points, they lead one directory up. -/
theorem temporary_of_lost (h : p.Parts front name []) (hstem : p.stem = ['.']) :
    p.temporary = ⟨front ++ up⟩ := by
  rw [h.stem] at hstem
  rcases splitName_cases name with hsplit | ⟨stem, extension, rfl, -, -, hsplit⟩
  · rw [hsplit] at hstem
    exact absurd hstem h.isFileName.ne_point
  · rw [hsplit] at hstem
    obtain rfl : stem = ['.'] := hstem
    have hcut : p.chars.take (p.chars.length - extension.length) = front ++ up := by
      have hchars : p.chars = front ++ up ++ extension := by
        rw [h.chars]
        simp [up]
      rw [hchars, List.length_append, Nat.add_sub_cancel, List.take_left]
    have hnone : (⟨front ++ up⟩ : Path).fileName? = none := by
      rw [Path.fileName?, names_append_of_isFront h.isFront (by decide)]
      show ((Path.names ⟨front⟩ ++ [up]).getLast?).filter (· ≠ up) = none
      rw [List.getLast?_concat]
      rfl
    rw [Path.temporary, h.extension?, hsplit, withExtension, h.extension?, hsplit, Option.getD_some,
      hcut, Path.setExtension, hnone]
    rfl

end Parts

/-- Whether two points are all that is left of the name of the file when its extension is cut off:
they are the name's beginning, there is no other point in it, and nothing stands behind it. -/
def LosesName (p : Path) : Prop := p.stem = ['.'] ∧ ¬ p.endsInSlash

theorem names_eq_append {p : Path} {name : List Char} (h : p.fileName? = some name) :
    p.names = p.names.dropLast ++ [name] := by
  obtain ⟨front, trail, hparts⟩ := exists_parts h
  rw [hparts.names, List.dropLast_concat]

theorem exists_parts_temporary {p : Path} {name : List Char} (h : p.fileName? = some name)
    (hkept : ¬ p.LosesName) : ∃ front trail, p.Parts front name trail ∧
      p.temporary.Parts front (name ++ ['.', 't', 'm', 'p']) [] := by
  obtain ⟨front, trail, hparts⟩ := exists_parts h
  have heq := hparts.temporary fun hlost =>
    hkept ⟨hlost.1, fun hslash => hparts.endsInSlash_iff.mp hslash hlost.2⟩
  have hname : IsFileName (name ++ ['.', 't', 'm', 'p']) := by
    refine ⟨by simp, ?_, ?_, ?_⟩
    · intro hpoint
      simpa using congrArg List.length hpoint
    · intro hup
      simpa [up] using congrArg List.length hup
    · rw [List.mem_append, not_or]
      exact ⟨hparts.isFileName.slash, by decide⟩
  exact ⟨front, trail, hparts, by rw [heq, List.append_nil], hparts.isFront, hname, .nil⟩

theorem temporary_of_not_losesName {p : Path} {name : List Char} (h : p.fileName? = some name)
    (hkept : ¬ p.LosesName) : p.temporary.chars = p.upToName ++ ['.', 't', 'm', 'p'] ∧
      p.temporary.names = p.names.dropLast ++ [name ++ ['.', 't', 'm', 'p']] := by
  obtain ⟨front, trail, hparts, htemporary⟩ := exists_parts_temporary h hkept
  constructor
  · rw [htemporary.chars, hparts.upToName, List.append_nil, List.append_assoc]
  · rw [htemporary.names, hparts.names, List.dropLast_concat]

theorem temporary_of_losesName {p : Path} {name : List Char} (h : p.fileName? = some name)
    (hlost : p.LosesName) : p.temporary.names = p.names.dropLast ++ [up] := by
  obtain ⟨front, trail, hparts⟩ := exists_parts h
  obtain rfl : trail = [] := by
    by_contra hne
    exact hlost.2 (hparts.endsInSlash_iff.mpr hne)
  rw [hparts.temporary_of_lost hlost.1, names_append_of_isFront hparts.isFront (by decide),
    hparts.names, List.dropLast_concat]
  rfl

end Path

end DesignLoads

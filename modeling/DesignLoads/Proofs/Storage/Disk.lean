import DesignLoads.Proofs.Storage.Path
import DesignLoads.Storage.Disk

/-! What changes of files leave as it is: the directories, and with them the places that paths lead
to, and whatever is at other places. -/

namespace DesignLoads

theorem notMem_of_mem_splitAtEach {separator : Char} {cs part : List Char}
    (h : part ∈ splitAtEach separator cs) : separator ∉ part := by
  induction cs generalizing part with
  | nil =>
    rw [List.mem_singleton.mp h]
    exact List.not_mem_nil
  | cons c cs ih =>
    rw [splitAtEach] at h
    split at h
    · rcases List.mem_cons.mp h with rfl | h
      · exact List.not_mem_nil
      · exact ih h
    · next hc =>
      cases hparts : splitAtEach separator cs with
      | nil => exact absurd hparts (splitAtEach_ne_nil cs)
      | cons first rest =>
        rw [hparts] at h ih
        rcases List.mem_cons.mp h with rfl | h
        · exact List.not_mem_cons_of_ne_of_not_mem (Ne.symm hc) (ih List.mem_cons_self)
        · exact ih (List.mem_cons_of_mem _ h)

namespace Place

/-- Whether a place is made of names. -/
def IsProper (place : Place) : Prop := ∀ name ∈ place, '/' ∉ name

theorem splitAtEach_intercalate {place : Place} (hne : place ≠ []) (h : IsProper place) :
    splitAtEach '/' (List.intercalate ['/'] place) = place := by
  induction place with
  | nil => exact absurd rfl hne
  | cons name place ih =>
    have hname := splitAtEach_of_notMem (h name List.mem_cons_self)
    cases place with
    | nil =>
      rw [List.intercalate_singleton]
      exact hname
    | cons next place =>
      have hrest := ih (List.cons_ne_nil _ _) fun n hn => h n (List.mem_cons_of_mem _ hn)
      rw [List.intercalate_cons_cons, List.append_assoc, List.singleton_append, splitAtEach_append,
        hname, hrest]
      rfl

/-- Different places have different texts. -/
theorem key_injective {a b : Place} (ha : a ≠ []) (ha' : IsProper a) (hb : b ≠ [])
    (hb' : IsProper b) (h : Place.key a = Place.key b) : a = b := by
  have hchars : List.intercalate ['/'] a = List.intercalate ['/'] b := String.ofList_injective h
  calc a = splitAtEach '/' (List.intercalate ['/'] a) := (splitAtEach_intercalate ha ha').symm
    _ = splitAtEach '/' (List.intercalate ['/'] b) := congrArg _ hchars
    _ = b := splitAtEach_intercalate hb hb'

end Place

namespace Path

/-- The place that a path leads to, if there are directories on the way. -/
def place (p : Path) : Place := p.names.foldl Disk.step []

theorem isProper_place (p : Path) : Place.IsProper p.place := by
  have hnames : ∀ name ∈ p.names, '/' ∉ name := fun name hname =>
    notMem_of_mem_splitAtEach (List.mem_filter.mp hname).1
  have hstep (names : List (List Char)) (hnames : ∀ name ∈ names, '/' ∉ name) (place : Place)
      (hplace : Place.IsProper place) : Place.IsProper (names.foldl Disk.step place) := by
    induction names generalizing place with
    | nil => exact hplace
    | cons name names ih =>
      refine ih (fun n hn => hnames n (List.mem_cons_of_mem _ hn)) _ ?_
      unfold Disk.step
      split
      · exact fun n hn => hplace n (List.dropLast_subset _ hn)
      · intro n hn
        rcases List.mem_append.mp hn with hn | hn
        · exact hplace n hn
        · rw [List.mem_singleton.mp hn]
          exact hnames name List.mem_cons_self
  exact hstep p.names hnames [] nofun

end Path

namespace Disk

variable {d d' : Disk} {place : Place} {p q : Path}

theorem walk_singleton_eq_ok_iff {name : List Char} {x : Place} :
    d.walk place [name] = .ok x ↔ Unicode.byteLength name ≤ 255 ∧ x = step place name := by
  unfold walk
  split
  · next hlong => exact iff_of_false nofun fun h => absurd h.1 (Nat.not_le.mpr hlong)
  · next hshort =>
    rw [Except.ok.injEq, eq_comm]
    exact ⟨fun h => ⟨Nat.not_lt.mp hshort, h⟩, fun h => h.2⟩

theorem walk_cons_eq_ok_iff {name next : List Char} {names : List (List Char)} {x : Place} :
    d.walk place (name :: next :: names) = .ok x ↔ Unicode.byteLength name ≤ 255 ∧
      d.entry? (step place name) = some .directory ∧
      d.walk (step place name) (next :: names) = .ok x := by
  rw [walk]
  split
  · next hlong => exact iff_of_false nofun fun h => absurd h.1 (Nat.not_le.mpr hlong)
  · next hshort =>
    cases hentry : d.entry? (step place name) with
    | none => exact iff_of_false nofun nofun
    | some e =>
      cases e with
      | file content => exact iff_of_false nofun nofun
      | directory => exact ⟨fun h => ⟨Nat.not_lt.mp hshort, rfl, h⟩, fun h => h.2.2⟩
  · exact List.cons_ne_nil _ _

/-- A walk ends where the names lead. -/
theorem eq_foldl_of_walk {names : List (List Char)} {x : Place} (h : d.walk place names = .ok x) :
    x = names.foldl step place := by
  induction names generalizing place with
  | nil =>
    cases h
    rfl
  | cons name names ih =>
    cases names with
    | nil => exact (walk_singleton_eq_ok_iff.mp h).2
    | cons next names => exact ih (walk_cons_eq_ok_iff.mp h).2.2

theorem place_of_locate {x : Place} (h : d.locate p = .ok x) : x = p.place := by
  unfold locate at h
  split_ifs at h
  exact eq_foldl_of_walk h

/-- Two disks agree except for what is at some places; they have the same directories. -/
structure AgreeBut (d d' : Disk) (places : List Place) : Prop where
  directory_iff : ∀ place, d.entry? place = some .directory ↔ d'.entry? place = some .directory
  same : ∀ place, Place.IsProper place → place ∉ places → d'.entry? place = d.entry? place

namespace AgreeBut

variable {places others : List Place}

theorem refl (d : Disk) (places : List Place) : d.AgreeBut d places :=
  ⟨fun _ => Iff.rfl, fun _ _ _ => rfl⟩

theorem trans {d'' : Disk} (h : d.AgreeBut d' places) (h' : d'.AgreeBut d'' places) :
    d.AgreeBut d'' places :=
  ⟨fun x => (h.directory_iff x).trans (h'.directory_iff x),
    fun x hx hout => (h'.same x hx hout).trans (h.same x hx hout)⟩

theorem mono (h : d.AgreeBut d' places) (hsubset : places ⊆ others) : d.AgreeBut d' others :=
  ⟨h.directory_iff, fun x hx hout => h.same x hx fun hmem => hout (hsubset hmem)⟩

theorem symm (h : d.AgreeBut d' places) : d'.AgreeBut d places :=
  ⟨fun x => (h.directory_iff x).symm, fun x hx hout => (h.same x hx hout).symm⟩

/-- The same directories let the same walks through. -/
theorem walk {names : List (List Char)} {x : Place} (h : d.AgreeBut d' places)
    (hwalk : d.walk place names = .ok x) : d'.walk place names = .ok x := by
  induction names generalizing place with
  | nil => exact hwalk
  | cons name names ih =>
    cases names with
    | nil => exact walk_singleton_eq_ok_iff.mpr (walk_singleton_eq_ok_iff.mp hwalk)
    | cons next names =>
      obtain ⟨hlength, hentry, hrest⟩ := walk_cons_eq_ok_iff.mp hwalk
      exact walk_cons_eq_ok_iff.mpr ⟨hlength, (h.directory_iff _).mp hentry, ih hrest⟩

theorem locate {x : Place} (h : d.AgreeBut d' places) (hlocate : d.locate p = .ok x) :
    d'.locate p = .ok x := by
  unfold Disk.locate at hlocate ⊢
  split_ifs at hlocate ⊢
  exact h.walk hlocate

end AgreeBut

def found? (d : Disk) (p : Path) : Option Entry := (d.locate p).toOption.bind d.entry?

theorem found?_of_locate {x : Place} (h : d.locate p = .ok x) : d.found? p = d.entry? x := by
  rw [found?, h]
  rfl

/-- On disks that agree the same is found under every other path. -/
theorem AgreeBut.found? {places : List Place} (h : d.AgreeBut d' places) (hout : p.place ∉ places) :
    d'.found? p = d.found? p := by
  cases hlocate : d.locate p with
  | ok x =>
    obtain rfl := place_of_locate hlocate
    calc d'.found? p = d'.entry? p.place := found?_of_locate (h.locate hlocate)
      _ = d.entry? p.place := h.same _ p.isProper_place hout
      _ = d.found? p := (found?_of_locate hlocate).symm
  | error o =>
    -- the other disk has no more directories that would lead there
    cases hlocate' : d'.locate p with
    | ok x =>
      rw [h.symm.locate hlocate'] at hlocate
      cases hlocate
    | error o' =>
      rw [Disk.found?, Disk.found?, hlocate, hlocate']
      rfl

theorem entry?_nil (d : Disk) : d.entry? [] = some .directory := rfl

theorem ne_nil_of_not_directory (h : d.entry? place ≠ some .directory) : place ≠ [] :=
  fun heq => h (heq ▸ d.entry?_nil)

theorem entry?_of_ne_nil (h : place ≠ []) : d.entry? place = d.entries.get? place.key := by
  unfold entry?
  rw [if_neg (by simpa using h)]

theorem entry?_put_self (e : Entry) (h : place ≠ []) : entry? (d.put place e) place = some e := by
  rw [entry?_of_ne_nil h, put, NameMap.get?_insert, if_pos rfl]

theorem entry?_erase_self (h : place ≠ []) :
    entry? ⟨d.entries.erase place.key⟩ place = none := by
  rw [entry?_of_ne_nil h, NameMap.get?_erase, if_pos rfl]

/-- A change under the text of one place, where there is no directory before or after, leaves all
else as it is. -/
theorem agreeBut_of_key (hproper : Place.IsProper place) (hbefore : d.entry? place ≠ some .directory)
    (hafter : d'.entry? place ≠ some .directory)
    (hkeys : ∀ key, key ≠ place.key → d'.entries.get? key = d.entries.get? key) :
    d.AgreeBut d' [place] := by
  have hne := ne_nil_of_not_directory hbefore
  refine ⟨fun x => ?_, fun x hx hout => ?_⟩
  · by_cases hnil : x = []
    · rw [hnil]
      exact iff_of_true rfl rfl
    · rw [entry?_of_ne_nil hnil, entry?_of_ne_nil hnil]
      by_cases hkey : x.key = place.key
      · rw [hkey, ← entry?_of_ne_nil hne, ← entry?_of_ne_nil hne]
        exact iff_of_false hbefore hafter
      · rw [hkeys _ hkey]
  · by_cases hnil : x = []
    · rw [hnil]
      rfl
    · rw [entry?_of_ne_nil hnil, entry?_of_ne_nil hnil]
      refine hkeys _ fun hkey => hout ?_
      rw [Place.key_injective hnil hx hne hproper hkey]
      exact List.mem_cons_self

theorem agreeBut_put (content : ByteArray) (hproper : Place.IsProper place)
    (h : d.entry? place ≠ some .directory) :
    d.AgreeBut (d.put place (.file content)) [place] := by
  refine agreeBut_of_key hproper h ?_ fun key hkey => ?_
  · rw [entry?_put_self _ (ne_nil_of_not_directory h)]
    nofun
  · rw [put, NameMap.get?_insert, if_neg hkey]

theorem agreeBut_erase (hproper : Place.IsProper place) (h : d.entry? place ≠ some .directory) :
    d.AgreeBut ⟨d.entries.erase place.key⟩ [place] := by
  refine agreeBut_of_key hproper h ?_ fun key hkey => ?_
  · rw [entry?_erase_self (ne_nil_of_not_directory h)]
    nofun
  · rw [NameMap.get?_erase, if_neg hkey]

end Disk

end DesignLoads

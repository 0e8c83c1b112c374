/-! Finite maps keyed by names, in increasing order of name. Two maps with the same values are
equal. Names are compared character by character, which is the order of their UTF-8 bytes. -/

namespace DesignLoads

universe u

/-- A finite map from names, listed in strictly increasing order. -/
structure NameMap (β : Type u) where
  entries : List (String × β)
  sorted : entries.Pairwise fun a b => a.1 < b.1

namespace NameMap

variable {β : Type u}

instance [DecidableEq β] : DecidableEq (NameMap β) := fun a b =>
  if h : a.entries = b.entries then isTrue (by cases a; cases b; cases h; rfl)
  else isFalse fun e => h (congrArg entries e)

/-- Entries with a value set: in place of the value of the same name, or where the name belongs. -/
def insertEntry (name : String) (value : β) : List (String × β) → List (String × β)
  | [] => [(name, value)]
  | e :: es =>
    if name < e.1 then (name, value) :: e :: es
    else if name = e.1 then (name, value) :: es
    else e :: insertEntry name value es

theorem mem_insertEntry {name : String} {value : β} {es : List (String × β)} {x : String × β}
    (h : x ∈ insertEntry name value es) : x = (name, value) ∨ x ∈ es := by
  induction es with
  | nil => simpa [insertEntry] using h
  | cons e es ih => grind [insertEntry]

theorem sorted_insertEntry {name : String} {value : β} {es : List (String × β)}
    (h : es.Pairwise fun a b => a.1 < b.1) :
    (insertEntry name value es).Pairwise fun a b => a.1 < b.1 := by
  induction es with
  | nil => simp [insertEntry]
  | cons e es ih =>
    obtain ⟨head, tail⟩ := List.pairwise_cons.mp h
    simp only [insertEntry]
    split
    · next hlt =>
      refine List.pairwise_cons.mpr ⟨fun x hx => ?_, h⟩
      rcases List.mem_cons.mp hx with rfl | hx
      · exact hlt
      · exact String.lt_trans hlt (head x hx)
    · split
      · next heq => exact List.pairwise_cons.mpr ⟨fun x hx => heq ▸ head x hx, tail⟩
      · next hlt hne =>
        refine List.pairwise_cons.mpr ⟨fun x hx => ?_, ih tail⟩
        rcases mem_insertEntry hx with rfl | hx
        · exact Std.lt_of_le_of_ne (String.not_lt.mp hlt) (Ne.symm hne)
        · exact head x hx

def empty : NameMap β := ⟨[], List.Pairwise.nil⟩

instance : Inhabited (NameMap β) := ⟨empty⟩

def get? (m : NameMap β) (name : String) : Option β := m.entries.lookup name

def contains (m : NameMap β) (name : String) : Bool := (m.get? name).isSome

def insert (m : NameMap β) (name : String) (value : β) : NameMap β :=
  ⟨insertEntry name value m.entries, sorted_insertEntry m.sorted⟩

def erase (m : NameMap β) (name : String) : NameMap β :=
  ⟨m.entries.filter (·.1 ≠ name), m.sorted.filter _⟩

def size (m : NameMap β) : Nat := m.entries.length

def isEmpty (m : NameMap β) : Bool := m.entries.isEmpty

/-- The map of a list of entries; of two with one name the later counts. -/
def ofList (es : List (String × β)) : NameMap β := es.foldl (fun m e => m.insert e.1 e.2) empty

theorem lookup_insertEntry (name other : String) (value : β) (es : List (String × β)) :
    (insertEntry name value es).lookup other =
      if other = name then some value else es.lookup other := by
  induction es with
  | nil => simp only [insertEntry, List.lookup_cons, List.lookup_nil]; grind
  | cons e es ih => grind [insertEntry]

@[simp] theorem get?_empty (name : String) : (empty : NameMap β).get? name = none := rfl

theorem get?_insert (m : NameMap β) (name other : String) (value : β) :
    (m.insert name value).get? other = if other = name then some value else m.get? other :=
  lookup_insertEntry name other value m.entries

theorem contains_insert (m : NameMap β) (name other : String) (value : β) :
    (m.insert name value).contains other ↔ other = name ∨ m.contains other := by
  rw [contains, contains, get?_insert]
  split <;> simp [*]

theorem get?_erase (m : NameMap β) (name other : String) :
    (m.erase name).get? other = if other = name then none else m.get? other := by
  obtain ⟨es, hs⟩ := m
  simp only [get?, erase]
  clear hs
  induction es with
  | nil => simp
  | cons e es ih => grind

theorem lookup_eq_some_iff {es : List (String × β)} (h : es.Pairwise fun a b => a.1 < b.1)
    {name : String} {value : β} : es.lookup name = some value ↔ (name, value) ∈ es := by
  induction es with
  | nil => simp
  | cons e es ih =>
    obtain ⟨n, v⟩ := e
    obtain ⟨head, tail⟩ := List.pairwise_cons.mp h
    by_cases heq : name = n
    · subst heq
      have hno : (name, value) ∉ es := fun hv => String.lt_irrefl _ (head (name, value) hv)
      simp [hno, eq_comm]
    · rw [List.lookup_cons, beq_false_of_ne heq]
      simp [ih tail, heq]

theorem get?_eq_some_iff (m : NameMap β) {name : String} {value : β} :
    m.get? name = some value ↔ (name, value) ∈ m.entries :=
  lookup_eq_some_iff m.sorted

end NameMap

end DesignLoads

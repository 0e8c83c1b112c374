import DesignLoads.Json.Source
import DesignLoads.Proofs.Json.Texts
import DesignLoads.Proofs.LoadCase

/-! What is read from the texts of JSON values. Each reader of a part gives back what was written
for that part: numbers in range, lists, the fields of a record, and whole values. -/

namespace DesignLoads

namespace Json

open Source

/-- A finite number that its own text gives back. -/
structure Restored (x : Float) : Prop where
  finite : x.isFinite
  read : (ofText? (Layout.json.text x)).bind float? = some x

/-- A value within `depth` containers that its own text gives back: its numbers are in range, and
the members of its objects are in order of name. -/
inductive Storable : Nat → Json → Prop where
  | null {depth : Nat} : Storable depth .null
  | bool {depth : Nat} {b : Bool} : Storable depth (.bool b)
  | integer {depth : Nat} {i : Int} (hleast : -2 ^ 63 ≤ i) (hgreatest : i < 2 ^ 64) :
      Storable depth (.number (.integer i))
  | real {depth : Nat} {x : Float} (h : Restored x) : Storable depth (.number (.real x))
  | string {depth : Nat} {s : String} : Storable depth (.string s)
  | array {depth : Nat} {xs : List Json} (h : ∀ x ∈ xs, Storable depth x) :
      Storable (depth + 1) (.array xs)
  | object {depth : Nat} {ms : List (String × Json)} (hsorted : ms.Pairwise fun a b => a.1 < b.1)
      (h : ∀ m ∈ ms, Storable depth m.2) : Storable (depth + 1) (.object ms)

variable {depth : Nat} {x : Float} {j : Json} {ms : List (String × Json)}

theorem Storable.finite (h : Storable depth j) : j.Finite := by
  induction h with
  | null => exact .null
  | bool => exact .bool
  | integer hleast hgreatest => exact .number trivial
  | real h => exact .number h.finite
  | string => exact .string
  | array h ih => exact .array ih
  | object hsorted h ih => exact .object ih

theorem ofFloat_of_finite (h : x.isFinite) : ofFloat x = .number (.real x) := if_pos h

@[simp] theorem finite_ofFloat (x : Float) : (ofFloat x).Finite := by
  rw [ofFloat]
  split
  · rename_i h
    exact .number h
  · exact .null

@[simp] theorem finite_ofNat (n : Nat) : (ofNat n).Finite := .number trivial

/-! ### Numbers -/

/-- A number that its text gives back is also read within a greater text. -/
theorem Restored.number? (h : Restored x) : (Number.real x).numeral.number? = some (.real x) := by
  have hread := h.read
  -- the text is one numeral, so that what it gives back is the number of this numeral
  have htext : ofText? (Layout.json.text x) = some (.number (Number.real x).numeral) := by
    have hwrite := ofText?_write false (.number h.finite : (Json.number (.real x)).Finite)
    rwa [source] at hwrite
  rw [htext, Option.bind_some, float?, Number.number?_numeral_real h.finite,
    Option.map_map] at hread
  rw [Number.number?_numeral_real h.finite]
  have hreal : (Number.real x).numeral.real? = some x := by
    rw [← hread]
    exact Option.map_id'.symm
  rw [hreal]
  rfl

theorem float?_source (h : Restored x) : float? (ofFloat x).source = some x := by
  rw [ofFloat_of_finite h.finite, source, float?, h.number?]
  rfl

theorem nat?_source {n : Nat} (h : n < 2 ^ 64) : nat? (ofNat n).source = some n := by
  have hnumber := Number.number?_numeral_integer (i := n) (by omega) (by omega)
  rw [ofNat, source, nat?, hnumber]

/-! ### Whole values -/

theorem itemsToJson?_source {xs : List Json}
    (h : ∀ x ∈ xs, toJson? depth (source x) = some x) :
    itemsToJson? depth (xs.map source) = some xs := by
  induction xs with
  | nil => rfl
  | cons x xs ih =>
    rw [List.map_cons, itemsToJson?, h x List.mem_cons_self,
      ih fun y hy => h y (List.mem_cons_of_mem x hy)]
    rfl

theorem membersToJson?_source (h : ∀ m ∈ ms, toJson? depth (source m.2) = some m.2) :
    membersToJson? depth (ms.map fun m => (some m.1, source m.2)) = some ms := by
  induction ms with
  | nil => rfl
  | cons m ms ih =>
    obtain ⟨name, x⟩ := m
    have hx : toJson? depth (source x) = some x := h _ List.mem_cons_self
    rw [List.map_cons, membersToJson?, hx, ih fun n hn => h n (List.mem_cons_of_mem _ hn)]
    rfl

/-- A value is read back, if it is not nested deeper than what may be read. -/
theorem Storable.toJson? (h : Storable depth j) {limit : Nat} (hd : depth ≤ limit) :
    Source.toJson? limit (source j) = some j := by
  induction h generalizing limit with
  | null => rfl
  | bool => rfl
  | integer hleast hgreatest =>
    rw [source, Source.toJson?, Number.number?_numeral_integer hleast hgreatest]
    rfl
  | real h =>
    rw [source, Source.toJson?, h.number?]
    rfl
  | string => rfl
  | @array depth xs h ih =>
    obtain ⟨limit, rfl⟩ : ∃ n, limit = n + 1 := ⟨limit - 1, by omega⟩
    rw [source, sources_eq, Source.toJson?, itemsToJson?_source fun x hx => ih x hx (by omega)]
    rfl
  | @object depth ms hsorted h ih =>
    obtain ⟨limit, rfl⟩ : ∃ n, limit = n + 1 := ⟨limit - 1, by omega⟩
    -- members that are in order of name stay where they are in the map they are put into
    have hentries : (NameMap.ofList ms).entries = ms :=
      congrArg NameMap.entries (NameMap.ofList_entries ⟨ms, hsorted⟩)
    rw [source, memberSources_eq, Source.toJson?,
      membersToJson?_source fun m hm => ih m hm (by omega), Option.map_some, hentries]

/-! ### Lists, maps and records -/

theorem mapM_some {α β : Type} {g : α → Option β} {k : α → β} {as : List α}
    (h : ∀ a ∈ as, g a = some (k a)) : as.mapM g = some (as.map k) := by
  induction as with
  | nil => rfl
  | cons a as ih =>
    rw [List.mapM_cons, h a List.mem_cons_self, ih fun b hb => h b (List.mem_cons_of_mem a hb)]
    rfl

theorem list?_source {α : Type} {f : α → Json} {item? : Source → Option α} {vs : List α}
    (h : ∀ v ∈ vs, item? (source (f v)) = some v) :
    list? item? (source (.array (vs.map f))) = some vs := by
  rw [source, sources_eq, list?, List.map_map, List.mapM_map]
  exact (mapM_some h).trans (congrArg some (List.map_id' vs))

theorem members_source (ms : List (String × Json)) :
    (source (.object ms)).members = some (ms.map fun m => (m.1, source m.2)) := by
  rw [source, memberSources_eq, members, List.mapM_map]
  exact mapM_some fun _ _ => rfl

theorem map?_source {α : Type} {f : α → Json} {item? : Source → Option α} {m : NameMap α}
    (h : ∀ e ∈ m.entries, item? (source (f e.2)) = some e.2) :
    map? item? (source (.object (m.entries.map fun e => (e.1, f e.2)))) = some m := by
  have hitems : m.entries.mapM (fun e => (item? (source (f e.2))).map (e.1, ·)) =
      some m.entries := by
    refine (mapM_some fun e he => ?_).trans (congrArg some (List.map_id' m.entries))
    rw [h e he]
    rfl
  have hmap (s : Source) : map? item? s = s.members.bind fun ms =>
      (ms.mapM fun m => (item? m.2).map (m.1, ·)).bind fun ms => some (NameMap.ofList ms) := rfl
  rw [hmap, members_source, Option.bind_some, List.map_map, List.mapM_map]
  change (m.entries.mapM fun e => (item? (source (f e.2))).map (e.1, ·)).bind _ = _
  rw [hitems, Option.bind_some, m.ofList_entries]

/-- Of members with different names one at most has a given name. -/
theorem filter_name {α : Type} {es : List (String × α)} (h : (es.map (·.1)).Nodup) (name : String) :
    es.filter (·.1 = name) = ((es.lookup name).map (name, ·)).toList := by
  induction es with
  | nil => rfl
  | cons e es ih =>
    obtain ⟨n, x⟩ := e
    obtain ⟨hnew, hes⟩ := List.nodup_cons.mp h
    rw [List.lookup_cons]
    by_cases heq : n = name
    · subst heq
      have hnone : es.filter (·.1 = n) = [] := by
        rw [List.filter_eq_nil_iff]
        intro d hd hn
        have hname : d.1 = n := of_decide_eq_true hn
        exact hnew (List.mem_map.mpr ⟨d, hd, hname⟩)
      rw [List.filter_cons_of_pos (by simp), hnone, beq_self_eq_true]
      rfl
    · rw [List.filter_cons_of_neg (by simpa using heq), ih hes, beq_false_of_ne (Ne.symm heq)]

/-- The fields of a record whose names differ are those that were written, and no others. -/
theorem fields?_source (h : (ms.map (·.1)).Nodup) (names : List String) :
    (source (.object ms)).fields? names =
      some (names.map fun name => (ms.lookup name).map source) := by
  have hfilter (name : String) : (ms.map fun m => (m.1, source m.2)).filter (·.1 = name) =
      ((ms.lookup name).map fun x => (name, source x)).toList := by
    rw [List.filter_map]
    change (ms.filter (·.1 = name)).map _ = _
    rw [filter_name h]
    cases ms.lookup name <;> rfl
  have hmembers := members_source ms
  rw [source] at hmembers ⊢
  rw [fields?, hmembers]
  · apply mapM_some
    intro name _
    rw [hfilter]
    cases ms.lookup name <;> rfl
  -- a record is also read from an array, which an object is not
  · intro xs hxs
    cases hxs

@[simp] theorem string?_source (s : String) : string? (source (.string s)) = some s := rfl

@[simp] theorem bool?_source (b : Bool) : bool? (source (.bool b)) = some b := rfl

@[simp] theorem required_some {α : Type} (read : Source → Option α) (s : Source) :
    required read (some s) = read s := rfl

@[simp] theorem defaulting_some {α : Type} (default : α) (read : Source → Option α) (s : Source) :
    defaulting default read (some s) = read s := rfl

@[simp] theorem defaulting_none {α : Type} (default : α) (read : Source → Option α) :
    defaulting default read none = some default := rfl

theorem option?_source {α : Type} {item? : Source → Option α} {v : α}
    (h : item? (source j) = some v) (hj : j ≠ .null) :
    option? item? (source j) = some (some v) := by
  have hitem : option? item? (source j) = (item? (source j)).map some := by
    cases j with
    | null => exact absurd rfl hj
    | _ => rw [source]; rfl
  rw [hitem, h, Option.map_some]

/-- A field that is left out if there is nothing to write. -/
theorem optional_source {α : Type} {f : α → Json} {item? : Source → Option α} {v : Option α}
    (h : ∀ a ∈ v, item? (source (f a)) = some a) (hf : ∀ a, f a ≠ .null) :
    defaulting none (option? item?) (v.map fun a => source (f a)) = some v := by
  cases v with
  | none => rfl
  | some a => exact option?_source (h a rfl) (hf a)

/-! ### Forms -/

/-- What is written for a value is read as that value, also inside of `outer` containers. -/
structure Restores {α : Type} [Form α] (outer : Nat) (v : α) : Prop where
  finite : (toJson v).Finite
  read : Form.ofSource? outer (source (toJson v)) = some v

/-- Both texts of a value are read as that value. -/
structure Survives {α : Type} [Form α] (v : α) : Prop where
  compact : read? α (compact (toJson v)) = some v
  pretty : read? α (pretty (toJson v)) = some v

theorem Restores.survives {α : Type} [Form α] {v : α} (h : Restores 0 v) : Survives v := by
  have hread (pretty : Bool) :
      read? α (String.ofList (write pretty 0 (toJson v))) = some v := by
    rw [read?, ofText?_write pretty h.finite]
    exact h.read
  exact ⟨hread false, hread true⟩

theorem restores_list {α : Type} [Form α] {outer : Nat} {vs : List α}
    (h : ∀ v ∈ vs, Restores (outer + 1) v) : Restores outer vs := by
  constructor
  · apply Finite.array
    intro x hx
    obtain ⟨v, hv, rfl⟩ := List.mem_map.mp hx
    exact (h v hv).finite
  · exact list?_source fun v hv => (h v hv).read

end Json

end DesignLoads

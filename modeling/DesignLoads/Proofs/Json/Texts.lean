import DesignLoads.Proofs.Json.Numerals
import DesignLoads.Proofs.Json.Strings

/-! The texts of JSON values. Whether a value is written on one line or on many, its text is read
as the value, with the numerals that were written for its numbers. -/

namespace DesignLoads

namespace Json

/-- A value with a text: each of its numbers has one. -/
inductive Finite : Json → Prop where
  | null : Finite .null
  | bool {b : Bool} : Finite (.bool b)
  | number {n : Number} (h : n.Finite) : Finite (.number n)
  | string {s : String} : Finite (.string s)
  | array {xs : List Json} (h : ∀ x ∈ xs, Finite x) : Finite (.array xs)
  | object {ms : List (String × Json)} (h : ∀ m ∈ ms, Finite m.2) : Finite (.object ms)

attribute [simp] Finite.null Finite.bool Finite.string

mutual

/-- What the text of a value is read as. -/
def source : Json → Source
  | .null => .null
  | .bool b => .bool b
  | .number n => .number n.numeral
  | .string s => .string (some s)
  | .array xs => .array (sources xs)
  | .object ms => .object (memberSources ms)

def sources : List Json → List Source
  | [] => []
  | x :: xs => source x :: sources xs

def memberSources : List (String × Json) → List (Option String × Source)
  | [] => []
  | (name, x) :: ms => (some name, source x) :: memberSources ms

end

@[simp] theorem sources_eq (xs : List Json) : sources xs = xs.map source := by
  induction xs with
  | nil => rfl
  | cons x xs ih => rw [sources, ih, List.map_cons]

@[simp] theorem memberSources_eq (ms : List (String × Json)) :
    memberSources ms = ms.map fun m => (some m.1, source m.2) := by
  induction ms with
  | nil => rfl
  | cons m ms ih => rw [memberSources, ih, List.map_cons]

variable {pretty : Bool} {depth fuel : Nat} {c : Char} {s cs rest : List Char} {j : Json}

open Source

/-! ### Space -/

theorem skipSpace_append (h : ∀ c ∈ s, isSpace c) (cs : List Char) :
    skipSpace (s ++ cs) = skipSpace cs :=
  List.dropWhile_append_of_pos h

theorem skipSpace_cons (h : isSpace c = false) (cs : List Char) : skipSpace (c :: cs) = c :: cs :=
  List.dropWhile_cons_of_neg (by rw [h]; exact Bool.false_ne_true)

theorem isSpace_lineBreak : ∀ c ∈ lineBreak pretty depth, isSpace c := by
  intro c hc
  cases pretty with
  | false => cases hc
  | true =>
    obtain rfl | hc := List.mem_cons.mp hc
    · rfl
    · rw [List.eq_of_mem_replicate hc]
      rfl

/-- The space between a name and its value. -/
theorem isSpace_gap : ∀ c ∈ (if pretty then [' '] else []), isSpace c := by
  intro c hc
  cases pretty with
  | false => cases hc
  | true =>
    rw [List.mem_singleton.mp hc]
    rfl

theorem value?_append_of_space (h : ∀ c ∈ s, isSpace c) (cs : List Char) :
    value? fuel (s ++ cs) = value? fuel cs := by
  cases fuel with
  | zero => rfl
  | succ fuel => rw [value?, value?, skipSpace_append h]

theorem clear_comma : Clear Decimal.isNumeralTail (',' :: rest) := by
  intro c hc
  cases hc
  rfl

/-- After the last item or member, space or a bracket follows. -/
theorem clear_lineBreak (hc : Decimal.isNumeralTail c = false) :
    Clear Decimal.isNumeralTail (lineBreak pretty depth ++ c :: rest) := by
  intro d hd
  cases pretty with
  | false =>
    cases hd
    exact hc
  | true =>
    cases hd
    rfl

/-! ### One value -/

theorem isSpace_of_numeral (h : c = '-' ∨ c.isDigit) : isSpace c = false := by
  cases hspace : isSpace c with
  | false => rfl
  | true =>
    simp only [isSpace, Bool.or_eq_true, decide_eq_true_eq] at hspace
    obtain ((rfl | rfl) | rfl) | rfl := hspace <;> simp at h

theorem write_head (pretty : Bool) (depth : Nat) (h : j.Finite) :
    ∃ c r, write pretty depth j = c :: r ∧ isSpace c = false ∧ c ≠ ']' := by
  cases h with
  | null => exact ⟨'n', _, rfl, by decide⟩
  | @bool b => cases b <;> exact ⟨_, _, rfl, by decide⟩
  | @number n hn =>
    obtain ⟨c, r, hc, hhead⟩ := (Number.written_numeral hn).head
    refine ⟨c, r, hc, isSpace_of_numeral hhead, ?_⟩
    rintro rfl
    simp at hhead
  | string => exact ⟨'\x22', _, rfl, by decide⟩
  | @array xs hxs => cases xs <;> exact ⟨'[', _, rfl, by decide⟩
  | @object ms hms => cases ms <;> exact ⟨'\x7b', _, rfl, by decide⟩

theorem value?_number {n : Numeral} (hn : Numeral.Written cs n)
    (h : Clear Decimal.isNumeralTail rest) :
    value? (fuel + 1) (cs ++ rest) = some (.number n, rest) := by
  have hscan := Numeral.scan?_append hn h
  obtain ⟨c, r, rfl, hhead⟩ := hn.head
  rw [List.cons_append] at hscan ⊢
  rw [value?, skipSpace_cons (isSpace_of_numeral hhead)]
  split
  case h_8 =>
    rw [hscan]
    rfl
  -- no other value begins with a minus sign or a digit
  all_goals
    rename_i heq
    cases heq <;> simp at hhead

theorem scanString?_quote (name : String) (rest : List Char) :
    ∃ r, quote name ++ rest = '\x22' :: r ∧ scanString? r = some (some name, rest) := by
  refine ⟨name.toList.flatMap escape ++ '\x22' :: rest, ?_, scanString?_append name rest⟩
  rw [quote, List.cons_append, List.append_assoc, List.singleton_append]

theorem value?_string (name : String) (rest : List Char) :
    value? (fuel + 1) (quote name ++ rest) = some (.string (some name), rest) := by
  obtain ⟨r, hr, hscan⟩ := scanString?_quote name rest
  rw [hr, value?, skipSpace_cons (by decide)]
  change (scanString? r).map _ = _
  rw [hscan]
  rfl

theorem value?_array (h : Clear (· = ']') (skipSpace cs)) :
    value? (fuel + 1) ('[' :: cs) = (items? fuel cs).map fun (xs, rest) => (.array xs, rest) := by
  have hspace : skipSpace ('[' :: cs) = '[' :: cs := skipSpace_cons rfl cs
  simp only [value?, hspace]
  split
  · rename_i heq
    rw [heq] at h
    exact absurd (h ']' rfl) (by decide)
  · rfl

theorem value?_object (h : Clear (· = '\x7d') (skipSpace cs)) :
    value? (fuel + 1) ('\x7b' :: cs) =
      (members? fuel cs).map fun (ms, rest) => (.object ms, rest) := by
  have hspace : skipSpace ('\x7b' :: cs) = '\x7b' :: cs := skipSpace_cons rfl cs
  simp only [value?, hspace]
  split
  · rename_i heq
    rw [heq] at h
    exact absurd (h '\x7d' rfl) (by decide)
  · rfl

/-! ### Items and members -/

/-- The value is read from its text, whatever comes after it. No character takes more than two steps
of the reading. -/
def Reads (j : Json) : Prop :=
  ∀ (pretty : Bool) (depth fuel : Nat) (rest : List Char), Clear Decimal.isNumeralTail rest →
    2 * (write pretty depth j).length ≤ fuel + 1 →
    value? fuel (write pretty depth j ++ rest) = some (source j, rest)

theorem length_write_pos (pretty : Bool) (depth : Nat) (h : j.Finite) :
    0 < (write pretty depth j).length := by
  obtain ⟨c, r, hc, -⟩ := write_head pretty depth h
  rw [hc]
  exact Nat.succ_pos _

/-- After an item, the array ends or goes on. -/
theorem items?_succ {x : Json}
    (h : value? fuel (write pretty depth x ++ cs) = some (source x, cs)) :
    (∀ rest, skipSpace cs = ']' :: rest →
      items? (fuel + 1) (lineBreak pretty depth ++ (write pretty depth x ++ cs)) =
        some ([source x], rest)) ∧
    (∀ r, skipSpace cs = ',' :: r →
      items? (fuel + 1) (lineBreak pretty depth ++ (write pretty depth x ++ cs)) =
        (items? fuel r).bind fun q => some (source x :: q.1, q.2)) := by
  have hvalue : value? fuel (lineBreak pretty depth ++ (write pretty depth x ++ cs)) =
      some (source x, cs) := by
    rw [value?_append_of_space isSpace_lineBreak, h]
  constructor
  · intro rest hcs
    simp only [items?, hvalue, hcs, Option.bind_eq_bind, Option.bind_some]
  · intro r hcs
    simp only [items?, hvalue, hcs, Option.bind_eq_bind, Option.bind_some]

theorem writeItems_cons_append (x : Json) (xs : List Json) (cs : List Char) :
    writeItems pretty depth (x :: xs) ++ cs = ',' :: (lineBreak pretty depth ++
      (write pretty depth x ++ (writeItems pretty depth xs ++ cs))) := by
  rw [writeItems]
  simp only [List.cons_append, List.append_assoc]

theorem items?_write {x : Json} {xs : List Json} {d : Nat} (hx : ∀ y ∈ x :: xs, Finite y ∧ Reads y)
    (hfuel : 2 * ((write pretty depth x).length + (writeItems pretty depth xs).length) ≤ fuel) :
    items? fuel (lineBreak pretty depth ++ (write pretty depth x ++ (writeItems pretty depth xs ++
        (lineBreak pretty d ++ ']' :: rest)))) =
      some ((x :: xs).map source, rest) := by
  induction xs generalizing x fuel with
  | nil =>
    obtain ⟨hfinite, hreads⟩ := hx x List.mem_cons_self
    have hpos := length_write_pos pretty depth hfinite
    cases fuel with
    | zero => omega
    | succ fuel =>
      have hvalue := hreads pretty depth fuel (lineBreak pretty d ++ ']' :: rest)
        (clear_lineBreak rfl) (by omega)
      rw [writeItems, List.nil_append]
      apply (items?_succ hvalue).1
      rw [skipSpace_append isSpace_lineBreak, skipSpace_cons rfl]
  | cons y ys ih =>
    obtain ⟨hfinite, hreads⟩ := hx x List.mem_cons_self
    have hpos := length_write_pos pretty depth hfinite
    rw [writeItems, List.length_cons, List.length_append, List.length_append] at hfuel
    cases fuel with
    | zero => omega
    | succ fuel =>
      -- the comma pays for the step to the next item
      have hsize : 2 * ((write pretty depth y).length +
          (writeItems pretty depth ys).length) ≤ fuel := by omega
      rw [writeItems_cons_append,
        (items?_succ (hreads pretty depth fuel _ clear_comma (by omega))).2 _
          (skipSpace_cons rfl _),
        ih (fun z hz => hx z (List.mem_cons_of_mem x hz)) hsize]
      rfl

/-- After a member, the object ends or goes on. -/
theorem members?_succ {name : String} {x : Json}
    (h : value? fuel (write pretty depth x ++ cs) = some (source x, cs)) :
    (∀ rest, skipSpace cs = '\x7d' :: rest →
      members? (fuel + 1) (lineBreak pretty depth ++ (writeMember pretty depth (name, x) ++ cs)) =
        some ([(some name, source x)], rest)) ∧
    (∀ r, skipSpace cs = ',' :: r →
      members? (fuel + 1) (lineBreak pretty depth ++ (writeMember pretty depth (name, x) ++ cs)) =
        (members? fuel r).bind fun q => some ((some name, source x) :: q.1, q.2)) := by
  obtain ⟨r, hr, hscan⟩ := scanString?_quote name
    (':' :: ((if pretty then [' '] else []) ++ (write pretty depth x ++ cs)))
  have hmember : writeMember pretty depth (name, x) ++ cs = '\x22' :: r := by
    rw [← hr, writeMember, List.append_assoc, List.cons_append, List.append_assoc]
  have hvalue : value? fuel ((if pretty then [' '] else []) ++ (write pretty depth x ++ cs)) =
      some (source x, cs) := by
    rw [value?_append_of_space isSpace_gap, h]
  have hquote : skipSpace ('\x22' :: r) = '\x22' :: r := skipSpace_cons rfl r
  have hcolon (cs : List Char) : skipSpace (':' :: cs) = ':' :: cs := skipSpace_cons rfl cs
  rw [members?, skipSpace_append isSpace_lineBreak, hmember]
  constructor
  · intro rest hcs
    simp only [hquote, hscan, hcolon, hvalue, hcs, Option.bind_eq_bind, Option.bind_some]
  · intro r hcs
    simp only [hquote, hscan, hcolon, hvalue, hcs, Option.bind_eq_bind, Option.bind_some]

theorem length_writeMember (pretty : Bool) (depth : Nat) (name : String) (x : Json) :
    (write pretty depth x).length + 1 ≤ (writeMember pretty depth (name, x)).length := by
  rw [writeMember, List.length_append, List.length_cons, List.length_append]
  omega

theorem writeMembers_cons_append (m : String × Json) (ms : List (String × Json)) (cs : List Char) :
    writeMembers pretty depth (m :: ms) ++ cs = ',' :: (lineBreak pretty depth ++
      (writeMember pretty depth m ++ (writeMembers pretty depth ms ++ cs))) := by
  rw [writeMembers]
  simp only [List.cons_append, List.append_assoc]

theorem members?_write {m : String × Json} {ms : List (String × Json)} {d : Nat}
    (hm : ∀ n ∈ m :: ms, Reads n.2)
    (hfuel : 2 * ((writeMember pretty depth m).length +
      (writeMembers pretty depth ms).length) ≤ fuel) :
    members? fuel (lineBreak pretty depth ++ (writeMember pretty depth m ++
        (writeMembers pretty depth ms ++ (lineBreak pretty d ++ '\x7d' :: rest)))) =
      some ((m :: ms).map fun m => (some m.1, source m.2), rest) := by
  induction ms generalizing m fuel with
  | nil =>
    obtain ⟨name, x⟩ := m
    have hreads : Reads x := hm _ List.mem_cons_self
    have hlength := length_writeMember pretty depth name x
    cases fuel with
    | zero => omega
    | succ fuel =>
      have hvalue := hreads pretty depth fuel (lineBreak pretty d ++ '\x7d' :: rest)
        (clear_lineBreak rfl) (by omega)
      rw [writeMembers, List.nil_append]
      apply (members?_succ hvalue).1
      rw [skipSpace_append isSpace_lineBreak, skipSpace_cons rfl]
  | cons n ns ih =>
    obtain ⟨name, x⟩ := m
    have hreads : Reads x := hm _ List.mem_cons_self
    have hlength := length_writeMember pretty depth name x
    rw [writeMembers, List.length_cons, List.length_append, List.length_append] at hfuel
    cases fuel with
    | zero => omega
    | succ fuel =>
      have hsize : 2 * ((writeMember pretty depth n).length +
          (writeMembers pretty depth ns).length) ≤ fuel := by omega
      rw [writeMembers_cons_append,
        (members?_succ (hreads pretty depth fuel _ clear_comma (by omega))).2 _
          (skipSpace_cons rfl _),
        ih (fun k hk => hm k (List.mem_cons_of_mem _ hk)) hsize]
      rfl

/-! ### Whole texts -/

/-- There is a character to read, and so one step to take. -/
theorem reads_of_succ (h : j.Finite)
    (hj : ∀ (pretty : Bool) (depth fuel : Nat) (rest : List Char),
      Clear Decimal.isNumeralTail rest → 2 * (write pretty depth j).length ≤ fuel + 2 →
      value? (fuel + 1) (write pretty depth j ++ rest) = some (source j, rest)) : Reads j := by
  intro pretty depth fuel rest hclear hfuel
  have hpos := length_write_pos pretty depth h
  cases fuel with
  | zero => omega
  | succ fuel => exact hj pretty depth fuel rest hclear hfuel

theorem reads_array {xs : List Json} (h : ∀ x ∈ xs, Finite x ∧ Reads x) : Reads (.array xs) := by
  apply reads_of_succ (.array fun x hx => (h x hx).1)
  intro pretty depth fuel rest hclear hfuel
  cases xs with
  | nil =>
    rw [write, value?]
    rfl
  | cons x xs =>
    obtain ⟨c, r, hc, hspace, hne⟩ := write_head pretty (depth + 1) (h x List.mem_cons_self).1
    simp only [write, List.length_cons, List.length_append] at hfuel
    have hsize : 2 * ((write pretty (depth + 1) x).length +
        (writeItems pretty (depth + 1) xs).length) ≤ fuel := by omega
    have htext : write pretty depth (.array (x :: xs)) ++ rest =
        '[' :: (lineBreak pretty (depth + 1) ++ (write pretty (depth + 1) x ++
          (writeItems pretty (depth + 1) xs ++ (lineBreak pretty depth ++ ']' :: rest)))) := by
      rw [write]
      simp only [List.cons_append, List.append_assoc, List.nil_append]
    rw [htext, value?_array, items?_write h hsize, source, sources_eq]
    · rfl
    · intro d hd
      rw [skipSpace_append isSpace_lineBreak, hc, List.cons_append, skipSpace_cons hspace] at hd
      cases hd
      exact decide_eq_false hne

theorem reads_object {ms : List (String × Json)} (h : ∀ m ∈ ms, Finite m.2 ∧ Reads m.2) :
    Reads (.object ms) := by
  apply reads_of_succ (.object fun m hm => (h m hm).1)
  intro pretty depth fuel rest hclear hfuel
  cases ms with
  | nil =>
    rw [write, value?]
    rfl
  | cons m ms =>
    simp only [write, List.length_cons, List.length_append] at hfuel
    have hsize : 2 * ((writeMember pretty (depth + 1) m).length +
        (writeMembers pretty (depth + 1) ms).length) ≤ fuel := by omega
    have htext : write pretty depth (.object (m :: ms)) ++ rest =
        '\x7b' :: (lineBreak pretty (depth + 1) ++ (writeMember pretty (depth + 1) m ++
          (writeMembers pretty (depth + 1) ms ++ (lineBreak pretty depth ++ '\x7d' :: rest)))) := by
      rw [write]
      simp only [List.cons_append, List.append_assoc, List.nil_append]
    rw [htext, value?_object, members?_write (fun n hn => (h n hn).2) hsize, source,
      memberSources_eq]
    · rfl
    · intro d hd
      rw [skipSpace_append isSpace_lineBreak, writeMember, quote, List.cons_append,
        List.cons_append, skipSpace_cons rfl] at hd
      cases hd
      rfl

/-- Every value that has a text is read from it. -/
theorem Finite.reads (h : j.Finite) : Reads j := by
  induction h with
  | null => exact reads_of_succ .null fun pretty depth fuel rest _ _ => rfl
  | @bool b => exact reads_of_succ .bool fun pretty depth fuel rest _ _ => by cases b <;> rfl
  | number hn =>
    exact reads_of_succ (.number hn) fun pretty depth fuel rest hclear _ =>
      value?_number (Number.written_numeral hn) hclear
  | @string s => exact reads_of_succ .string fun pretty depth fuel rest _ _ => value?_string s rest
  | array h ih => exact reads_array fun x hx => ⟨h x hx, ih x hx⟩
  | object h ih => exact reads_object fun m hm => ⟨h m hm, ih m hm⟩

/-- The text of a value, compact or pretty, holds the value and nothing else. -/
theorem ofText?_write (pretty : Bool) (h : j.Finite) :
    ofText? (String.ofList (write pretty 0 j)) = some (source j) := by
  have hclear : Clear Decimal.isNumeralTail [] := by simp [Clear]
  have hvalue := h.reads pretty 0 (2 * (write pretty 0 j).length + 2) [] hclear (by omega)
  rw [List.append_nil] at hvalue
  rw [ofText?, String.toList_ofList, hvalue]
  rfl

end Json

end DesignLoads

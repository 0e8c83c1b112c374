import DesignLoads.Proofs.Session.Bulk
import DesignLoads.RuleSet.Basic

/-! Compilation of a document. It goes through four phases: the lines are read, their names are
compared, the rules are resolved if the settings are eager, and the patterns of the attachments are
read. The first phase to fail decides on the failure, and in each phase the first item that does. -/

namespace DesignLoads

/-- An index cannot be built from the first rule on whose name is in it by then: from before, or from
an earlier rule. -/
theorem indexFrom_eq_error_iff {index : NameMap Nat} {position : Nat} {rules : List Rule}
    {e : Failure} : indexFrom index position rules = .error e ↔
      ∃ before rule rest, rules = before ++ rule :: rest ∧ (before.map (·.name)).Nodup ∧
        (∀ r ∈ before, ¬ index.contains r.name) ∧
        (index.contains rule.name ∨ rule.name ∈ before.map (·.name)) ∧
        e = .duplicateRule rule.name := by
  induction rules generalizing index position with
  | nil => simp [indexFrom]
  | cons r rules ih =>
    rw [indexFrom]
    split
    · rename_i hr
      constructor
      · rintro ⟨⟩
        exact ⟨[], r, rules, rfl, .nil, by simp, .inl hr, rfl⟩
      · rintro ⟨before, rule, rest, hsplit, _, hnew, _, rfl⟩
        obtain ⟨rfl, hsplit⟩ | ⟨bs, rfl, _⟩ := List.cons_eq_append_iff.mp hsplit
        · cases hsplit
          rfl
        · exact absurd hr (hnew r List.mem_cons_self)
    · rename_i hr
      rw [ih]
      simp only [NameMap.contains_insert]
      constructor
      · rintro ⟨before, rule, rest, rfl, hnodup, hnew, hrule, rfl⟩
        have hout : r.name ∉ before.map (·.name) := by
          intro hmem
          obtain ⟨b, hb, hname⟩ := List.mem_map.mp hmem
          exact hnew b hb (.inl hname)
        refine ⟨r :: before, rule, rest, rfl, List.nodup_cons.mpr ⟨hout, hnodup⟩, ?_, ?_, rfl⟩
        · exact List.forall_mem_cons.mpr ⟨hr, fun b hb hin => hnew b hb (.inr hin)⟩
        · rw [List.map_cons, List.mem_cons]
          tauto
      · rintro ⟨before, rule, rest, hsplit, hnodup, hnew, hrule, rfl⟩
        obtain ⟨rfl, hsplit⟩ | ⟨bs, rfl, rfl⟩ := List.cons_eq_append_iff.mp hsplit
        · cases hsplit
          simp [hr] at hrule
        · obtain ⟨hout, hnodup⟩ := List.nodup_cons.mp hnodup
          refine ⟨bs, rule, rest, rfl, hnodup, ?_, ?_, rfl⟩
          · rintro b hb (hname | hin)
            · exact hout (List.mem_map.mpr ⟨b, hb, hname⟩)
            · exact hnew b (List.mem_cons_of_mem r hb) hin
          · rw [List.map_cons, List.mem_cons] at hrule
            tauto

namespace Rulebook

variable {rules : List Rule} {baseCases : List String} {settings : Settings}

theorem ofRules_eq_error_iff_indexFrom {e : Failure} :
    ofRules rules baseCases settings = .error e ↔ indexFrom .empty 0 rules = .error e := by
  unfold ofRules
  split
  · rename_i h
    rw [h, Except.error.injEq, Except.error.injEq]
  · rename_i h
    refine iff_of_false nofun ?_
    rw [h]
    nofun

/-- The first rule whose name an earlier rule has stands in the way of a rule book. -/
theorem ofRules_eq_error_iff {e : Failure} : ofRules rules baseCases settings = .error e ↔
    ∃ before rule rest, rules = before ++ rule :: rest ∧ (before.map (·.name)).Nodup ∧
      rule.name ∈ before.map (·.name) ∧ e = .duplicateRule rule.name := by
  rw [ofRules_eq_error_iff_indexFrom, indexFrom_eq_error_iff]
  simp [NameMap.contains]

theorem of_ofRules {book : Rulebook} (h : ofRules rules baseCases settings = .ok book) :
    book.rules = rules ∧ book.settings = settings := by
  unfold ofRules at h
  split at h <;> cases h
  exact ⟨rfl, rfl⟩

theorem exists_ofRules_iff : (∃ book, ofRules rules baseCases settings = .ok book) ↔
    (rules.map (·.name)).Nodup := by
  constructor
  · rintro ⟨book, h⟩
    rw [← (of_ofRules h).1]
    exact book.distinct
  · intro hnodup
    cases h : ofRules rules baseCases settings with
    | ok book => exact ⟨book, rfl⟩
    | error e =>
      obtain ⟨before, rule, rest, rfl, _, hmem, _⟩ := ofRules_eq_error_iff.mp h
      rw [List.map_append, List.map_cons] at hnodup
      exact absurd List.mem_cons_self ((List.disjoint_of_nodup_append hnodup) hmem)

end Rulebook

namespace Attachment

variable {a : Attachment}

def read [RegexLibrary] (a : Attachment) : Except Failure (Pattern × Options) :=
  (Pattern.parse a.pattern).map fun p => (p, a.options)

theorem exists_read_iff [RegexLibrary] :
    (∃ p, a.read = .ok p) ↔ ∃ p, Pattern.parse a.pattern = .ok p :=
  exists_map_ok_iff

theorem read_eq_error_iff [RegexLibrary] {e : Failure} :
    a.read = .error e ↔ Pattern.parse a.pattern = .error e :=
  map_eq_error_iff

end Attachment

namespace Session

def attached (s : Session) (ps : List (Pattern × Options)) : Session :=
  { s with book := { s.book with attachments := s.book.attachments ++ ps } }

theorem attached_attached (s : Session) (ps qs : List (Pattern × Options)) :
    (s.attached ps).attached qs = s.attached (ps ++ qs) := by
  simp only [attached, List.append_assoc]

/-- To attach one thing after the other is to read all patterns and to attach them together. -/
theorem foldlM_attach [RegexLibrary] (as : List Attachment) (s : Session) :
    as.foldlM (fun s a => s.attach a.pattern a.options) s =
      (as.mapM Attachment.read).map s.attached := by
  induction as generalizing s with
  | nil =>
    have hnil : s.attached [] = s := by simp only [attached, List.append_nil]
    exact congrArg Except.ok hnil.symm
  | cons a as ih =>
    have hone : s.attach a.pattern a.options = a.read.map fun p => s.attached [p] := by
      rw [attach, Rulebook.attach, Attachment.read]
      cases Pattern.parse a.pattern <;> rfl
    rw [List.foldlM_cons, List.mapM_cons, hone]
    cases a.read with
    | error e => rfl
    | ok p =>
      change as.foldlM _ (s.attached [p]) = _
      rw [ih]
      cases as.mapM Attachment.read with
      | error e => rfl
      | ok ps => exact congrArg Except.ok (attached_attached s [p] ps)

end Session

namespace RuleSet

variable {s : RuleSet} {e : Failure}

def ruleLines (s : RuleSet) : List String := s.rules.filter fun line => !Rule.isIgnored line

/-- The rule book of a document, opened without any rule being resolved. -/
def openLazily (s : RuleSet) : Except Failure Session :=
  Session.ofLines s.rules s.baseCases { s.settings with eager := false }

/-- What has to hold for a document to compile, where `rules` are the rules of its lines. -/
structure Compiles [RegexLibrary] (s : RuleSet) (rules : List Rule) : Prop where
  parsed : s.ruleLines.map Rule.parse = rules.map .ok
  distinct : (rules.map (·.name)).Nodup
  resolved : s.settings.eager →
    ∃ t u, s.openLazily = .ok t ∧ (t.ask fun b => b.resolveAll).1 = .ok u
  patterns : ∀ a ∈ s.attachments, ∃ p, Pattern.parse a.pattern = .ok p

/-- The ways in which a document fails to compile, phase by phase. -/
inductive Fails [RegexLibrary] (s : RuleSet) : Failure → Prop where
  | malformed {before rest : List String} {line : String} {e : Failure}
      (hlines : s.ruleLines = before ++ line :: rest)
      (hbefore : ∀ l ∈ before, ∃ rule, Rule.parse l = .ok rule)
      (h : Rule.parse line = .error e) : Fails s e
  | duplicate {before rest : List Rule} {rule : Rule}
      (hlines : s.ruleLines.map Rule.parse = (before ++ rule :: rest).map .ok)
      (hbefore : (before.map (·.name)).Nodup)
      (h : rule.name ∈ before.map (·.name)) : Fails s (.duplicateRule rule.name)
  | unresolved {t : Session} {e : Failure} (heager : s.settings.eager)
      (hopen : s.openLazily = .ok t)
      (h : (t.ask fun b => b.resolveAll).1 = .error e) : Fails s e
  | invalid {t : Session} {before rest : List Attachment} {a : Attachment} {e : Failure}
      (hopen : s.openLazily = .ok t)
      (hresolved : s.settings.eager → ∃ u, (t.ask fun b => b.resolveAll).1 = .ok u)
      (hattachments : s.attachments = before ++ a :: rest)
      (hbefore : ∀ b ∈ before, ∃ p, Pattern.parse b.pattern = .ok p)
      (h : Pattern.parse a.pattern = .error e) : Fails s e

theorem openLazily_eq (s : RuleSet) : s.openLazily = (do
    let rules ← s.ruleLines.mapM Rule.parse
    let book ← Rulebook.ofRules rules s.baseCases { s.settings with eager := false }
    return ⟨book, .start⟩) := by
  change (s.ruleLines.mapM Rule.parse >>= fun rules => Rulebook.ofRules rules s.baseCases
    { s.settings with eager := false } >>= Session.ofBook) = _
  cases s.ruleLines.mapM Rule.parse with
  | error e => rfl
  | ok rules =>
    change Rulebook.ofRules rules s.baseCases _ >>= Session.ofBook =
      Rulebook.ofRules rules s.baseCases _ >>= _
    cases hbook : Rulebook.ofRules rules s.baseCases { s.settings with eager := false } with
    | error e => rfl
    | ok book =>
      change Session.ofBook book = _
      rw [Session.ofBook, (Rulebook.of_ofRules hbook).2]
      rfl

theorem exists_openLazily_iff : (∃ t, s.openLazily = .ok t) ↔
    ∃ rules : List Rule, s.ruleLines.map Rule.parse = rules.map .ok ∧
      (rules.map (·.name)).Nodup := by
  simp only [openLazily_eq, bind_eq_ok_iff, mapM_eq_ok_iff]
  constructor
  · rintro ⟨t, rules, hrules, book, hbook, _⟩
    exact ⟨rules, hrules, Rulebook.exists_ofRules_iff.mp ⟨book, hbook⟩⟩
  · rintro ⟨rules, hrules, hnodup⟩
    obtain ⟨book, hbook⟩ := Rulebook.exists_ofRules_iff.mpr hnodup
    exact ⟨_, rules, hrules, book, hbook, rfl⟩

theorem openLazily_eq_error_iff : s.openLazily = .error e ↔
    (∃ before line rest, s.ruleLines = before ++ line :: rest ∧
      (∀ l ∈ before, ∃ rule, Rule.parse l = .ok rule) ∧ Rule.parse line = .error e) ∨
    ∃ before rule rest, s.ruleLines.map Rule.parse = (before ++ rule :: rest).map .ok ∧
      (before.map (·.name)).Nodup ∧ rule.name ∈ before.map (·.name) ∧
      e = .duplicateRule rule.name := by
  rw [openLazily_eq, bind_eq_error_iff, mapM_eq_error_iff]
  refine or_congr_right ?_
  constructor
  · rintro ⟨rules, hrules, h⟩
    obtain h | ⟨_, _, h⟩ := bind_eq_error_iff.mp h
    · obtain ⟨before, rule, rest, rfl, hbefore⟩ := Rulebook.ofRules_eq_error_iff.mp h
      exact ⟨before, rule, rest, mapM_eq_ok_iff.mp hrules, hbefore⟩
    · cases h
  · rintro ⟨before, rule, rest, hrules, hbefore⟩
    refine ⟨_, mapM_eq_ok_iff.mpr hrules, bind_eq_error_iff.mpr (.inl ?_)⟩
    exact Rulebook.ofRules_eq_error_iff.mpr ⟨before, rule, rest, rfl, hbefore⟩

/-- With eager settings the rules are resolved after the book has been opened. -/
theorem ofLines_eq (s : RuleSet) :
    (Session.ofLines s.rules s.baseCases s.settings).map (fun _ => ()) =
      s.openLazily >>= fun t =>
        if s.settings.eager then (t.ask fun b => b.resolveAll).1 else .ok () := by
  unfold openLazily
  obtain ⟨header, ⟨limit, eager⟩, baseCases, rules, attachments⟩ := s
  cases eager with
  | true => exact Session.ofLines_eager rules baseCases limit
  | false =>
    dsimp only
    cases Session.ofLines rules baseCases ⟨limit, false⟩ <;> rfl

theorem exists_ofLines_iff : (∃ t, Session.ofLines s.rules s.baseCases s.settings = .ok t) ↔
    ∃ t, s.openLazily = .ok t ∧
      (s.settings.eager → ∃ u, (t.ask fun b => b.resolveAll).1 = .ok u) := by
  rw [← exists_map_ok_iff, ofLines_eq]
  simp only [bind_eq_ok_iff]
  rw [exists_comm]
  refine exists_congr fun t => ?_
  rw [exists_and_left]
  refine and_congr_right fun _ => ?_
  split
  · rename_i heager
    exact ⟨fun h _ => h, fun h => h heager⟩
  · rename_i hlazy
    exact iff_of_true ⟨(), rfl⟩ fun heager => absurd heager hlazy

theorem ofLines_eq_error_iff : Session.ofLines s.rules s.baseCases s.settings = .error e ↔
    s.openLazily = .error e ∨ ∃ t, s.openLazily = .ok t ∧ s.settings.eager ∧
      (t.ask fun b => b.resolveAll).1 = .error e := by
  rw [← map_eq_error_iff, ofLines_eq, bind_eq_error_iff]
  refine or_congr_right (exists_congr fun t => and_congr_right fun _ => ?_)
  split
  · rename_i heager
    exact ⟨fun h => ⟨heager, h⟩, fun h => h.2⟩
  · rename_i hlazy
    exact iff_of_false nofun fun h => hlazy h.1

theorem compile_eq [RegexLibrary] (s : RuleSet) : s.compile =
    Session.ofLines s.rules s.baseCases s.settings >>= fun t =>
      (s.attachments.mapM Attachment.read).map t.attached := by
  unfold compile
  congr 1
  funext t
  exact t.foldlM_attach s.attachments

theorem exists_compile_iff [RegexLibrary] :
    (∃ t, s.compile = .ok t) ↔ ∃ rules, s.Compiles rules := by
  have hpatterns : (∃ ps, s.attachments.mapM Attachment.read = .ok ps) ↔
      ∀ a ∈ s.attachments, ∃ p, Pattern.parse a.pattern = .ok p := by
    simp only [exists_mapM_ok_iff, Attachment.exists_read_iff]
  have hcompile : (∃ t, s.compile = .ok t) ↔
      (∃ t, Session.ofLines s.rules s.baseCases s.settings = .ok t) ∧
        ∃ ps, s.attachments.mapM Attachment.read = .ok ps := by
    simp only [compile_eq, bind_eq_ok_iff]
    constructor
    · rintro ⟨_, t, ht, h⟩
      exact ⟨⟨t, ht⟩, exists_map_ok_iff.mp ⟨_, h⟩⟩
    · rintro ⟨⟨t, ht⟩, ps, hps⟩
      exact ⟨t.attached ps, t, ht, by rw [hps]; rfl⟩
  rw [hcompile, hpatterns, exists_ofLines_iff]
  constructor
  · rintro ⟨⟨t, ht, hresolved⟩, hparse⟩
    obtain ⟨rules, hrules, hnodup⟩ := exists_openLazily_iff.mp ⟨t, ht⟩
    refine ⟨rules, hrules, hnodup, fun heager => ?_, hparse⟩
    obtain ⟨u, hu⟩ := hresolved heager
    exact ⟨t, u, ht, hu⟩
  · rintro ⟨rules, hrules, hnodup, hresolved, hparse⟩
    obtain ⟨t, ht⟩ := exists_openLazily_iff.mpr ⟨rules, hrules, hnodup⟩
    refine ⟨⟨t, ht, fun heager => ?_⟩, hparse⟩
    obtain ⟨t', u, ht', hu⟩ := hresolved heager
    rw [ht] at ht'
    cases ht'
    exact ⟨u, hu⟩

theorem compile_eq_error_iff [RegexLibrary] : s.compile = .error e ↔ s.Fails e := by
  rw [compile_eq, bind_eq_error_iff, ofLines_eq_error_iff, openLazily_eq_error_iff]
  constructor
  · rintro (((⟨before, line, rest, hlines, hbefore, h⟩ |
      ⟨before, rule, rest, hlines, hbefore, h, rfl⟩) | ⟨t, hopen, heager, h⟩) | ⟨t', ht', h⟩)
    · exact .malformed hlines hbefore h
    · exact .duplicate hlines hbefore h
    · exact .unresolved heager hopen h
    · obtain ⟨t, hopen, hresolved⟩ := exists_ofLines_iff.mp ⟨t', ht'⟩
      obtain ⟨before, a, rest, hsplit, hbefore, ha⟩ := mapM_eq_error_iff.mp (map_eq_error_iff.mp h)
      exact .invalid hopen hresolved hsplit (fun b hb => Attachment.exists_read_iff.mp (hbefore b hb))
        (Attachment.read_eq_error_iff.mp ha)
  · intro h
    cases h with
    | malformed hlines hbefore h => exact .inl (.inl (.inl ⟨_, _, _, hlines, hbefore, h⟩))
    | duplicate hlines hbefore h => exact .inl (.inl (.inr ⟨_, _, _, hlines, hbefore, h, rfl⟩))
    | unresolved heager hopen h => exact .inl (.inr ⟨_, hopen, heager, h⟩)
    | invalid hopen hresolved hattachments hbefore h =>
      obtain ⟨t, ht⟩ := exists_ofLines_iff.mpr ⟨_, hopen, hresolved⟩
      refine .inr ⟨t, ht, map_eq_error_iff.mpr (mapM_eq_error_iff.mpr ?_)⟩
      exact ⟨_, _, _, hattachments, fun b hb => Attachment.exists_read_iff.mpr (hbefore b hb),
        Attachment.read_eq_error_iff.mpr h⟩

/-- A document compiles if all of its rules can be read, have different names and, if the settings
are eager, can be resolved, and all patterns of its attachments can be read. If not, the first of
these phases that fails decides on the failure. A rule book that has been compiled has the rules of
the lines, in their order; its index has the position of each of them under its name, and nothing
else; and it finds each of them by its name. -/
theorem compile_phases [RegexLibrary] (s : RuleSet) :
    ((∃ t, s.compile = .ok t) ↔ ∃ rules, s.Compiles rules) ∧
    (∀ e, s.compile = .error e ↔ s.Fails e) ∧
    ∀ t, s.compile = .ok t → ∃ rules, s.Compiles rules ∧
      t.book.ruleNames = rules.map (·.name) ∧ t.book.ruleNames.length = s.ruleCount ∧
      Indexes t.book.index rules ∧
      ∀ name rule, t.book.rule? name = some rule ↔ rule ∈ rules ∧ rule.name = name := by
  refine ⟨exists_compile_iff, fun e => compile_eq_error_iff, fun t ht => ?_⟩
  obtain ⟨rules, hrules⟩ := exists_compile_iff.mp ⟨t, ht⟩
  have hbook : t.book.rules = rules := by
    rw [compile_eq] at ht
    obtain ⟨t', ht', h⟩ := bind_eq_ok_iff.mp ht
    have hlines : s.ruleLines.mapM Rule.parse = .ok t'.book.rules := (Session.opened ht').rules
    rw [mapM_eq_ok_iff.mpr hrules.parsed] at hlines
    cases hps : s.attachments.mapM Attachment.read with
    | error e =>
      rw [hps] at h
      cases h
    | ok ps =>
      rw [hps] at h
      cases h
      exact (Except.ok.inj hlines).symm
  refine ⟨rules, hrules, ?_, ?_, hbook ▸ t.book.indexed, ?_⟩
  · rw [Rulebook.ruleNames, hbook]
  · have hlen := congrArg List.length hrules.parsed
    rw [List.length_map, List.length_map] at hlen
    rw [Rulebook.ruleNames, hbook, List.length_map, ← hlen]
    rfl
  · intro name rule
    rw [← hbook]
    exact Rulebook.rule?_eq_some_iff

attribute [local instance] Regex.library

/-- Two rules with a comment and a blank line between them; and two rules of one name, which are
seen before a pattern that cannot be read. -/
theorem compile_phases_of_comment : ∃ t : Session, ∃ rules : List Rule,
    RuleSet.compile { RuleSet.empty "T" .epoch with
      settings := ⟨none, false⟩, rules := ["U = g | q", " # loads", "", "V = 2*U"],
      attachments := [⟨"&^U", .empty⟩] } = .ok t ∧
    t.book.ruleNames = rules.map (·.name) ∧ t.book.ruleNames.length = 2 ∧
    RuleSet.compile { RuleSet.empty "T" .epoch with
      settings := ⟨none, true⟩, rules := ["U = g", "U = 2*g"],
      attachments := [⟨"&(", .empty⟩] } = .error (.duplicateRule "U") := by
  have hopen : okWith (RuleSet.compile { RuleSet.empty "T" .epoch with
      settings := ⟨none, false⟩, rules := ["U = g | q", " # loads", "", "V = 2*U"],
      attachments := [⟨"&^U", .empty⟩] }) (fun _ => true) = true := by decide +kernel
  obtain ⟨t, ht, _⟩ := okWith_iff.mp hopen
  obtain ⟨rules, hrules, hnames, hcount, _⟩ := (compile_phases _).2.2 t ht
  refine ⟨t, rules, ht, hnames, hcount.trans (by decide +kernel), ?_⟩
  apply ((compile_phases _).2.1 _).mpr
  have hlines : (["U = g", "U = 2*g"].filter fun line => !Rule.isIgnored line).map Rule.parse =
      ([⟨"U", "U = g", .ref "g"⟩] ++ ⟨"U", "U = 2*g", .scale (.ref "g") (.number 2)⟩ :: [] :
        List Rule).map .ok := by decide +kernel
  exact @Fails.duplicate _ _ [⟨"U", "U = g", .ref "g"⟩] []
    ⟨"U", "U = 2*g", .scale (.ref "g") (.number 2)⟩ hlines (by simp) (by simp)

end RuleSet

end DesignLoads

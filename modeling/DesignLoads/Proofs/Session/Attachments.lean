import DesignLoads.Proofs.Session.Bulk

/-! Attached options. They are applied when a combination is read: what a combination carries is
computed from all attachments made until then, a later one over the earlier ones. No attachment has
any other effect, on what has been resolved or on what will be. -/

namespace DesignLoads

open Query

theorem NameMap.get?_foldl_insert {β : Type} {es : List (String × β)} {m : NameMap β} {key : String}
    (hs : es.Pairwise fun a b => a.1 < b.1) :
    (es.foldl (fun m e => m.insert e.1 e.2) m).get? key = (es.lookup key).or (m.get? key) := by
  induction es generalizing m with
  | nil => rfl
  | cons e es ih =>
    obtain ⟨hhead, htail⟩ := List.pairwise_cons.mp hs
    rw [List.foldl_cons, ih htail, get?_insert, List.lookup_cons]
    by_cases hkey : key = e.1
    · -- the name does not come again
      have hnone : es.lookup key = none := by
        rw [List.lookup_eq_none_iff]
        intro d hd
        have hne : key ≠ d.1 := fun heq => String.lt_irrefl _ (heq ▸ hkey ▸ hhead d hd)
        simpa using hne
      rw [hnone, if_pos hkey, hkey, beq_self_eq_true, Option.none_or, Option.some_or]
    · rw [if_neg hkey, beq_false_of_ne hkey]

namespace Options

theorem get?_merge (o later : Options) (key : String) :
    (o.merge later).get? key = (later.get? key).or (o.get? key) := by
  have hvalues (es : List (String × Json)) (o : Options) :
      (es.foldl (fun o e => o.set e.1 e.2) o).values =
        es.foldl (fun m e => m.insert e.1 e.2) o.values := by
    induction es generalizing o with
    | nil => rfl
    | cons e es ih => exact ih (o.set e.1 e.2)
  rw [get?, merge, hvalues, NameMap.get?_foldl_insert later.values.sorted]
  rfl

/-- The last attachment that covers a name and has a key gives the value. -/
theorem get?_foldl_merge (as : List (Pattern × Options)) (name key : String) :
    ((as.filter fun a => a.1.covers name).foldl (fun o a => merge o a.2) empty).get? key =
      as.reverse.findSome? fun a => if a.1.covers name then a.2.get? key else none := by
  induction as using List.reverseRecOn with
  | nil => rfl
  | append_singleton as a ih =>
    rw [List.filter_append, List.foldl_append, List.reverse_append, List.reverse_singleton,
      List.singleton_append, List.findSome?_cons]
    by_cases hcovers : a.1.covers name = true
    · have hlast : [a].filter (fun a => a.1.covers name) = [a] := by simp [hcovers]
      rw [hlast, List.foldl_cons, List.foldl_nil, get?_merge, ih, if_pos hcovers]
      cases a.2.get? key <;> rfl
    · have hnone : [a].filter (fun a => a.1.covers name) = [] := by simp [hcovers]
      rw [hnone, List.foldl_nil, ih, if_neg hcovers]

end Options

/-- What attachments give a combination of some name: options, if one of them covers the name, and
under every key the value of the last that covers the name and has the key. -/
structure Carries (as : List (Pattern × Options)) (name : String) (o : Option Options) : Prop where
  isSome_iff : o.isSome ↔ ∃ a ∈ as, a.1.covers name
  value : ∀ options, o = some options → ∀ key v, options.get? key = some v ↔
    ∃ before a rest, as = before ++ a :: rest ∧ a.1.covers name ∧ a.2.get? key = some v ∧
      ∀ b ∈ rest, b.1.covers name → b.2.get? key = none
  absent : ∀ options, o = some options → ∀ key,
    (∀ a ∈ as, a.1.covers name → a.2.get? key = none) → options.get? key = none

namespace Rulebook

/-- The options for a name are what the attachments give. -/
theorem carries_optionsFor (book : Rulebook) (name : String) :
    Carries book.attachments name (book.optionsFor name) := by
  have hvalue (options : Options) (h : book.optionsFor name = some options) (key : String) :
      options.get? key = book.attachments.reverse.findSome? fun a =>
        if a.1.covers name then a.2.get? key else none := by
    rw [← Options.get?_foldl_merge]
    unfold optionsFor at h
    split at h
    · cases h
    · cases h
      rfl
  refine ⟨?_, fun options h key v => ?_, fun options h key hall => ?_⟩
  · unfold optionsFor
    split
    · next hnil =>
      rw [List.filter_eq_nil_iff] at hnil
      refine iff_of_false Bool.false_ne_true ?_
      rintro ⟨a, ha, hcovers⟩
      exact hnil a ha hcovers
    · next hne =>
      refine iff_of_true rfl ?_
      obtain ⟨a, ha⟩ := List.exists_mem_of_ne_nil _ hne
      exact ⟨a, List.mem_filter.mp ha⟩
  · rw [hvalue options h key, List.findSome?_eq_some_iff]
    constructor
    · rintro ⟨later, a, earlier, hsplit, ha, hlater⟩
      have hcovers : a.1.covers name = true := by
        by_contra hnot
        rw [if_neg hnot] at ha
        cases ha
      refine ⟨earlier.reverse, a, later.reverse, ?_, hcovers, by rwa [if_pos hcovers] at ha, ?_⟩
      · rw [← List.reverse_reverse book.attachments, hsplit]
        simp
      · intro b hb hb'
        have hnone := hlater b (List.mem_reverse.mp hb)
        rwa [if_pos hb'] at hnone
    · rintro ⟨before, a, rest, hsplit, hcovers, ha, hrest⟩
      refine ⟨rest.reverse, a, before.reverse, by rw [hsplit]; simp, by rwa [if_pos hcovers], ?_⟩
      intro b hb
      split
      · next hb' => exact hrest b (List.mem_reverse.mp hb) hb'
      · rfl
  · rw [hvalue options h key, List.findSome?_eq_none_iff]
    intro a ha
    split
    · next hcovers => exact hall a (List.mem_reverse.mp ha) hcovers
    · rfl

def unattached (book : Rulebook) : Rulebook := { book with attachments := [] }

end Rulebook

def Combination.bare (c : Combination) : Combination := { c with options := none }

namespace Query

theorem ask_map {α β : Type} (f : α → β) (q : Query α) (p : Progress) :
    (f <$> q).ask p = ((q.ask p).1.map f, (q.ask p).2) := by
  rw [map_eq_pure_bind, ask_bind]
  rcases q.ask p with ⟨_ | a, p'⟩ <;> rfl

end Query

namespace Rulebook

variable (book : Rulebook)

theorem alternatives_unattached : book.unattached.alternatives = book.alternatives := by
  have hwithin (fuel : Nat) :
      book.unattached.alternativesWithin fuel = book.alternativesWithin fuel := by
    induction fuel with
    | zero => rfl
    | succ fuel ih =>
      unfold alternativesWithin
      rw [ih]
      rfl
  funext name
  exact congrFun (hwithin _) name

theorem expand_unattached (rule : String) (f : Formula) :
    book.unattached.expand rule f = book.expand rule f := by
  unfold expand
  rw [alternatives_unattached]
  rfl

theorem resolveAll_unattached : book.unattached.resolveAll = book.resolveAll := by
  unfold resolveAll
  rw [alternatives_unattached]
  rfl

theorem combination_unattached (name : String) (as : List Alternative) :
    book.unattached.combination name as = (book.combination name as).map Combination.bare := by
  unfold combination
  cases Alternative.loadCases name as <;> rfl

theorem resolve_unattached (name : String) :
    book.unattached.resolve name = Combination.bare <$> book.resolve name := by
  have hrule : book.unattached.isRule name = book.isRule name := rfl
  unfold resolve
  rw [hrule, alternatives_unattached]
  split
  · rw [map_bind]
    congr 1
    funext as
    rw [combination_unattached]
    cases book.combination name as <;> rfl
  · rfl

theorem combinations_unattached (wanted : String → Bool) (names : List String) :
    book.unattached.combinations wanted names =
      List.map Combination.bare <$> book.combinations wanted names := by
  induction names with
  | nil => rfl
  | cons name names ih =>
    unfold combinations
    rw [alternatives_unattached, ih, map_bind]
    congr 1
    funext as
    split
    · rfl
    · rw [combination_unattached]
      cases book.combination name as with
      | error e => rfl
      | ok c => simp [liftExcept, Except.map]

theorem ordered_unattached :
    book.unattached.ordered = List.map Combination.bare <$> book.ordered :=
  book.combinations_unattached _ _

theorem select_unattached [RegexLibrary] (patterns : List String) :
    book.unattached.select patterns = List.map Combination.bare <$> book.select patterns := by
  unfold select
  simp only [map_bind]
  congr 1
  funext ps
  congr 1
  funext names
  exact book.combinations_unattached _ names

end Rulebook

namespace Call

/-- The attachment that a call makes, if it makes one and its pattern is valid. -/
def attachment? [RegexLibrary] : Call → Option (Pattern × Options)
  | .attach pattern options => (Pattern.parse pattern).toOption.map fun p => (p, options)
  | _ => none

def attaches : Call → Bool
  | .attach .. => true
  | _ => false

end Call

namespace Session

def unattached (s : Session) : Session := { s with book := s.book.unattached }

theorem attach_eq [RegexLibrary] (s : Session) (pattern : String) (options : Options) :
    s.attach pattern options = (Pattern.parse pattern).map fun p =>
      { s with book := { s.book with attachments := s.book.attachments ++ [(p, options)] } } := by
  unfold attach Rulebook.attach
  cases Pattern.parse pattern <;> rfl

theorem perform_attach_of_ok [RegexLibrary] {s t : Session} {pattern : String}
    {options : Options} (h : s.attach pattern options = .ok t) :
    s.perform (.attach pattern options) = t := by
  simp only [perform, h]

theorem perform_attach_of_error [RegexLibrary] {s : Session} {pattern : String}
    {options : Options} {e : Failure} (h : s.attach pattern options = .error e) :
    s.perform (.attach pattern options) = s := by
  simp only [perform, h]

/-- A call that attaches options adds to the attachments, unless it fails, and does nothing else. -/
theorem perform_attach [RegexLibrary] (s : Session) (pattern : String) (options : Options) :
    s.perform (.attach pattern options) = { s with book := { s.book with
      attachments := s.book.attachments ++ (Call.attach pattern options).attachment?.toList } } := by
  have hattach := s.attach_eq pattern options
  have hmade : (Call.attach pattern options).attachment? =
      (Pattern.parse pattern).toOption.map fun p => (p, options) := rfl
  rw [hmade]
  cases hparse : Pattern.parse pattern with
  | error e =>
    rw [hparse] at hattach
    rw [perform_attach_of_error hattach]
    show s = { s with book := { s.book with attachments := s.book.attachments ++ [] } }
    rw [List.append_nil]
  | ok p =>
    rw [hparse] at hattach
    rw [perform_attach_of_ok hattach]
    rfl

theorem attach_eq_error_iff [RegexLibrary] {s : Session} {pattern : String} {options : Options}
    {e : Failure} : s.attach pattern options = .error e ↔ Pattern.parse pattern = .error e := by
  rw [attach_eq, map_eq_error_iff]

theorem attachments_perform [RegexLibrary] (s : Session) (c : Call) :
    (s.perform c).book.attachments = s.book.attachments ++ c.attachment?.toList := by
  cases c with
  | attach pattern options => rw [perform_attach]
  | _ => exact (List.append_nil _).symm

/-- The attachments after some calls are those that the calls made, in their order. -/
theorem attachments_after [RegexLibrary] (s : Session) (calls : List Call) :
    (s.after calls).book.attachments = s.book.attachments ++ calls.filterMap Call.attachment? := by
  induction calls generalizing s with
  | nil => exact (List.append_nil _).symm
  | cons c cs ih =>
    have hstep : s.after (c :: cs) = (s.perform c).after cs := rfl
    rw [hstep, ih, attachments_perform, List.append_assoc, List.filterMap_cons]
    cases c.attachment? <;> rfl

theorem unattached_perform_of_attaches [RegexLibrary] {s : Session} {c : Call}
    (h : c.attaches = true) : (s.perform c).unattached = s.unattached := by
  cases c with
  | attach pattern options =>
    rw [perform_attach]
    rfl
  | _ => cases h

/-- Attachments have no part in what any other call does. -/
theorem unattached_perform [RegexLibrary] {s : Session} {c : Call} (h : c.attaches = false) :
    (s.perform c).unattached = s.unattached.perform c := by
  -- both sessions keep their books, and make the same progress
  have hmap {α β : Type} {f : α → β} {q : Query α} {q' : Query β} (heq : q' = f <$> q) :
      (⟨s.book.unattached, (q.ask s.progress).2⟩ : Session) =
        ⟨s.book.unattached, (q'.ask s.progress).2⟩ := by
    rw [heq, ask_map]
  cases c with
  | resolve name => exact hmap (s.book.resolve_unattached name)
  | resolveAll => exact hmap (s.book.resolveAll_unattached.trans (id_map _).symm)
  | ordered => exact hmap s.book.ordered_unattached
  | select patterns => exact hmap (s.book.select_unattached patterns)
  | optionsFor name => rfl
  | expand rule f => exact hmap ((s.book.expand_unattached rule f).trans (id_map _).symm)
  | attach pattern options => cases h

/-- After any calls a session is, but for its attachments, what it would be without those among the
calls that attach options. -/
theorem unattached_after [RegexLibrary] (s : Session) (calls : List Call) :
    (s.after calls).unattached = s.unattached.after (calls.filter fun c => !c.attaches) := by
  induction calls generalizing s with
  | nil => rfl
  | cons c cs ih =>
    have hstep : s.after (c :: cs) = (s.perform c).after cs := rfl
    rw [hstep, ih]
    cases h : c.attaches with
    | true => rw [unattached_perform_of_attaches h, List.filter_cons_of_neg (by simp [h])]
    | false =>
      rw [unattached_perform h, List.filter_cons_of_pos (by simp [h])]
      rfl

/-- Two sessions have resolved the same to the same alternatives, and answer every query alike, but
for the options of combinations. -/
structure SameButOptions [RegexLibrary] (s t : Session) : Prop where
  progress : s.progress = t.progress
  resolve : ∀ name, (s.ask fun b => b.resolve name).1.map Combination.bare =
    (t.ask fun b => b.resolve name).1.map Combination.bare
  ordered : (s.ask fun b => b.ordered).1.map (List.map Combination.bare) =
    (t.ask fun b => b.ordered).1.map (List.map Combination.bare)
  select : ∀ patterns, (s.ask fun b => b.select patterns).1.map (List.map Combination.bare) =
    (t.ask fun b => b.select patterns).1.map (List.map Combination.bare)
  resolveAll : (s.ask fun b => b.resolveAll).1 = (t.ask fun b => b.resolveAll).1
  expand : ∀ rule f, (s.ask fun b => b.expand rule f).1 = (t.ask fun b => b.expand rule f).1

/-- To take all attachments away changes no answer but for options. -/
theorem sameButOptions_unattached [RegexLibrary] (s : Session) : s.SameButOptions s.unattached := by
  have hbare (r : Except Failure Combination) :
      r.map Combination.bare = (r.map Combination.bare).map Combination.bare := by
    cases r <;> rfl
  have hbares (r : Except Failure (List Combination)) : r.map (List.map Combination.bare) =
      (r.map (List.map Combination.bare)).map (List.map Combination.bare) := by
    cases r with
    | error e => rfl
    | ok cs =>
      show Except.ok _ = Except.ok _
      rw [List.map_map]
      rfl
  refine ⟨rfl, fun name => ?_, ?_, fun patterns => ?_, ?_, fun rule f => ?_⟩
  · show _ = ((s.book.unattached.resolve name).ask s.progress).1.map Combination.bare
    rw [s.book.resolve_unattached, ask_map]
    exact hbare _
  · show _ = (s.book.unattached.ordered.ask s.progress).1.map (List.map Combination.bare)
    rw [s.book.ordered_unattached, ask_map]
    exact hbares _
  · show _ = ((s.book.unattached.select patterns).ask s.progress).1.map (List.map Combination.bare)
    rw [s.book.select_unattached, ask_map]
    exact hbares _
  · show _ = (s.book.unattached.resolveAll.ask s.progress).1
    rw [s.book.resolveAll_unattached]
    rfl
  · show _ = ((s.book.unattached.expand rule f).ask s.progress).1
    rw [s.book.expand_unattached]
    rfl

theorem Sound.carries_resolve {s : Session} (h : s.Sound) {name : String} {c : Combination}
    (hc : (s.ask fun b => b.resolve name).1 = .ok c) :
    c.name = name ∧ Carries s.book.attachments name c.options := by
  rw [h.resolve_eq] at hc
  cases hcases : s.book.loadCasesAnew name with
  | error e =>
    rw [hcases] at hc
    cases hc
  | ok cases' =>
    rw [hcases] at hc
    cases hc
    exact ⟨rfl, s.book.carries_optionsFor name⟩

/-- Options are applied when a combination is read. After any calls on a session, a combination
carries what the attachments give that have been made until then, whichever query returns it and
whenever its rule was resolved. An attachment that fails changes nothing. But for the options that
combinations carry, a session is what it would be if no call had attached any, and answers alike. -/
theorem options_applied_when_read [RegexLibrary] {lines baseCases : List String}
    {settings : Settings} {s : Session} (h : ofLines lines baseCases settings = .ok s)
    (calls : List Call) :
    (∀ name c, ((s.after calls).ask fun b => b.resolve name).1 = .ok c →
      c.name = name ∧ Carries (calls.filterMap Call.attachment?) name c.options) ∧
    (∀ cs, ((s.after calls).ask fun b => b.ordered).1 = .ok cs →
      ∀ c ∈ cs, Carries (calls.filterMap Call.attachment?) c.name c.options) ∧
    (∀ patterns cs, ((s.after calls).ask fun b => b.select patterns).1 = .ok cs →
      ∀ c ∈ cs, Carries (calls.filterMap Call.attachment?) c.name c.options) ∧
    (∀ name, Carries (calls.filterMap Call.attachment?) name
      ((s.after calls).book.optionsFor name)) ∧
    (∀ pattern options e, (s.after calls).attach pattern options = .error e →
      Pattern.parse pattern = .error e ∧
      (s.after calls).perform (.attach pattern options) = s.after calls) ∧
    (s.after calls).SameButOptions (s.after (calls.filter fun c => !c.attaches)) := by
  have hsound := (sound_of_ofLines h).after calls
  have hattachments : (s.after calls).book.attachments = calls.filterMap Call.attachment? := by
    rw [attachments_after, (opened h).attachments, List.nil_append]
  have hresolve (name : String) (c : Combination)
      (hc : ((s.after calls).ask fun b => b.resolve name).1 = .ok c) :
      c.name = name ∧ Carries (calls.filterMap Call.attachment?) name c.options := by
    rw [← hattachments]
    exact hsound.carries_resolve hc
  refine ⟨hresolve, fun cs hcs c hc => ?_, fun patterns cs hcs c hc => ?_, fun name => ?_,
    fun pattern options e he => ?_, ?_⟩
  · exact (hresolve c.name c ((hsound.of_ordered hcs).2.2 c hc)).2
  · obtain ⟨_, _, _, _, _, hall⟩ := hsound.of_select hcs
    exact (hresolve c.name c (hall c hc)).2
  · rw [← hattachments]
    exact (s.after calls).book.carries_optionsFor name
  · exact ⟨attach_eq_error_iff.mp he, perform_attach_of_error he⟩
  · -- the book has been opened without attachments
    have hopened : s.unattached = s := by
      have hnone := (opened h).attachments
      obtain ⟨⟨_, _, _, _, _, as⟩, p⟩ := s
      obtain rfl : as = [] := hnone
      rfl
    have hsame := (s.after calls).sameButOptions_unattached
    rwa [unattached_after, hopened] at hsame

attribute [local instance] Regex.library

/-- Two attachments give a value under one key, and an invalid pattern stands between them. The last
value counts, also for a rule that was resolved before, and the rule is still so. -/
theorem options_applied_when_read_of_overlap :
    let first := (Options.empty.set "type" (.string "uls")).set "gamma" (.number (.integer 1))
    let last := Options.empty.set "gamma" (.number (.integer 2))
    let calls : List Call := [.resolve "ULS2", .attach "&^ULS" first, .attach "&(" .empty, .ordered,
      .attach "ULS2" last]
    ∃ s, ofLines ["ULS2 = g"] [] .standard = .ok s ∧
      (∃ o, (s.after calls).book.optionsFor "ULS2" = some o ∧
        o.get? "gamma" = some (.number (.integer 2)) ∧ o.get? "type" = some (.string "uls")) ∧
      (s.after calls).SameButOptions (s.after [.resolve "ULS2", .ordered]) := by
  intro first last calls
  obtain ⟨s, hs, -⟩ := okWith_iff.mp
    (show okWith (ofLines ["ULS2 = g"] [] .standard) (fun _ => true) = true by decide +kernel)
  obtain ⟨p, hp, hcovers⟩ := okWith_iff.mp
    (show okWith (Pattern.parse "&^ULS") (fun p => p.covers "ULS2") = true by decide +kernel)
  obtain ⟨e, he, -⟩ := errorWith_iff.mp
    (show errorWith (Pattern.parse "&(") (fun _ => true) = true by decide +kernel)
  -- the call with the invalid pattern makes no attachment
  have hmade : calls.filterMap Call.attachment? = [(p, first), (.literal "ULS2", last)] := by
    have hfirst : (Call.attach "&^ULS" first).attachment? = some (p, first) := by
      rw [Call.attachment?, hp]
      rfl
    have hinvalid : (Call.attach "&(" .empty).attachment? = none := by
      rw [Call.attachment?, he]
      rfl
    simp only [calls, List.filterMap_cons, hfirst, hinvalid]
    rfl
  obtain ⟨_, _, _, hoptions, _, hsame⟩ := options_applied_when_read hs calls
  have hcarries := hoptions "ULS2"
  rw [hmade] at hcarries
  refine ⟨s, hs, ?_, hsame⟩
  obtain ⟨o, ho⟩ := Option.isSome_iff_exists.mp
    (hcarries.isSome_iff.mpr ⟨(p, first), List.mem_cons_self, hcovers⟩)
  refine ⟨o, ho, ?_, ?_⟩
  · apply (hcarries.value o ho "gamma" _).mpr
    exact ⟨[(p, first)], (.literal "ULS2", last), [], rfl, by decide, rfl, by simp⟩
  · apply (hcarries.value o ho "type" _).mpr
    refine ⟨[], (p, first), [(.literal "ULS2", last)], rfl, hcovers, rfl, ?_⟩
    intro b hb _
    obtain rfl := List.mem_singleton.mp hb
    rfl

end Session

end DesignLoads
